import Haechi.Filter.Checksums
import Mathlib.Data.Rat.Init

/-! Detection rules and the default rule set. A rule is known by what it matches
in a text, so custom patterns of any kind are rules too; the default rules are
given by their patterns. -/

namespace Haechi.Filter

open Text Regex

/-- Which way a payload travels. -/
inductive Traffic where
  | request
  | response
deriving DecidableEq

/-- A detection rule. Its matches are parts of the text it is given. -/
structure Rule where
  id : JsString
  type : JsString
  /-- A finite confidence, if the rule states one. -/
  confidence : Option ℚ
  /-- The only direction the rule applies to, if it is limited to one. -/
  direction : Option Traffic
  validate : Option (JsString → Bool)
  matchAll : JsString → List Span
  inRange : ∀ s, ∀ m ∈ matchAll s, m.start ≤ m.stop ∧ m.stop ≤ s.length

/-- The types the precision dials must not touch. -/
def hardBlockTypes : List JsString :=
  ["secret", "api_key", "kr_rrn", "card", "fr_nir", "es_dni", "it_codice_fiscale", "sg_nric"].map js

/-- A rule without validator, for both directions. -/
def rule (id type : String) (ignoreCase : Bool) (confidence : ℚ) (pattern : Regex) : Rule where
  id := js id
  type := js type
  confidence := some confidence
  direction := none
  validate := none
  matchAll := pattern.matchAll ignoreCase
  inRange := pattern.matchAll_inRange ignoreCase

def Rule.validated (r : Rule) (validate : JsString → Bool) : Rule :=
  { r with validate := some validate }

/-- `!rule.validate || rule.validate(text)`. -/
def Rule.accepts (r : Rule) (text : JsString) : Bool := r.validate.all (· text)

def Rule.onResponse (r : Rule) : Rule := { r with direction := some .response }

/-! ### Classes of the patterns -/

/-- `\b`. -/
def b : Regex := .wordBoundary

/-- `\s`. -/
def space : Regex :=
  cls [(9, 13), (32, 32), (0xa0, 0xa0), (0x1680, 0x1680), (0x2000, 0x200a), (0x2028, 0x2029),
    (0x202f, 0x202f), (0x205f, 0x205f), (0x3000, 0x3000), (0xfeff, 0xfeff)]

/-- `[A-Za-z0-9]`. -/
def alnum : Regex := cls [(65, 90), (97, 122), (48, 57)]

/-- `[A-Za-z0-9_-]`. -/
def urlSafe : Regex := cls [(65, 90), (97, 122), (48, 57), (95, 95), (45, 45)]

/-- The characters of a bearer token or an assigned secret. -/
def tokenChar : Regex :=
  cls [(65, 90), (97, 122), (48, 57), (46, 46), (95, 95), (126, 126), (43, 43), (47, 47), (45, 45)]

/-- `[\w-]`. -/
def wordDash : Regex := urlSafe

/-- `[\d-]`. -/
def digitDash : Regex := cls [(48, 57), (45, 45)]

/-- `[-\s]`. -/
def dashSpace : Regex := oneOf [unit 45, space]

/-- `[-.\s]`. -/
def dashDotSpace : Regex := oneOf [unit 45, unit 46, space]

/-- `[_-]?`. -/
def joiner : Regex := opt (cls [(95, 95), (45, 45)])

def lit (s : String) : Regex := text (js s)

/-! ### The default rules -/

/-- `\b[A-Z0-9._%+-]+@[A-Z0-9.-]+\.[A-Z]{2,}\b`, with `i`. -/
def emailRule : Rule :=
  rule "email" "email" true (95 / 100) <| cat
    [b, plus (cls [(65, 90), (48, 57), (46, 46), (95, 95), (37, 37), (43, 43), (45, 45)]), unit 64,
      plus (cls [(65, 90), (48, 57), (46, 46), (45, 45)]), unit 46, atLeast 2 upper, b]

def openaiLikeKeyRule : Rule :=
  rule "openai-like-key" "api_key" false (95 / 100) <| cat
    [b, oneOf [lit "sk", lit "rk", lit "pk"], unit 95, atLeast 24 urlSafe, b]

/-- The names after which an assigned value is a secret. -/
def secretNames : Regex := oneOf
  [cat [lit "api", joiner, lit "key"], cat [lit "api", joiner, lit "secret"],
    cat [lit "secret", joiner, lit "key"], lit "secret",
    cat [lit "aws", joiner, lit "secret", joiner, lit "access", joiner, lit "key"],
    cat [lit "client", joiner, lit "secret"], cat [lit "private", joiner, lit "key"],
    cat [lit "access", joiner, lit "token"], cat [lit "refresh", joiner, lit "token"],
    cat [lit "auth", joiner, lit "token"], lit "accountkey", lit "token", lit "password"]

/-- The name and the assignment sign stand in a lookbehind, outside the match. -/
def assignmentSecretRule : Rule :=
  rule "assignment-secret" "secret" true (85 / 100) <| cat
    [after (cat [b, secretNames, many space, cls [(58, 58), (61, 61)], many space,
        opt (cls [(39, 39), (34, 34)])]),
      atLeast 12 tokenChar]

/-- `(?:all\s+|any\s+|the\s+|your\s+)?`, or other words of the kind. -/
def optWord (ws : List String) : Regex := opt (oneOf (ws.map fun w => cat [lit w, plus space]))

def words (ws : List String) : Regex := oneOf (ws.map lit)

/-- `(?:instructions?|rules?|prompts?|guidelines)`. -/
def instructionWords : Regex := oneOf
  [cat [lit "instruction", opt (lit "s")], cat [lit "rule", opt (lit "s")],
    cat [lit "prompt", opt (lit "s")], lit "guidelines"]

def defaultRules : List Rule :=
  [emailRule,
    (rule "kr-phone" "phone" false (9 / 10) <| cat
      [notAfter (cls [(48, 57), (65, 90), (97, 122), (95, 95), (43, 43), (45, 45)]),
        opt (cat [lit "+82", opt dashSpace]), opt (unit 48), unit 49,
        cls [(48, 49), (54, 57)], opt dashDotSpace, between 3 4 digit,
        opt dashDotSpace, times 4 digit, notBefore wordDash]).validated krPhoneValid,
    (rule "kr-rrn-like" "kr_rrn" false (85 / 100) <| cat
      [b, times 6 digit, opt dashSpace, cls [(49, 56)], times 6 digit, b]).validated krRrnValid,
    (rule "card-like" "card" false (75 / 100) <| cat
      [b, between 13 19 (cat [digit, .rep (cls [(32, 32), (45, 45)]) 0 none false]), b]).validated
      luhnValid,
    openaiLikeKeyRule,
    rule "aws-access-key-id" "api_key" false (95 / 100) <| cat
      [b, words ["AKIA", "ASIA"], times 16 (cls [(48, 57), (65, 90)]), b],
    rule "github-token" "secret" false (95 / 100) <| cat
      [b, lit "gh", oneOf [unit 112, unit 111, unit 117, unit 115, unit 114], unit 95,
        between 36 255 alnum, b],
    rule "google-api-key" "api_key" false (9 / 10) <| cat [b, lit "AIza", times 35 urlSafe, b],
    rule "slack-token" "secret" false (9 / 10) <| cat
      [b, lit "xox", oneOf [unit 98, unit 97, unit 112, unit 114, unit 115], unit 45,
        atLeast 10 (cls [(48, 57), (65, 90), (97, 122), (45, 45)]), b],
    rule "anthropic-api-key" "secret" false (95 / 100) <| cat
      [b, lit "sk-ant-", atLeast 16 urlSafe, b],
    rule "openai-api-key" "secret" false (9 / 10) <| cat
      [b, lit "sk-", opt (lit "proj-"), atLeast 20 urlSafe, b],
    rule "google-oauth-client-secret" "secret" false (95 / 100) <| cat
      [b, lit "GOCSPX-", times 28 urlSafe, b],
    rule "sendgrid-api-key" "api_key" false (95 / 100) <| cat
      [b, lit "SG.", times 22 urlSafe, unit 46, times 43 urlSafe, b],
    rule "twilio-sid" "api_key" false (9 / 10) <| cat
      [b, words ["AC", "SK"], times 32 (cls [(48, 57), (97, 102), (65, 70)]), b],
    rule "npm-token" "secret" false (95 / 100) <| cat [b, lit "npm_", times 36 alnum, b],
    rule "jwt" "secret" false (9 / 10) <| cat
      [b, lit "eyJ", plus urlSafe, unit 46, plus urlSafe, unit 46, plus urlSafe, b],
    rule "pem-private-key" "secret" false (98 / 100) <| cat
      [lit "-----BEGIN ", many (cat [plus upperDigit, unit 32]), lit "PRIVATE KEY-----"],
    rule "bearer-token" "secret" false (9 / 10) <| cat
      [b, lit "Bearer", plus space, atLeast 16 tokenChar, b],
    assignmentSecretRule,
    (rule "us-ssn" "us_ssn" false (85 / 100) <| cat
      [notAfter wordDash, times 3 digit, unit 45, times 2 digit, unit 45, times 4 digit,
        notBefore wordDash]).validated usSsnValid,
    (rule "iban" "iban" false (9 / 10) <| cat
      [notAfter upperDigit, times 2 upper, times 2 digit, between 11 30 upperDigit,
        notBefore upperDigit]).validated ibanValid,
    (rule "jp-mynumber" "jp_mynumber" false (9 / 10) <| cat
      [notAfter digitDash, times 12 digit, notBefore digitDash]).validated jpMyNumberValid,
    (rule "fr-nir" "fr_nir" false (9 / 10) <| cat
      [notAfter wordDash, cls [(49, 50)], times 2 digit,
        oneOf [cat [unit 48, cls [(49, 57)]], cat [unit 49, cls [(48, 50)]], lit "20"],
        oneOf [times 2 digit, cat [unit 50, cls [(65, 66)]]], times 6 digit, times 2 digit,
        notBefore wordDash]).validated frNirValid,
    (rule "es-dni-nie" "es_dni" true (85 / 100) <| cat
      [notAfter wordDash, opt (cls [(88, 90)]), between 7 8 digit,
        cls [(65, 72), (74, 78), (80, 84), (86, 90)], notBefore wordDash]).validated esDniValid,
    (rule "it-codice-fiscale" "it_codice_fiscale" true (9 / 10) <| cat
      [notAfter upperDigit, times 6 upper, times 2 digit, upper, times 2 digit, upper, times 3 digit,
        upper, notBefore upperDigit]).validated itCodiceFiscaleValid,
    (rule "sg-nric" "sg_nric" false (9 / 10) <| cat
      [notAfter upperDigit,
        cls [(83, 84), (70, 71), (77, 77), (115, 116), (102, 103), (109, 109)], times 7 digit,
        cls [(65, 90), (97, 122)], notBefore upperDigit]).validated sgNricValid,
    (rule "in-aadhaar" "in_aadhaar" false (85 / 100) <| cat
      [notAfter digitDash, cls [(50, 57)], times 11 digit, notBefore digitDash]).validated
      inAadhaarValid,
    (rule "de-steuer-id" "de_steuer_id" false (85 / 100) <| cat
      [notAfter digitDash, times 11 digit, notBefore digitDash]).validated deSteuerIdValid,
    (rule "nl-bsn" "nl_bsn" false (8 / 10) <| cat
      [notAfter digitDash, times 9 digit, notBefore digitDash]).validated nlBsnValid,
    (rule "uk-nino" "uk_nino" false (7 / 10) <| cat
      [notAfter wordDash, cls [(65, 67), (69, 69), (71, 72), (74, 80), (82, 84), (87, 90)],
        cls [(65, 67), (69, 69), (71, 72), (74, 78), (80, 80), (82, 84), (87, 90)], times 6 digit,
        cls [(65, 68)], notBefore wordDash]).validated ukNinoValid,
    rule "e164-phone" "phone" false (8 / 10) <| cat
      [notAfter (cls [(48, 57), (65, 90), (97, 122), (95, 95), (43, 43)]), unit 43, cls [(49, 57)],
        between 6 14 digit, notBefore (cls [(48, 57), (65, 90), (97, 122), (95, 95)])],
    rule "us-phone" "phone" false (75 / 100) <| cat
      [notAfter wordDash,
        oneOf [cat [unit 40, times 3 digit, unit 41, opt space], cat [times 3 digit, unit 45]],
        times 3 digit, unit 45, times 4 digit, notBefore wordDash],
    (rule "injection-instruction-override" "injection" true (7 / 10) <| cat
      [b, words ["ignore", "disregard", "forget"], plus space, optWord ["all", "any", "the", "your"],
        words ["previous", "prior", "earlier", "above", "system"], plus space,
        instructionWords]).onResponse,
    (rule "injection-role-reassignment" "injection" true (65 / 100) <| oneOf
      [cat [b, words ["you are now", "act as"], plus space,
          opt (cat [unit 97, opt (unit 110), plus space]),
          oneOf [lit "unrestricted", lit "jailbroken", lit "uncensored", lit "developer mode",
            cat [lit "dan", b]]],
        cat [b, lit "new ", opt (lit "system "), lit "instruction", opt (lit "s"), many space,
          unit 58]]).onResponse,
    (rule "injection-prompt-markers" "injection" true (7 / 10) <| oneOf
      [lit "<|im_start|>", lit "<<SYS>>",
        cat [unit 91, opt (unit 91), lit "system", unit 93, opt (unit 93), many space,
          unit 58]]).onResponse,
    (rule "injection-conceal-from-user" "injection" true (7 / 10) <| cat
      [b, lit "do not ", words ["tell", "inform", "mention", "reveal", "show"],
        opt (cat [plus space, lit "this"]), opt (cat [plus space, lit "to"]), plus space,
        lit "the user", b]).onResponse,
    (rule "injection-tool-induction" "injection" true (6 / 10) <| cat
      [b, words ["silently", "secretly", "immediately"], plus space,
        words ["call", "invoke", "run", "execute"], plus space, opt (cat [lit "the", plus space]),
        plus (cls [(48, 57), (65, 90), (97, 122), (95, 95), (46, 46), (45, 45)]), plus space,
        lit "tool", b]).onResponse]

end Haechi.Filter
