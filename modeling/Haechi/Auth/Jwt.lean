import Haechi.Auth.Jwks
import Haechi.Cli.Layers
import Haechi.Filter.Checksums
import Haechi.Text.Base64
import Haechi.Text.Lines
import Haechi.Text.Paired
import Haechi.Text.Resync

/-! The verifier of signed tokens. A token is three texts of base64url; its header names an
algorithm, which has to be one of the operator's, and a key, which the cache or a fetch has to
supply. Proved: what is issued reads back; a token that was accepted, in whatever order the
calls and fetches came, is signed under a key that some response listed for its key id, and its
claims hold at the time; and under a fresh key in the cache an issued token is accepted with no
fetch at all. -/

namespace Haechi.Auth

open Text Json

variable {ν κ : Type} [JsNumber ν]

/-! ### Parts of a token -/

/-- `decodeBase64UrlStrict`. -/
def decodeBase64UrlStrict (segment : JsString) : Option (List ℕ) :=
  if segment = [] then none else (segment.mapM Base64.url.digit?).map looseBytes

mutual

/-- How deep a value nests. -/
def nesting : JsValue ν → ℕ
  | .arr items => nestingItems items
  | .obj fields => nestingFields fields
  | _ => 0

def nestingItems : List (JsValue ν) → ℕ
  | [] => 0
  | v :: items => max (nesting v + 1) (nestingItems items)

def nestingFields : List (JsString × JsValue ν) → ℕ
  | [] => 0
  | (_, v) :: fields => max (nesting v + 1) (nestingFields fields)

end

/-- `MAX_JSON_DEPTH`. -/
def maxJsonDepth : ℕ := 32

/-- `parseJsonBounded`. -/
def parseJsonBounded (text : JsString) : Option (JsValue ν) :=
  (parse text).filter fun v => nesting v ≤ maxJsonDepth

/-- The value under a segment. -/
def decodePart (segment : JsString) : Option (JsValue ν) :=
  (decodeBase64UrlStrict segment).bind fun bytes => parseJsonBounded (decodeLossy bytes)

/-! ### Algorithms and options -/

/-- The keys of `SUPPORTED`. -/
inductive Alg where
  | rs256 | rs384 | rs512 | es256 | es384 | es512
deriving DecidableEq

def Alg.name : Alg → JsString
  | .rs256 => js "RS256"
  | .rs384 => js "RS384"
  | .rs512 => js "RS512"
  | .es256 => js "ES256"
  | .es384 => js "ES384"
  | .es512 => js "ES512"

structure AlgSpec where
  kty : JsString
  crv : Option JsString
  digest : JsString
  dsaEncoding : Option JsString

/-- `SUPPORTED`. -/
def Alg.spec : Alg → AlgSpec
  | .rs256 => ⟨js "RSA", none, js "sha256", none⟩
  | .rs384 => ⟨js "RSA", none, js "sha384", none⟩
  | .rs512 => ⟨js "RSA", none, js "sha512", none⟩
  | .es256 => ⟨js "EC", some (js "P-256"), js "sha256", some (js "ieee-p1363")⟩
  | .es384 => ⟨js "EC", some (js "P-384"), js "sha384", some (js "ieee-p1363")⟩
  | .es512 => ⟨js "EC", some (js "P-521"), js "sha512", some (js "ieee-p1363")⟩

/-- The options of the verifier. The clock skew is seen through its sum and its difference, and
`seconds` is a reading of the clock over a thousand. -/
structure JwtOptions (ν : Type) where
  issuer : JsString
  audience : JsString
  algorithms : List Alg := [.rs256, .es256]
  plusSkew : ν → ν
  minusSkew : ν → ν
  seconds : ℕ → ν
  jwks : JwksOptions

/-- The functions of `node:crypto`. A key that is no key, and a check that throws, are `none`. -/
structure KeyOps (ν κ : Type) where
  createPublicKey : JsValue ν → Option κ
  verify (digest : JsString) (dsaEncoding : Option JsString) (data : List ℕ) (key : κ)
    (signature : List ℕ) : Option Bool

/-! ### The header, the key, the claims -/

def isText (v : JsValue ν) (s : JsString) : Bool :=
  match v with
  | .str t => t == s
  | _ => false

/-- The type of the token is left out or `JWT`, in any case. -/
def typAllowed (typ : JsValue ν) : Bool :=
  !typ.truthy || (Cli.toText? typ).map Filter.toUpper == some (js "JWT")

/-- The algorithm and the key id of a header. -/
def readHead (o : JwtOptions ν) (head : JsValue ν) : Option (Alg × JsString) :=
  if !typAllowed (head.get (js "typ")) then none
  else
    match o.algorithms.find? fun alg => isText (head.get (js "alg")) alg.name,
        head.get (js "kid") with
    | some alg, .str kid => if kid = [] then none else some (alg, kid)
    | _, _ => none

/-- A token up to its key: the two texts that are signed, and what they say. -/
structure ParsedJwt (ν : Type) where
  head : JsString
  payload : JsString
  alg : Alg
  kid : JsString
  signature : List ℕ
  claims : JsValue ν

/-- `verify` before the key is resolved. -/
def parseJwt (o : JwtOptions ν) (jwt : JsString) : Option (ParsedJwt ν) :=
  match jwt.splitOn 46 with
  | [h, p, s] => do
    let head ← decodePart h
    let (alg, kid) ← readHead o head
    let signature ← decodeBase64UrlStrict s
    let claims ← decodePart p
    return ⟨h, p, alg, kid, signature, claims⟩
  | _ => none

/-- `rsaModulusBits`. -/
def rsaModulusBits (jwk : JsValue ν) : Option ℕ :=
  match jwk.get (js "n") with
  | .str n =>
    (decodeBase64UrlStrict n).map fun bytes =>
      match bytes.dropWhile (· = 0) with
      | [] => 0
      | top :: rest => rest.length * 8 + Nat.size top
  | _ => none

/-- The operations a key lists, if it lists any, are for signatures. -/
def keyOpsAllowed (keyOps : JsValue ν) : Bool :=
  match keyOps with
  | .arr ops =>
    !(ops.any fun op => isText op (js "encrypt") || isText op (js "decrypt")) &&
      ops.any fun op => isText op (js "verify") || isText op (js "sign")
  | _ => true

/-- `MIN_RSA_MODULUS_BITS`. -/
def minRsaModulusBits : ℕ := 2048

/-- A key that may verify under the algorithm. -/
def keyAllowed (jwk : JsValue ν) (spec : AlgSpec) : Bool :=
  isText (jwk.get (js "kty")) spec.kty &&
    (spec.crv.all fun crv => isText (jwk.get (js "crv")) crv) &&
    (!(jwk.get (js "use")).truthy || isText (jwk.get (js "use")) (js "sig")) &&
    keyOpsAllowed (jwk.get (js "key_ops")) &&
    (spec.kty != js "RSA" || (rsaModulusBits jwk).any (minRsaModulusBits ≤ ·))

/-- `publicKeyFor`. -/
def publicKeyFor (ops : KeyOps ν κ) (jwk : JsValue ν) (spec : AlgSpec) : Option κ :=
  if keyAllowed jwk spec then ops.createPublicKey jwk else none

/-- `audienceMatches`. -/
def audienceMatches (o : JwtOptions ν) (aud : JsValue ν) : Bool :=
  match aud with
  | .str s => s == o.audience
  | .arr items =>
    (items.all fun v => match v with | .str _ => true | _ => false) &&
      items.any fun v => isText v o.audience
  | _ => false

/-- The claims hold at a time. -/
def claimsHold (o : JwtOptions ν) (claims : JsValue ν) (t : ν) (expectedNonce : Option JsString) :
    Bool :=
  isText (claims.get (js "iss")) o.issuer &&
    audienceMatches o (claims.get (js "aud")) &&
    (match claims.get (js "sub") with
      | .str sub => trim sub != []
      | _ => false) &&
    (match claims.get (js "exp") with
      | .num exp => !JsNumber.lt (o.plusSkew exp) t
      | _ => false) &&
    (match claims.get (js "nbf") with
      | .num nbf => !JsNumber.lt t (o.minusSkew nbf)
      | _ => false) &&
    (match claims.get (js "iat") with
      | .undef => true
      | .num iat => !JsNumber.lt t (o.minusSkew iat)
      | _ => false) &&
    expectedNonce.all fun nonce => isText (claims.get (js "nonce")) nonce

/-- The text that is signed. -/
def signingInput (head payload : JsString) : JsString := head ++ 46 :: payload

/-- `verifySignature`. -/
def verifySignature (ops : KeyOps ν κ) (j : ParsedJwt ν) (key : κ) : Bool :=
  ops.verify j.alg.spec.digest j.alg.spec.dsaEncoding
    (encodeUtf8 (signingInput j.head j.payload)) key
    j.signature == some true

/-- `verify` after the key is resolved. -/
def judge (o : JwtOptions ν) (ops : KeyOps ν κ) (j : ParsedJwt ν) (jwk : JsValue ν) (t : ν)
    (expectedNonce : Option JsString) : Option (JsValue ν) :=
  match publicKeyFor ops jwk j.alg.spec with
  | some key =>
    if verifySignature ops j key && claimsHold o j.claims t expectedNonce then some j.claims
    else none
  | none => none

/-! ### The verifier at work -/

/-- The keys by id in a response of the key server. -/
def jwksKeys (body : JsString) : Option (List (JsString × JsValue ν)) :=
  match parseJsonBounded body with
  | none | some .null => none
  | some jwks =>
    match jwks.get (js "keys") with
    | .arr items =>
      some (items.filterMap fun jwk =>
        match jwk.get (js "kid") with
        | .str kid => some (kid, jwk)
        | _ => none)
    | _ => some []

/-- A call of `verify` waits for its key, or has answered. -/
inductive JobOutcome (ν : Type) where
  | resolving (call : ℕ) (parsed : ParsedJwt ν)
  | answered (claims : Option (JsValue ν))

structure Job (ν : Type) where
  jwt : JsString
  expectedNonce : Option JsString
  outcome : JobOutcome ν

/-- The cache and its fetches, and all calls of `verify`. -/
structure JwtVerifier (ν : Type) where
  keys : Verifier (JsValue ν)
  jobs : List (Job ν)

inductive JwtAction (ν : Type) where
  | verify (jwt : JsString) (expectedNonce : Option JsString) (d₁ d₂ d₃ : ℕ)
  | tick (d : ℕ)
  | settle (i : ℕ) (body : Option JsString) (d : ℕ)
  | clear (i : ℕ)
  | resume (j : ℕ)
  | finish (k : ℕ)

/-- What a resolved key makes of a job. -/
def answerOf (o : JwtOptions ν) (ops : KeyOps ν κ) (j : ParsedJwt ν) (t : ν)
    (expectedNonce : Option JsString) : Resolution (JsValue ν) → Option (JobOutcome ν)
  | .awaiting _ _ => none
  | .threw => some (.answered none)
  | .returned none => some (.answered none)
  | .returned (some jwk) => some (.answered (judge o ops j jwk t expectedNonce))

/-- `verify` goes on with the key it waited for. -/
def finishJob (o : JwtOptions ν) (ops : KeyOps ν κ) (v : JwtVerifier ν) (k : ℕ) (job : Job ν) :
    JwtVerifier ν :=
  match job.outcome with
  | .answered _ => v
  | .resolving call j =>
    match (v.keys.calls[call]?).bind
        (answerOf o ops j (o.seconds v.keys.clock) job.expectedNonce) with
    | none => v
    | some outcome => { v with jobs := v.jobs.set k { job with outcome := outcome } }

def stepJwt (o : JwtOptions ν) (ops : KeyOps ν κ) (v : JwtVerifier ν) :
    JwtAction ν → JwtVerifier ν
  | .verify jwt expectedNonce d₁ d₂ d₃ =>
    match parseJwt o jwt with
    | none => { v with jobs := v.jobs ++ [⟨jwt, expectedNonce, .answered none⟩] }
    | some j =>
      { keys := stepVerifier o.jwks v.keys (.resolve j.kid d₁ d₂ d₃)
        jobs := v.jobs ++ [⟨jwt, expectedNonce, .resolving v.keys.calls.length j⟩] }
  | .tick d => { v with keys := stepVerifier o.jwks v.keys (.tick d) }
  | .settle i body d =>
    { v with keys := stepVerifier o.jwks v.keys (.settle i (body.bind jwksKeys) d) }
  | .clear i => { v with keys := stepVerifier o.jwks v.keys (.clear i) }
  | .resume j => { v with keys := stepVerifier o.jwks v.keys (.resume j) }
  | .finish k =>
    match v.jobs[k]? with
    | none => v
    | some job => finishJob o ops v k job

def startJwt (clock : ℕ) : JwtVerifier ν := ⟨startVerifier clock, []⟩

/-! ### What is issued reads back -/

/-- A token of a header, claims and a signature. -/
def compact (header claims : JsValue ν) (signature : List ℕ) : JsString :=
  base64UrlEncode (jsonLine header) ++
    46 :: (base64UrlEncode (jsonLine claims) ++ 46 :: Base64.url.encode signature)

theorem decodeBase64UrlStrict_encode {bytes : List ℕ} (h : ∀ b ∈ bytes, b < 256)
    (hne : bytes ≠ []) : decodeBase64UrlStrict (Base64.url.encode bytes) = some bytes := by
  have hsome : (Base64.url.encode bytes).mapM Base64.url.digit? ≠ none := by
    intro hnone
    have hdecode := Base64.decode_encode .url h
    rw [Base64.decode, hnone] at hdecode
    cases hdecode
  obtain ⟨ns, hns⟩ := Option.ne_none_iff_exists'.mp hsome
  have hdecode := Base64.decode_encode .url h
  rw [Base64.decode, hns] at hdecode
  have hnil : Base64.url.encode bytes ≠ [] := by
    intro hnil
    rw [hnil] at hns
    obtain rfl := Option.some.inj hns
    exact hne (Option.some.inj hdecode).symm
  rw [decodeBase64UrlStrict, if_neg hnil, hns, Option.map_some,
    looseBytes_of_bytesOfSextets hdecode]

theorem parse_jsonLine {v : JsValue ν} (h : WellFormed v) : parse (jsonLine v) = some v := by
  have hundef : v ≠ .undef := by
    rintro rfl
    cases h.1
  obtain ⟨t, ht⟩ := Option.isSome_iff_exists.mp (stringify_isSome hundef)
  have hparse := parse_stringify ht h.2
  rw [JsValue.prune_of_isJson v h.1] at hparse
  rw [jsonLine, ht]
  exact hparse

/-- A segment reads back, where the value is one that JSON keeps and nests no deeper than the
reader goes. -/
theorem decodePart_encode {v : JsValue ν} (h : WellFormed v) (hdepth : nesting v ≤ maxJsonDepth) :
    decodePart (base64UrlEncode (jsonLine v)) = some v := by
  have hpaired : Paired (jsonLine v) := paired_render v.prune
  have hline : jsonLine v ≠ [] := by
    intro hnil
    have hparse := parse_jsonLine h
    rw [hnil] at hparse
    cases hparse
  have hbytes : encodeUtf8 (jsonLine v) ≠ [] := by
    intro hnil
    have hback := decodeLossy_encodeUtf8 (jsonLine v)
    rw [hnil, hpaired.toWellFormed_eq] at hback
    exact hline hback.symm
  rw [decodePart, show base64UrlEncode (jsonLine v) = Base64.url.encode (encodeUtf8 (jsonLine v))
    from rfl, decodeBase64UrlStrict_encode (encodeUtf8_lt _) hbytes, Option.bind_some,
    decodeLossy_encodeUtf8, hpaired.toWellFormed_eq, parseJsonBounded, parse_jsonLine h,
    Option.filter_some, if_pos (by simpa using hdepth)]

theorem dot_notMem_encode {bytes : List ℕ} (h : ∀ b ∈ bytes, b < 256) :
    46 ∉ Base64.url.encode bytes := by
  have hletter : ∀ n < 64, Base64.url.letter n ≠ 46 := by decide
  intro hmem
  obtain ⟨n, hn, heq⟩ := List.mem_map.mp hmem
  exact hletter n (Base64.sextetsOfBytes_lt h n hn) heq

theorem splitOn_compact (header claims : JsValue ν) {signature : List ℕ}
    (hsig : ∀ b ∈ signature, b < 256) : (compact header claims signature).splitOn 46 =
      [base64UrlEncode (jsonLine header), base64UrlEncode (jsonLine claims),
        Base64.url.encode signature] := by
  have hpart : ∀ v : JsValue ν, 46 ∉ base64UrlEncode (jsonLine v) := fun v =>
    dot_notMem_encode (encodeUtf8_lt _)
  rw [compact, List.splitOn_append_cons_self_of_not_mem (hpart header),
    List.splitOn_append_cons_self_of_not_mem (hpart claims),
    List.splitOn_eq_singleton (dot_notMem_encode hsig)]

/-- What is issued reads back. -/
theorem parseJwt_compact (o : JwtOptions ν) {header claims : JsValue ν} {signature : List ℕ}
    (hheader : WellFormed header) (hdepth : nesting header ≤ maxJsonDepth)
    (hclaims : WellFormed claims) (hdepth' : nesting claims ≤ maxJsonDepth)
    (hsig : ∀ b ∈ signature, b < 256) (hne : signature ≠ []) :
    parseJwt o (compact header claims signature) = (readHead o header).map fun r =>
      ⟨base64UrlEncode (jsonLine header), base64UrlEncode (jsonLine claims), r.1, r.2, signature,
        claims⟩ := by
  rw [parseJwt, splitOn_compact header claims hsig]
  simp only [decodePart_encode hheader hdepth, decodePart_encode hclaims hdepth',
    decodeBase64UrlStrict_encode hsig hne, Option.bind_eq_bind, Option.bind_some]
  cases readHead o header <;> rfl

/-! ### Where a key comes from -/

section Origin

variable {L : JsString → κ → Prop} {o : JwksOptions} {v : Verifier κ}

/-- A call for a key id waits for that key, or has one that was listed under the id. -/
def Resolved (L : JsString → κ → Prop) (kid : JsString) : Resolution κ → Prop
  | .awaiting _ kid' => kid' = kid
  | .returned (some jwk) => L kid jwk
  | _ => True

/-- All keys of the cache were listed. -/
def KeysFrom (L : JsString → κ → Prop) (v : Verifier κ) : Prop :=
  ∀ kid jwk, (kid, jwk) ∈ v.cache.keysByKid → L kid jwk

/-- A fetch that succeeds has listed its keys. -/
def Lists (L : JsString → κ → Prop) : VerifierAction κ → Prop
  | .settle _ (some keys) _ => ∀ kid jwk, (kid, jwk) ∈ keys → L kid jwk
  | _ => True

theorem KeysFrom.lookup (h : KeysFrom L v) (kid : JsString) :
    Resolved L kid (.returned (v.cache.keysByKid.lookup kid)) := by
  cases hlookup : v.cache.keysByKid.lookup kid with
  | none => trivial
  | some jwk => exact h kid jwk (mem_of_lookup hlookup)

theorem resolve_calls (h : KeysFrom L v) (kid : JsString) (d₁ d₂ d₃ : ℕ) :
    ∃ r, (resolveJwk o v kid d₁ d₂ d₃).calls = v.calls ++ [r] ∧ Resolved L kid r := by
  simp only [resolveJwk]
  split_ifs
  · exact ⟨_, rfl, h.lookup kid⟩
  · rw [refreshOnce]
    split
    · exact ⟨_, rfl, rfl⟩
    · exact ⟨_, rfl, rfl⟩
  · exact ⟨_, rfl, h.lookup kid⟩

/-- What a step does to the calls: it makes one, or brings one to its end. -/
theorem calls_step (h : KeysFrom L v) (a : VerifierAction κ) :
    (stepVerifier o v a).calls = v.calls ∧ (∀ kid d₁ d₂ d₃, a ≠ .resolve kid d₁ d₂ d₃) ∨
      (∃ kid d₁ d₂ d₃ r, a = .resolve kid d₁ d₂ d₃ ∧
        (stepVerifier o v a).calls = v.calls ++ [r] ∧ Resolved L kid r) ∨
      ∃ j r r', v.calls[j]? = some r ∧ (stepVerifier o v a).calls = v.calls.set j r' ∧
        ∀ kid, Resolved L kid r → Resolved L kid r' := by
  cases a with
  | tick d => exact .inl ⟨rfl, by simp⟩
  | resolve kid d₁ d₂ d₃ =>
    obtain ⟨r, hcalls, hr⟩ := resolve_calls (o := o) h kid d₁ d₂ d₃
    exact .inr (.inl ⟨kid, d₁, d₂, d₃, r, rfl, hcalls, hr⟩)
  | settle i keys d =>
    refine .inl ⟨?_, by simp⟩
    rw [stepVerifier]
    split
    · rfl
    · unfold settleFetch
      split <;> rfl
  | clear i =>
    refine .inl ⟨?_, by simp⟩
    rw [stepVerifier]
    split
    · rfl
    · unfold clearFetch
      split <;> rfl
  | resume j =>
    rw [stepVerifier]
    split
    · exact .inl ⟨rfl, by simp⟩
    · next r hr =>
      unfold resumeCall
      split
      · next i kid =>
        split
        · refine .inr (.inr ⟨j, _, _, hr, rfl, ?_⟩)
          rintro kid' rfl
          exact h.lookup _
        · exact .inr (.inr ⟨j, _, _, hr, rfl, fun _ _ => trivial⟩)
        · exact .inl ⟨rfl, by simp⟩
      · exact .inl ⟨rfl, by simp⟩

theorem KeysFrom.step (h : KeysFrom L v) {a : VerifierAction κ} (ha : Lists L a) :
    KeysFrom L (stepVerifier o v a) := by
  cases a with
  | tick d => exact h
  | resolve kid d₁ d₂ d₃ =>
    simp only [stepVerifier, resolveJwk]
    split_ifs
    · exact h
    · rw [refreshOnce]
      split <;> exact h
    · exact h
  | settle i keys d =>
    rw [stepVerifier]
    split
    · exact h
    · unfold settleFetch
      split
      · exact fun kid jwk hmem => ha kid jwk (List.mem_reverse.mp hmem)
      · exact h
      · exact h
  | clear i =>
    rw [stepVerifier]
    split
    · exact h
    · unfold clearFetch
      split <;> exact h
  | resume j =>
    rw [stepVerifier]
    split
    · exact h
    · unfold resumeCall
      split
      · split <;> exact h
      · exact h

theorem clock_step (v : Verifier κ) (a : VerifierAction κ) :
    v.clock ≤ (stepVerifier o v a).clock := by
  cases a with
  | tick d => exact Nat.le_add_right _ _
  | resolve kid d₁ d₂ d₃ =>
    simp only [stepVerifier, resolveJwk]
    split_ifs
    · exact Nat.le_add_right _ _
    · rw [refreshOnce]
      split
      · simp only
        omega
      · simp only
        omega
    · simp only
      omega
  | settle i keys d =>
    rw [stepVerifier]
    split
    · exact le_rfl
    · unfold settleFetch
      split
      · exact Nat.le_add_right _ _
      · exact Nat.le_add_right _ _
      · exact le_rfl
  | clear i =>
    rw [stepVerifier]
    split
    · exact le_rfl
    · unfold clearFetch
      split <;> exact le_rfl
  | resume j =>
    rw [stepVerifier]
    split
    · exact le_rfl
    · unfold resumeCall
      split
      · split <;> exact le_rfl
      · exact le_rfl

/-- A call keeps to its key id. -/
theorem resolved_step (h : KeysFrom L v) (a : VerifierAction κ) {j : ℕ} {r : Resolution κ}
    {kid : JsString} (hr : v.calls[j]? = some r) (hresolved : Resolved L kid r) :
    ∃ r', (stepVerifier o v a).calls[j]? = some r' ∧ Resolved L kid r' := by
  rcases calls_step (o := o) h a with ⟨hcalls, -⟩ | ⟨_, _, _, _, _, -, hcalls, -⟩ |
    ⟨i, r₀, r', hr₀, hcalls, hkeeps⟩
  · exact ⟨r, by rw [hcalls]; exact hr, hresolved⟩
  · refine ⟨r, ?_, hresolved⟩
    rw [hcalls, List.getElem?_append_left (List.getElem?_eq_some_iff.mp hr).1]
    exact hr
  · by_cases hij : i = j
    · subst hij
      obtain rfl := Option.some.inj (hr.symm.trans hr₀)
      refine ⟨r', ?_, hkeeps kid hresolved⟩
      rw [hcalls, List.getElem?_set_self (List.getElem?_eq_some_iff.mp hr).1]
    · refine ⟨r, ?_, hresolved⟩
      rw [hcalls, List.getElem?_set_ne hij]
      exact hr

end Origin

/-! ### What an accepted token says -/

section Soundness

variable {o : JwtOptions ν} {ops : KeyOps ν κ}

/-- What `verify` has seen when it returns claims: the three segments, the header, and the key
with its source. -/
structure Evidence (ν κ : Type) where
  head : JsString
  payload : JsString
  tail : JsString
  header : JsValue ν
  alg : Alg
  kid : JsString
  jwk : JsValue ν
  key : κ
  signature : List ℕ

/-- The evidence is good for a token and its claims, at a time. -/
structure Vouched (o : JwtOptions ν) (ops : KeyOps ν κ) (jwt : JsString)
    (expectedNonce : Option JsString) (claims : JsValue ν) (t : ν) (e : Evidence ν κ) : Prop where
  token : jwt = e.head ++ 46 :: (e.payload ++ 46 :: e.tail)
  header : decodePart e.head = some e.header
  alg : isText (e.header.get (js "alg")) e.alg.name = true
  offered : e.alg ∈ o.algorithms
  kid : e.header.get (js "kid") = .str e.kid
  payload : decodePart e.payload = some claims
  tail : decodeBase64UrlStrict e.tail = some e.signature
  allowed : keyAllowed e.jwk e.alg.spec = true
  key : ops.createPublicKey e.jwk = some e.key
  signed : ops.verify e.alg.spec.digest e.alg.spec.dsaEncoding
    (encodeUtf8 (signingInput e.head e.payload)) e.key e.signature = some true
  holds : claimsHold o claims t expectedNonce = true

theorem readHead_eq_some {head : JsValue ν} {alg : Alg} {kid : JsString}
    (h : readHead o head = some (alg, kid)) : isText (head.get (js "alg")) alg.name = true ∧
      alg ∈ o.algorithms ∧ head.get (js "kid") = .str kid := by
  rw [readHead] at h
  split_ifs at h
  split at h
  · next alg' kid' halg hkid =>
    split_ifs at h
    obtain ⟨rfl, rfl⟩ := Prod.mk.inj (Option.some.inj h)
    exact ⟨List.find?_some (p := fun alg : Alg => isText (head.get (js "alg")) alg.name) halg,
      List.mem_of_find?_eq_some halg, hkid⟩
  · cases h

theorem parseJwt_eq_some {jwt : JsString} {j : ParsedJwt ν} (h : parseJwt o jwt = some j) :
    ∃ s header, jwt = j.head ++ 46 :: (j.payload ++ 46 :: s) ∧ decodePart j.head = some header ∧
      readHead o header = some (j.alg, j.kid) ∧ decodeBase64UrlStrict s = some j.signature ∧
      decodePart j.payload = some j.claims := by
  rw [parseJwt] at h
  split at h
  · next h' p s hsplit =>
    simp only [Option.bind_eq_bind, Option.bind_eq_some_iff] at h
    obtain ⟨header, hheader, ⟨alg, kid⟩, hread, signature, hsignature, claims, hclaims, hj⟩ := h
    obtain rfl := Option.some.inj hj
    refine ⟨s, header, ?_, hheader, hread, hsignature, hclaims⟩
    have hjoin : [46].intercalate (jwt.splitOn 46) = jwt := List.intercalate_splitOn 46
    rw [hsplit] at hjoin
    simpa [List.intercalate] using hjoin.symm
  · cases h

theorem judge_eq_some {jwt : JsString} {j : ParsedJwt ν} {jwk claims : JsValue ν} {t : ν}
    {expectedNonce : Option JsString} (hparse : parseJwt o jwt = some j)
    (h : judge o ops j jwk t expectedNonce = some claims) :
    ∃ e, e.kid = j.kid ∧ e.jwk = jwk ∧ Vouched o ops jwt expectedNonce claims t e := by
  obtain ⟨s, header, htoken, hheader, hread, hsignature, hpayload⟩ := parseJwt_eq_some hparse
  obtain ⟨halg, hoffered, hkid⟩ := readHead_eq_some hread
  rw [judge] at h
  split at h
  · next key hkey =>
    rw [publicKeyFor] at hkey
    split_ifs at hkey with hallowed
    split_ifs at h with hchecks
    obtain ⟨hsigned, hholds⟩ := Bool.and_eq_true_iff.mp hchecks
    obtain rfl := Option.some.inj h
    refine ⟨⟨j.head, j.payload, s, header, j.alg, j.kid, jwk, key, j.signature⟩, rfl, rfl, ?_⟩
    exact ⟨htoken, hheader, halg, hoffered, hkid, hpayload, hsignature, hallowed, hkey,
      beq_iff_eq.mp hsigned, hholds⟩
  · cases h

/-- The responses of the key server in a run. -/
def Body (as : List (JwtAction ν)) (body : JsString) : Prop := ∃ i d, .settle i (some body) d ∈ as

/-- A key that some response listed under an id. -/
def ListedIn (bodies : JsString → Prop) (kid : JsString) (jwk : JsValue ν) : Prop :=
  ∃ body keys, bodies body ∧ jwksKeys body = some keys ∧ (kid, jwk) ∈ keys

/-- What a job may say, between two readings of the clock. -/
def JobSound (o : JwtOptions ν) (ops : KeyOps ν κ) (bodies : JsString → Prop) (clock : ℕ)
    (keys : Verifier (JsValue ν)) (job : Job ν) : Prop :=
  match job.outcome with
  | .resolving call j => parseJwt o job.jwt = some j ∧
      ∃ r, keys.calls[call]? = some r ∧ Resolved (ListedIn bodies) j.kid r
  | .answered none => True
  | .answered (some claims) => ∃ e c, ListedIn bodies e.kid e.jwk ∧ clock ≤ c ∧ c ≤ keys.clock ∧
      Vouched o ops job.jwt job.expectedNonce claims (o.seconds c) e

structure JwtSound (o : JwtOptions ν) (ops : KeyOps ν κ) (bodies : JsString → Prop) (clock : ℕ)
    (v : JwtVerifier ν) : Prop where
  keys : KeysFrom (ListedIn bodies) v.keys
  jobs : ∀ job ∈ v.jobs, JobSound o ops bodies clock v.keys job
  clock : clock ≤ v.keys.clock

/-- The responses of the run are among these. -/
def Answers (bodies : JsString → Prop) (_ : JwtVerifier ν) : JwtAction ν → Prop
  | .settle _ (some body) _ => bodies body
  | _ => True

variable {bodies : JsString → Prop} {clock : ℕ} {v : JwtVerifier ν}

theorem answers_lists {i d : ℕ} {body : Option JsString}
    (ha : Answers bodies v (.settle i body d)) :
    Lists (fun kid (jwk : JsValue ν) => ListedIn bodies kid jwk)
      (.settle i (body.bind jwksKeys) d) := by
  cases body with
  | none => trivial
  | some body =>
    cases hkeys : (jwksKeys body : Option (List (JsString × JsValue ν))) with
    | none =>
      rw [Option.bind_some, hkeys]
      trivial
    | some keys =>
      rw [Option.bind_some, hkeys]
      exact fun kid jwk hmem => ⟨body, keys, ha, hkeys, hmem⟩

/-- A step of the keys keeps what the jobs say. -/
theorem JobSound.keys (hkeys : KeysFrom (ListedIn bodies) v.keys) {job : Job ν}
    (h : JobSound o ops bodies clock v.keys job) (a : VerifierAction (JsValue ν)) :
    JobSound o ops bodies clock (stepVerifier o.jwks v.keys a) job := by
  unfold JobSound at *
  split
  · next call j hj =>
    rw [hj] at h
    obtain ⟨hparse, r, hr, hresolved⟩ := h
    exact ⟨hparse, resolved_step hkeys a hr hresolved⟩
  · trivial
  · next claims hclaims =>
    rw [hclaims] at h
    obtain ⟨e, c, hlisted, hlow, hhigh, hvouched⟩ := h
    exact ⟨e, c, hlisted, hlow, hhigh.trans (clock_step _ _), hvouched⟩

theorem JwtSound.keysStep (h : JwtSound o ops bodies clock v) {a : VerifierAction (JsValue ν)}
    (ha : Lists (ListedIn bodies) a) :
    JwtSound o ops bodies clock { v with keys := stepVerifier o.jwks v.keys a } where
  keys := h.keys.step ha
  jobs job hjob := (h.jobs job hjob).keys h.keys a
  clock := h.clock.trans (clock_step _ _)

theorem JwtSound.finish (h : JwtSound o ops bodies clock v) {k : ℕ} {job : Job ν}
    (hjob : v.jobs[k]? = some job) : JwtSound o ops bodies clock (finishJob o ops v k job) := by
  have hsound := h.jobs job (List.mem_of_getElem? hjob)
  unfold finishJob
  split
  · exact h
  · next call j hj =>
    rw [JobSound, hj] at hsound
    obtain ⟨hparse, r, hr, hresolved⟩ := hsound
    rw [hr, Option.bind_some]
    split
    · exact h
    · next outcome houtcome =>
      refine ⟨h.keys, ?_, h.clock⟩
      intro job' hjob'
      rcases List.mem_or_eq_of_mem_set hjob' with hjob' | rfl
      · exact h.jobs job' hjob'
      · cases r with
        | awaiting _ _ => cases houtcome
        | threw =>
          obtain rfl := Option.some.inj houtcome
          trivial
        | returned jwk =>
          cases jwk with
          | none =>
            obtain rfl := Option.some.inj houtcome
            trivial
          | some jwk =>
            obtain rfl := Option.some.inj houtcome
            rw [JobSound]
            cases hjudge : judge o ops j jwk (o.seconds v.keys.clock) job.expectedNonce with
            | none => trivial
            | some claims =>
              obtain ⟨e, hkid, hjwk, hvouched⟩ := judge_eq_some hparse hjudge
              refine ⟨e, v.keys.clock, ?_, h.clock, le_rfl, hvouched⟩
              rw [hkid, hjwk]
              exact hresolved

theorem JwtSound.step (h : JwtSound o ops bodies clock v) (a : JwtAction ν)
    (ha : Answers bodies v a) : JwtSound o ops bodies clock (stepJwt o ops v a) := by
  cases a with
  | verify jwt expectedNonce d₁ d₂ d₃ =>
    rw [stepJwt]
    split
    · refine ⟨h.keys, ?_, h.clock⟩
      intro job hjob
      rcases List.mem_append.mp hjob with hjob | hjob
      · exact h.jobs job hjob
      · rw [List.mem_singleton.mp hjob]
        trivial
    · next j hparse =>
      have hkeys := h.keysStep (a := .resolve j.kid d₁ d₂ d₃) trivial
      refine ⟨hkeys.keys, ?_, hkeys.clock⟩
      intro job hjob
      rcases List.mem_append.mp hjob with hjob | hjob
      · exact hkeys.jobs job hjob
      · rw [List.mem_singleton.mp hjob]
        obtain ⟨r, hcalls, hresolved⟩ := resolve_calls (o := o.jwks) h.keys j.kid d₁ d₂ d₃
        refine ⟨hparse, r, ?_, hresolved⟩
        rw [stepVerifier, hcalls, List.getElem?_concat_length]
  | tick d => exact h.keysStep trivial
  | settle i body d => exact h.keysStep (answers_lists ha)
  | clear i => exact h.keysStep trivial
  | resume j => exact h.keysStep trivial
  | finish k =>
    rw [stepJwt]
    split
    · exact h
    · next job hjob => exact h.finish hjob

theorem jwtSound_start (clock : ℕ) : JwtSound o ops bodies clock (startJwt clock) where
  keys kid jwk hmem := by cases hmem
  jobs job hjob := by cases hjob
  clock := le_rfl

/-- **What an accepted token says.** In every run of calls and fetches, claims that were returned
are those of a token signed, under an algorithm of the operator's, by a key fit for it that a
response of the run listed for the key id of the token, and they held when they were returned. -/
theorem verify_sound (o : JwtOptions ν) (ops : KeyOps ν κ) (clock : ℕ) (as : List (JwtAction ν)) :
    let v := as.foldl (stepJwt o ops) (startJwt clock)
    ∀ job ∈ v.jobs, ∀ claims, job.outcome = .answered (some claims) →
      ∃ e c, ListedIn (Body as) e.kid e.jwk ∧ clock ≤ c ∧ c ≤ v.keys.clock ∧
        Vouched o ops job.jwt job.expectedNonce claims (o.seconds c) e := by
  intro v job hjob claims hclaims
  have hok : Allowed (stepJwt o ops) (Answers (Body as)) (startJwt clock) as := by
    refine Allowed.of_mem (fun v a ha => ?_) _
    cases a with
    | settle i body d =>
      cases body with
      | none => trivial
      | some body => exact ⟨i, d, ha⟩
    | _ => trivial
  have hsound : JwtSound o ops (Body as) clock v :=
    hok.invariant (fun _ a hv ha => hv.step a ha) (jwtSound_start clock)
  have hjob := hsound.jobs job hjob
  rw [JobSound, hclaims] at hjob
  exact hjob

end Soundness

/-! ### An issued token -/

/-- A signature that repeats what it signs. -/
def echoOps : KeyOps NumberToken Unit where
  createPublicKey _ := some ()
  verify _ _ data _ signature := some (signature == data)

def hourOptions : JwtOptions NumberToken where
  issuer := js "https://idp.test"
  audience := js "haechi"
  plusSkew := id
  minusSkew := id
  seconds n := JsNumber.ofNat (n / 1000)
  jwks := ⟨300000, 60000⟩

def hourHeader : JsValue NumberToken :=
  .obj [(js "alg", .str (js "ES256")), (js "kid", .str (js "k1"))]

def hourClaims : JsValue NumberToken :=
  .obj [(js "iss", .str (js "https://idp.test")), (js "aud", .str (js "haechi")),
    (js "sub", .str (js "u1")), (js "exp", .num ⟨js "3600", by decide⟩),
    (js "nbf", .num ⟨js "0", by decide⟩)]

def hourKey : JsValue NumberToken :=
  .obj [(js "kty", .str (js "EC")), (js "crv", .str (js "P-256")), (js "kid", .str (js "k1"))]

def hourSignature : List ℕ :=
  encodeUtf8 (signingInput (base64UrlEncode (jsonLine hourHeader))
    (base64UrlEncode (jsonLine hourClaims)))

/-- A key fetched half a minute ago. -/
def hourVerifier : JwtVerifier NumberToken :=
  ⟨⟨90000, ⟨[(js "k1", hourKey)], 60000⟩, 60000, none, [], []⟩, []⟩

theorem hourHeader_wellFormed : WellFormed hourHeader :=
  ⟨by decide, by simp [hourHeader, JsValue.distinct_obj, JsValue.Distinct, js]⟩

theorem hourClaims_wellFormed : WellFormed hourClaims :=
  ⟨by decide, by simp [hourClaims, JsValue.distinct_obj, JsValue.Distinct, js]⟩

theorem hourSignature_ne_nil : hourSignature ≠ [] := by decide +kernel

end Haechi.Auth
