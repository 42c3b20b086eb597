import Haechi.Text.Number
import Haechi.Text.Regex

/-! The validators that back the detection rules: each takes the text a pattern
matched and decides whether it is a number of the kind, mostly by a check digit
or a check letter. -/

namespace Haechi.Filter

open Text Regex

/-! ### Common parts -/

def digit : Regex := cls [(48, 57)]

/-- `[A-Z]`. -/
def upper : Regex := cls [(65, 90)]

/-- `[A-Z0-9]`. -/
def upperDigit : Regex := cls [(65, 90), (48, 57)]

/-- `/^r$/.test(s)`. -/
def isWhole (r : Regex) (s : JsString) : Bool :=
  (r.run false .forward (Cursor.start s) fun x => if x.right.isEmpty then some x else none).isSome

/-- `Number(c)` of a digit. -/
def digitValue (c : UInt16) : ℕ := c.toNat - 48

/-- The digits of `value.replace(/\D/g, "")`. -/
def digitsIn (value : JsString) : List ℕ := (value.filter isDigit).map digitValue

/-- `value.replace(/[…]/g, "")`, for a class given by its members. -/
def without (drop : UInt16 → Bool) (value : JsString) : JsString := value.filter fun c => !drop c

/-- `toUpperCase` on ASCII. -/
def toUpper (value : JsString) : JsString :=
  value.map fun c => if 97 ≤ c && c ≤ 122 then c - 32 else c

/-- The weighted sum of the first digits. -/
def weighted (weights digits : List ℕ) : ℕ := (List.zipWith (· * ·) weights digits).sum

/-- The remainder of a decimal number modulo 97, digit by digit. -/
def mod97 (start : ℕ) (digits : List ℕ) : ℕ := digits.foldl (fun r d => (r * 10 + d) % 97) start

/-! ### Validators -/

/-- The Luhn sum from the right; every second digit is doubled. -/
def luhnSum : Bool → List ℕ → ℕ
  | _, [] => 0
  | alternate, d :: ds =>
    (if alternate then (if 9 < 2 * d then 2 * d - 9 else 2 * d) else d) + luhnSum (!alternate) ds

def luhnValid (value : JsString) : Bool :=
  let digits := digitsIn value
  13 ≤ digits.length && digits.length ≤ 19 && luhnSum false digits.reverse % 10 == 0

def krRrnValid (value : JsString) : Bool :=
  let digits := digitsIn value
  digits.length == 13 &&
    (11 - weighted [2, 3, 4, 5, 6, 7, 8, 9, 2, 3, 4, 5] digits % 11) % 10 == digits.getD 12 0

/-- A bare run of digits is a phone number only with the trunk prefix. -/
def krPhoneValid (value : JsString) : Bool :=
  value.any (fun c => c == 45 || c == 46 || isSpace c || c == 43) || value.head? == some 48

def usSsnValid (value : JsString) : Bool :=
  let area := natValue (slice value 0 3)
  isWhole (cat [times 3 digit, unit 45, times 2 digit, unit 45, times 4 digit]) value &&
    !(area == 0 || area == 666 || 900 ≤ area) &&
    natValue (slice value 4 6) != 0 && natValue (slice value 7 11) != 0

/-- The digits a character of an IBAN stands for. -/
def ibanDigits (c : UInt16) : List ℕ :=
  if isDigit c then [digitValue c] else [(c.toNat - 55) / 10, (c.toNat - 55) % 10]

def ibanValid (value : JsString) : Bool :=
  let iban := toUpper (without isSpace value)
  isWhole (cat [times 2 upper, times 2 digit, between 11 30 upperDigit]) iban &&
    mod97 0 ((iban.drop 4 ++ iban.take 4).flatMap ibanDigits) == 1

def jpMyNumberValid (value : JsString) : Bool :=
  let digits := digitsIn value
  let remainder := weighted [6, 5, 4, 3, 2, 7, 6, 5, 4, 3, 2] digits % 11
  digits.length == 12 && (if remainder ≤ 1 then 0 else 11 - remainder) == digits.getD 11 0

/-- The Corsican departments count as numbers: the first `2A` and the first `2B`. -/
def replaceFirst (pat sub : JsString) : JsString → JsString
  | [] => []
  | c :: cs =>
    match stripPrefix pat (c :: cs) with
    | some rest => sub ++ rest
    | none => c :: replaceFirst pat sub cs

def frNirValid (value : JsString) : Bool :=
  let compact := toUpper (without (fun c => isSpace c || c == 46 || c == 45) value)
  let body := replaceFirst (js "2B") (js "18") (replaceFirst (js "2A") (js "19") (slice compact 0 13))
  isWhole (cat [cls [(49, 50)], times 2 digit,
      oneOf [times 2 digit, cat [unit 48, cls [(49, 57)]], cat [unit 49, cls [(48, 50)]], text (js "20")],
      oneOf [times 2 digit, cat [unit 50, cls [(65, 66)]]], times 6 digit, times 2 digit]) compact &&
    isWhole (times 13 digit) body &&
    97 - mod97 0 (body.map digitValue) == natValue (compact.drop 13)

def esDniTable : JsString := js "TRWAGMYFPDXBNJZSQVHLCKE"

/-- The leading letter of a NIE as a digit. -/
def esNiePrefix (c : UInt16) : UInt16 := if c = 88 then 48 else if c = 89 then 49 else 50

def esDniValid (value : JsString) : Bool :=
  let compact := toUpper (without (fun c => isSpace c || c == 45) value)
  let check := fun body : JsString => esDniTable[natValue body % 23]? == compact[8]?
  if isWhole (cat [times 8 digit, upper]) compact then check (slice compact 0 8)
  else if isWhole (cat [cls [(88, 90)], times 7 digit, upper]) compact then
    check (esNiePrefix (compact.headD 0) :: slice compact 1 8)
  else false

/-- The values of `0`–`9` and `A`–`Z` at odd positions. -/
def itCfOdd : List ℕ :=
  [1, 0, 5, 7, 9, 13, 15, 17, 19, 21, 1, 0, 5, 7, 9, 13, 15, 17, 19, 21, 2, 4, 18, 20, 11, 3, 6, 8,
    12, 14, 16, 10, 22, 25, 24, 23]

/-- The place of a digit or letter in the tables. -/
def itCfIndex (c : UInt16) : ℕ := if isDigit c then digitValue c else c.toNat - 55

/-- The value of a digit or letter at an even position. -/
def itCfEven (c : UInt16) : ℕ := if isDigit c then digitValue c else c.toNat - 65

/-- The sum over the characters, the first of which is at an odd position. -/
def itCfSum : Bool → JsString → ℕ
  | _, [] => 0
  | odd, c :: cs => (if odd then itCfOdd.getD (itCfIndex c) 0 else itCfEven c) + itCfSum (!odd) cs

def itCodiceFiscaleValid (value : JsString) : Bool :=
  let cf := toUpper (without isSpace value)
  isWhole (cat [times 6 upper, times 2 digit, upper, times 2 digit, upper, times 3 digit, upper]) cf &&
    some (65 + itCfSum true (slice cf 0 15) % 26) == cf[15]?.map UInt16.toNat

def sgNricValid (value : JsString) : Bool :=
  let v := toUpper (without isSpace value)
  let letter := v.headD 0
  let sum := weighted [2, 7, 6, 5, 4, 3, 2] ((slice v 1 8).map digitValue) +
    (if letter = 84 ∨ letter = 71 then 4 else if letter = 77 then 3 else 0)
  let table :=
    if letter = 83 ∨ letter = 84 then js "JZIHGFEDCBA"
    else if letter = 70 ∨ letter = 71 then js "XWUTRQPNMLK"
    else js "KLJNPQRTUWX"
  isWhole (cat [cls [(83, 84), (70, 71), (77, 77)], times 7 digit, upper]) v &&
    table[sum % 11]? == v[8]?

def verhoeffD : List (List ℕ) :=
  [[0, 1, 2, 3, 4, 5, 6, 7, 8, 9],
    [1, 2, 3, 4, 0, 6, 7, 8, 9, 5],
    [2, 3, 4, 0, 1, 7, 8, 9, 5, 6],
    [3, 4, 0, 1, 2, 8, 9, 5, 6, 7],
    [4, 0, 1, 2, 3, 9, 5, 6, 7, 8],
    [5, 9, 8, 7, 6, 0, 4, 3, 2, 1],
    [6, 5, 9, 8, 7, 1, 0, 4, 3, 2],
    [7, 6, 5, 9, 8, 2, 1, 0, 4, 3],
    [8, 7, 6, 5, 9, 3, 2, 1, 0, 4],
    [9, 8, 7, 6, 5, 4, 3, 2, 1, 0]]

def verhoeffP : List (List ℕ) :=
  [[0, 1, 2, 3, 4, 5, 6, 7, 8, 9],
    [1, 5, 7, 6, 2, 8, 3, 0, 9, 4],
    [5, 8, 0, 3, 7, 9, 6, 1, 4, 2],
    [8, 9, 1, 6, 0, 4, 3, 5, 2, 7],
    [9, 4, 5, 3, 1, 2, 6, 8, 7, 0],
    [4, 2, 8, 6, 5, 7, 3, 9, 0, 1],
    [2, 7, 9, 3, 8, 0, 6, 4, 1, 5],
    [7, 0, 4, 6, 9, 1, 3, 2, 5, 8]]

/-- The running check value after the digits from `index` on, read from the right. -/
def verhoeffCheck : ℕ → ℕ → List ℕ → ℕ
  | check, _, [] => check
  | check, index, d :: ds =>
    verhoeffCheck ((verhoeffD.getD check []).getD ((verhoeffP.getD (index % 8) []).getD d 0) 0)
      (index + 1) ds

def verhoeffValid (digits : List ℕ) : Bool := verhoeffCheck 0 0 digits.reverse == 0

def inAadhaarValid (value : JsString) : Bool :=
  let digits := without (fun c => isSpace c || c == 45) value
  isWhole (cat [cls [(50, 57)], times 11 digit]) digits && verhoeffValid (digits.map digitValue)

/-- One digit repeats, two or three times. -/
def deSteuerIdStructural (first10 : List ℕ) : Bool :=
  match (first10.dedup.map fun d => first10.count d).filter (2 ≤ ·) with
  | [n] => n ≤ 3
  | _ => false

/-- The product of ISO 7064 MOD 11,10 over the digits. -/
def deSteuerIdProduct (digits : List ℕ) : ℕ :=
  digits.foldl (fun product d =>
    let sum := (d + product) % 10
    (if sum = 0 then 10 else sum) * 2 % 11) 10

def deSteuerIdCheckDigit (first10 : List ℕ) : ℕ :=
  let check := 11 - deSteuerIdProduct first10
  if check = 10 then 0 else check

def deSteuerIdValid (value : JsString) : Bool :=
  let text := without (fun c => isSpace c || c == 47) value
  let digits := text.map digitValue
  isWhole (times 11 digit) text && deSteuerIdStructural (digits.take 10) &&
    deSteuerIdCheckDigit (digits.take 10) == digits.getD 10 0

def nlBsnValid (value : JsString) : Bool :=
  let text := without (fun c => isSpace c || c == 46) value
  let digits := text.map digitValue
  isWhole (times 9 digit) text && digits.any (· != 0) &&
    ((weighted [9, 8, 7, 6, 5, 4, 3, 2] digits : ℤ) - digits.getD 8 0) % 11 == 0

def ukNinoInvalidPrefixes : List JsString := ["BG", "GB", "NK", "KN", "TN", "NT", "ZZ"].map js

def ukNinoValid (value : JsString) : Bool :=
  let compact := toUpper (without isSpace value)
  isWhole (cat [times 2 upper, times 6 digit, cls [(65, 68)]]) compact &&
    slice compact 0 2 ∉ ukNinoInvalidPrefixes &&
    compact.headD 0 ∉ js "DFIQUV" && compact.getD 1 0 ∉ js "DFIOQUV"

end Haechi.Filter
