import Haechi.Text.Json

/-! Encodings of texts: code points of UTF-16, UTF-8, base64 and percent escapes.
Decoders accept what the platform's own round trips: no stray bits, no overlong
forms, no surrogates. -/

namespace Haechi.Text

open Json

/-! ### Code points -/

/-- The code points of a text, as iterating over it gives them: a lone surrogate
is a code point of its own. -/
def codePoints : JsString → List JsString
  | [] => []
  | [c] => [[c]]
  | c :: d :: rest =>
    if isHighSurrogate c && isLowSurrogate d then [c, d] :: codePoints rest else [c] :: codePoints (d :: rest)

theorem flatten_codePoints (s : JsString) : (codePoints s).flatten = s := by
  induction s using codePoints.induct with
  | case1 => rfl
  | case2 c => rfl
  | case3 c d rest h ih => simp [codePoints, h, ih]
  | case4 c d rest h ih => simp [codePoints, h, ih]

theorem codePoints_cons {c : UInt16} (h : isHighSurrogate c = false) (s : JsString) :
    codePoints (c :: s) = [c] :: codePoints s := by
  cases s <;> simp [codePoints, h]

/-- Every unit of an ASCII text is a code point. -/
theorem codePoints_ascii_append {w : JsString} (hw : ∀ c ∈ w, c < 128) (s : JsString) :
    codePoints (w ++ s) = w.map (fun c => [c]) ++ codePoints s := by
  induction w with
  | nil => rfl
  | cons c w ih =>
    obtain ⟨hc, hw⟩ := List.forall_mem_cons.mp hw
    have hhigh : isHighSurrogate c = false := by
      simp only [isHighSurrogate, Bool.and_eq_false_iff, decide_eq_false_iff_not]
      exact .inl fun h => absurd (UInt16.lt_of_le_of_lt h hc) (by decide)
    rw [List.cons_append, codePoints_cons hhigh, ih hw]
    rfl

/-- A text may be cut before a unit that completes no pair. -/
theorem codePoints_append {c : UInt16} (h : isLowSurrogate c = false) (s t : JsString) :
    codePoints (s ++ c :: t) = codePoints s ++ codePoints (c :: t) := by
  induction s using codePoints.induct with
  | case1 => rfl
  | case2 d => simp [codePoints, h]
  | case3 d e s hpair ih => simp [codePoints, hpair, ih]
  | case4 d e s hpair ih =>
    simp only [List.cons_append] at ih ⊢
    simp [codePoints, hpair, ih]

/-- The number of a code point. A lone surrogate is replaced. -/
def scalarOf : JsString → ℕ
  | [c] => if isHighSurrogate c || isLowSurrogate c then 0xfffd else c.toNat
  | [c, d] => 0x10000 + (c.toNat - 0xd800) * 0x400 + (d.toNat - 0xdc00)
  | _ => 0xfffd

def utf16Of (n : ℕ) : JsString :=
  if n < 0x10000 then [n.toUInt16]
  else [(0xd800 + (n - 0x10000) / 0x400).toUInt16, (0xdc00 + (n - 0x10000) % 0x400).toUInt16]

/-! ### UTF-8 -/

def utf8Of (n : ℕ) : List ℕ :=
  if n < 0x80 then [n]
  else if n < 0x800 then [0xc0 + n / 0x40, 0x80 + n % 0x40]
  else if n < 0x10000 then [0xe0 + n / 0x1000, 0x80 + n / 0x40 % 0x40, 0x80 + n % 0x40]
  else [0xf0 + n / 0x40000, 0x80 + n / 0x1000 % 0x40, 0x80 + n / 0x40 % 0x40, 0x80 + n % 0x40]

def encodeUtf8 (s : JsString) : List ℕ := (codePoints s).flatMap fun p => utf8Of (scalarOf p)

/-- A sequence that has begun: the bytes still owed, the bits so far, and the
least number that needs so many bytes. -/
structure Sequence where
  owed : ℕ
  bits : ℕ
  least : ℕ

/-- Between characters. -/
def Sequence.none : Sequence := ⟨0, 0, 0⟩

/-- One more byte: the units it completes, if it may stand here. -/
def Sequence.step (q : Sequence) (byte : ℕ) : Option (JsString × Sequence) :=
  if q.owed = 0 then
    if byte < 0x80 then some ([byte.toUInt16], .none)
    else if 0xc0 ≤ byte ∧ byte < 0xe0 then some ([], ⟨1, byte - 0xc0, 0x80⟩)
    else if 0xe0 ≤ byte ∧ byte < 0xf0 then some ([], ⟨2, byte - 0xe0, 0x800⟩)
    else if 0xf0 ≤ byte ∧ byte < 0xf8 then some ([], ⟨3, byte - 0xf0, 0x10000⟩)
    else Option.none
  else if 0x80 ≤ byte ∧ byte < 0xc0 then
    let bits := q.bits * 0x40 + (byte - 0x80)
    if q.owed ≠ 1 then some ([], ⟨q.owed - 1, bits, q.least⟩)
    else if q.least ≤ bits ∧ bits ≤ 0x10ffff ∧ ¬(0xd800 ≤ bits ∧ bits ≤ 0xdfff) then
      some (utf16Of bits, .none)
    else Option.none
  else Option.none

def decodeUtf8From (q : Sequence) : List ℕ → Option JsString
  | [] => if q.owed = 0 then some [] else none
  | byte :: bytes => do
    let (units, q) ← q.step byte
    return units ++ (← decodeUtf8From q bytes)

def decodeUtf8 : List ℕ → Option JsString := decodeUtf8From .none

/-! ### Base64 -/

/-- The two alphabets of base64. -/
inductive Base64 where
  | standard
  | url
deriving DecidableEq

def Base64.digit? (v : Base64) (c : UInt16) : Option ℕ :=
  if 65 ≤ c && c ≤ 90 then some (c.toNat - 65)
  else if 97 ≤ c && c ≤ 122 then some (c.toNat - 71)
  else if 48 ≤ c && c ≤ 57 then some (c.toNat + 4)
  else
    match v with
    | .standard => if c = 43 then some 62 else if c = 47 then some 63 else none
    | .url => if c = 45 then some 62 else if c = 95 then some 63 else none

/-- The bytes of a run of six-bit digits. The bits that are left over are zero in
what an encoder writes. -/
def bytesOfSextets : List ℕ → Option (List ℕ)
  | [] => some []
  | [_] => none
  | [a, b] => if b % 16 = 0 then some [a * 4 + b / 16] else none
  | [a, b, c] => if c % 4 = 0 then some [a * 4 + b / 16, b % 16 * 16 + c / 4] else none
  | a :: b :: c :: d :: rest => do
    return [a * 4 + b / 16, b % 16 * 16 + c / 4, c % 4 * 64 + d] ++ (← bytesOfSextets rest)

/-- Decode a text that encoding the result gives back. Padding is taken off before. -/
def Base64.decode (v : Base64) (s : JsString) : Option (List ℕ) := do
  bytesOfSextets (← s.mapM v.digit?)

def Base64.letter (v : Base64) (n : ℕ) : UInt16 :=
  if n < 26 then (n + 65).toUInt16
  else if n < 52 then (n + 71).toUInt16
  else if n < 62 then (n - 4).toUInt16
  else
    match v with
    | .standard => if n = 62 then 43 else 47
    | .url => if n = 62 then 45 else 95

def sextetsOfBytes : List ℕ → List ℕ
  | [] => []
  | [a] => [a / 4, a % 4 * 16]
  | [a, b] => [a / 4, a % 4 * 16 + b / 16, b % 16 * 4]
  | a :: b :: c :: rest =>
    [a / 4, a % 4 * 16 + b / 16, b % 16 * 4 + c / 64, c % 64] ++ sextetsOfBytes rest

/-- `Buffer.from(s, "utf8").toString("base64url")`. -/
def base64UrlEncode (s : JsString) : JsString :=
  (sextetsOfBytes (encodeUtf8 s)).map Base64.url.letter

/-! ### Percent escapes -/

/-- `decodeURIComponent`, which escapes every byte of a character or none. -/
def decodeUriFrom (q : Sequence) : JsString → Option JsString
  | [] => if q.owed = 0 then some [] else none
  | c :: rest =>
    if c = 37 then
      match rest with
      | h :: l :: rest => do
        let (units, q) ← q.step ((← hexValue h) * 16 + (← hexValue l))
        return units ++ (← decodeUriFrom q rest)
      | _ => none
    else if q.owed = 0 then do return c :: (← decodeUriFrom q rest)
    else none

def decodeUriComponent : JsString → Option JsString := decodeUriFrom .none

/-- An escape somewhere in the text. -/
def hasEscape : JsString → Bool
  | 37 :: h :: l :: rest =>
    (hexValue h).isSome && (hexValue l).isSome || hasEscape (h :: l :: rest)
  | _ :: rest => hasEscape rest
  | [] => false

end Haechi.Text
