import Haechi.Text.Units
import Mathlib.Data.Nat.Digits.Defs

/-! Numbers as JSON sees them. A number is known by its decimal text, so the
development is generic over the numbers a program computes with; counts are the
only numbers it does arithmetic on. -/

namespace Haechi

namespace Text

def isDigit (c : UInt16) : Bool := 48 ≤ c && c ≤ 57

/-- The characters a JSON number is made of. -/
def isNumberChar (c : UInt16) : Bool :=
  isDigit c || c == 43 || c == 45 || c == 46 || c == 69 || c == 101

/-- A non-empty run of digits. -/
def isDigits (s : JsString) : Bool := !s.isEmpty && s.all isDigit

/-- The exponent part of a JSON number, or nothing. -/
def isExponent : JsString → Bool
  | [] => true
  | c :: r =>
    (c == 101 || c == 69) &&
      match r with
      | [] => false
      | d :: r' => if d == 43 || d == 45 then isDigits r' else isDigits (d :: r')

/-- The fraction and exponent of a JSON number, or nothing. -/
def isFraction : JsString → Bool
  | [] => true
  | c :: r =>
    if c == 46 then isDigits (r.takeWhile isDigit) && isExponent (r.dropWhile isDigit)
    else isExponent (c :: r)

/-- A JSON number without its sign: no superfluous leading zero. -/
def isUnsigned (s : JsString) : Bool :=
  let int := s.takeWhile isDigit
  isDigits int && (int.length == 1 || int.head? != some 48) && isFraction (s.dropWhile isDigit)

/-- The JSON number grammar. -/
def isNumberToken : JsString → Bool
  | [] => false
  | c :: r => if c == 45 then isUnsigned r else isUnsigned (c :: r)

theorem isNumberChar_of_isDigit {c : UInt16} (h : isDigit c = true) : isNumberChar c = true := by
  simp [isNumberChar, h]

theorem all_of_isDigits {s : JsString} (h : isDigits s = true) : s.all isNumberChar = true := by
  simp only [isDigits, Bool.and_eq_true, List.all_eq_true] at h ⊢
  exact fun c hc => isNumberChar_of_isDigit (h.2 c hc)

theorem all_of_isExponent {s : JsString} (h : isExponent s = true) :
    s.all isNumberChar = true := by
  match s, h with
  | [], _ => rfl
  | [c], h => simp [isExponent] at h
  | c :: d :: r, h =>
    simp only [isExponent, Bool.and_eq_true] at h
    obtain ⟨hc, hr⟩ := h
    have hc' : isNumberChar c = true := by
      simp only [Bool.or_eq_true] at hc
      simp only [isNumberChar, Bool.or_eq_true]
      tauto
    split_ifs at hr with hd
    · have hd' : isNumberChar d = true := by
        simp only [Bool.or_eq_true] at hd
        simp only [isNumberChar, Bool.or_eq_true]
        tauto
      simp [hc', hd', all_of_isDigits hr]
    · simp [hc', all_of_isDigits hr]

theorem all_of_takeWhile_dropWhile {s : JsString}
    (h : (s.dropWhile isDigit).all isNumberChar = true) : s.all isNumberChar = true := by
  rw [← List.takeWhile_append_dropWhile (p := isDigit) (l := s), List.all_append, h,
    Bool.and_true, List.all_eq_true]
  exact fun c hc => isNumberChar_of_isDigit (List.mem_takeWhile_imp hc)

theorem all_of_isFraction {s : JsString} (h : isFraction s = true) :
    s.all isNumberChar = true := by
  match s, h with
  | [], _ => rfl
  | c :: r, h =>
    simp only [isFraction] at h
    split_ifs at h with hc
    · simp only [Bool.and_eq_true] at h
      have hc' : isNumberChar c = true := by
        simp only [isNumberChar, Bool.or_eq_true]
        tauto
      simp [hc', all_of_takeWhile_dropWhile (all_of_isExponent h.2)]
    · exact all_of_isExponent h

/-- A number token is written in number characters. -/
theorem all_of_isNumberToken {s : JsString} (h : isNumberToken s = true) :
    s.all isNumberChar = true := by
  have hu : ∀ t, isUnsigned t = true → t.all isNumberChar = true := by
    intro t ht
    simp only [isUnsigned, Bool.and_eq_true] at ht
    exact all_of_takeWhile_dropWhile (all_of_isFraction ht.2)
  match s, h with
  | c :: r, h =>
    simp only [isNumberToken] at h
    split_ifs at h with hc
    · have hc' : isNumberChar c = true := by
        simp only [isNumberChar, Bool.or_eq_true]
        tauto
      simp [hc', hu r h]
    · exact hu _ h

theorem ne_nil_of_isNumberToken {s : JsString} (h : isNumberToken s = true) : s ≠ [] := by
  rintro rfl
  simp [isNumberToken] at h

/-! ### Decimal text of a count -/

def digitUnit (d : ℕ) : UInt16 := (48 + d).toUInt16

/-- `String(n)` for a count. -/
def natText (n : ℕ) : JsString :=
  if n = 0 then [48] else (Nat.digits 10 n).reverse.map digitUnit

/-- The count a run of digits denotes. -/
def natValue (s : JsString) : ℕ := s.foldl (fun acc c => 10 * acc + (c.toNat - 48)) 0

theorem digitUnit_toNat {d : ℕ} (h : d < 10) : (digitUnit d).toNat = 48 + d := by
  simp [digitUnit]
  omega

theorem isDigit_digitUnit {d : ℕ} (h : d < 10) : isDigit (digitUnit d) = true := by
  simp only [isDigit, Bool.and_eq_true, decide_eq_true_eq, UInt16.le_iff_toNat_le,
    digitUnit_toNat h]
  simp
  omega

theorem natText_eq {n : ℕ} (h : n ≠ 0) : natText n = (Nat.digits 10 n).reverse.map digitUnit :=
  if_neg h

theorem natValue_append (s : JsString) (c : UInt16) :
    natValue (s ++ [c]) = 10 * natValue s + (c.toNat - 48) := by
  simp [natValue]

theorem natValue_digits (n : ℕ) : natValue ((Nat.digits 10 n).reverse.map digitUnit) = n := by
  induction n using Nat.strong_induction_on with
  | _ n ih =>
    rcases Nat.eq_zero_or_pos n with rfl | hn
    · simp [natValue]
    · rw [Nat.digits_def' (by decide) hn, List.reverse_cons, List.map_append, List.map_singleton,
        natValue_append, ih _ (Nat.div_lt_self hn (by decide)),
        digitUnit_toNat (Nat.mod_lt _ (by decide))]
      omega

@[simp] theorem natValue_natText (n : ℕ) : natValue (natText n) = n := by
  by_cases h : n = 0
  · subst h; decide
  · rw [natText_eq h, natValue_digits]

theorem natText_injective : Function.Injective natText :=
  Function.LeftInverse.injective natValue_natText

theorem natText_all (n : ℕ) : ∀ c ∈ natText n, isDigit c = true := by
  by_cases h : n = 0
  · subst h; decide
  · rw [natText_eq h]
    intro c hc
    simp only [List.mem_map, List.mem_reverse] at hc
    obtain ⟨d, hd, rfl⟩ := hc
    exact isDigit_digitUnit (Nat.digits_lt_base (by decide) hd)

theorem not_mem_natText {c : UInt16} (hc : isDigit c = false) (n : ℕ) : c ∉ natText n := by
  intro hmem
  rw [natText_all n c hmem] at hc
  cases hc

theorem natText_ne_nil (n : ℕ) : natText n ≠ [] := by
  by_cases h : n = 0
  · subst h; decide
  · rw [natText_eq h]
    simpa [Nat.digits_eq_nil_iff_eq_zero] using h

theorem isDigits_natText (n : ℕ) : isDigits (natText n) = true := by
  simp only [isDigits, Bool.and_eq_true, List.all_eq_true]
  exact ⟨by simp [natText_ne_nil], natText_all n⟩

/-- The first digit is zero only in the text of zero. -/
theorem natText_head {n : ℕ} (h : n ≠ 0) : (natText n).head? ≠ some 48 := by
  have hne : Nat.digits 10 n ≠ [] := Nat.digits_ne_nil_iff_ne_zero.mpr h
  rw [natText_eq h, List.head?_map, List.head?_reverse, List.getLast?_eq_some_getLast hne]
  intro heq
  have hd := Option.some.inj heq
  have hlt := Nat.digits_lt_base (b := 10) (by decide) (List.getLast_mem hne)
  have := congrArg UInt16.toNat hd
  rw [digitUnit_toNat hlt] at this
  exact Nat.getLast_digit_ne_zero 10 h (by simpa using this)

/-- No zero stands before another digit. -/
theorem natText_noLeadingZero (n : ℕ) :
    ((natText n).length == 1 || (natText n).head? != some 48) = true := by
  by_cases hn : n = 0
  · subst hn
    decide
  · simp [natText_head hn]

theorem isNumberToken_natText (n : ℕ) : isNumberToken (natText n) = true := by
  have hall := natText_all n
  have htake : (natText n).takeWhile isDigit = natText n := List.takeWhile_eq_self_iff.mpr hall
  have hdrop : (natText n).dropWhile isDigit = [] := List.dropWhile_eq_nil_iff.mpr hall
  have hunsigned : isUnsigned (natText n) = true := by
    simp only [isUnsigned, htake, hdrop, isDigits_natText n, natText_noLeadingZero n, isFraction,
      Bool.and_self]
  rcases hs : natText n with _ | ⟨c, r⟩
  · exact absurd hs (natText_ne_nil n)
  · have hc : isDigit c = true := hall c (by simp [hs])
    have hminus : c ≠ 45 := by rintro rfl; exact absurd hc (by decide)
    rw [isNumberToken, if_neg (by simpa using hminus), ← hs, hunsigned]

end Text

/-- Finite numbers, seen through their decimal text. The two zeros are one
value. Counts stay in the range where they are exact. -/
class JsNumber (ν : Type) where
  decEq : DecidableEq ν
  /-- A count as a number. -/
  ofNat : ℕ → ν
  /-- The count a number is, if it is one. -/
  toNat? : ν → Option ℕ
  /-- The operator `<`. -/
  lt : ν → ν → Bool
  /-- `Number::toString`. -/
  toText : ν → JsString
  /-- The number a JSON number token denotes. -/
  ofText : JsString → ν
  toNat?_ofNat : ∀ n, toNat? (ofNat n) = some n
  lt_ofNat : ∀ m n, lt (ofNat m) (ofNat n) = decide (m < n)
  isNumberToken_toText : ∀ x, Text.isNumberToken (toText x) = true
  ofText_toText : ∀ x, ofText (toText x) = x

instance (ν : Type) [JsNumber ν] : DecidableEq ν := JsNumber.decEq

theorem JsNumber.ofNat_injective {ν : Type} [JsNumber ν] :
    Function.Injective (JsNumber.ofNat : ℕ → ν) := by
  intro m n h
  have := congrArg (JsNumber.toNat? (ν := ν)) h
  rwa [JsNumber.toNat?_ofNat, JsNumber.toNat?_ofNat, Option.some.injEq] at this

/-- The simplest numbers: JSON number tokens, compared as counts. -/
structure NumberToken where
  text : JsString
  isToken : Text.isNumberToken text = true
deriving DecidableEq

instance : JsNumber NumberToken where
  decEq := inferInstance
  ofNat n := ⟨Text.natText n, Text.isNumberToken_natText n⟩
  toNat? x := if Text.isDigits x.text then some (Text.natValue x.text) else none
  lt x y := decide (Text.natValue x.text < Text.natValue y.text)
  toText x := x.text
  ofText s := if h : Text.isNumberToken s = true then ⟨s, h⟩ else ⟨[48], by decide⟩
  toNat?_ofNat n := by
    simp [Text.isDigits_natText]
  lt_ofNat m n := by simp
  isNumberToken_toText x := x.isToken
  ofText_toText x := by simp [x.isToken]

end Haechi
