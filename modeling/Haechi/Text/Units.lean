import Mathlib.Data.List.DropRight
import Mathlib.Tactic

/-! Texts as sequences of UTF-16 code units. Offsets, lengths and slices count
code units, so a text may hold half of a surrogate pair. Blank characters and
line breaks follow the ECMAScript classes; `trim` and `splitLines` are the two
operations on lines that every wire format here is built from. -/

namespace Haechi

/-- A text is the list of its UTF-16 code units. -/
abbrev JsString := List UInt16

/-- The code units of a literal from the basic plane. -/
def js (s : String) : JsString := s.toList.map fun c => c.toNat.toUInt16

/-- An entry that is found is in the list. -/
theorem mem_of_lookup {α β : Type} [BEq α] [LawfulBEq α] {k : α} {v : β} {l : List (α × β)}
    (h : l.lookup k = some v) : (k, v) ∈ l := by
  induction l with
  | nil => cases h
  | cons kv l ih =>
    obtain ⟨k', v'⟩ := kv
    by_cases hk : k = k'
    · subst hk
      obtain rfl : v' = v := by simpa using h
      simp
    · have hne : (k == k') = false := by simpa using hk
      exact List.mem_cons_of_mem _ (ih (by simpa [List.lookup_cons, hne] using h))

namespace Text

/-- A property of all units of a text is decided unit by unit, not over all code units. -/
instance decidableForallUnit (s : JsString) (p : UInt16 → Prop) [DecidablePred p] :
    Decidable (∀ c ∈ s, p c) := List.decidableBAll p s

/-- A text is looked for among others by comparing it with each. -/
instance decidableMemTexts (s : JsString) (l : List JsString) : Decidable (s ∈ l) := inferInstance

/-- ECMAScript `WhiteSpace` and `LineTerminator`, the class `\s`. -/
def isSpace (c : UInt16) : Bool :=
  (9 ≤ c && c ≤ 13) || c == 32 || c == 0xa0 || c == 0x1680 || (0x2000 ≤ c && c ≤ 0x200a) ||
    c == 0x2028 || c == 0x2029 || c == 0x202f || c == 0x205f || c == 0x3000 || c == 0xfeff

/-- ECMAScript `LineTerminator`, the characters that `.` does not match. -/
def isTerminator (c : UInt16) : Bool :=
  c == 10 || c == 13 || c == 0x2028 || c == 0x2029

/-- The terminators that are not control characters: U+2028 and U+2029. -/
def isSeparator (c : UInt16) : Prop := c = 0x2028 ∨ c = 0x2029

theorem isTerminator_iff {c : UInt16} :
    isTerminator c = true ↔ c = 10 ∨ c = 13 ∨ isSeparator c := by
  simp [isTerminator, isSeparator, or_assoc]

/-- A blank of one line: a space or a tab. -/
def isBlank (c : UInt16) : Bool := c == 32 || c == 9

theorem isSpace_of_isBlank {c : UInt16} (h : isBlank c = true) : isSpace c = true := by
  simp only [isBlank, Bool.or_eq_true, beq_iff_eq] at h
  rcases h with rfl | rfl <;> decide

/-- ASCII lower case of a code unit. -/
def lowerUnit (c : UInt16) : UInt16 := if 65 ≤ c && c ≤ 90 then c + 32 else c

def lowerAscii (s : JsString) : JsString := s.map lowerUnit

theorem lowerAscii_eq_map (s : JsString) : lowerAscii s = s.map lowerUnit := rfl

/-- `String.prototype.trim`. -/
def trim (s : JsString) : JsString := (s.dropWhile isSpace).rdropWhile isSpace

/-- `String.prototype.slice` with both offsets in range order. -/
def slice (s : JsString) (start stop : ℕ) : JsString := (s.take stop).drop start

@[simp] theorem slice_self_start (s : JsString) (n : ℕ) : slice s n n = [] := by
  simp [slice]

theorem slice_zero (s : JsString) (n : ℕ) : slice s 0 n = s.take n := rfl

theorem length_slice {s : JsString} {a b : ℕ} (hb : b ≤ s.length) :
    (slice s a b).length = b - a := by
  simp [slice, Nat.min_eq_left hb]

/-- The slice between two parts of a text is what stands there. -/
theorem slice_middle (a w b : JsString) : slice (a ++ w ++ b) a.length (a.length + w.length) = w := by
  rw [slice, List.take_left' List.length_append, List.drop_left]

/-- Adjacent slices join. -/
theorem slice_append_slice (s : JsString) {a b c : ℕ} (hab : a ≤ b) (hbc : b ≤ c) :
    slice s a b ++ slice s b c = slice s a c := by
  unfold slice
  have h : s.take c = s.take b ++ (s.take c).drop b := by
    conv_lhs => rw [← List.take_append_drop b (s.take c), List.take_take, Nat.min_eq_left hbc]
  by_cases hlen : a ≤ (s.take b).length
  · rw [h, List.drop_append_of_le_length hlen, ← h]
  · have hs : s.length < a := by
      simp only [List.length_take] at hlen
      omega
    rw [List.drop_eq_nil_of_le (by simp; omega), List.drop_eq_nil_of_le (by simp; omega),
      List.drop_eq_nil_of_le (by simp; omega)]
    rfl

/-- The lines of a text under `split("\n")`. -/
def splitLines (s : JsString) : List JsString := s.splitOn 10

/-- `lines.join("\n")`. -/
def joinLines (ls : List JsString) : JsString := List.intercalate [10] ls

/-- Everything after the first occurrence of `pre`, when the text starts with it. -/
def stripPrefix : JsString → JsString → Option JsString
  | [], s => some s
  | _ :: _, [] => none
  | p :: ps, c :: cs => if p = c then stripPrefix ps cs else none

theorem stripPrefix_eq_some {p s r : JsString} : stripPrefix p s = some r ↔ s = p ++ r := by
  induction p generalizing s with
  | nil => simp [stripPrefix, eq_comm]
  | cons a p ih =>
    cases s with
    | nil => simp [stripPrefix]
    | cons c s =>
      simp only [stripPrefix]
      split_ifs with h
      · subst h
        simp [ih]
      · simp [Ne.symm h]

@[simp] theorem stripPrefix_append (p s : JsString) : stripPrefix p (p ++ s) = some s :=
  stripPrefix_eq_some.mpr rfl

end Text

end Haechi
