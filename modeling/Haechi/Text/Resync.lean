import Haechi.Text.Decoder
import Haechi.Text.Paired

/-! Where the lossy decoder starts afresh: an ASCII byte ends whatever character came before
it, so what follows it is decoded by itself, also where the bytes begin inside a character.
And the only ASCII characters of a decoded text are the ASCII bytes. -/

namespace Haechi.Text

namespace Decoder

/-- The bytes that are owed are no ASCII, and what they complete is neither. -/
def Valid (d : Decoder) : Prop :=
  d.owed = 0 ∨ 0x80 ≤ d.lower ∧ d.upper ≤ 0xbf ∧
    (d.owed = 1 ∧ 2 ≤ d.bits ∧ d.bits < 0x4400 ∨
      d.owed = 2 ∧ 2 ≤ d.bits * 0x40 + (d.lower - 0x80) ∧
        d.bits * 0x40 + (d.upper - 0x80) < 0x4400 ∨
      d.owed = 3 ∧ 1 ≤ d.bits * 0x40 + (d.lower - 0x80) ∧
        d.bits * 0x40 + (d.upper - 0x80) < 0x110)

theorem valid_idle : Valid idle := .inl rfl

theorem valid_first (byte : ℕ) : Valid (first byte).2 := by
  unfold first
  split_ifs <;> simp [Valid, idle] <;> omega

variable {d : Decoder}

theorem Valid.step (h : Valid d) (byte : ℕ) : Valid (d.step byte).2 := by
  unfold Decoder.step
  split_ifs with h0 hrange h1
  · exact valid_first byte
  · exact valid_idle
  · unfold Valid at h ⊢
    simp only
    omega
  · exact valid_first byte

theorem Valid.run (h : Valid d) (bytes : List ℕ) : Valid (d.run bytes).2 := by
  induction bytes generalizing d with
  | nil => exact h
  | cons byte bytes ih => exact ih (h.step byte)

theorem utf16Of_ascii {b : ℕ} (h : b < 0x80) : utf16Of b = [b.toUInt16] := if_pos (by omega)

/-- An ASCII byte ends what came before it. -/
theorem Valid.step_ascii (h : Valid d) {b : ℕ} (hb : b < 0x80) :
    d.step b = (d.flush ++ [b.toUInt16], idle) := by
  have hfirst : first b = ([b.toUInt16], idle) := by
    rw [first, if_pos hb, utf16Of_ascii hb]
  unfold Decoder.step flush
  split_ifs with h0 hrange h1
  · exact hfirst
  · unfold Valid at h
    omega
  · unfold Valid at h
    omega
  · rw [hfirst]
    rfl

end Decoder

open Decoder

/-- The text is cut at an ASCII byte, whatever is around it. -/
theorem decodeLossy_ascii (xs ys : List ℕ) {b : ℕ} (hb : b < 0x80) :
    decodeLossy (xs ++ b :: ys) = decodeLossy xs ++ b.toUInt16 :: decodeLossy ys := by
  have hstep := (valid_idle.run xs).step_ascii hb
  simp only [decodeLossy, run_append, run, hstep, List.append_assoc]
  rfl

/-- The ASCII characters of what a number is written as. -/
theorem not_ascii_utf16Of {n : ℕ} (h : 0x80 ≤ n) (hmax : n < 0x110000) :
    ∀ u ∈ utf16Of n, 128 ≤ u := by
  intro u hu
  unfold utf16Of at hu
  rw [UInt16.le_iff_toNat_le]
  split_ifs at hu
  · obtain rfl := List.mem_singleton.mp hu
    rw [Nat.toUInt16, UInt16.toNat_ofNat']
    simp only [UInt16.reduceToNat]
    omega
  · rcases List.mem_pair.mp hu with rfl | rfl
    all_goals
      rw [Nat.toUInt16, UInt16.toNat_ofNat']
      simp only [UInt16.reduceToNat]
      omega

namespace Decoder

variable {d : Decoder}

/-- A byte that is no ASCII starts a character, or is replaced. -/
theorem first_not_ascii {byte : ℕ} (h : ¬byte < 0x80) :
    (first byte).1 = [] ∨ (first byte).1 = [0xfffd] := by
  unfold first
  rw [if_neg h]
  split
  · exact .inl rfl
  · split
    · exact .inl rfl
    · split
      · exact .inl rfl
      · exact .inr rfl

theorem ascii_first {byte : ℕ} {u : UInt16} (hu : u ∈ (first byte).1) (hascii : u < 128) :
    u = byte.toUInt16 ∧ byte < 0x80 := by
  by_cases hb : byte < 0x80
  · rw [first, if_pos hb, utf16Of_ascii hb, List.mem_singleton] at hu
    exact ⟨hu, hb⟩
  · rcases first_not_ascii hb with h | h
    · rw [h] at hu
      cases hu
    · rw [h, List.mem_singleton] at hu
      subst hu
      exact absurd hascii (by decide)

theorem Valid.ascii_step (h : Valid d) {byte : ℕ} {u : UInt16} (hu : u ∈ (d.step byte).1)
    (hascii : u < 128) : u = byte.toUInt16 ∧ byte < 0x80 := by
  unfold Decoder.step at hu
  split_ifs at hu with h0 hrange h1
  · exact ascii_first hu hascii
  · unfold Valid at h
    have hn := not_ascii_utf16Of (n := d.bits * 0x40 + byte % 0x40) (by omega) (by omega) u hu
    exact absurd (UInt16.lt_of_lt_of_le hascii hn) (UInt16.lt_irrefl u)
  · cases hu
  · rcases List.mem_cons.mp hu with rfl | hu
    · exact absurd hascii (by decide)
    · exact ascii_first hu hascii

theorem Valid.ascii_run (h : Valid d) {bytes : List ℕ} {u : UInt16} (hu : u ∈ (d.run bytes).1)
    (hascii : u < 128) : ∃ b ∈ bytes, u = b.toUInt16 ∧ b < 0x80 := by
  induction bytes generalizing d with
  | nil => cases hu
  | cons byte bytes ih =>
    rcases List.mem_append.mp hu with hu | hu
    · exact ⟨byte, List.mem_cons_self, h.ascii_step hu hascii⟩
    · obtain ⟨b, hb, hub⟩ := ih (h.step byte) hu
      exact ⟨b, List.mem_cons_of_mem _ hb, hub⟩

end Decoder

/-- An ASCII character of a decoded text is an ASCII byte. -/
theorem ascii_decodeLossy {bytes : List ℕ} {u : UInt16} (hu : u ∈ decodeLossy bytes)
    (hascii : u < 128) : ∃ b ∈ bytes, u = b.toUInt16 ∧ b < 0x80 := by
  rcases List.mem_append.mp hu with hu | hu
  · exact valid_idle.ascii_run hu hascii
  · unfold flush at hu
    split_ifs at hu
    · cases hu
    · rw [List.mem_singleton] at hu
      subst hu
      exact absurd hascii (by decide)

/-- A line feed of a decoded text is a line feed of its bytes. -/
theorem feed_decodeLossy {bytes : List ℕ} (h : 10 ∉ bytes) : 10 ∉ decodeLossy bytes := by
  intro hu
  obtain ⟨b, hb, hub, hlt⟩ := ascii_decodeLossy hu (by decide)
  have hnat := congrArg UInt16.toNat hub
  rw [Nat.toUInt16, UInt16.toNat_ofNat'] at hnat
  simp only [UInt16.reduceToNat] at hnat
  obtain rfl : b = 10 := by omega
  exact h hb

/-! ### What was encoded -/

namespace Decoder

/-- The last byte that is owed. -/
theorem step_last {bits lower upper byte n : ℕ} (h : lower ≤ byte ∧ byte ≤ upper)
    (hn : bits * 0x40 + byte % 0x40 = n) : step ⟨1, bits, lower, upper⟩ byte = (utf16Of n, idle) := by
  rw [step, if_neg (one_ne_zero), if_pos h, if_pos rfl]
  simp only [hn]

/-- A byte that is owed, and not the last one. -/
theorem step_more {owed bits lower upper byte bits' : ℕ} (h : lower ≤ byte ∧ byte ≤ upper)
    (hbits : bits * 0x40 + byte % 0x40 = bits') :
    step ⟨owed + 2, bits, lower, upper⟩ byte = ([], ⟨owed + 1, bits', 0x80, 0xbf⟩) := by
  rw [step, if_neg (Nat.succ_ne_zero _), if_pos h, if_neg (by simp)]
  simp only [hbits, Nat.add_succ_sub_one]

/-- The bytes of a scalar value are decoded to it. -/
theorem run_utf8Of {n : ℕ} (h : IsScalar n) : idle.run (utf8Of n) = (utf16Of n, idle) := by
  obtain ⟨hmax, hsurrogate⟩ := h
  have hidle : ∀ b, idle.step b = first b := fun b => if_pos rfl
  unfold utf8Of
  split_ifs with h1 h2 h3
  · simp only [run, hidle, first, if_pos h1, List.append_nil]
  · have hfirst : first (0xc0 + n / 0x40) = ([], ⟨1, n / 0x40, 0x80, 0xbf⟩) := by
      rw [first, if_neg (by omega), if_pos (by omega)]
      simp only [Prod.mk.injEq, mk.injEq, true_and, and_true]
      omega
    have hlast : step ⟨1, n / 0x40, 0x80, 0xbf⟩ (0x80 + n % 0x40) = (utf16Of n, idle) :=
      step_last (by omega) (by omega)
    simp only [run, hidle, hfirst, hlast, List.nil_append, List.append_nil]
  · -- An overlong form and a surrogate are kept out by the range of the second byte.
    have hfirst : ∃ lower upper, lower ≤ 0x80 + n / 0x40 % 0x40 ∧ 0x80 + n / 0x40 % 0x40 ≤ upper ∧
        first (0xe0 + n / 0x1000) = ([], ⟨2, n / 0x1000, lower, upper⟩) := by
      have hbits : (0xe0 + n / 0x1000) % 0x10 = n / 0x1000 := by omega
      rw [first, if_neg (by omega), if_neg (by omega), if_pos (by omega), hbits]
      refine ⟨_, _, ?_, ?_, rfl⟩
      · split_ifs <;> omega
      · split_ifs <;> omega
    obtain ⟨lower, upper, hlower, hupper, hfirst⟩ := hfirst
    have hmore : step ⟨2, n / 0x1000, lower, upper⟩ (0x80 + n / 0x40 % 0x40) =
        ([], ⟨1, n / 0x40, 0x80, 0xbf⟩) := step_more ⟨hlower, hupper⟩ (by omega)
    have hlast : step ⟨1, n / 0x40, 0x80, 0xbf⟩ (0x80 + n % 0x40) = (utf16Of n, idle) :=
      step_last (by omega) (by omega)
    simp only [run, hidle, hfirst, hmore, hlast, List.nil_append, List.append_nil]
  · have hfirst : ∃ lower upper, lower ≤ 0x80 + n / 0x1000 % 0x40 ∧
        0x80 + n / 0x1000 % 0x40 ≤ upper ∧
        first (0xf0 + n / 0x40000) = ([], ⟨3, n / 0x40000, lower, upper⟩) := by
      have hbits : (0xf0 + n / 0x40000) % 0x08 = n / 0x40000 := by omega
      rw [first, if_neg (by omega), if_neg (by omega), if_neg (by omega), if_pos (by omega), hbits]
      refine ⟨_, _, ?_, ?_, rfl⟩
      · split_ifs <;> omega
      · split_ifs <;> omega
    obtain ⟨lower, upper, hlower, hupper, hfirst⟩ := hfirst
    have hmore : step ⟨3, n / 0x40000, lower, upper⟩ (0x80 + n / 0x1000 % 0x40) =
        ([], ⟨2, n / 0x1000, 0x80, 0xbf⟩) := step_more ⟨hlower, hupper⟩ (by omega)
    have hmore' : step ⟨2, n / 0x1000, 0x80, 0xbf⟩ (0x80 + n / 0x40 % 0x40) =
        ([], ⟨1, n / 0x40, 0x80, 0xbf⟩) := step_more (by omega) (by omega)
    have hlast : step ⟨1, n / 0x40, 0x80, 0xbf⟩ (0x80 + n % 0x40) = (utf16Of n, idle) :=
      step_last (by omega) (by omega)
    simp only [run, hidle, hfirst, hmore, hmore', hlast, List.nil_append, List.append_nil]

end Decoder

/-- A text that was encoded is read back, but for its lone surrogates. -/
theorem decodeLossy_encodeUtf8 (s : JsString) : decodeLossy (encodeUtf8 s) = toWellFormed s := by
  have hs := isScalar_scalarOf s
  have hrun : idle.run (encodeUtf8 s) = (toWellFormed s, idle) := by
    rw [encodeUtf8, toWellFormed]
    generalize codePoints s = ps at hs
    induction ps with
    | nil => rfl
    | cons p ps ih =>
      obtain ⟨hp, hps⟩ := List.forall_mem_cons.mp hs
      rw [List.flatMap_cons, List.flatMap_cons, run_append, run_utf8Of hp, ih hps]
  rw [decodeLossy, hrun]
  exact List.append_nil _

end Haechi.Text
