import Haechi.CheckDigit
import Haechi.Filter.Checksums
import Mathlib.Data.ZMod.Basic
import Mathlib.GroupTheory.SpecificGroups.Dihedral

/-! What the check digits catch. The table of the Verhoeff check is the multiplication of the
dihedral group of the pentagon, and the Luhn sum is one over the residues modulo ten. Proved:
neither accepts a number with one digit replaced next to the number itself, and the Verhoeff
check accepts none with two neighbours swapped. -/

namespace Haechi.Filter

open Text CheckDigit

/-! ### Verhoeff -/

/-- The element of the dihedral group under a number: the rotations first. -/
def dihedral (n : ℕ) : DihedralGroup 5 := if n < 5 then .r n else .sr (5 - n : ℤ)

theorem dihedral_injective : ∀ m < 10, ∀ n < 10, dihedral m = dihedral n → m = n := by decide

theorem verhoeffD_lt : ∀ m < 10, ∀ n < 10, (verhoeffD.getD m []).getD n 0 < 10 := by decide

theorem verhoeffP_lt : ∀ i < 8, ∀ d < 10, (verhoeffP.getD i []).getD d 0 < 10 := by decide

/-- The table is that of the group. -/
theorem dihedral_verhoeffD : ∀ m < 10, ∀ n < 10,
    dihedral ((verhoeffD.getD m []).getD n 0) = dihedral m * dihedral n := by decide

/-- A digit, permuted by its position, in the group. -/
def verhoeffSymbol (i d : ℕ) : DihedralGroup 5 := dihedral ((verhoeffP.getD (i % 8) []).getD d 0)

theorem verhoeffSymbol_injective (i : ℕ) {x y : ℕ} (hx : x < 10) (hy : y < 10)
    (h : verhoeffSymbol i x = verhoeffSymbol i y) : x = y := by
  have hrows : ∀ i < 8, ∀ x < 10, ∀ y < 10, verhoeffSymbol i x = verhoeffSymbol i y → x = y := by
    decide
  have hmod : verhoeffSymbol (i % 8) x = verhoeffSymbol (i % 8) y := by
    rwa [verhoeffSymbol, verhoeffSymbol, Nat.mod_mod]
  exact hrows (i % 8) (Nat.mod_lt _ (by decide)) x hx y hy hmod

/-- The permutations of two neighbouring positions tell the orders of two digits apart. -/
theorem verhoeffSymbol_apart (i : ℕ) {x y : ℕ} (hx : x < 10) (hy : y < 10)
    (h : verhoeffSymbol i x * verhoeffSymbol (i + 1) y =
      verhoeffSymbol i y * verhoeffSymbol (i + 1) x) : x = y := by
  have hrows : ∀ i < 8, ∀ x < 10, ∀ y < 10,
      verhoeffSymbol i x * verhoeffSymbol (i + 1) y =
        verhoeffSymbol i y * verhoeffSymbol (i + 1) x → x = y := by
    decide +kernel
  have hmod : ∀ d, verhoeffSymbol (i % 8) d = verhoeffSymbol i d := fun d => by
    rw [verhoeffSymbol, verhoeffSymbol, Nat.mod_mod]
  have hsucc : ∀ d, verhoeffSymbol (i % 8 + 1) d = verhoeffSymbol (i + 1) d := fun d => by
    rw [verhoeffSymbol, verhoeffSymbol, Nat.mod_add_mod]
  apply hrows (i % 8) (Nat.mod_lt _ (by decide)) x hx y hy
  rwa [hmod, hmod, hsucc, hsucc]

/-- The running check value is the product up to there. -/
theorem dihedral_verhoeffCheck {check : ℕ} (hcheck : check < 10) (index : ℕ) {ds : List ℕ}
    (hds : ∀ d ∈ ds, d < 10) :
    verhoeffCheck check index ds < 10 ∧
      dihedral (verhoeffCheck check index ds) = dihedral check * word verhoeffSymbol index ds := by
  induction ds generalizing check index with
  | nil => exact ⟨hcheck, (mul_one _).symm⟩
  | cons d ds ih =>
    obtain ⟨hd, hds⟩ := List.forall_mem_cons.mp hds
    have hpermuted := verhoeffP_lt (index % 8) (Nat.mod_lt _ (by decide)) d hd
    have hstep := ih (verhoeffD_lt check hcheck _ hpermuted) (index + 1) hds
    rw [verhoeffCheck, word]
    refine ⟨hstep.1, ?_⟩
    rw [hstep.2, dihedral_verhoeffD check hcheck _ hpermuted, mul_assoc]
    rfl

theorem verhoeffValid_iff {ds : List ℕ} (hds : ∀ d ∈ ds, d < 10) :
    verhoeffValid ds = true ↔ word verhoeffSymbol 0 ds.reverse = 1 := by
  have hreverse : ∀ d ∈ ds.reverse, d < 10 := fun d hd => hds d (List.mem_reverse.mp hd)
  obtain ⟨hlt, hcheck⟩ := dihedral_verhoeffCheck (show 0 < 10 by decide) 0 hreverse
  have hone : dihedral 0 = 1 := by decide
  rw [hone, one_mul] at hcheck
  rw [verhoeffValid, beq_iff_eq, ← hcheck, ← hone]
  constructor
  · intro h
    rw [h]
  · exact dihedral_injective _ hlt 0 (by decide)

/-! ### Luhn -/

/-- What a digit adds to the sum. -/
def luhnTerm (alternate : Bool) (d : ℕ) : ℕ :=
  if alternate then if 9 < 2 * d then 2 * d - 9 else 2 * d else d

/-- A digit at a position from the right, in the residues. -/
def luhnSymbol (alternate : Bool) (i d : ℕ) : Multiplicative (ZMod 10) :=
  Multiplicative.ofAdd (luhnTerm (alternate ^^ i % 2 == 1) d : ZMod 10)

theorem luhnSymbol_injective (alternate : Bool) (i : ℕ) {x y : ℕ} (hx : x < 10) (hy : y < 10)
    (h : luhnSymbol alternate i x = luhnSymbol alternate i y) : x = y := by
  have hterms : ∀ b, ∀ x < 10, ∀ y < 10, (luhnTerm b x : ZMod 10) = luhnTerm b y → x = y := by
    decide
  exact hterms _ x hx y hy (Multiplicative.ofAdd.injective h)

theorem word_luhnSymbol (alternate : Bool) (i : ℕ) (ds : List ℕ) :
    word (luhnSymbol alternate) i ds =
      Multiplicative.ofAdd (luhnSum (alternate ^^ i % 2 == 1) ds : ZMod 10) := by
  induction ds generalizing i with
  | nil => rfl
  | cons d ds ih =>
    have hflip : (alternate ^^ (i + 1) % 2 == 1) = !(alternate ^^ i % 2 == 1) := by
      rcases Nat.mod_two_eq_zero_or_one i with h | h
      · cases alternate <;> simp [Nat.add_mod, h]
      · cases alternate <;> simp [Nat.add_mod, h]
    rw [word, ih, hflip, luhnSum, Nat.cast_add, ofAdd_add]
    rfl

theorem luhnValid_iff {value : JsString} :
    luhnValid value = true ↔ 13 ≤ (digitsIn value).length ∧ (digitsIn value).length ≤ 19 ∧
      word (luhnSymbol false) 0 (digitsIn value).reverse = 1 := by
  rw [word_luhnSymbol, ofAdd_eq_one, ZMod.natCast_eq_zero_iff]
  simp [luhnValid, and_assoc, Nat.dvd_iff_mod_eq_zero]

/-! ### What is caught -/

theorem digitValue_lt {c : UInt16} (h : isDigit c = true) : digitValue c < 10 := by
  simp only [isDigit, Bool.and_eq_true, decide_eq_true_eq, UInt16.le_iff_toNat_le] at h
  have := h.2
  simp at this
  rw [digitValue]
  omega

theorem digitValue_injective {c d : UInt16} (hc : isDigit c = true) (hd : isDigit d = true)
    (h : digitValue c = digitValue d) : c = d := by
  simp only [isDigit, Bool.and_eq_true, decide_eq_true_eq, UInt16.le_iff_toNat_le] at hc hd
  have hc' := hc.1
  have hd' := hd.1
  simp at hc' hd'
  rw [digitValue, digitValue] at h
  exact UInt16.toNat_inj.mp (by omega)

theorem map_digitValue_lt {s : JsString} (h : ∀ c ∈ s, isDigit c = true) :
    ∀ d ∈ s.map digitValue, d < 10 := by
  intro d hd
  obtain ⟨c, hc, rfl⟩ := List.mem_map.mp hd
  exact digitValue_lt (h c hc)

/-- Mistakes in a text of digits are mistakes in the numbers. -/
theorem eq_of_digitValue_eq {s t : JsString} (hs : ∀ c ∈ s, isDigit c = true)
    (ht : ∀ c ∈ t, isDigit c = true) : ∀ c ∈ s, ∀ d ∈ t, digitValue c = digitValue d → c = d :=
  fun c hc d hd => digitValue_injective (hs c hc) (ht d hd)

theorem verhoeffValid_of_word_ne {ds es : List ℕ} (hds : ∀ d ∈ ds, d < 10) (hes : ∀ d ∈ es, d < 10)
    (hne : word verhoeffSymbol 0 ds.reverse ≠ word verhoeffSymbol 0 es.reverse)
    (hvalid : verhoeffValid ds = true) : verhoeffValid es = false := by
  rw [verhoeffValid_iff hds] at hvalid
  rw [Bool.eq_false_iff, Ne, verhoeffValid_iff hes]
  intro hword
  exact hne (hvalid.trans hword.symm)

theorem verhoeffValid_of_replaced {ds es : List ℕ} (hds : ∀ d ∈ ds, d < 10)
    (hes : ∀ d ∈ es, d < 10) (h : Replaced ds es) (hvalid : verhoeffValid ds = true) :
    verhoeffValid es = false := by
  apply verhoeffValid_of_word_ne hds hes _ hvalid
  apply h.reverse.word_ne
  intro i x hx y hy
  exact verhoeffSymbol_injective i (hds x (List.mem_reverse.mp hx)) (hes y (List.mem_reverse.mp hy))

theorem verhoeffValid_of_swapped {ds es : List ℕ} (hds : ∀ d ∈ ds, d < 10)
    (hes : ∀ d ∈ es, d < 10) (h : Swapped ds es) (hvalid : verhoeffValid ds = true) :
    verhoeffValid es = false := by
  apply verhoeffValid_of_word_ne hds hes _ hvalid
  apply h.reverse.word_ne
  intro i x hx y hy
  exact verhoeffSymbol_apart i (hds x (List.mem_reverse.mp hx)) (hes y (List.mem_reverse.mp hy))

theorem digitsIn_of_isDigit {s : JsString} (hs : ∀ c ∈ s, isDigit c = true) :
    digitsIn s = s.map digitValue := by
  rw [digitsIn, List.filter_eq_self.mpr hs]

theorem luhnValid_of_replaced {s t : JsString} (hs : ∀ c ∈ s, isDigit c = true)
    (ht : ∀ c ∈ t, isDigit c = true) (h : Replaced s t) (hvalid : luhnValid s = true) :
    luhnValid t = false := by
  have hword := (luhnValid_iff.mp hvalid).2.2
  rw [Bool.eq_false_iff, Ne, luhnValid_iff]
  rintro ⟨-, -, hword'⟩
  rw [digitsIn_of_isDigit hs] at hword
  rw [digitsIn_of_isDigit ht] at hword'
  have hne : word (luhnSymbol false) 0 (s.map digitValue).reverse ≠
      word (luhnSymbol false) 0 (t.map digitValue).reverse := by
    apply (h.map (eq_of_digitValue_eq hs ht)).reverse.word_ne
    intro i x hx y hy
    exact luhnSymbol_injective false i (map_digitValue_lt hs x (List.mem_reverse.mp hx))
      (map_digitValue_lt ht y (List.mem_reverse.mp hy))
  exact hne (hword.trans hword'.symm)

/-- One wrong digit is caught by both checks, and two swapped neighbours by the Verhoeff check. -/
theorem checkDigits_catch {s t : JsString} (hs : ∀ c ∈ s, isDigit c = true)
    (ht : ∀ c ∈ t, isDigit c = true) :
    (verhoeffValid (s.map digitValue) = true → Replaced s t ∨ Swapped s t →
        verhoeffValid (t.map digitValue) = false) ∧
      (luhnValid s = true → Replaced s t → luhnValid t = false) := by
  have hinjective := eq_of_digitValue_eq hs ht
  have hsdigits := map_digitValue_lt hs
  have htdigits := map_digitValue_lt ht
  constructor
  · rintro hvalid (hreplaced | hswapped)
    · exact verhoeffValid_of_replaced hsdigits htdigits (hreplaced.map hinjective) hvalid
    · exact verhoeffValid_of_swapped hsdigits htdigits (hswapped.map hinjective) hvalid
  · intro hvalid hreplaced
    exact luhnValid_of_replaced hs ht hreplaced hvalid

/-- An Aadhaar number with its last two digits swapped, and a card number with its last
digit changed. -/
theorem checkDigits_catch_numbers :
    verhoeffValid ((js "234123412364").map digitValue) = false ∧
      luhnValid (js "4111111111111112") = false := by
  have hswapped : Swapped (js "234123412346") (js "234123412364") :=
    ⟨js "2341234123", [], 52, 54, by decide, by decide, by decide⟩
  have hreplaced : Replaced (js "4111111111111111") (js "4111111111111112") :=
    ⟨js "411111111111111", [], 49, 50, by decide, by decide, by decide⟩
  constructor
  · exact (checkDigits_catch (by decide) (by decide)).1 (by decide) (.inr hswapped)
  · exact (checkDigits_catch (by decide) (by decide)).2 (by decide) hreplaced

end Haechi.Filter
