import Haechi.Filter.Residues

/-! One wrong character in an identity number of digits and letters. Proved: which validators
accept no number with one character replaced next to the number itself, and of the two that
give several residues one check digit, which such numbers they accept. -/

namespace Haechi.Filter

open Text Regex CheckDigit

/-! ### Checks of digits and letters -/

section Letters

theorem not_isDigit_of_isUpper {c : UInt16} (h : isUpper c = true) : isDigit c = false := by
  simp only [isUpper, isDigit, Bool.and_eq_true, Bool.and_eq_false_iff, decide_eq_true_eq,
    decide_eq_false_iff_not] at *
  exact .inr fun h' => absurd (UInt16.le_trans h.1 h') (by decide)

theorem toNat_of_isUpper {c : UInt16} (h : isUpper c = true) : 65 ≤ c.toNat ∧ c.toNat ≤ 90 := by
  simpa [isUpper, UInt16.le_iff_toNat_le] using h

theorem getElem?_last {w : JsString} {c : UInt16} {n : ℕ} (h : w.length = n) :
    (w ++ [c])[n]? = some c := by
  subst h
  simp

theorem niePrefix_cases {x : UInt16} (h : inSet false [(88, 90)] false x = true) :
    (x = 88 ∨ x = 89 ∨ x = 90) ∧ isDigit x = false := by
  have hrange : 88 ≤ x.toNat ∧ x.toNat ≤ 90 := by
    simpa [inSet, inRanges, UInt16.le_iff_toNat_le] using h
  have hcases : x.toNat = 88 ∨ x.toNat = 89 ∨ x.toNat = 90 := by omega
  have hx : x = 88 ∨ x = 89 ∨ x = 90 :=
    hcases.imp UInt16.toNat_inj.mp (Or.imp UInt16.toNat_inj.mp UInt16.toNat_inj.mp)
  refine ⟨hx, ?_⟩
  rcases hx with rfl | rfl | rfl <;> rfl

/-- `esDniValid` removes blanks and hyphens. -/
def dniText (s : JsString) : JsString := toUpper (without (fun c => isSpace c || c == 45) s)

/-- The digits of the number, the leading letter of a NIE among them. -/
def dniNumber (b : JsString) : JsString :=
  if isDigit (b.headD 0) then b else esNiePrefix (b.headD 0) :: b.drop 1

def DniCheck (b c : JsString) : Prop :=
  (∃ x w, b = x :: w ∧ (isDigit x = true ∨ x = 88 ∨ x = 89 ∨ x = 90) ∧ ∀ u ∈ w, isDigit u = true) ∧
    ∃ u, c = [u] ∧ esDniTable[natValue (dniNumber b) % 23]? = some u

theorem dniCheck_of_valid (s : JsString) (h : esDniValid s = true) :
    DniCheck ((dniText s).take 8) ((dniText s).drop 8) := by
  rw [dniText]
  simp only [esDniValid] at h
  generalize toUpper (without (fun c => isSpace c || c == 45) s) = text at *
  split_ifs at h with hdni hnie
  · simp only [isWhole_iff, consumes_cat_cons, consumes_cat_nil, consumes_digits,
      consumes_upper] at hdni
    obtain ⟨w, _, rfl, ⟨hlength, hw⟩, _, _, rfl, ⟨c, rfl, -⟩, rfl⟩ := hdni
    match w, hlength with
    | x :: w, hlength =>
      have hx := hw x List.mem_cons_self
      simp only [List.take_left' hlength, List.drop_left' hlength, slice, List.append_nil,
        List.drop_zero, beq_iff_eq, getElem?_last hlength] at h ⊢
      refine ⟨⟨x, w, rfl, .inl hx, fun u hu => hw u (List.mem_cons_of_mem _ hu)⟩, c, rfl, ?_⟩
      rw [dniNumber, List.headD_cons, if_pos hx, h]
  · simp only [isWhole_iff, consumes_cat_cons, consumes_cat_nil, consumes_cls, consumes_digits,
      consumes_upper] at hnie
    obtain ⟨_, _, rfl, ⟨x, rfl, hx⟩, w, _, rfl, ⟨hlength, hw⟩, _, _, rfl, ⟨c, rfl, -⟩, rfl⟩ := hnie
    obtain ⟨hx, hnot⟩ : (x = 88 ∨ x = 89 ∨ x = 90) ∧ isDigit x = false := niePrefix_cases hx
    have hlength' : (x :: w).length = 8 := by simp [hlength]
    simp only [List.append_nil, List.singleton_append, ← List.cons_append, slice,
      List.take_left' hlength', List.drop_left' hlength', beq_iff_eq,
      getElem?_last hlength'] at h ⊢
    refine ⟨⟨x, w, rfl, .inr hx, hw⟩, c, rfl, ?_⟩
    rw [dniNumber, List.headD_cons, if_neg (by simp [hnot])]
    exact h

theorem esNiePrefix_digit (x : UInt16) : isDigit (esNiePrefix x) = true := by
  rw [esNiePrefix]
  split_ifs <;> rfl

theorem dniNumber_digits {b c : JsString} (h : DniCheck b c) :
    ∀ u ∈ dniNumber b, isDigit u = true := by
  obtain ⟨⟨x, w, rfl, -, hw⟩, -⟩ := h
  rw [dniNumber, List.headD_cons]
  split_ifs with hx
  · exact List.forall_mem_cons.mpr ⟨hx, hw⟩
  · exact List.forall_mem_cons.mpr ⟨esNiePrefix_digit x, hw⟩

/-- A mistake that leaves a letter a letter is one in the number. -/
theorem dniNumber_replaced {b b' c : JsString} (hb : DniCheck b c) (hb' : DniCheck b' c)
    (hkind : isDigit (b.headD 0) = isDigit (b'.headD 0)) (h : Replaced b b') :
    Replaced (dniNumber b) (dniNumber b') := by
  rw [dniNumber, dniNumber, ← hkind]
  obtain ⟨⟨x, w, rfl, hx, -⟩, -⟩ := hb
  obtain ⟨⟨y, v, rfl, hy, -⟩, -⟩ := hb'
  rw [List.headD_cons] at *
  split_ifs with hdigit
  · exact h
  · rw [List.headD_cons] at *
    have hx := hx.resolve_left hdigit
    have hy := hy.resolve_left (hkind ▸ hdigit)
    rcases replaced_cons h with ⟨hne, rfl⟩ | ⟨rfl, hw⟩
    · refine ⟨[], w, _, _, fun heq => hne ?_, rfl, rfl⟩
      rcases hx with rfl | rfl | rfl <;> rcases hy with rfl | rfl | rfl <;>
        first | rfl | exact absurd heq (by decide)
    · exact hw.append_left [esNiePrefix x]

theorem esDniTable_nodup : esDniTable.Nodup := by decide

theorem catches_esDniValid :
    Catches esDniValid dniText (fun s => isDigit (s.headD 0)) := by
  apply catches_of_check (n := 8) dniCheck_of_valid
  · rintro b c d ⟨-, u, rfl, hu⟩ ⟨-, v, rfl, hv⟩
    rw [Option.some.inj (hu.symm.trans hv)]
  · intro b b' c hb hb' hkind h
    have hnumber := natValue_mod_ne (dniNumber_replaced hb hb' hkind h) (dniNumber_digits hb)
      (dniNumber_digits hb')
    obtain ⟨-, u, rfl, hu⟩ := hb
    obtain ⟨-, v, hv, hv'⟩ := hb'
    obtain rfl := (List.cons.inj hv).1
    exact hnumber ((List.getElem?_inj (Nat.mod_lt _ (by decide)) esDniTable_nodup).mp
      (hu.trans hv'.symm))
  · intro s t h
    cases s <;> cases t <;> exact h

/-- `sgNricValid` removes blanks. -/
def nricText (s : JsString) : JsString := toUpper (without isSpace s)

def nricOffset (letter : UInt16) : ℕ :=
  if letter = 84 ∨ letter = 71 then 4 else if letter = 77 then 3 else 0

def nricTable (letter : UInt16) : JsString :=
  if letter = 83 ∨ letter = 84 then js "JZIHGFEDCBA"
  else if letter = 70 ∨ letter = 71 then js "XWUTRQPNMLK"
  else js "KLJNPQRTUWX"

def NricCheck (b c : JsString) : Prop :=
  ∃ x w, b = x :: w ∧ w.length = 7 ∧ (∀ u ∈ w, isDigit u = true) ∧ ∃ u, c = [u] ∧
    (nricTable x)[(weighted [2, 7, 6, 5, 4, 3, 2] (w.map digitValue) + nricOffset x) % 11]? = some u

theorem nricCheck_of_valid (s : JsString) (h : sgNricValid s = true) :
    NricCheck ((nricText s).take 8) ((nricText s).drop 8) := by
  rw [nricText]
  simp only [sgNricValid, Bool.and_eq_true, isWhole_iff, consumes_cat_cons, consumes_cat_nil,
    consumes_cls, consumes_digits, consumes_upper] at h
  generalize toUpper (without isSpace s) = text at *
  obtain ⟨⟨_, _, rfl, ⟨x, rfl, -⟩, w, _, rfl, ⟨hlength, hw⟩, _, _, rfl, ⟨c, rfl, -⟩, rfl⟩, h⟩ := h
  have hlength' : (x :: w).length = 8 := by simp [hlength]
  simp only [List.append_nil, List.singleton_append, ← List.cons_append, slice,
    List.take_left' hlength', List.drop_left' hlength', beq_iff_eq, getElem?_last hlength',
    List.drop_succ_cons, List.drop_zero] at h ⊢
  exact ⟨x, w, rfl, hlength, hw, c, rfl, h⟩

theorem nricTable_nodup (x : UInt16) : (nricTable x).Nodup ∧ (nricTable x).length = 11 := by
  rw [nricTable]
  split_ifs <;> decide

theorem catches_sgNricValid : Catches sgNricValid nricText List.head? := by
  apply catches_of_check (n := 8) nricCheck_of_valid
  · rintro b c d ⟨x, w, rfl, -, -, u, rfl, hu⟩ ⟨y, v, hb, -, -, u', rfl, hu'⟩
    obtain ⟨rfl, rfl⟩ := List.cons.inj hb
    rw [Option.some.inj (hu.symm.trans hu')]
  · rintro b b' c ⟨x, w, rfl, hlength, hw, u, rfl, hu⟩ ⟨y, v, rfl, -, hv, u', hc, hu'⟩ hkind h
    obtain rfl := (List.cons.inj hc).1
    obtain rfl := Option.some.inj hkind
    have hreplaced := (replaced_cons h).resolve_left fun h => h.1 rfl
    obtain ⟨hnodup, htable⟩ := nricTable_nodup x
    have hsum := (List.getElem?_inj (by rw [htable]; exact Nat.mod_lt _ (by decide)) hnodup).mp
      (hu.trans hu'.symm)
    apply weighted_mod_ne [2, 7, 6, 5, 4, 3, 2] (hreplaced.2.map (eq_of_digitValue_eq hw hv))
      (m := 11) _ _ (by omega)
    · simp [hlength]
    · intro weight hweight x hx y hy heq
      have hx' := map_digitValue_lt hw x hx
      have hy' := map_digitValue_lt hv y hy
      simp only [List.mem_cons, List.not_mem_nil, or_false] at hweight
      rcases hweight with rfl | rfl | rfl | rfl | rfl | rfl | rfl <;> omega
  · intro s t h
    cases s <;> cases t <;> exact h

/-- A digit or a capital letter. -/
def isUpperDigit (c : UInt16) : Bool := isUpper c || isDigit c

/-- `itCodiceFiscaleValid` removes blanks. -/
def cfText (s : JsString) : JsString := toUpper (without isSpace s)

/-- What a character adds to the sum. -/
def itCfTerm (odd : Bool) (c : UInt16) : ℕ :=
  if odd then itCfOdd.getD (itCfIndex c) 0 else itCfEven c

/-- A character at a position, in the residues. -/
def itCfSymbol (odd : Bool) (i : ℕ) (c : UInt16) : Multiplicative (ZMod 26) :=
  Multiplicative.ofAdd (itCfTerm (odd ^^ i % 2 == 1) c : ZMod 26)

theorem word_itCfSymbol (odd : Bool) (i : ℕ) (w : JsString) :
    word (itCfSymbol odd) i w = Multiplicative.ofAdd (itCfSum (odd ^^ i % 2 == 1) w : ZMod 26) := by
  induction w generalizing i with
  | nil => rfl
  | cons c w ih =>
    have hflip : (odd ^^ (i + 1) % 2 == 1) = !(odd ^^ i % 2 == 1) := by
      rcases Nat.mod_two_eq_zero_or_one i with h | h
      · cases odd <;> simp [Nat.add_mod, h]
      · cases odd <;> simp [Nat.add_mod, h]
    rw [word, ih, hflip, itCfSum, Nat.cast_add, ofAdd_add]
    rfl

theorem itCfOdd_lt : ∀ i < 36, itCfOdd.getD i 0 < 26 := by decide

theorem itCfOdd_injective : (∀ i < 10, ∀ j < 10, itCfOdd.getD i 0 = itCfOdd.getD j 0 → i = j) ∧
    ∀ i < 26, ∀ j < 26, itCfOdd.getD (i + 10) 0 = itCfOdd.getD (j + 10) 0 → i = j := by
  decide +kernel

theorem itCfTerm_lt (odd : Bool) {c : UInt16} (h : isUpperDigit c = true) :
    itCfTerm odd c < 26 := by
  rw [itCfTerm, itCfIndex, itCfEven]
  rcases Bool.or_eq_true_iff.mp h with hupper | hdigit
  · have hc := toNat_of_isUpper hupper
    rw [not_isDigit_of_isUpper hupper]
    cases odd
    · simp only [Bool.false_eq_true, if_false]
      omega
    · exact itCfOdd_lt _ (by simp only [Bool.false_eq_true, if_false]; omega)
  · have hc := digitValue_lt hdigit
    rw [hdigit]
    cases odd
    · simp only [Bool.false_eq_true, if_false, if_true]
      omega
    · exact itCfOdd_lt _ (by simp only [if_true]; omega)

theorem itCfTerm_injective (odd : Bool) {c d : UInt16} (hc : isUpperDigit c = true)
    (hd : isUpperDigit d = true) (hkind : isDigit c = isDigit d)
    (h : itCfTerm odd c = itCfTerm odd d) : c = d := by
  rw [itCfTerm, itCfTerm, itCfIndex, itCfIndex, itCfEven, itCfEven, ← hkind] at h
  rw [isUpperDigit] at hc hd
  rw [← hkind] at hd
  cases hdigit : isDigit c with
  | true =>
    simp only [hdigit, if_true] at h
    have hc' := digitValue_lt hdigit
    have hd' := digitValue_lt (hkind ▸ hdigit)
    refine digitValue_injective hdigit (hkind ▸ hdigit) ?_
    cases odd
    · exact h
    · exact itCfOdd_injective.1 _ hc' _ hd' h
  | false =>
    simp only [hdigit, Bool.or_false, Bool.false_eq_true, if_false] at h hc hd
    have hc' := toNat_of_isUpper hc
    have hd' := toNat_of_isUpper hd
    refine UInt16.toNat_inj.mp ?_
    cases odd
    · simp only [Bool.false_eq_true, if_false] at h
      omega
    · have := itCfOdd_injective.2 (c.toNat - 65) (by omega) (d.toNat - 65) (by omega)
        (by rwa [show c.toNat - 65 + 10 = c.toNat - 55 by omega,
          show d.toNat - 65 + 10 = d.toNat - 55 by omega])
      omega

/-- Which characters of the Italian number are digits. -/
def cfKinds : List Bool :=
  List.replicate 6 false ++ List.replicate 2 true ++ [false] ++ List.replicate 2 true ++ [false] ++
    List.replicate 3 true

def CfCheck (b c : JsString) : Prop :=
  (∀ u ∈ b, isUpperDigit u = true) ∧ b.map isDigit = cfKinds ∧
    ∃ u, c = [u] ∧ u.toNat = 65 + itCfSum true b % 26

theorem cfCheck_of_valid (s : JsString) (h : itCodiceFiscaleValid s = true) :
    CfCheck ((cfText s).take 15) ((cfText s).drop 15) := by
  rw [cfText]
  simp only [itCodiceFiscaleValid, Bool.and_eq_true, isWhole_iff, consumes_cat_cons,
    consumes_cat_nil, consumes_digits, consumes_uppers, consumes_upper] at h
  generalize toUpper (without isSpace s) = text at *
  obtain ⟨⟨a, _, rfl, ⟨ha, ha'⟩, b, _, rfl, ⟨hb, hb'⟩, _, _, rfl, ⟨c, rfl, hc⟩,
    d, _, rfl, ⟨hd, hd'⟩, _, _, rfl, ⟨e, rfl, he⟩, f, _, rfl, ⟨hf, hf'⟩, _, _, rfl,
    ⟨u, rfl, -⟩, rfl⟩, h⟩ := h
  have htext : a ++ (b ++ ([c] ++ (d ++ ([e] ++ (f ++ ([u] ++ [])))))) =
      (a ++ b ++ [c] ++ d ++ [e] ++ f) ++ [u] := by
    simp
  have hlength : (a ++ b ++ [c] ++ d ++ [e] ++ f).length = 15 := by
    simp only [List.length_append, ha, hb, hd, hf, List.length_singleton]
  rw [htext] at h ⊢
  rw [List.take_left' hlength, List.drop_left' hlength]
  simp only [slice, List.take_left' hlength, List.drop_zero, getElem?_last hlength, Option.map_some,
    beq_iff_eq, Option.some.injEq] at h
  have hupper : ∀ {n : ℕ} {w : JsString}, w.length = n → (∀ u ∈ w, isUpper u = true) →
      w.map isDigit = List.replicate n false := by
    rintro n w rfl hw
    exact List.map_eq_replicate_iff.mpr fun u hu => not_isDigit_of_isUpper (hw u hu)
  have hdigit : ∀ {n : ℕ} {w : JsString}, w.length = n → (∀ u ∈ w, isDigit u = true) →
      w.map isDigit = List.replicate n true := by
    rintro n w rfl hw
    exact List.map_eq_replicate_iff.mpr hw
  refine ⟨?_, ?_, u, rfl, h.symm⟩
  · simp only [List.mem_append, List.mem_singleton, isUpperDigit, Bool.or_eq_true]
    rintro v (((((hv | hv) | rfl) | hv) | rfl) | hv)
    · exact .inl (ha' v hv)
    · exact .inr (hb' v hv)
    · exact .inl hc
    · exact .inr (hd' v hv)
    · exact .inl he
    · exact .inr (hf' v hv)
  · simp only [List.map_append, hupper ha ha', hdigit hb hb', hdigit hd hd', hdigit hf hf',
      List.map_cons, List.map_nil, not_isDigit_of_isUpper hc, not_isDigit_of_isUpper he, cfKinds]

/-- The kinds of the characters on both sides of a mistake. -/
theorem kind_of_replaced {as bs : JsString} {x y : UInt16}
    (h : (as ++ x :: bs).map isDigit = (as ++ y :: bs).map isDigit) : isDigit x = isDigit y := by
  simpa using h

theorem catches_itCodiceFiscaleValid :
    Catches itCodiceFiscaleValid cfText anyKind := by
  apply catches_of_check (n := 15) cfCheck_of_valid _ _ (fun _ _ _ => rfl)
  · rintro b c d ⟨-, -, u, rfl, hu⟩ ⟨-, -, v, rfl, hv⟩
    rw [UInt16.toNat_inj.mp (hu.trans hv.symm)]
  · rintro b b' c ⟨hb, hkinds, u, rfl, hu⟩ ⟨hb', hkinds', v, hv, hu'⟩ - h
    obtain rfl := (List.cons.inj hv).1
    have hsum : word (itCfSymbol true) 0 b = word (itCfSymbol true) 0 b' := by
      rw [word_itCfSymbol, word_itCfSymbol]
      exact congrArg _ ((ZMod.natCast_eq_natCast_iff' _ _ _).mpr
        (Nat.add_left_cancel (hu.symm.trans hu')))
    obtain ⟨as, bs, x, y, hne, rfl, rfl⟩ := h
    rw [word_replaced_iff] at hsum
    have hx := hb x (by simp)
    have hy := hb' y (by simp)
    have hmod := (ZMod.natCast_eq_natCast_iff' _ _ _).mp (Multiplicative.ofAdd.injective hsum)
    rw [Nat.mod_eq_of_lt (itCfTerm_lt _ hx), Nat.mod_eq_of_lt (itCfTerm_lt _ hy)] at hmod
    exact hne (itCfTerm_injective _ hx hy (kind_of_replaced (hkinds.trans hkinds'.symm)) hmod)

/-- `ibanValid` removes blanks. -/
def ibanText (s : JsString) : JsString := toUpper (without isSpace s)

/-- The remainder after one more character. -/
def ibanStep (r : ℕ) (c : UInt16) : ℕ := mod97 r (ibanDigits c)

theorem mod97_flatMap (r : ℕ) (w : JsString) :
    mod97 r (w.flatMap ibanDigits) = w.foldl ibanStep r := by
  induction w generalizing r with
  | nil => rfl
  | cons c w ih =>
    rw [List.flatMap_cons, mod97, List.foldl_append, List.foldl_cons, ibanStep, ← ih]
    rfl

theorem ibanStep_digit {c : UInt16} (h : isDigit c = true) (r : ℕ) :
    ibanStep r c = (r * 10 + digitValue c) % 97 := by
  rw [ibanStep, ibanDigits, if_pos h]
  rfl

theorem ibanStep_upper {c : UInt16} (h : isUpper c = true) (r : ℕ) :
    ibanStep r c = (r * 100 + (c.toNat - 55)) % 97 := by
  rw [ibanStep, ibanDigits, if_neg (by simp [not_isDigit_of_isUpper h])]
  simp only [mod97, List.foldl_cons, List.foldl_nil]
  omega

theorem ibanStep_state {c : UInt16} (h : isUpperDigit c = true) {r r' : ℕ} (hr : r < 97)
    (hr' : r' < 97) (heq : ibanStep r c = ibanStep r' c) : r = r' := by
  rcases Bool.or_eq_true_iff.mp h with hupper | hdigit
  · rw [ibanStep_upper hupper, ibanStep_upper hupper] at heq
    omega
  · rw [ibanStep_digit hdigit, ibanStep_digit hdigit] at heq
    omega

theorem ibanStep_injective {c d : UInt16} (hc : isUpperDigit c = true) (hd : isUpperDigit d = true)
    (hkind : isDigit c = isDigit d) {r : ℕ} (h : ibanStep r c = ibanStep r d) : c = d := by
  rw [isUpperDigit] at hc hd
  rw [← hkind] at hd
  cases hdigit : isDigit c with
  | true =>
    have hd' := hkind ▸ hdigit
    rw [ibanStep_digit hdigit, ibanStep_digit hd'] at h
    have := digitValue_lt hdigit
    have := digitValue_lt hd'
    exact digitValue_injective hdigit hd' (by omega)
  | false =>
    simp only [hdigit, Bool.or_false] at hc hd
    rw [ibanStep_upper hc, ibanStep_upper hd] at h
    have := toNat_of_isUpper hc
    have := toNat_of_isUpper hd
    exact UInt16.toNat_inj.mp (by omega)

theorem inSet_upperDigit (c : UInt16) :
    inSet false [(65, 90), (48, 57)] false c = isUpperDigit c := by
  simp [inSet, inRanges, isUpperDigit, isUpper, isDigit]

theorem iban_of_valid {s : JsString} (h : ibanValid s = true) :
    (∀ c ∈ ibanText s, isUpperDigit c = true) ∧
      ((ibanText s).drop 4 ++ (ibanText s).take 4).foldl ibanStep 0 = 1 := by
  rw [ibanText]
  simp only [ibanValid, Bool.and_eq_true, isWhole_iff, consumes_cat_cons, consumes_cat_nil,
    consumes_digits, consumes_uppers, mod97_flatMap, beq_iff_eq] at h
  generalize toUpper (without isSpace s) = text at *
  obtain ⟨⟨a, _, rfl, ⟨-, ha⟩, b, _, rfl, ⟨-, hb⟩, c, _, rfl, hc, rfl⟩, h⟩ := h
  rw [between, upperDigit, cls, consumes_rep_set_le (by decide)] at hc
  refine ⟨?_, h⟩
  simp only [List.append_nil, List.mem_append, isUpperDigit, Bool.or_eq_true]
  rintro v (hv | hv | hv)
  · exact .inl (ha v hv)
  · exact .inr (hb v hv)
  · rw [← Bool.or_eq_true]
    exact (inSet_upperDigit v).symm.trans (hc.2 v hv)

/-- The first four characters move to the end, mistake and all. -/
theorem replaced_rotate {α : Type} {s t : List α} (h : Replaced s t) (n : ℕ) :
    Replaced (s.drop n ++ s.take n) (t.drop n ++ t.take n) := by
  rcases h.split n with ⟨hfront, hback⟩ | ⟨hfront, hback⟩
  · rw [hback]
    exact hfront.append_left _
  · rw [hfront]
    exact hback.append_right _

theorem catches_ibanValid : Catches ibanValid ibanText (List.map isDigit) := by
  intro s t hs hkind hreplaced
  by_contra ht
  rw [Bool.not_eq_false] at ht
  obtain ⟨hchars, hsum⟩ := iban_of_valid hs
  obtain ⟨hchars', hsum'⟩ := iban_of_valid ht
  have hmem : ∀ u : JsString, ∀ c ∈ u.drop 4 ++ u.take 4, c ∈ u := fun u c hc =>
    (List.mem_append.mp hc).elim List.mem_of_mem_drop List.mem_of_mem_take
  apply (replaced_rotate hreplaced 4).foldl_ne (P := (· < 97)) (D := fun c => isUpperDigit c = true)
    _ _ _ (fun c hc => hchars c (hmem _ c hc)) (fun c hc => hchars' c (hmem _ c hc)) (by decide)
    (hsum.trans hsum'.symm)
  · intro r c hr hc
    rcases Bool.or_eq_true_iff.mp hc with hupper | hdigit
    · rw [ibanStep_upper hupper]
      exact Nat.mod_lt _ (by decide)
    · rw [ibanStep_digit hdigit]
      exact Nat.mod_lt _ (by decide)
  · exact fun c r r' hc hr hr' => ibanStep_state hc hr hr'
  · intro as bs x y hx hy r _ heq
    have hrotated : ((ibanText s).drop 4 ++ (ibanText s).take 4).map isDigit =
        ((ibanText t).drop 4 ++ (ibanText t).take 4).map isDigit := by
      rw [List.map_append, List.map_append, List.map_drop, List.map_drop, List.map_take,
        List.map_take, hkind]
    rw [hx, hy] at hrotated
    exact ibanStep_injective (hchars x (hmem _ x (by simp [hx])))
      (hchars' y (hmem _ y (by simp [hy]))) (kind_of_replaced hrotated) heq

/-! ### The French number -/

theorem mod97_append (r : ℕ) (ds es : List ℕ) : mod97 r (ds ++ es) = mod97 (mod97 r ds) es :=
  List.foldl_append

theorem mod97_lt {r : ℕ} (hr : r < 97) {ds : List ℕ} (hds : ∀ d ∈ ds, d < 10) : mod97 r ds < 97 :=
  foldl_mem (P := (· < 97)) (fun _ _ _ _ => Nat.mod_lt _ (by decide)) hds hr

theorem mod97_injective {r r' : ℕ} (hr : r < 97) (hr' : r' < 97) {ds : List ℕ}
    (hds : ∀ d ∈ ds, d < 10) (h : mod97 r ds = mod97 r' ds) : r = r' :=
  foldl_injective (P := (· < 97)) (D := (· < 10)) (fun _ _ _ _ => Nat.mod_lt _ (by decide))
    (fun d r r' _ hr hr' heq => by omega) hds hr hr' h

/-- `frNirValid` removes blanks, dots and hyphens. -/
def nirText (s : JsString) : JsString :=
  toUpper (without (fun c => isSpace c || c == 46 || c == 45) s)

def nirBody (b : JsString) : JsString :=
  replaceFirst (js "2B") (js "18") (replaceFirst (js "2A") (js "19") b)

def NirDept (d : JsString) : Prop := (∀ u ∈ d, isDigit u = true) ∨ d = js "2A" ∨ d = js "2B"

/-- The department as a number. -/
def nirDept (d : JsString) : JsString :=
  if d = js "2A" then js "19" else if d = js "2B" then js "18" else d

theorem replaceFirst_digits {x : UInt16} (hx : isDigit x = false) (sub : JsString) {w : JsString}
    (hw : ∀ u ∈ w, isDigit u = true) (rest : JsString) (hrest : rest.head? ≠ some x) :
    replaceFirst [50, x] sub (w ++ rest) = w ++ replaceFirst [50, x] sub rest := by
  induction w with
  | nil => rfl
  | cons c w ih =>
    have hnone : stripPrefix [50, x] (c :: (w ++ rest)) = none := by
      rw [Option.eq_none_iff_forall_ne_some]
      intro r hr
      have hhead := (List.cons.inj (stripPrefix_eq_some.mp hr)).2
      cases w with
      | nil => exact hrest (by rw [show rest = x :: r from hhead]; rfl)
      | cons d w =>
        obtain rfl := (List.cons.inj hhead).1
        rw [hw d (by simp)] at hx
        cases hx
    rw [List.cons_append, replaceFirst, hnone, ih fun u hu => hw u (List.mem_cons_of_mem _ hu)]
    rfl

theorem replaceFirst_all_digits {x : UInt16} (hx : isDigit x = false) (sub : JsString)
    {w : JsString} (hw : ∀ u ∈ w, isDigit u = true) : replaceFirst [50, x] sub w = w := by
  have h := replaceFirst_digits hx sub hw [] (by simp)
  rwa [List.append_nil, replaceFirst, List.append_nil] at h

theorem replaceFirst_found (p sub rest : JsString) (hp : p ≠ []) :
    replaceFirst p sub (p ++ rest) = sub ++ rest := by
  obtain ⟨c, p, rfl⟩ := List.exists_cons_of_ne_nil hp
  rw [List.cons_append, replaceFirst, ← List.cons_append, stripPrefix_append]

theorem nirBody_eq {p d e : JsString} (hp : ∀ u ∈ p, isDigit u = true) (hd : NirDept d)
    (he : ∀ u ∈ e, isDigit u = true) : nirBody (p ++ d ++ e) = p ++ nirDept d ++ e := by
  have hjoin : ∀ w, (∀ u ∈ w, isDigit u = true) → ∀ u ∈ p ++ (w ++ e), isDigit u = true := by
    intro w hw u hu
    rcases List.mem_append.mp hu with hu | hu
    · exact hp u hu
    · exact (List.mem_append.mp hu).elim (hw u) (he u)
  rw [nirBody, List.append_assoc, List.append_assoc, nirDept]
  rcases hd with hd | rfl | rfl
  · rw [show js "2A" = [50, 65] from rfl, show js "2B" = [50, 66] from rfl,
      replaceFirst_all_digits rfl _ (hjoin d hd), replaceFirst_all_digits rfl _ (hjoin d hd)]
    split_ifs with ha hb
    · exact absurd (hd 65 (by simp [ha])) (by decide)
    · exact absurd (hd 66 (by simp [hb])) (by decide)
    · rfl
  · have hfirst : replaceFirst (js "2A") (js "19") (p ++ (js "2A" ++ e)) = p ++ (js "19" ++ e) := by
      rw [show js "2A" = [50, 65] from rfl, replaceFirst_digits rfl _ hp _ (by simp),
        replaceFirst_found _ _ _ (by simp)]
    rw [hfirst, if_pos rfl, show js "2B" = [50, 66] from rfl,
      replaceFirst_all_digits rfl _ (hjoin _ (by decide))]
  · have hfirst : replaceFirst (js "2A") (js "19") (p ++ (js "2B" ++ e)) = p ++ (js "2B" ++ e) := by
      have hskip : replaceFirst [50, 65] (js "19") (50 :: 66 :: e) =
          50 :: 66 :: replaceFirst [50, 65] (js "19") e := rfl
      rw [show js "2A" = [50, 65] from rfl, show js "2B" ++ e = 50 :: 66 :: e from rfl,
        replaceFirst_digits rfl _ hp _ (by simp), hskip, replaceFirst_all_digits rfl _ he]
    rw [hfirst, if_neg (by decide), if_pos rfl, show js "2B" = [50, 66] from rfl,
      replaceFirst_digits rfl _ hp _ (by simp), replaceFirst_found _ _ _ (by simp)]

theorem nirDept_digits {d : JsString} (h : NirDept d) : ∀ u ∈ nirDept d, isDigit u = true := by
  rw [nirDept]
  split_ifs with ha hb
  · decide
  · decide
  · rcases h with h | rfl | rfl
    · exact h
    · exact absurd rfl ha
    · exact absurd rfl hb

theorem mod97_pair (r a b : ℕ) : mod97 r [a, b] = (r * 100 + a * 10 + b) % 97 := by
  simp only [mod97, List.foldl_cons, List.foldl_nil]
  omega

/-- A department with a letter, next to one without: the first digit is that of Corsica. -/
theorem dept_of_replaced {y : UInt16} {d : JsString} (hy : isDigit y = false)
    (hd : ∀ u ∈ d, isDigit u = true) (h : Replaced [50, y] d) :
    ∃ v, d = [50, v] ∧ isDigit v = true := by
  match d, h.length_eq with
  | [u, v], _ =>
    rcases replaced_cons h with ⟨-, hyv⟩ | ⟨rfl, -⟩
    · rw [(List.cons.inj hyv).1, hd v (by simp)] at hy
      cases hy
    · exact ⟨v, rfl, hd v (by simp)⟩

/-- The number behind a department tells it from one with a character replaced. -/
theorem mod97_nirDept_ne {d d' : JsString} (hd : NirDept d) (hd' : NirDept d') (h : Replaced d d')
    {r : ℕ} (hr : r < 97) :
    mod97 r ((nirDept d).map digitValue) ≠ mod97 r ((nirDept d').map digitValue) := by
  -- the Corsican numbers lie below those of any other department that begins alike
  have hletter : ∀ {d d' : JsString} (y : UInt16), isDigit y = false → d = [50, y] →
      d = js "2A" ∨ d = js "2B" → (∀ u ∈ d', isDigit u = true) → Replaced d d' →
      mod97 r ((nirDept d).map digitValue) ≠ mod97 r ((nirDept d').map digitValue) := by
    rintro d d' y hy rfl hcorsica hd' h
    obtain ⟨v, rfl, hv⟩ := dept_of_replaced hy hd' h
    have hv' := digitValue_lt hv
    have hother : nirDept [50, v] = [50, v] := by
      rw [nirDept, if_neg, if_neg]
      · rintro heq
        rw [(List.cons.inj (List.cons.inj heq).2).1] at hv
        cases hv
      · rintro heq
        rw [(List.cons.inj (List.cons.inj heq).2).1] at hv
        cases hv
    rw [hother, List.map_cons, List.map_cons, List.map_nil, show digitValue 50 = 2 from rfl]
    rcases hcorsica with heq | heq
    · rw [heq, show (nirDept (js "2A")).map digitValue = [1, 9] from rfl, mod97_pair, mod97_pair]
      omega
    · rw [heq, show (nirDept (js "2B")).map digitValue = [1, 8] from rfl, mod97_pair, mod97_pair]
      omega
  have hplain : ∀ {d : JsString}, (∀ u ∈ d, isDigit u = true) → nirDept d = d := by
    intro d hd
    rw [nirDept, if_neg, if_neg]
    · rintro rfl
      exact absurd (hd 66 (by decide)) (by decide)
    · rintro rfl
      exact absurd (hd 65 (by decide)) (by decide)
  have htwo : ((nirDept (js "2A")).map digitValue) = [1, 9] := rfl
  have htwo' : ((nirDept (js "2B")).map digitValue) = [1, 8] := rfl
  rcases hd with hd | rfl | rfl
  · rcases hd' with hd' | rfl | rfl
    · rw [hplain hd, hplain hd']
      exact mod97_ne (h.map (eq_of_digitValue_eq hd hd')) (map_digitValue_lt hd)
        (map_digitValue_lt hd') hr
    · exact (hletter 65 rfl rfl (.inl rfl) hd h.symm).symm
    · exact (hletter 66 rfl rfl (.inr rfl) hd h.symm).symm
  · rcases hd' with hd' | rfl | rfl
    · exact hletter 65 rfl rfl (.inl rfl) hd' h
    · exact absurd h (not_replaced_self _)
    · rw [htwo, htwo', mod97_pair, mod97_pair]
      omega
  · rcases hd' with hd' | rfl | rfl
    · exact hletter 66 rfl rfl (.inr rfl) hd' h
    · rw [htwo, htwo', mod97_pair, mod97_pair]
      omega
    · exact absurd h (not_replaced_self _)

def NirCheck (b c : JsString) : Prop :=
  (∃ p d e, b = p ++ d ++ e ∧ p.length = 5 ∧ d.length = 2 ∧ (∀ u ∈ p, isDigit u = true) ∧
    NirDept d ∧ ∀ u ∈ e, isDigit u = true) ∧
  c.length = 2 ∧ (∀ u ∈ c, isDigit u = true) ∧
    97 - mod97 0 ((nirBody b).map digitValue) = natValue c

theorem nirMonth_digits {left w rest : JsString}
    (h : Consumes false (oneOf [times 2 digit, cat [unit 48, cls [(49, 57)]],
      cat [unit 49, cls [(48, 50)]], text (js "20")]) left w rest) :
    w.length = 2 ∧ ∀ u ∈ w, isDigit u = true := by
  simp only [consumes_oneOf (List.cons_ne_nil _ _), List.mem_cons, List.not_mem_nil, or_false,
    exists_eq_or_imp, exists_eq_left, consumes_digits, consumes_cat_cons, consumes_cat_nil,
    consumes_unit, consumes_cls, consumes_text] at h
  rcases h with h | ⟨_, _, rfl, rfl, _, _, rfl, ⟨c, rfl, hc⟩, rfl⟩ |
    ⟨_, _, rfl, rfl, _, _, rfl, ⟨c, rfl, hc⟩, rfl⟩ | rfl
  · exact h
  · exact ⟨rfl, by simp [isDigit_of_inSet (by decide) (by decide) hc]; rfl⟩
  · exact ⟨rfl, by simp [isDigit_of_inSet (by decide) (by decide) hc]; rfl⟩
  · decide

theorem nirDept_of_consumes {left w rest : JsString}
    (h : Consumes false (oneOf [times 2 digit, cat [unit 50, cls [(65, 66)]]]) left w rest) :
    w.length = 2 ∧ NirDept w := by
  simp only [consumes_oneOf (List.cons_ne_nil _ _), List.mem_cons, List.not_mem_nil, or_false,
    exists_eq_or_imp, exists_eq_left, consumes_digits, consumes_cat_cons, consumes_cat_nil,
    consumes_unit, consumes_cls] at h
  rcases h with ⟨hlength, h⟩ | ⟨_, _, rfl, rfl, _, _, rfl, ⟨c, rfl, hc⟩, rfl⟩
  · exact ⟨hlength, .inl h⟩
  · have hrange : 65 ≤ c.toNat ∧ c.toNat ≤ 66 := by
      simpa [inSet, inRanges, UInt16.le_iff_toNat_le] using hc
    have hcases : c.toNat = 65 ∨ c.toNat = 66 := by omega
    have hc : c = 65 ∨ c = 66 := hcases.imp UInt16.toNat_inj.mp UInt16.toNat_inj.mp
    rcases hc with rfl | rfl
    · exact ⟨rfl, .inr (.inl rfl)⟩
    · exact ⟨rfl, .inr (.inr rfl)⟩

theorem nirCheck_of_valid (s : JsString) (h : frNirValid s = true) :
    NirCheck ((nirText s).take 13) ((nirText s).drop 13) := by
  rw [nirText]
  simp only [frNirValid, Bool.and_eq_true, isWhole_iff, consumes_cat_cons, consumes_cat_nil,
    consumes_cls, consumes_digits, beq_iff_eq] at h
  generalize toUpper (without (fun c => isSpace c || c == 46 || c == 45) s) = text at *
  obtain ⟨⟨⟨_, _, rfl, ⟨x, rfl, hx⟩, a, _, rfl, ⟨ha, ha'⟩, m, _, rfl, hm, d, _, rfl, hd, e, _, rfl,
    ⟨he, he'⟩, c, _, rfl, ⟨hc, hc'⟩, rfl⟩, -⟩, hkey⟩ := h
  obtain ⟨hm, hm'⟩ := nirMonth_digits hm
  obtain ⟨hd, hd'⟩ := nirDept_of_consumes hd
  have hx := isDigit_of_inSet (by decide) (by decide) hx
  have htext : [x] ++ (a ++ (m ++ (d ++ (e ++ (c ++ []))))) = ([x] ++ a ++ m) ++ d ++ e ++ c := by
    simp
  have hfront : ([x] ++ a ++ m).length = 5 := by simp [ha, hm]
  have hlength : (([x] ++ a ++ m) ++ d ++ e).length = 13 := by
    rw [List.length_append, List.length_append, hfront, hd, he]
  rw [htext] at hkey ⊢
  rw [slice, List.drop_zero, List.take_left' hlength, List.drop_left' hlength] at hkey
  rw [List.take_left' hlength, List.drop_left' hlength]
  refine ⟨⟨_, d, e, rfl, hfront, hd, ?_, hd', he'⟩, hc, hc', hkey⟩
  simp only [List.mem_append, List.mem_singleton]
  rintro v ((rfl | hv) | hv)
  · exact hx
  · exact ha' v hv
  · exact hm' v hv

/-- The remainder of the number under the body. -/
theorem mod97_nirBody {p d e : JsString} (hp : ∀ u ∈ p, isDigit u = true) (hd : NirDept d)
    (he : ∀ u ∈ e, isDigit u = true) : mod97 0 ((nirBody (p ++ d ++ e)).map digitValue) =
      mod97 (mod97 (mod97 0 (p.map digitValue)) ((nirDept d).map digitValue))
        (e.map digitValue) := by
  rw [nirBody_eq hp hd he, List.map_append, List.map_append, mod97_append, mod97_append]

theorem natValue_pair {c d : JsString} (hc : c.length = 2) (hd : d.length = 2)
    (hc' : ∀ u ∈ c, isDigit u = true) (hd' : ∀ u ∈ d, isDigit u = true)
    (h : natValue c = natValue d) : c = d := by
  match c, hc, d, hd with
  | [a, b], _, [a', b'], _ =>
    have ha := digitValue_lt (hc' a (by simp))
    have hb := digitValue_lt (hc' b (by simp))
    have ha' := digitValue_lt (hd' a' (by simp))
    have hb' := digitValue_lt (hd' b' (by simp))
    have hvalue : ∀ u v, natValue [u, v] = 10 * digitValue u + digitValue v := fun u v => by
      simp [natValue, digitValue]
    rw [hvalue, hvalue] at h
    rw [digitValue_injective (hc' a (by simp)) (hd' a' (by simp)) (by omega),
      digitValue_injective (hc' b (by simp)) (hd' b' (by simp)) (by omega)]

theorem mod97_nirBody_ne {b b' c : JsString} (hb : NirCheck b c) (hb' : NirCheck b' c)
    (h : Replaced b b') :
    mod97 0 ((nirBody b).map digitValue) ≠ mod97 0 ((nirBody b').map digitValue) := by
  obtain ⟨⟨p, d, e, rfl, hlp, hld, hp, hd, he⟩, -⟩ := hb
  obtain ⟨⟨p', d', e', rfl, hlp', hld', hp', hd', he'⟩, -⟩ := hb'
  have hstart := mod97_lt (r := 0) (by decide) (map_digitValue_lt hp)
  have hend := map_digitValue_lt he
  have hmiddle := map_digitValue_lt (nirDept_digits hd)
  rw [mod97_nirBody hp hd he, mod97_nirBody hp' hd' he']
  rw [List.append_assoc, List.append_assoc] at h
  -- the mistake is in front, in the department or behind it
  rcases h.split 5 with ⟨hfront, hback⟩ | ⟨hfront, hback⟩
  · rw [List.take_left' hlp, List.take_left' hlp'] at hfront
    rw [List.drop_left' hlp, List.drop_left' hlp'] at hback
    obtain ⟨rfl, rfl⟩ := List.append_inj hback (hld.trans hld'.symm)
    intro heq
    have hstart' := mod97_lt (r := 0) (by decide) (map_digitValue_lt hp')
    exact mod97_ne (hfront.map (eq_of_digitValue_eq hp hp')) (map_digitValue_lt hp)
      (map_digitValue_lt hp') (by decide) (mod97_injective hstart hstart' hmiddle
        (mod97_injective (mod97_lt hstart hmiddle) (mod97_lt hstart' hmiddle) hend heq))
  · rw [List.take_left' hlp, List.take_left' hlp'] at hfront
    rw [List.drop_left' hlp, List.drop_left' hlp'] at hback
    subst hfront
    rcases hback.split 2 with ⟨hdept, hrest⟩ | ⟨hdept, hrest⟩
    · rw [List.take_left' hld, List.take_left' hld'] at hdept
      rw [List.drop_left' hld, List.drop_left' hld'] at hrest
      subst hrest
      intro heq
      exact mod97_nirDept_ne hd hd' hdept hstart (mod97_injective (mod97_lt hstart hmiddle)
        (mod97_lt hstart (map_digitValue_lt (nirDept_digits hd'))) hend heq)
    · rw [List.take_left' hld, List.take_left' hld'] at hdept
      rw [List.drop_left' hld, List.drop_left' hld'] at hrest
      subst hdept
      exact mod97_ne (hrest.map (eq_of_digitValue_eq he he')) hend (map_digitValue_lt he')
        (mod97_lt hstart hmiddle)

theorem mod97_nirBody_lt {b c : JsString} (h : NirCheck b c) :
    mod97 0 ((nirBody b).map digitValue) < 97 := by
  obtain ⟨⟨p, d, e, rfl, -, -, hp, hd, he⟩, -⟩ := h
  rw [mod97_nirBody hp hd he]
  exact mod97_lt (mod97_lt (mod97_lt (by decide) (map_digitValue_lt hp))
    (map_digitValue_lt (nirDept_digits hd))) (map_digitValue_lt he)

theorem catches_frNirValid : Catches frNirValid nirText anyKind := by
  apply catches_of_check (n := 13) nirCheck_of_valid _ _ (fun _ _ _ => rfl)
  · rintro b c d ⟨-, hc, hc', hkey⟩ ⟨-, hd, hd', hkey'⟩
    exact natValue_pair hc hd hc' hd' (hkey.symm.trans hkey')
  · rintro b b' c hb hb' - h
    have hlt := mod97_nirBody_lt hb
    have hlt' := mod97_nirBody_lt hb'
    have hkey := hb.2.2.2.trans hb'.2.2.2.symm
    exact mod97_nirBody_ne hb hb' h (by omega)

end Letters

/-! ### What is caught -/

/-- The residue that the last digit of a Korean number is computed from. -/
def rrnResidue (s : JsString) : ℕ := weighted [2, 3, 4, 5, 6, 7, 8, 9, 2, 3, 4, 5] (digitsIn s) % 11

/-- The residue that the last digit of a Japanese number is computed from. -/
def myNumberResidue (s : JsString) : ℕ :=
  weighted [6, 5, 4, 3, 2, 7, 6, 5, 4, 3, 2] (digitsIn s) % 11

/-- The residue of the digits in front, and the last digit, of two numbers with one digit
replaced: one of the two differs. -/
theorem residue_of_replaced (weights : List ℕ) {ds es : List ℕ} (h : Replaced ds es)
    (hds : ∀ d ∈ ds, d < 10) (hes : ∀ e ∈ es, e < 10) (hlength : ds.length = weights.length + 1)
    (hweights : ∀ w ∈ weights, 2 ≤ w ∧ w ≤ 9) :
    ds[weights.length]? = es[weights.length]? ∧
        weighted weights ds % 11 ≠ weighted weights es % 11 ∨
      ds[weights.length]? ≠ es[weights.length]? ∧
        weighted weights ds % 11 = weighted weights es % 11 := by
  rw [← weighted_take weights ds, ← weighted_take weights es]
  have hlast : ∀ l : List ℕ, l[weights.length]? = (l.drop weights.length)[0]? := fun l => by
    rw [List.getElem?_drop, Nat.add_zero]
  rw [hlast, hlast]
  rcases h.split weights.length with ⟨hfront, hback⟩ | ⟨hfront, hback⟩
  · refine .inl ⟨by rw [hback], weighted_mod_ne _ hfront (by simp [hlength]) ?_⟩
    intro w hw x hx y hy heq
    have := hds x (List.mem_of_mem_take hx)
    have := hes y (List.mem_of_mem_take hy)
    obtain ⟨hlow, hhigh⟩ := hweights w hw
    interval_cases w <;> omega
  · refine .inr ⟨?_, by rw [hfront]⟩
    have hone : (ds.drop weights.length).length = 1 := by simp [hlength]
    obtain ⟨u, hu⟩ := List.length_eq_one_iff.mp hone
    obtain ⟨v, hv⟩ := List.length_eq_one_iff.mp (hback.length_eq.symm.trans hone)
    rw [hu, hv] at hback ⊢
    intro heq
    rw [Option.some.inj heq] at hback
    exact not_replaced_self _ hback

theorem digitsIn_lt (s : JsString) : ∀ d ∈ digitsIn s, d < 10 :=
  map_digitValue_lt fun _ hc => (List.mem_filter.mp hc).2

theorem digitsIn_replaced {s t : JsString} (h : Replaced (s.filter isDigit) (t.filter isDigit)) :
    Replaced (digitsIn s) (digitsIn t) :=
  h.map (eq_of_digitValue_eq (fun _ hc => (List.mem_filter.mp hc).2)
    fun _ hc => (List.mem_filter.mp hc).2)

theorem krRrnValid_iff {s : JsString} : krRrnValid s = true ↔
    (digitsIn s).length = 13 ∧ (digitsIn s)[12]? = some ((11 - rrnResidue s) % 10) := by
  rw [krRrnValid, rrnResidue, Bool.and_eq_true, beq_iff_eq, beq_iff_eq]
  refine and_congr_right fun hlength => ?_
  rw [List.getD_eq_getElem _ _ (by omega), List.getElem?_eq_getElem (by omega), Option.some.injEq,
    eq_comm]

theorem jpMyNumberValid_iff {s : JsString} : jpMyNumberValid s = true ↔ (digitsIn s).length = 12 ∧
    (digitsIn s)[11]? = some (if myNumberResidue s ≤ 1 then 0 else 11 - myNumberResidue s) := by
  rw [jpMyNumberValid, myNumberResidue, Bool.and_eq_true, beq_iff_eq, beq_iff_eq]
  refine and_congr_right fun hlength => ?_
  rw [List.getD_eq_getElem _ _ (by omega), List.getElem?_eq_getElem (by omega), Option.some.injEq,
    eq_comm]

/-- The two checks give two residues one digit. A digit replaced next to a number that one of
them takes stays unseen exactly where the digits in front go from one of these to the other. -/
theorem residueChecks_miss (s t : JsString)
    (h : Replaced (s.filter isDigit) (t.filter isDigit)) :
    (krRrnValid s = true → (krRrnValid t = true ↔
        rrnResidue s = 0 ∧ rrnResidue t = 10 ∨ rrnResidue s = 10 ∧ rrnResidue t = 0)) ∧
      (jpMyNumberValid s = true → (jpMyNumberValid t = true ↔
        myNumberResidue s = 0 ∧ myNumberResidue t = 1 ∨
          myNumberResidue s = 1 ∧ myNumberResidue t = 0)) := by
  have hdigits := digitsIn_replaced h
  have hlength := hdigits.length_eq
  constructor
  · rw [krRrnValid_iff, krRrnValid_iff, ← hlength]
    rintro ⟨hs, hcheck⟩
    have hcases := residue_of_replaced [2, 3, 4, 5, 6, 7, 8, 9, 2, 3, 4, 5] hdigits
      (digitsIn_lt s) (digitsIn_lt t) hs (by decide)
    rw [← rrnResidue, ← rrnResidue, show [2, 3, 4, 5, 6, 7, 8, 9, 2, 3, 4, 5].length = 12 from rfl,
      hcheck] at hcases
    have hlt : rrnResidue s < 11 := Nat.mod_lt _ (by decide)
    have hlt' : rrnResidue t < 11 := Nat.mod_lt _ (by decide)
    rcases hcases with ⟨hlast, hne⟩ | ⟨hlast, heq⟩
    · rw [← hlast, Option.some.injEq]
      omega
    · rw [← heq]
      constructor
      · exact fun h => absurd h.2.symm hlast
      · omega
  · rw [jpMyNumberValid_iff, jpMyNumberValid_iff, ← hlength]
    rintro ⟨hs, hcheck⟩
    have hcases := residue_of_replaced [6, 5, 4, 3, 2, 7, 6, 5, 4, 3, 2] hdigits
      (digitsIn_lt s) (digitsIn_lt t) hs (by decide)
    rw [← myNumberResidue, ← myNumberResidue,
      show [6, 5, 4, 3, 2, 7, 6, 5, 4, 3, 2].length = 11 from rfl, hcheck] at hcases
    have hlt : myNumberResidue s < 11 := Nat.mod_lt _ (by decide)
    have hlt' : myNumberResidue t < 11 := Nat.mod_lt _ (by decide)
    rcases hcases with ⟨hlast, hne⟩ | ⟨hlast, heq⟩
    · rw [← hlast, Option.some.injEq]
      split_ifs <;> omega
    · rw [← heq]
      constructor
      · exact fun h => absurd h.2.symm hlast
      · omega

/-- The last digit in front mistyped, in a Korean and in a Japanese number. -/
theorem residueChecks_miss_numbers :
    krRrnValid (js "900101-1234071") = true ∧ jpMyNumberValid (js "123456789000") = true := by
  have hrrn : Replaced ((js "900101-1234051").filter isDigit)
      ((js "900101-1234071").filter isDigit) :=
    ⟨js "90010112340", js "1", 53, 55, by decide, by decide, by decide⟩
  have hmyNumber : Replaced ((js "123456789050").filter isDigit)
      ((js "123456789000").filter isDigit) :=
    ⟨js "1234567890", js "0", 53, 48, by decide, by decide, by decide⟩
  exact ⟨((residueChecks_miss _ _ hrrn).1 (by decide)).mpr (.inl (by decide)),
    ((residueChecks_miss _ _ hmyNumber).2 (by decide)).mpr (.inl (by decide))⟩

end Haechi.Filter
