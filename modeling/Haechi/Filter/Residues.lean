import Haechi.Filter.CheckDigits
import Haechi.Text.Matching
import Mathlib.Data.List.GetD

/-! One wrong digit in an identity number. Each check is a residue that the digits in front of it
must agree with, and the residue changes with each of them. Proved: the validators for numbers
of digits alone accept none with one digit replaced next to the number itself. -/

namespace Haechi.Filter

open Text Regex CheckDigit

/-! ### Formats -/

section Format

variable {ranges : List (UInt16 × UInt16)} {left w rest s : JsString} {n : ℕ}

/-- A class a given number of times. -/
theorem consumes_times : Consumes false (times n (cls ranges)) left w rest ↔
    w.length = n ∧ ∀ c ∈ w, inSet false ranges false c = true := by
  rw [times, cls, consumes_rep_set_le le_rfl, and_comm (a := n ≤ w.length), ← le_antisymm_iff]

theorem consumes_cls : Consumes false (cls ranges) left w rest ↔
    ∃ c, w = [c] ∧ inSet false ranges false c = true := consumes_set

theorem isWhole_iff {r : Regex} : isWhole r s = true ↔ Consumes false r [] s [] := isMatch_iff

/-- A class of some digits. -/
theorem isDigit_of_inSet {lo hi c : UInt16} (hlo : 48 ≤ lo) (hhi : hi ≤ 57)
    (h : inSet false [(lo, hi)] false c = true) : isDigit c = true := by
  simp only [inSet, inRanges, List.any_cons, List.any_nil, Bool.or_false, Bool.false_and,
    Bool.bne_false, Bool.and_eq_true, decide_eq_true_eq] at h
  simp only [isDigit, Bool.and_eq_true, decide_eq_true_eq]
  exact ⟨UInt16.le_trans hlo h.1, UInt16.le_trans h.2 hhi⟩

theorem inSet_digit (c : UInt16) : inSet false [(48, 57)] false c = isDigit c := by
  simp [inSet, inRanges, isDigit]

theorem consumes_digits : Consumes false (times n digit) left w rest ↔
    w.length = n ∧ ∀ c ∈ w, isDigit c = true := by
  simp only [digit, consumes_times, inSet_digit]

/-- A capital letter. -/
def isUpper (c : UInt16) : Bool := 65 ≤ c && c ≤ 90

theorem inSet_upper (c : UInt16) : inSet false [(65, 90)] false c = isUpper c := by
  simp [inSet, inRanges, isUpper]

theorem consumes_uppers : Consumes false (times n upper) left w rest ↔
    w.length = n ∧ ∀ c ∈ w, isUpper c = true := by
  simp only [upper, consumes_times, inSet_upper]

theorem consumes_upper : Consumes false upper left w rest ↔ ∃ c, w = [c] ∧ isUpper c = true := by
  simp only [upper, consumes_cls, inSet_upper]

end Format

/-! ### Residues -/

/-- A weighted sum over the residues, digit by digit. -/
theorem word_weighted {m : ℕ} (weights ds : List ℕ) (i : ℕ) :
    word (fun i d => Multiplicative.ofAdd ((weights.getD i 0 * d : ℕ) : ZMod m)) i ds =
      Multiplicative.ofAdd (weighted (weights.drop i) ds : ZMod m) := by
  induction ds generalizing i with
  | nil => simp [word, weighted]
  | cons d ds ih =>
    rw [word, ih]
    by_cases hi : i < weights.length
    · rw [List.drop_eq_getElem_cons hi, weighted, weighted, List.zipWith_cons_cons, List.sum_cons,
        Nat.cast_add, ofAdd_add, List.getD_eq_getElem _ _ hi]
    · have hdrop : weights.drop i = [] := List.drop_eq_nil_of_le (Nat.not_lt.mp hi)
      have hdrop' : weights.drop (i + 1) = [] := List.drop_eq_nil_of_le (by omega)
      rw [hdrop, hdrop', List.getD_eq_default _ _ (Nat.not_lt.mp hi)]
      simp [weighted]

/-- Weights that the modulus leaves apart tell a replaced digit. -/
theorem weighted_mod_ne {m : ℕ} (weights : List ℕ) {ds es : List ℕ} (h : Replaced ds es)
    (hlength : ds.length = weights.length)
    (hweights : ∀ w ∈ weights, ∀ x ∈ ds, ∀ y ∈ es, w * x % m = w * y % m → x = y) :
    weighted weights ds % m ≠ weighted weights es % m := by
  intro heq
  have hword : word (fun i d => Multiplicative.ofAdd ((weights.getD i 0 * d : ℕ) : ZMod m)) 0 ds =
      word (fun i d => Multiplicative.ofAdd ((weights.getD i 0 * d : ℕ) : ZMod m)) 0 es := by
    rw [word_weighted, word_weighted, List.drop_zero]
    exact congrArg _ ((ZMod.natCast_eq_natCast_iff' _ _ _).mpr heq)
  obtain ⟨as, bs, x, y, hne, rfl, rfl⟩ := h
  rw [word_replaced_iff, Nat.zero_add] at hword
  have hi : as.length < weights.length := by
    rw [← hlength]
    simp
  rw [List.getD_eq_getElem _ _ hi] at hword
  have hmod := (ZMod.natCast_eq_natCast_iff' _ _ _).mp (Multiplicative.ofAdd.injective hword)
  exact hne (hweights _ (List.getElem_mem hi) x (by simp) y (by simp) hmod)

/-- The remainder modulo 97 tells a replaced digit. -/
theorem mod97_ne {ds es : List ℕ} (h : Replaced ds es) (hds : ∀ d ∈ ds, d < 10)
    (hes : ∀ e ∈ es, e < 10) {start : ℕ} (hstart : start < 97) :
    mod97 start ds ≠ mod97 start es := by
  apply h.foldl_ne (P := (· < 97)) (D := (· < 10)) _ _ _ hds hes hstart
  · intro s d _ _
    exact Nat.mod_lt _ (by decide)
  · intro d s t _ hs ht heq
    omega
  · intro as bs x y hx hy s _ heq
    have := hds x (by simp [hx])
    have := hes y (by simp [hy])
    omega

/-- The remainder of a number tells a replaced digit. -/
theorem natValue_mod_ne {s t : JsString} (h : Replaced s t) (hs : ∀ c ∈ s, isDigit c = true)
    (ht : ∀ c ∈ t, isDigit c = true) : natValue s % 23 ≠ natValue t % 23 := by
  have hfold : ∀ (u : JsString) (acc : ℕ),
      u.foldl (fun acc c => 10 * acc + (c.toNat - 48)) acc % 23 =
        (u.map digitValue).foldl (fun r d => (10 * r + d) % 23) (acc % 23) := by
    intro u
    induction u with
    | nil => exact fun _ => rfl
    | cons c u ih =>
      intro acc
      rw [List.foldl_cons, ih, List.map_cons, List.foldl_cons, digitValue, Nat.add_mod, Nat.mul_mod,
        ← Nat.mul_mod, ← Nat.add_mod]
      congr 1
      omega
  rw [natValue, natValue, hfold, hfold]
  have hmap := h.map (eq_of_digitValue_eq hs ht)
  apply hmap.foldl_ne (P := (· < 23)) (D := (· < 10)) _ _ _ (map_digitValue_lt hs)
    (map_digitValue_lt ht) (by decide)
  · intro r d _ _
    exact Nat.mod_lt _ (by decide)
  · intro d r r' _ hr hr' heq
    omega
  · intro as bs x y hx hy r _ heq
    have := map_digitValue_lt hs x (by simp [hx])
    have := map_digitValue_lt ht y (by simp [hy])
    omega

/-! ### Texts and their last character -/

theorem exists_last {α : Type} {l : List α} {n : ℕ} (h : l.length = n + 1) :
    ∃ u ∈ l, l.drop n = [u] ∧ l[n]? = some u := by
  have hlt : n < l.length := by omega
  refine ⟨l[n], List.getElem_mem hlt, ?_, List.getElem?_eq_getElem hlt⟩
  rw [List.drop_eq_getElem_cons hlt, List.drop_eq_nil_of_le (by omega)]

theorem weighted_take (weights ds : List ℕ) :
    weighted weights (ds.take weights.length) = weighted weights ds := by
  induction weights generalizing ds with
  | nil => rfl
  | cons w weights ih =>
    cases ds with
    | nil => rfl
    | cons d ds =>
      simp only [List.length_cons, List.take_succ_cons, weighted, List.zipWith_cons_cons,
        List.sum_cons, Nat.add_left_cancel_iff]
      exact ih ds

/-- A validator that takes no text with one character replaced by another of its kind next to
the text itself. Both are seen without their separators. -/
def Catches {κ : Type} (valid : JsString → Bool) (compact : JsString → JsString)
    (kind : JsString → κ) : Prop :=
  ∀ s t, valid s = true → kind (compact s) = kind (compact t) →
    Replaced (compact s) (compact t) → valid t = false

/-- Whatever the replaced character is. -/
def anyKind (_ : JsString) : Unit := ()

/-- A check that the front of the compact text determines, and that tells mistakes in it. -/
theorem catches_of_check {κ : Type} {valid : JsString → Bool} {compact : JsString → JsString}
    {kind : JsString → κ} {n : ℕ} {Check : JsString → JsString → Prop}
    (hvalid : ∀ s, valid s = true → Check ((compact s).take n) ((compact s).drop n))
    (hdetermines : ∀ b c d, Check b c → Check b d → c = d)
    (htells : ∀ b b' c, Check b c → Check b' c → kind b = kind b' → ¬Replaced b b')
    (hkind : ∀ s t, kind s = kind t → kind (s.take n) = kind (t.take n)) :
    Catches valid compact kind := by
  intro s t hs hsame hreplaced
  by_contra ht
  rw [Bool.not_eq_false] at ht
  refine not_replaced_of_check (n := n)
    (C := fun b c => Check b c ∧ kind b = kind ((compact s).take n)) ?_ ?_ ⟨hvalid s hs, rfl⟩
    ⟨hvalid t ht, hkind _ _ hsame.symm⟩ hreplaced
  · rintro b c d ⟨hc, -⟩ ⟨hd, -⟩
    exact hdetermines b c d hc hd
  · rintro b b' c ⟨hc, hb⟩ ⟨hc', hb'⟩
    exact htells b b' c hc hc' (hb.trans hb'.symm)

/-! ### Checks of digits -/

section Digits

/-- `nlBsnValid` removes blanks and dots. -/
def bsnText (s : JsString) : JsString := without (fun c => isSpace c || c == 46) s

def BsnCheck (b c : JsString) : Prop :=
  b.length = 8 ∧ (∀ u ∈ b, isDigit u = true) ∧ ∃ u, c = [u] ∧ isDigit u = true ∧
    weighted [9, 8, 7, 6, 5, 4, 3, 2] (b.map digitValue) % 11 = digitValue u

theorem bsnCheck_of_valid (s : JsString) (h : nlBsnValid s = true) :
    BsnCheck ((bsnText s).take 8) ((bsnText s).drop 8) := by
  rw [bsnText]
  simp only [nlBsnValid, Bool.and_eq_true, isWhole_iff, consumes_digits, beq_iff_eq] at h
  generalize without (fun c => isSpace c || c == 46) s = text at *
  obtain ⟨⟨⟨hlength, hdigits⟩, -⟩, hsum⟩ := h
  obtain ⟨u, hu, hlast, hget⟩ := exists_last hlength
  refine ⟨by simp [hlength], fun u hu => hdigits u (List.mem_of_mem_take hu), u, hlast,
    hdigits u hu, ?_⟩
  have hlt := digitValue_lt (hdigits u hu)
  rw [← weighted_take, show [9, 8, 7, 6, 5, 4, 3, 2].length = 8 from rfl, ← List.map_take,
    List.getD_eq_getElem?_getD, List.getElem?_map, hget, Option.map_some, Option.getD_some] at hsum
  omega

theorem catches_nlBsnValid : Catches nlBsnValid bsnText anyKind := by
  apply catches_of_check (n := 8) bsnCheck_of_valid _ _ (fun _ _ _ => rfl)
  · rintro b c d ⟨-, -, u, rfl, hu, hc⟩ ⟨-, -, v, rfl, hv, hd⟩
    rw [digitValue_injective hu hv (hc.symm.trans hd)]
  · rintro b b' c ⟨hlength, hb, u, rfl, -, hc⟩ ⟨-, hb', v, hv, -, hd⟩ - h
    obtain rfl := (List.cons.inj hv).1
    apply weighted_mod_ne _ (h.map (eq_of_digitValue_eq hb hb')) (m := 11) _ _ (hc.trans hd.symm)
    · simp [hlength]
    · intro w hw x hx y hy heq
      have hx' := map_digitValue_lt hb x hx
      have hy' := map_digitValue_lt hb' y hy
      simp only [List.mem_cons, List.not_mem_nil, or_false] at hw
      rcases hw with rfl | rfl | rfl | rfl | rfl | rfl | rfl | rfl <;> omega

/-- `deSteuerIdValid` removes blanks and slashes. -/
def steuerIdText (s : JsString) : JsString := without (fun c => isSpace c || c == 47) s

def SteuerIdCheck (b c : JsString) : Prop :=
  (∀ u ∈ b, isDigit u = true) ∧ ∃ u, c = [u] ∧ isDigit u = true ∧
    deSteuerIdCheckDigit (b.map digitValue) = digitValue u

theorem steuerIdCheck_of_valid (s : JsString) (h : deSteuerIdValid s = true) :
    SteuerIdCheck ((steuerIdText s).take 10) ((steuerIdText s).drop 10) := by
  rw [steuerIdText]
  simp only [deSteuerIdValid, Bool.and_eq_true, isWhole_iff, consumes_digits, beq_iff_eq] at h
  generalize without (fun c => isSpace c || c == 47) s = text at *
  obtain ⟨⟨⟨hlength, hdigits⟩, -⟩, hcheck⟩ := h
  obtain ⟨u, hu, hlast, hget⟩ := exists_last hlength
  refine ⟨fun u hu => hdigits u (List.mem_of_mem_take hu), u, hlast, hdigits u hu, ?_⟩
  rwa [← List.map_take, List.getD_eq_getElem?_getD, List.getElem?_map, hget, Option.map_some,
    Option.getD_some] at hcheck

/-- One step of ISO 7064 MOD 11,10. -/
def steuerIdStep (product d : ℕ) : ℕ :=
  let sum := (d + product) % 10
  (if sum = 0 then 10 else sum) * 2 % 11

theorem steuerIdStep_inside {p d : ℕ} :
    0 < steuerIdStep p d ∧ steuerIdStep p d < 11 := by
  simp only [steuerIdStep]
  split_ifs <;> omega

theorem steuerIdStep_state {p q d : ℕ} (hp : 0 < p ∧ p < 11) (hq : 0 < q ∧ q < 11)
    (h : steuerIdStep p d = steuerIdStep q d) : p = q := by
  simp only [steuerIdStep] at h
  split_ifs at h <;> omega

theorem steuerIdStep_digit {p d e : ℕ} (hd : d < 10) (he : e < 10)
    (h : steuerIdStep p d = steuerIdStep p e) : d = e := by
  simp only [steuerIdStep] at h
  split_ifs at h <;> omega

theorem deSteuerIdCheckDigit_ne {ds es : List ℕ} (h : Replaced ds es) (hds : ∀ d ∈ ds, d < 10)
    (hes : ∀ e ∈ es, e < 10) : deSteuerIdCheckDigit ds ≠ deSteuerIdCheckDigit es := by
  have hstep : ∀ p d, 0 < p ∧ p < 11 → d < 10 → 0 < steuerIdStep p d ∧ steuerIdStep p d < 11 :=
    fun _ _ _ _ => steuerIdStep_inside
  have hinside : ∀ ds : List ℕ, (∀ d ∈ ds, d < 10) →
      0 < deSteuerIdProduct ds ∧ deSteuerIdProduct ds < 11 :=
    fun ds hds => foldl_mem hstep hds (by decide)
  have hne : deSteuerIdProduct ds ≠ deSteuerIdProduct es := by
    apply h.foldl_ne (P := fun p => 0 < p ∧ p < 11) hstep _ _ hds hes (by decide)
    · exact fun _ _ _ _ hp hq => steuerIdStep_state hp hq
    · intro as bs x y hx hy p _
      exact steuerIdStep_digit (hds x (by simp [hx])) (hes y (by simp [hy]))
  have hlow := hinside ds hds
  have hhigh := hinside es hes
  rw [deSteuerIdCheckDigit, deSteuerIdCheckDigit]
  split_ifs <;> omega

theorem catches_deSteuerIdValid : Catches deSteuerIdValid steuerIdText anyKind := by
  apply catches_of_check (n := 10) steuerIdCheck_of_valid _ _ (fun _ _ _ => rfl)
  · rintro b c d ⟨-, u, rfl, hu, hc⟩ ⟨-, v, rfl, hv, hd⟩
    rw [digitValue_injective hu hv (hc.symm.trans hd)]
  · rintro b b' c ⟨hb, u, rfl, -, hc⟩ ⟨hb', v, hv, -, hd⟩ - h
    obtain rfl := (List.cons.inj hv).1
    exact deSteuerIdCheckDigit_ne (h.map (eq_of_digitValue_eq hb hb')) (map_digitValue_lt hb)
      (map_digitValue_lt hb') (hc.trans hd.symm)

/-- `inAadhaarValid` removes blanks and hyphens. -/
def aadhaarText (s : JsString) : JsString := without (fun c => isSpace c || c == 45) s

theorem digits_of_aadhaar {s : JsString} (h : inAadhaarValid s = true) :
    (∀ c ∈ aadhaarText s, isDigit c = true) ∧
      verhoeffValid ((aadhaarText s).map digitValue) = true := by
  rw [aadhaarText]
  simp only [inAadhaarValid, Bool.and_eq_true, isWhole_iff, consumes_cat_cons, consumes_cat_nil,
    consumes_cls, consumes_digits] at h
  obtain ⟨⟨_, _, htext, ⟨c, rfl, hc⟩, u, _, rfl, ⟨-, hu⟩, rfl⟩, hcheck⟩ := h
  refine ⟨?_, hcheck⟩
  rw [htext, List.append_nil, List.singleton_append]
  exact List.forall_mem_cons.mpr ⟨isDigit_of_inSet (by decide) (by decide) hc, hu⟩

theorem catches_inAadhaarValid : Catches inAadhaarValid aadhaarText anyKind := by
  intro s t hs _ hreplaced
  by_contra ht
  rw [Bool.not_eq_false] at ht
  obtain ⟨hdigits, hvalid⟩ := digits_of_aadhaar hs
  obtain ⟨hdigits', hvalid'⟩ := digits_of_aadhaar ht
  rw [verhoeffValid_of_replaced (map_digitValue_lt hdigits) (map_digitValue_lt hdigits')
    (hreplaced.map (eq_of_digitValue_eq hdigits hdigits')) hvalid] at hvalid'
  cases hvalid'

theorem catches_luhnValid : Catches luhnValid (List.filter isDigit) anyKind := by
  have hfilter : ∀ s, luhnValid (List.filter isDigit s) = luhnValid s := fun s => by
    rw [luhnValid, luhnValid, digitsIn, digitsIn, List.filter_filter]
    simp only [Bool.and_self]
  intro s t hs _ hreplaced
  rw [← hfilter] at hs ⊢
  exact luhnValid_of_replaced (fun c hc => (List.mem_filter.mp hc).2)
    (fun c hc => (List.mem_filter.mp hc).2) hreplaced hs

end Digits

end Haechi.Filter
