import Haechi.Text.Paired

/-! Texts cut between code points, and foldings that rewrite a text code point by code point.
Such a folding commutes with a cut. One given by a table of whole code points, whose images
it leaves alone, is idempotent and keeps cuts; the compatibility mappings of Unicode act so
where nothing composes. -/

namespace Haechi.Text

open Json

/-! ### Cuts -/

def endsHigh (s : JsString) : Bool := s.getLast?.any isHighSurrogate

def startsLow (s : JsString) : Bool := s.head?.any isLowSurrogate

/-- No surrogate pair stands across the border of two texts. -/
def Cut (s t : JsString) : Prop := ¬(endsHigh s = true ∧ startsLow t = true)

instance (s t : JsString) : Decidable (Cut s t) := inferInstanceAs (Decidable ¬_)

/-- An offset does not stand inside a surrogate pair. -/
def IsBoundary (s : JsString) (n : ℕ) : Prop := Cut (s.take n) (s.drop n)

instance (s : JsString) (n : ℕ) : Decidable (IsBoundary s n) := inferInstanceAs (Decidable (Cut _ _))

theorem endsHigh_cons {c : UInt16} {s : JsString} (h : endsHigh s = true) :
    endsHigh (c :: s) = true := by
  cases s with
  | nil => cases h
  | cons d s => exact h

theorem not_low_of_high {c : UInt16} (h : isHighSurrogate c = true) : isLowSurrogate c = false := by
  simp only [isHighSurrogate, isLowSurrogate, Bool.and_eq_true, Bool.and_eq_false_iff,
    decide_eq_true_eq, decide_eq_false_iff_not, UInt16.le_iff_toNat_le, UInt16.reduceToNat] at h ⊢
  omega

theorem not_high_of_low {c : UInt16} (h : isLowSurrogate c = true) : isHighSurrogate c = false := by
  cases hhigh : isHighSurrogate c with
  | false => rfl
  | true => rw [not_low_of_high hhigh] at h; cases h

theorem Cut.tail {c : UInt16} {s t : JsString} (h : Cut (c :: s) t) : Cut s t :=
  fun hpair => h ⟨endsHigh_cons hpair.1, hpair.2⟩

/-- The code points of two texts are those of the whole where no pair is cut. -/
theorem codePoints_append_of_cut {s t : JsString} (h : Cut s t) :
    codePoints (s ++ t) = codePoints s ++ codePoints t := by
  induction s using codePoints.induct with
  | case1 => rfl
  | case2 c =>
    cases t with
    | nil => rfl
    | cons d t =>
      have hpair : ¬(isHighSurrogate c && isLowSurrogate d) = true := fun hpair =>
        h (Bool.and_eq_true_iff.mp hpair)
      simp [codePoints, hpair]
  | case3 c d s hpair ih => simp [codePoints, hpair, ih h.tail.tail]
  | case4 c d s hpair ih =>
    have hrest := ih h.tail
    simp only [List.cons_append] at hrest ⊢
    simp [codePoints, hpair, hrest]

theorem not_endsHigh_of_paired {s : JsString} (h : Paired s) : endsHigh s = false := by
  induction h with
  | nil => rfl
  | @one c s hhigh _ _ ih =>
    cases s with
    | nil => exact hhigh
    | cons d s => exact ih
  | @pair c d s _ hlow _ ih =>
    cases s with
    | nil => exact not_high_of_low hlow
    | cons e s => exact ih

theorem not_startsLow_of_paired {s : JsString} (h : Paired s) : startsLow s = false := by
  cases h with
  | nil => rfl
  | one _ hlow _ => exact hlow
  | pair hhigh _ _ => exact not_low_of_high hhigh

theorem endsHigh_append {s t : JsString} (ht : t ≠ []) : endsHigh (s ++ t) = endsHigh t := by
  rw [endsHigh, endsHigh, List.getLast?_append_of_ne_nil _ ht]

theorem startsLow_append {s t : JsString} (hs : s ≠ []) : startsLow (s ++ t) = startsLow s := by
  cases s with
  | nil => exact absurd rfl hs
  | cons c s => rfl

/-- A code point is a lone surrogate, or well formed. -/
theorem point_cases {s p : JsString} (h : p ∈ codePoints s) :
    (∃ c, p = [c] ∧ (isHighSurrogate c || isLowSurrogate c) = true) ∨ Paired p ∧ p ≠ [] := by
  have one : ∀ c : UInt16, (∃ c', [c] = [c'] ∧ (isHighSurrogate c' || isLowSurrogate c') = true) ∨
      Paired [c] ∧ [c] ≠ [] := by
    intro c
    cases hhigh : isHighSurrogate c with
    | true => exact .inl ⟨c, rfl, by rw [hhigh, Bool.true_or]⟩
    | false =>
      cases hlow : isLowSurrogate c with
      | true => exact .inl ⟨c, rfl, by rw [hlow, Bool.or_true]⟩
      | false => exact .inr ⟨.one hhigh hlow .nil, List.cons_ne_nil _ _⟩
  induction s using codePoints.induct with
  | case1 => cases h
  | case2 c =>
    obtain rfl := List.mem_singleton.mp h
    exact one c
  | case3 c d s hpair ih =>
    rw [codePoints, if_pos hpair] at h
    rcases List.mem_cons.mp h with rfl | h
    · obtain ⟨hhigh, hlow⟩ := Bool.and_eq_true_iff.mp hpair
      exact .inr ⟨.pair hhigh hlow .nil, List.cons_ne_nil _ _⟩
    · exact ih h
  | case4 c d s hpair ih =>
    rw [codePoints, if_neg hpair] at h
    rcases List.mem_cons.mp h with rfl | h
    · exact one c
    · exact ih h

/-! ### Foldings by code point -/

/-- The text with every code point rewritten. -/
def mapPoints (f : JsString → JsString) (s : JsString) : JsString := (codePoints s).flatMap f

theorem mapPoints_append {f : JsString → JsString} {s t : JsString} (h : Cut s t) :
    mapPoints f (s ++ t) = mapPoints f s ++ mapPoints f t := by
  rw [mapPoints, codePoints_append_of_cut h, List.flatMap_append]
  rfl

/-- The image of a code point, which is itself where the table has none. -/
def image (table : List (JsString × JsString)) (p : JsString) : JsString := (table.lookup p).getD p

/-- The text with every code point of the table rewritten. -/
def foldPoints (table : List (JsString × JsString)) (s : JsString) : JsString :=
  mapPoints (image table) s

/-- A table rewrites whole code points to texts that it leaves alone. -/
structure ProperTable (table : List (JsString × JsString)) : Prop where
  paired : ∀ e ∈ table, Paired e.1
  image_paired : ∀ e ∈ table, Paired e.2
  image_ne_nil : ∀ e ∈ table, e.2 ≠ []
  image_fixed : ∀ e ∈ table, ∀ p ∈ codePoints e.2, table.lookup p = none

section Table

variable {table : List (JsString × JsString)} {s t : JsString}

/-- A text without code points of the table stays as it is. -/
theorem foldPoints_of_lookup (h : ∀ p ∈ codePoints s, table.lookup p = none) :
    foldPoints table s = s := by
  have hself : ∀ p ∈ codePoints s, image table p = id p := fun p hp => by
    rw [image, h p hp]
    rfl
  rw [foldPoints, mapPoints, List.flatMap_congr hself, List.flatMap_id, flatten_codePoints]

theorem foldPoints_append (h : Cut s t) :
    foldPoints table (s ++ t) = foldPoints table s ++ foldPoints table t := mapPoints_append h

theorem ProperTable.lookup_lone (h : ProperTable table) {c : UInt16}
    (hc : (isHighSurrogate c || isLowSurrogate c) = true) : table.lookup [c] = none := by
  cases hv : table.lookup [c] with
  | none => rfl
  | some v =>
    cases h.paired _ (mem_of_lookup hv) with
    | one hhigh hlow _ =>
      rw [hhigh, hlow] at hc
      cases hc

/-- The image of a code point is the lone surrogate it is, or well formed. -/
theorem ProperTable.image_cases (h : ProperTable table) {p : JsString} (hp : p ∈ codePoints s) :
    (∃ c, p = [c] ∧ image table p = [c]) ∨ Paired (image table p) ∧ image table p ≠ [] := by
  rcases point_cases hp with ⟨c, rfl, hc⟩ | ⟨hpaired, hne⟩
  · exact .inl ⟨c, rfl, by rw [image, h.lookup_lone hc]; rfl⟩
  · rw [image]
    cases hv : table.lookup p with
    | none => exact .inr ⟨hpaired, hne⟩
    | some v =>
      have hmem := mem_of_lookup hv
      exact .inr ⟨h.image_paired _ hmem, h.image_ne_nil _ hmem⟩

theorem ProperTable.image_ne_nil' (h : ProperTable table) {p : JsString}
    (hp : p ∈ codePoints s) : image table p ≠ [] := by
  rcases h.image_cases hp with ⟨c, -, himage⟩ | ⟨-, hne⟩
  · rw [himage]
    exact List.cons_ne_nil _ _
  · exact hne

theorem ProperTable.foldPoints_ne_nil (h : ProperTable table) (hs : s ≠ []) :
    foldPoints table s ≠ [] := by
  have hpoints : codePoints s ≠ [] := by
    intro hnil
    have hflat := flatten_codePoints s
    rw [hnil] at hflat
    exact hs hflat.symm
  obtain ⟨p, ps, hps⟩ := List.exists_cons_of_ne_nil hpoints
  rw [foldPoints, mapPoints, hps, List.flatMap_cons]
  have hp : p ∈ codePoints s := by rw [hps]; exact List.mem_cons_self
  exact fun hnil => h.image_ne_nil' hp (List.append_eq_nil_iff.mp hnil).1

theorem cut_of_pair {c d : UInt16} (h : isLowSurrogate d = true) (t : JsString) : Cut [c, d] t :=
  fun hpair => by
    have hhigh : isHighSurrogate d = true := hpair.1
    rw [not_high_of_low h] at hhigh
    cases hhigh

theorem cut_of_not_pair {c d : UInt16} (h : ¬(isHighSurrogate c && isLowSurrogate d) = true)
    (t : JsString) : Cut [c] (d :: t) := fun hpair => h (Bool.and_eq_true_iff.mpr hpair)

/-- A folded text ends in a high surrogate only where the text does. -/
theorem ProperTable.endsHigh_foldPoints (h : ProperTable table)
    (hs : endsHigh (foldPoints table s) = true) : endsHigh s = true := by
  have one : ∀ {s' p : JsString}, p ∈ codePoints s' → endsHigh (image table p) = true →
      endsHigh p = true := by
    intro s' p hp hhigh
    rcases h.image_cases hp with ⟨c, rfl, himage⟩ | ⟨hpaired, -⟩
    · rwa [himage] at hhigh
    · rw [not_endsHigh_of_paired hpaired] at hhigh
      cases hhigh
  have last : ∀ {p t : JsString}, p ∈ codePoints (p ++ t) → Cut p t → codePoints p = [p] →
      (endsHigh (foldPoints table t) = true → endsHigh t = true) →
      endsHigh (foldPoints table (p ++ t)) = true → endsHigh (p ++ t) = true := by
    intro p t hp hcut hpoint ih hfold
    have himage : foldPoints table p = image table p := by
      rw [foldPoints, mapPoints, hpoint, List.flatMap_singleton]
    rw [foldPoints_append hcut, himage] at hfold
    cases t with
    | nil =>
      rw [foldPoints, mapPoints, codePoints, List.flatMap_nil, List.append_nil] at hfold
      rw [List.append_nil]
      exact one hp hfold
    | cons c t =>
      rw [endsHigh_append (h.foldPoints_ne_nil (List.cons_ne_nil c t))] at hfold
      rw [endsHigh_append (List.cons_ne_nil c t)]
      exact ih hfold
  induction s using codePoints.induct with
  | case1 => exact hs
  | case2 c => exact last (p := [c]) (t := []) (by simp [codePoints]) (by simp [Cut, startsLow]) rfl id hs
  | case3 c d s hpair ih =>
    have hlow := (Bool.and_eq_true_iff.mp hpair).2
    exact last (p := [c, d]) (by simp [codePoints, hpair]) (cut_of_pair hlow s)
      (by simp [codePoints, hpair]) ih hs
  | case4 c d s hpair ih =>
    exact last (p := [c]) (by simp [codePoints, hpair]) (cut_of_not_pair hpair s) rfl ih hs

/-- A folded text starts with a low surrogate only where the text does. -/
theorem ProperTable.startsLow_foldPoints (h : ProperTable table)
    (hs : startsLow (foldPoints table s) = true) : startsLow s = true := by
  rcases hpoints : codePoints s with _ | ⟨p, ps⟩
  · have hnil : s = [] := by rw [← flatten_codePoints s, hpoints]; rfl
    rwa [hnil] at hs ⊢
  · have hp : p ∈ codePoints s := by rw [hpoints]; exact List.mem_cons_self
    have hflat := flatten_codePoints s
    rw [hpoints, List.flatten_cons] at hflat
    rw [foldPoints, mapPoints, hpoints, List.flatMap_cons,
      startsLow_append (h.image_ne_nil' hp)] at hs
    rcases h.image_cases hp with ⟨c, rfl, himage⟩ | ⟨hpaired, -⟩
    · rw [himage] at hs
      rw [← hflat]
      exact hs
    · rw [not_startsLow_of_paired hpaired] at hs
      cases hs

theorem ProperTable.cut_foldPoints (h : ProperTable table) (hcut : Cut s t) :
    Cut (foldPoints table s) (foldPoints table t) :=
  fun hpair => hcut ⟨h.endsHigh_foldPoints hpair.1, h.startsLow_foldPoints hpair.2⟩

/-- No code point of a folded text is in the table. -/
theorem ProperTable.lookup_foldPoints (h : ProperTable table) (s : JsString) :
    ∀ p ∈ codePoints (foldPoints table s), table.lookup p = none := by
  have one : ∀ p : JsString, codePoints p = [p] →
      ∀ q ∈ codePoints (foldPoints table p), table.lookup q = none := by
    intro p hpoint q hq
    have himage : foldPoints table p = image table p := by
      rw [foldPoints, mapPoints, hpoint, List.flatMap_singleton]
    rw [himage, image] at hq
    cases hv : table.lookup p with
    | none =>
      rw [hv, Option.getD_none, hpoint] at hq
      rwa [List.mem_singleton.mp hq]
    | some v =>
      rw [hv, Option.getD_some] at hq
      exact h.image_fixed _ (mem_of_lookup hv) q hq
  have step : ∀ p t : JsString, codePoints p = [p] → Cut p t →
      (∀ q ∈ codePoints (foldPoints table t), table.lookup q = none) →
      ∀ q ∈ codePoints (foldPoints table (p ++ t)), table.lookup q = none := by
    intro p t hpoint hcut ih q hq
    rw [foldPoints_append hcut, codePoints_append_of_cut (h.cut_foldPoints hcut)] at hq
    exact (List.mem_append.mp hq).elim (one p hpoint q) (ih q)
  induction s using codePoints.induct with
  | case1 => simp [foldPoints, mapPoints, codePoints]
  | case2 c => exact one [c] rfl
  | case3 c d s hpair ih =>
    exact step [c, d] s (by simp [codePoints, hpair])
      (cut_of_pair (Bool.and_eq_true_iff.mp hpair).2 s) ih
  | case4 c d s hpair ih => exact step [c] (d :: s) rfl (cut_of_not_pair hpair s) ih

theorem ProperTable.foldPoints_foldPoints (h : ProperTable table) (s : JsString) :
    foldPoints table (foldPoints table s) = foldPoints table s :=
  foldPoints_of_lookup (h.lookup_foldPoints s)

/-- The parts of a text that stays as it is stay as they are. -/
theorem ProperTable.foldPoints_parts (h : ProperTable table) (hcut : Cut s t)
    (hst : foldPoints table (s ++ t) = s ++ t) :
    foldPoints table s = s ∧ foldPoints table t = t := by
  have hlookup := h.lookup_foldPoints (s ++ t)
  rw [hst, codePoints_append_of_cut hcut] at hlookup
  exact ⟨foldPoints_of_lookup fun p hp => hlookup p (List.mem_append_left _ hp),
    foldPoints_of_lookup fun p hp => hlookup p (List.mem_append_right _ hp)⟩

theorem ProperTable.foldPoints_lone (h : ProperTable table) {c : UInt16}
    (hc : (isHighSurrogate c || isLowSurrogate c) = true) : foldPoints table [c] = [c] :=
  foldPoints_of_lookup fun p hp => by
    rw [List.mem_singleton.mp hp]
    exact h.lookup_lone hc

theorem ProperTable.paired_foldPoints (h : ProperTable table) (hs : Paired s) :
    Paired (foldPoints table s) := by
  have himage : ∀ p : JsString, Paired p → Paired (image table p) := by
    intro p hp
    rw [image]
    cases hv : table.lookup p with
    | none => exact hp
    | some v => exact h.image_paired _ (mem_of_lookup hv)
  induction hs with
  | nil => exact .nil
  | one hhigh hlow _ ih =>
    rw [foldPoints, mapPoints, codePoints_cons hhigh, List.flatMap_cons]
    exact (himage _ (.one hhigh hlow .nil)).append ih
  | pair hhigh hlow _ ih =>
    rw [foldPoints, mapPoints, codePoints, if_pos (by rw [hhigh, hlow]; rfl), List.flatMap_cons]
    exact (himage _ (.pair hhigh hlow .nil)).append ih

end Table

/-! ### Some of the compatibility mappings -/

/-- Three letters of full width, a digit with its comma, which lies outside the basic plane,
and the angstrom sign. -/
def compatibility : List (JsString × JsString) :=
  [([0xff21], js "A"), ([0xff41], js "a"), ([0xff54], js "t"), ([0xd83c, 0xdd02], js "1,"),
    ([0x212b], [0xc5])]

theorem properTable_compatibility : ProperTable compatibility where
  paired := by
    simp only [compatibility, List.forall_mem_cons]
    exact ⟨.one rfl rfl .nil, .one rfl rfl .nil, .one rfl rfl .nil, .pair rfl rfl .nil,
      .one rfl rfl .nil, List.forall_mem_nil _⟩
  image_paired := by
    simp only [compatibility, List.forall_mem_cons]
    exact ⟨paired_of_ascii (by decide), paired_of_ascii (by decide), paired_of_ascii (by decide),
      paired_of_ascii (by decide), .one rfl rfl .nil, List.forall_mem_nil _⟩
  image_ne_nil := by decide
  image_fixed := by decide

/-- ASCII texts are left alone. -/
theorem foldPoints_compatibility_ascii {s : JsString} (h : ∀ c ∈ s, c < 128) :
    foldPoints compatibility s = s := by
  refine foldPoints_of_lookup fun p hp => ?_
  have hpoints := codePoints_ascii_append h []
  rw [List.append_nil, codePoints, List.append_nil] at hpoints
  rw [hpoints] at hp
  obtain ⟨c, hc, rfl⟩ := List.mem_map.mp hp
  cases hv : compatibility.lookup [c] with
  | none => rfl
  | some v =>
    have hne : ∀ e ∈ compatibility, ∀ c : UInt16, e.1 = [c] → ¬c < 128 := by
      simp only [compatibility, List.forall_mem_cons]
      refine ⟨?_, ?_, ?_, ?_, ?_, List.forall_mem_nil _⟩ <;> rintro c ⟨⟩ <;> decide
    exact absurd (h c hc) (hne _ (mem_of_lookup hv) c rfl)

end Haechi.Text
