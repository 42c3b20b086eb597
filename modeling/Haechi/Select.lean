import Mathlib.Data.List.Sort
import Mathlib.Data.List.FinRange
import Mathlib.Tactic

/-! Greedy selection of spans. Spans are taken leftmost first, the longest of
those that start together, and one that starts before the last chosen one ends is
passed over. What is chosen is sorted and disjoint, what is passed over starts
inside a chosen span, and the chosen positions are the only solution of the
equation that describes a tiling. -/

namespace Haechi.Select

universe u v

variable {D : Type u} (start stop : D → ℕ)

/-- Keep the spans that do not start before `lastEnd`, which moves with them. -/
def acceptFrom : ℕ → List D → List D
  | _, [] => []
  | lastEnd, d :: ds =>
    if start d < lastEnd then acceptFrom lastEnd ds else d :: acceptFrom (stop d) ds

/-- The earlier span first; of two that start together, the longer. -/
def Precedes (a b : D) : Prop :=
  start a < start b ∨ start a = start b ∧ stop b - start b ≤ stop a - start a

instance (a b : D) : Decidable (Precedes start stop a b) := inferInstanceAs (Decidable (_ ∨ _))

def select (ds : List D) : List D := acceptFrom start stop 0 (ds.insertionSort (Precedes start stop))

variable {start stop}

/-! ### What is chosen -/

theorem acceptFrom_sublist (e : ℕ) (ds : List D) : (acceptFrom start stop e ds).Sublist ds := by
  induction ds generalizing e with
  | nil => exact List.Sublist.refl _
  | cons d ds ih =>
    rw [acceptFrom]
    split_ifs
    · exact (ih e).cons d
    · exact (ih (stop d)).cons_cons d

theorem le_start_acceptFrom {e : ℕ} {ds : List D} (h : ∀ d ∈ ds, start d ≤ stop d) :
    ∀ d ∈ acceptFrom start stop e ds, e ≤ start d := by
  induction ds generalizing e with
  | nil => simp [acceptFrom]
  | cons d ds ih =>
    have hds : ∀ x ∈ ds, start x ≤ stop x := fun x hx => h x (List.mem_cons_of_mem d hx)
    have hd := h d List.mem_cons_self
    intro x hx
    rw [acceptFrom] at hx
    split_ifs at hx with hlt
    · exact ih hds x hx
    · rcases List.mem_cons.mp hx with rfl | hx
      · omega
      · have := ih hds x hx
        omega

theorem pairwise_acceptFrom {e : ℕ} {ds : List D} (h : ∀ d ∈ ds, start d ≤ stop d) :
    (acceptFrom start stop e ds).Pairwise fun a b => stop a ≤ start b := by
  induction ds generalizing e with
  | nil => exact List.Pairwise.nil
  | cons d ds ih =>
    have hds : ∀ x ∈ ds, start x ≤ stop x := fun x hx => h x (List.mem_cons_of_mem d hx)
    rw [acceptFrom]
    split_ifs
    · exact ih hds
    · exact List.pairwise_cons.mpr ⟨le_start_acceptFrom hds, ih hds⟩

/-- In a list sorted by start a span is chosen, or starts inside a chosen one,
or starts too early. -/
theorem acceptFrom_covers {e : ℕ} {ds : List D} (hs : ds.Pairwise fun a b => start a ≤ start b)
    {d : D} (hd : d ∈ ds) :
    d ∈ acceptFrom start stop e ds ∨ start d < e ∨
      ∃ a ∈ acceptFrom start stop e ds, start a ≤ start d ∧ start d < stop a := by
  induction ds generalizing e with
  | nil => cases hd
  | cons x ds ih =>
    obtain ⟨hx, hs⟩ := List.pairwise_cons.mp hs
    rw [acceptFrom]
    split_ifs with hlt
    · rcases List.mem_cons.mp hd with rfl | hd
      · exact .inr (.inl hlt)
      · exact ih hs hd
    · rcases List.mem_cons.mp hd with rfl | hd
      · exact .inl List.mem_cons_self
      · rcases ih (e := stop x) hs hd with h | h | ⟨a, ha, h⟩
        · exact .inl (List.mem_cons_of_mem x h)
        · exact .inr (.inr ⟨x, List.mem_cons_self, hx d hd, h⟩)
        · exact .inr (.inr ⟨a, List.mem_cons_of_mem x ha, h⟩)

/-! ### The sorted list -/

theorem precedes_total (a b : D) : Precedes start stop a b ∨ Precedes start stop b a := by
  unfold Precedes
  omega

theorem Precedes.trans {a b c : D} (h : Precedes start stop a b) (h' : Precedes start stop b c) :
    Precedes start stop a c := by
  unfold Precedes at *
  omega

theorem Precedes.start_le {a b : D} (h : Precedes start stop a b) : start a ≤ start b := by
  unfold Precedes at h
  omega

instance : Std.Total (Precedes start stop) := ⟨precedes_total⟩

instance : IsTrans D (Precedes start stop) := ⟨fun _ _ _ => Precedes.trans⟩

theorem mem_of_mem_select {ds : List D} {d : D} (h : d ∈ select start stop ds) : d ∈ ds :=
  (List.mem_insertionSort _).mp ((acceptFrom_sublist _ _).mem h)

theorem pairwise_select {ds : List D} (h : ∀ d ∈ ds, start d ≤ stop d) :
    (select start stop ds).Pairwise fun a b => stop a ≤ start b :=
  pairwise_acceptFrom fun d hd => h d ((List.mem_insertionSort _).mp hd)

/-- A span that is passed over starts inside a chosen one. -/
theorem select_covers {ds : List D} {d : D} (hd : d ∈ ds) :
    d ∈ select start stop ds ∨
      ∃ a ∈ select start stop ds, start a ≤ start d ∧ start d < stop a := by
  have hs : (ds.insertionSort (Precedes start stop)).Pairwise fun a b => start a ≤ start b :=
    (List.pairwise_insertionSort _ ds).imp Precedes.start_le
  rcases acceptFrom_covers (e := 0) hs ((List.mem_insertionSort _).mpr hd) with h | h | h
  · exact .inl h
  · omega
  · exact .inr h

/-- The first character of a span is in a chosen one. -/
theorem exists_select_at_start {ds : List D} {d : D} (hd : d ∈ ds) (hne : start d < stop d) :
    ∃ a ∈ select start stop ds, start a ≤ start d ∧ start d < stop a := by
  rcases select_covers hd with h | h
  · exact ⟨d, h, le_rfl, hne⟩
  · exact h

theorem disjoint_select {ds : List D} (hds : ∀ d ∈ ds, start d ≤ stop d) {t u : D}
    (ht : t ∈ select start stop ds) (hu : u ∈ select start stop ds) (hne : t ≠ u) :
    stop t ≤ start u ∨ stop u ≤ start t := by
  have : Std.Symm fun a b : D => stop a ≤ start b ∨ stop b ≤ start a := ⟨fun _ _ => Or.symm⟩
  have hapart : (select start stop ds).Pairwise fun a b => stop a ≤ start b ∨ stop b ≤ start a :=
    (pairwise_select hds).imp Or.inl
  exact hapart.forall ht hu hne

variable (start stop) in
/-- One of two spans starts in the other. -/
def Overlaps (a b : D) : Prop :=
  start a ≤ start b ∧ start b < stop a ∨ start b ≤ start a ∧ start a < stop b

/-- Spans that are not empty overlap where they share a place. -/
theorem overlaps_iff_share {a b : D} (ha : start a < stop a) (hb : start b < stop b) :
    Overlaps start stop a b ↔ ∃ x, (start a ≤ x ∧ x < stop a) ∧ start b ≤ x ∧ x < stop b := by
  constructor
  · rintro (⟨hle, hlt⟩ | ⟨hle, hlt⟩)
    · exact ⟨start b, ⟨hle, hlt⟩, le_rfl, hb⟩
    · exact ⟨start a, ⟨le_rfl, ha⟩, hle, hlt⟩
  · rintro ⟨x, ⟨hax, hxa⟩, hbx, hxb⟩
    unfold Overlaps
    omega

/-- Of two spans that start together the longer comes first, so an empty span stands before
none that starts where it does. -/
theorem Precedes.not_overlaps {a b : D} (h : Precedes start stop a b) (ha : start a ≤ stop a)
    (hstop : stop a ≤ start b) : ¬Overlaps start stop a b := by
  unfold Precedes at h
  unfold Overlaps
  omega

theorem pairwise_precedes_select (ds : List D) :
    (select start stop ds).Pairwise (Precedes start stop) :=
  (List.pairwise_insertionSort _ ds).sublist (acceptFrom_sublist _ _)

/-- Chosen spans do not overlap. -/
theorem pairwise_not_overlaps_select {ds : List D} (h : ∀ d ∈ ds, start d ≤ stop d) :
    (select start stop ds).Pairwise fun a b => ¬Overlaps start stop a b := by
  have hboth : (select start stop ds).Pairwise fun a b =>
      Precedes start stop a b ∧ stop a ≤ start b :=
    (pairwise_precedes_select ds).and (pairwise_select h)
  apply hboth.imp_of_mem
  intro a b ha _ hab
  exact hab.1.not_overlaps (h a (mem_of_mem_select ha)) hab.2

/-- The chosen spans leave no character of a span out exactly when a span begins
wherever one runs over the end of a chosen one. -/
theorem covers_iff_borders {ds : List D} (hds : ∀ d ∈ ds, start d ≤ stop d) :
    (∀ d ∈ ds, ∀ x, start d ≤ x → x < stop d →
        ∃ t ∈ select start stop ds, start t ≤ x ∧ x < stop t) ↔
      ∀ t ∈ select start stop ds, ∀ d ∈ ds, start d < stop t → stop t < stop d →
        ∃ c ∈ ds, start c = stop t ∧ start c < stop c := by
  constructor
  · intro h t ht d hd hstart hstop
    obtain ⟨u, hu, hux, hux'⟩ := h d hd (stop t) hstart.le hstop
    have hne : t ≠ u := by
      rintro rfl
      omega
    have ht' := hds t (mem_of_mem_select ht)
    refine ⟨u, mem_of_mem_select hu, ?_, by omega⟩
    rcases disjoint_select hds ht hu hne with h | h
    · omega
    · omega
  · intro h d hd x hx hx'
    -- from tile to tile, each beginning where the last one ends, until the character is met
    have reach : ∀ n, ∀ t ∈ select start stop ds, stop d - stop t = n → start t ≤ x →
        start d < stop t → ∃ u ∈ select start stop ds, start u ≤ x ∧ x < stop u := by
      intro n
      induction n using Nat.strong_induction_on with
      | _ n ih =>
        intro t ht hn htx hdt
        by_cases hxt : x < stop t
        · exact ⟨t, ht, htx, hxt⟩
        · obtain ⟨c, hc, hstart, hne⟩ := h t ht d hd hdt (by omega)
          obtain ⟨u, hu, hle, hlt⟩ := exists_select_at_start hc hne
          exact ih (stop d - stop u) (by omega) u hu rfl (by omega) (by omega)
    rcases select_covers hd with hd' | ⟨a, ha, hle, hlt⟩
    · exact ⟨d, hd', hx, hx'⟩
    · exact reach _ a ha rfl (by omega) hlt

/-! ### Tilings

A tiling of a list of spans is a set of positions: those where a span stands that
starts before the end of no earlier tile. Positions order spans that start
together and are of one length. -/

variable (start stop) in
/-- The order in which positions are considered. -/
def Before (ds : List D) (i j : Fin ds.length) : Prop :=
  Precedes start stop (ds.get i) (ds.get j) ∧ (Precedes start stop (ds.get j) (ds.get i) → i ≤ j)

instance (ds : List D) (i j : Fin ds.length) : Decidable (Before start stop ds i j) :=
  inferInstanceAs (Decidable (_ ∧ _))

variable (start stop) in
/-- The positions of `T` are those that start before the end of no earlier tile. -/
def IsTiling (ds : List D) (T : Set (Fin ds.length)) : Prop :=
  ∀ i, i ∈ T ↔ ∀ j ∈ T, j ≠ i → Before start stop ds j i → stop (ds.get j) ≤ start (ds.get i)

theorem Before.antisymm {ds : List D} {i j : Fin ds.length} (h : Before start stop ds i j)
    (h' : Before start stop ds j i) : i = j := le_antisymm (h.2 h'.1) (h'.2 h.1)

theorem before_total (ds : List D) (i j : Fin ds.length) :
    Before start stop ds i j ∨ Before start stop ds j i := by
  by_cases h : Precedes start stop (ds.get i) (ds.get j)
  · by_cases h' : Precedes start stop (ds.get j) (ds.get i)
    · rcases le_total i j with hij | hij
      · exact .inl ⟨h, fun _ => hij⟩
      · exact .inr ⟨h', fun _ => hij⟩
    · exact .inl ⟨h, fun hji => absurd hji h'⟩
  · exact .inr ⟨(precedes_total _ _).resolve_left h, fun hij => absurd hij h⟩

theorem Before.trans {ds : List D} {i j k : Fin ds.length} (h : Before start stop ds i j)
    (h' : Before start stop ds j k) : Before start stop ds i k :=
  ⟨h.1.trans h'.1, fun hki => (h.2 (h'.1.trans hki)).trans (h'.2 (hki.trans h.1))⟩

instance (ds : List D) : Std.Total (Before start stop ds) := ⟨before_total ds⟩

instance (ds : List D) : IsTrans (Fin ds.length) (Before start stop ds) :=
  ⟨fun _ _ _ => Before.trans⟩

/-- Sorting is stable: it sorts the positions. -/
theorem map_insertionSort_of_stable {ι : Type v} [LinearOrder ι] {α : Type u} (f : ι → α)
    (r : α → α → Prop) [DecidableRel r] (r' : ι → ι → Prop) [DecidableRel r']
    (hr : ∀ i j, i < j → (r' i j ↔ r (f i) (f j))) {is : List ι} (his : is.Pairwise (· < ·)) :
    (is.insertionSort r').map f = (is.map f).insertionSort r := by
  have insert : ∀ (i : ι) (js : List ι), (∀ j ∈ js, i < j) →
      (js.orderedInsert r' i).map f = (js.map f).orderedInsert r (f i) := by
    intro i js hjs
    induction js with
    | nil => rfl
    | cons j js ih =>
      have hij := hr i j (hjs j List.mem_cons_self)
      have hrec := ih fun k hk => hjs k (List.mem_cons_of_mem j hk)
      by_cases h : r (f i) (f j)
      · rw [List.map_cons, List.orderedInsert_cons_of_le r _ h,
          List.orderedInsert_cons_of_le r' _ (hij.mpr h)]
        rfl
      · rw [List.map_cons, List.orderedInsert_of_not_le r _ h,
          List.orderedInsert_of_not_le r' _ (mt hij.mp h), List.map_cons, hrec]
  induction is with
  | nil => rfl
  | cons i is ih =>
    obtain ⟨hi, his⟩ := List.pairwise_cons.mp his
    rw [List.insertionSort_cons, List.map_cons, List.insertionSort_cons, ← ih his]
    exact insert i _ fun j hj => hi j ((List.mem_insertionSort _).mp hj)

/-- In a list in the order of consideration, the chosen elements solve the equation
of a tiling. -/
theorem mem_acceptFrom_iff {ι : Type v} {a b : ι → ℕ} {r : ι → ι → Prop}
    (hr : ∀ i j, r i j → r j i → i = j) (hstart : ∀ i j, r i j → a i ≤ a j) {e : ℕ} {is : List ι}
    (his : is.Pairwise r) (hnodup : is.Nodup) {i : ι} (hi : i ∈ is) :
    i ∈ acceptFrom a b e is ↔
      e ≤ a i ∧ ∀ j ∈ acceptFrom a b e is, j ≠ i → r j i → b j ≤ a i := by
  induction is generalizing e with
  | nil => cases hi
  | cons k is ih =>
    obtain ⟨hk, his⟩ := List.pairwise_cons.mp his
    obtain ⟨hkis, hnodup⟩ := List.nodup_cons.mp hnodup
    rw [acceptFrom]
    split_ifs with hlt
    · rcases List.mem_cons.mp hi with rfl | hi
      · have hout : i ∉ acceptFrom a b e is := fun h => hkis ((acceptFrom_sublist e is).mem h)
        exact iff_of_false hout fun h => by omega
      · exact ih his hnodup hi
    · rcases List.mem_cons.mp hi with rfl | hi
      · refine iff_of_true List.mem_cons_self ⟨by omega, fun j hj hne hji => ?_⟩
        have hj := (acceptFrom_sublist _ _).mem ((List.mem_cons.mp hj).resolve_left hne)
        exact absurd (hr _ _ hji (hk j hj)) hne
      · have hki : k ≠ i := fun h => hkis (h ▸ hi)
        have hbefore := hk i hi
        have hge := hstart _ _ hbefore
        rw [List.mem_cons, or_iff_right (Ne.symm hki), ih his hnodup hi, List.forall_mem_cons]
        constructor
        · rintro ⟨hstop, h⟩
          exact ⟨by omega, fun _ _ => hstop, h⟩
        · rintro ⟨-, hstop, h⟩
          exact ⟨hstop hki hbefore, h⟩

variable (start stop) in
/-- The positions that greedy selection chooses. -/
def chosen (ds : List D) : List (Fin ds.length) :=
  acceptFrom (fun i => start (ds.get i)) (fun i => stop (ds.get i)) 0
    ((List.finRange ds.length).insertionSort (Before start stop ds))

theorem map_acceptFrom {ι : Type v} (f : ι → D) (e : ℕ) (is : List ι) :
    (acceptFrom (start ∘ f) (stop ∘ f) e is).map f = acceptFrom start stop e (is.map f) := by
  induction is generalizing e with
  | nil => rfl
  | cons i is ih =>
    simp only [acceptFrom, List.map_cons, Function.comp_apply]
    split_ifs
    · exact ih e
    · rw [List.map_cons, ih]

theorem map_chosen (ds : List D) : (chosen start stop ds).map ds.get = select start stop ds := by
  have hstable := map_insertionSort_of_stable ds.get (Precedes start stop) (Before start stop ds)
    (fun i j hij => ⟨And.left, fun h => ⟨h, fun _ => hij.le⟩⟩) (List.sortedLT_finRange _).pairwise
  rw [List.map_get_finRange] at hstable
  rw [select, ← hstable, ← map_acceptFrom]
  rfl

theorem mem_select_iff {ds : List D} {d : D} :
    d ∈ select start stop ds ↔ ∃ i ∈ chosen start stop ds, ds.get i = d := by
  rw [← map_chosen, List.mem_map]

theorem nodup_chosen (ds : List D) : (chosen start stop ds).Nodup :=
  ((List.perm_insertionSort _ _).nodup_iff.mpr (List.nodup_finRange _)).sublist
    (acceptFrom_sublist _ _)

/-- A position that is passed over starts inside a chosen one. -/
theorem chosen_covers (ds : List D) (i : Fin ds.length) :
    i ∈ chosen start stop ds ∨
      ∃ j ∈ chosen start stop ds, start (ds.get j) ≤ start (ds.get i) ∧
        start (ds.get i) < stop (ds.get j) := by
  have hs : ((List.finRange ds.length).insertionSort (Before start stop ds)).Pairwise
      fun i j => start (ds.get i) ≤ start (ds.get j) :=
    (List.pairwise_insertionSort _ _).imp fun h => h.1.start_le
  have hi : i ∈ (List.finRange ds.length).insertionSort (Before start stop ds) :=
    (List.mem_insertionSort _).mpr (List.mem_finRange i)
  rcases @acceptFrom_covers _ _ (fun i => stop (ds.get i)) 0 _ hs _ hi with h | h | h
  · exact .inl h
  · omega
  · exact .inr h

theorem isTiling_chosen (ds : List D) : IsTiling start stop ds {i | i ∈ chosen start stop ds} := by
  intro i
  have h := mem_acceptFrom_iff (a := fun i => start (ds.get i)) (b := fun i => stop (ds.get i))
    (e := 0) (fun _ _ => Before.antisymm) (fun _ _ h => h.1.start_le)
    (List.pairwise_insertionSort (Before start stop ds) (List.finRange ds.length))
    ((List.perm_insertionSort _ _).nodup_iff.mpr (List.nodup_finRange _))
    ((List.mem_insertionSort _).mpr (List.mem_finRange i))
  rwa [and_iff_right (Nat.zero_le _)] at h

/-- A list has one tiling. -/
theorem IsTiling.unique {ds : List D} {T U : Set (Fin ds.length)} (hT : IsTiling start stop ds T)
    (hU : IsTiling start stop ds U) : T = U := by
  let r (j i : Fin ds.length) : Prop := j ≠ i ∧ Before start stop ds j i
  have : IsTrans (Fin ds.length) r := ⟨fun i j k hij hjk =>
    ⟨fun h => hij.1 (hij.2.antisymm (h ▸ hjk.2)), hij.2.trans hjk.2⟩⟩
  have : Std.Irrefl r := ⟨fun i h => h.1 rfl⟩
  have hwf : WellFounded r := Finite.wellFounded_of_trans_of_irrefl r
  ext i
  induction i using hwf.induction with
  | h i ih =>
    rw [hT i, hU i]
    constructor
    · exact fun h j hj hne hji => h j ((ih j ⟨hne, hji⟩).mpr hj) hne hji
    · exact fun h j hj hne hji => h j ((ih j ⟨hne, hji⟩).mp hj) hne hji

/-- Selection chooses the spans of the tiling. -/
theorem mem_select_of_isTiling {ds : List D} {T : Set (Fin ds.length)} (hT : IsTiling start stop ds T)
    {d : D} : d ∈ select start stop ds ↔ ∃ i ∈ T, ds.get i = d := by
  rw [hT.unique (isTiling_chosen ds)]
  exact mem_select_iff

end Haechi.Select
