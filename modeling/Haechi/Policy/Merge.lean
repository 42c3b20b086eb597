import Haechi.Policy.Builder

/-! What a merge of action entries comes to. The map built from a list of entries
holds the last entry of each type, and the merge fails exactly when an action is
invalid or some entry is weaker than an earlier one for its type. So the entries of
a merged policy rise in strength, and the one that counts is the strongest; only
defaults can be overruled by something weaker. -/

namespace Haechi.Policy

open Core JsValue

variable {ν : Type}

/-! ### Strength -/

/-- The strength of a value, zero where it is no action. -/
def rank (v : JsValue ν) : ℕ := (actionOf v).elim 0 strength

theorem rank_of_actionOf {v : JsValue ν} {a : Action} (h : actionOf v = some a) :
    rank v = strength a := by
  simp [rank, h]

theorem weaker_eq {a b : JsValue ν} (ha : (actionOf a).isSome) (hb : (actionOf b).isSome) :
    weaker a b = decide (rank a < rank b) := by
  obtain ⟨x, hx⟩ := Option.isSome_iff_exists.mp ha
  obtain ⟨y, hy⟩ := Option.isSome_iff_exists.mp hb
  simp [weaker, rank, hx, hy]

theorem atLeast_eq {a b : JsValue ν} (ha : (actionOf a).isSome) (hb : (actionOf b).isSome) :
    atLeast a b = decide (rank b ≤ rank a) := by
  obtain ⟨x, hx⟩ := Option.isSome_iff_exists.mp ha
  obtain ⟨y, hy⟩ := Option.isSome_iff_exists.mp hb
  simp [atLeast, rank, hx, hy]

/-- An action is a text, and not the empty one. -/
theorem str_of_actionOf {v : JsValue ν} (h : (actionOf v).isSome) :
    ∃ s, v = .str s ∧ s ≠ [] := by
  cases v with
  | str s =>
    refine ⟨s, rfl, ?_⟩
    rintro rfl
    exact absurd h (by simp [actionOf, validActions, js])
  | _ => cases h

theorem orElse_of_actionOf {v d : JsValue ν} (h : (actionOf v).isSome) : v.orElse d = v := by
  obtain ⟨s, rfl, -⟩ := str_of_actionOf h
  rfl

theorem truthy_of_actionOf [JsNumber ν] {v : JsValue ν} (h : (actionOf v).isSome) :
    v.truthy = true := by
  obtain ⟨s, rfl, hs⟩ := str_of_actionOf h
  simpa [truthy] using hs

/-- The value is an action at least as strong. -/
def AtLeast (d : Property ν) (a : Action) : Prop :=
  ∃ v b, d = .value v ∧ actionOf v = some b ∧ strength a ≤ strength b

/-! ### Entries of one type -/

/-- The last action given to a type. -/
def latest (type : JsString) (es : List (ActionEntry ν)) : Option (JsValue ν) :=
  (es.filter fun e => e.type = type).getLast?.map ActionEntry.action

@[simp] theorem latest_nil (type : JsString) : latest type ([] : List (ActionEntry ν)) = none :=
  rfl

theorem latest_concat (type : JsString) (es : List (ActionEntry ν)) (e : ActionEntry ν) :
    latest type (es ++ [e]) = if e.type = type then some e.action else latest type es := by
  unfold latest
  split_ifs with h <;> simp [h]

theorem latest_mem {type : JsString} {es : List (ActionEntry ν)} {v : JsValue ν}
    (h : latest type es = some v) : ∃ e ∈ es, e.type = type ∧ e.action = v := by
  obtain ⟨e, he, rfl⟩ := Option.map_eq_some_iff.mp h
  have hmem := List.mem_filter.mp (List.mem_of_getLast? he)
  exact ⟨e, hmem.1, by simpa using hmem.2, rfl⟩

theorem latest_eq_none {type : JsString} {es : List (ActionEntry ν)} :
    latest type es = none ↔ ∀ e ∈ es, e.type ≠ type := by
  simp [latest]

/-- Every action is valid, and none is weaker than one given to its type before. -/
structure Rising (es : List (ActionEntry ν)) : Prop where
  valid : ∀ e ∈ es, (actionOf e.action).isSome
  rising : es.Pairwise fun e f =>
    e.type = f.type → e.type ∉ prototypeMembers → rank e.action ≤ rank f.action

theorem rising_nil : Rising ([] : List (ActionEntry ν)) := ⟨by simp, List.Pairwise.nil⟩

theorem rising_concat {es : List (ActionEntry ν)} {e : ActionEntry ν} :
    Rising (es ++ [e]) ↔ Rising es ∧ (actionOf e.action).isSome ∧
      ∀ f ∈ es, f.type = e.type → e.type ∉ prototypeMembers → rank f.action ≤ rank e.action := by
  constructor
  · rintro ⟨hv, hr⟩
    obtain ⟨hr, -, hlast⟩ := List.pairwise_append.mp hr
    refine ⟨⟨fun f hf => hv f (by simp [hf]), hr⟩, hv e (by simp), fun f hf ht hp => ?_⟩
    exact hlast f hf e (by simp) ht (ht ▸ hp)
  · rintro ⟨⟨hv, hr⟩, he, hlast⟩
    refine ⟨fun f hf => ?_, List.pairwise_append.mpr ⟨hr, by simp, fun f hf g hg ht hp => ?_⟩⟩
    · rcases List.mem_append.mp hf with hf | hf
      · exact hv f hf
      · rwa [List.mem_singleton.mp hf]
    · obtain rfl := List.mem_singleton.mp hg
      exact hlast f hf ht (ht ▸ hp)

theorem Rising.of_append {es fs : List (ActionEntry ν)} (h : Rising (es ++ fs)) : Rising es :=
  ⟨fun e he => h.valid e (by simp [he]), (List.pairwise_append.mp h.rising).1⟩

/-- The last entry of a type is its strongest. -/
theorem Rising.rank_le_latest {es : List (ActionEntry ν)} (h : Rising es) {type : JsString}
    (hp : type ∉ prototypeMembers) {v : JsValue ν} (hv : latest type es = some v)
    {f : ActionEntry ν} (hf : f ∈ es) (ht : f.type = type) : rank f.action ≤ rank v := by
  induction es using List.reverseRecOn with
  | nil => simp at hf
  | append_singleton es e ih =>
    obtain ⟨hes, -, hlast⟩ := rising_concat.mp h
    rw [latest_concat] at hv
    rcases List.mem_append.mp hf with hf | hf
    · split_ifs at hv with he
      · obtain rfl := Option.some.inj hv
        exact hlast f hf (ht.trans he.symm) (he ▸ hp)
      · exact ih hes hv hf
    · obtain rfl := List.mem_singleton.mp hf
      rw [if_pos ht] at hv
      exact (congrArg rank (Option.some.inj hv)).le

theorem Rising.valid_latest {es : List (ActionEntry ν)} (h : Rising es) {type : JsString}
    {v : JsValue ν} (hv : latest type es = some v) : (actionOf v).isSome := by
  obtain ⟨e, he, -, rfl⟩ := latest_mem hv
  exact h.valid e he

/-! ### The merged map -/

/-- The map holds the last entry of each type that is no inherited name. -/
structure Agrees (target : List (JsString × JsValue ν)) (es : List (ActionEntry ν)) : Prop where
  nodup : (target.map Prod.fst).Nodup
  field : ∀ type, field? type target =
    if type ∈ prototypeMembers then none else latest type es

theorem agrees_nil : Agrees [] ([] : List (ActionEntry ν)) :=
  ⟨List.nodup_nil, fun _ => by simp [field?]⟩

theorem Agrees.setField {target : List (JsString × JsValue ν)} {es : List (ActionEntry ν)}
    (h : Agrees target es) (e : ActionEntry ν) (hp : e.type ∉ prototypeMembers) :
    Agrees (setField e.type e.action target) (es ++ [e]) := by
  refine ⟨nodup_setField _ _ h.nodup, fun type => ?_⟩
  rw [latest_concat]
  by_cases ht : e.type = type
  · subst ht
    rw [field?_setField_self _ _ h.nodup, if_neg hp, if_pos rfl]
  · rw [field?_setField_of_ne (Ne.symm ht), h.field, if_neg ht]

theorem Agrees.skip {target : List (JsString × JsValue ν)} {es : List (ActionEntry ν)}
    (h : Agrees target es) (e : ActionEntry ν) (hp : e.type ∈ prototypeMembers) :
    Agrees target (es ++ [e]) := by
  refine ⟨h.nodup, fun type => ?_⟩
  rw [h.field, latest_concat]
  split_ifs with htp ht
  · rfl
  · exact absurd (ht ▸ hp) htp
  · rfl

theorem Agrees.valid {target : List (JsString × JsValue ν)} {es : List (ActionEntry ν)}
    (h : Agrees target es) (hes : Rising es) {kv : JsString × JsValue ν} (hkv : kv ∈ target) :
    (actionOf kv.2).isSome := by
  have hf := h.field kv.1
  rw [field?_of_mem h.nodup (show (kv.1, kv.2) ∈ target from hkv)] at hf
  split_ifs at hf
  exact hes.valid_latest hf.symm

variable [JsNumber ν]

/-- One entry: the merge goes on exactly when the entries still rise. -/
theorem mergeAction_ok {target : List (JsString × JsValue ν)} {es : List (ActionEntry ν)}
    (h : Agrees target es) (hes : Rising es) (e : ActionEntry ν) :
    (∀ target', mergeAction false target e = .ok target' →
        Rising (es ++ [e]) ∧ Agrees target' (es ++ [e])) ∧
      (Rising (es ++ [e]) → ∃ target', mergeAction false target e = .ok target') := by
  by_cases he : (actionOf e.action).isSome
  swap
  · refine ⟨fun _ hm => ?_, fun hr => absurd (rising_concat.mp hr).2.1 he⟩
    rw [mergeAction, if_pos (by simpa using he)] at hm
    cases hm
  have hne : (actionOf e.action).isNone = false := by simpa using he
  by_cases hp : e.type ∈ prototypeMembers
  · -- the inherited member stays where it is
    have hread : property target e.type = .inherited :=
      property_of_inherited (by rw [h.field, if_pos hp]) hp
    have hm : mergeAction false target e = .ok target := by simp [mergeAction, hne, hread]
    refine ⟨fun target' ht => ?_, fun _ => ⟨target, hm⟩⟩
    obtain rfl := Except.ok.inj (hm.symm.trans ht)
    exact ⟨rising_concat.mpr ⟨hes, he, fun _ _ _ hnp => absurd hp hnp⟩, h.skip e hp⟩
  have hfield := h.field e.type
  rw [if_neg hp] at hfield
  rcases hl : latest e.type es with _ | w
  · have hread : property target e.type = .value .undef :=
      property_of_absent (hfield.trans hl) hp
    have hm : mergeAction false target e = .ok (JsValue.setField e.type e.action target) := by
      simp [mergeAction, hne, hread, truthy]
    refine ⟨fun target' ht => ?_, fun _ => ⟨_, hm⟩⟩
    obtain rfl := Except.ok.inj (hm.symm.trans ht)
    exact ⟨rising_concat.mpr ⟨hes, he, fun f hf ht => absurd ht (latest_eq_none.mp hl f hf)⟩,
      h.setField e hp⟩
  · have hw := hes.valid_latest hl
    have hread : property target e.type = .value w := property_of_field? (hfield.trans hl)
    have hm : mergeAction false target e =
        if rank e.action < rank w then .error (.conflict e.type e.source w e.action)
        else .ok (JsValue.setField e.type e.action target) := by
      simp only [mergeAction, hne, hread, truthy_of_actionOf hw, weaker_eq he hw,
        atLeast_eq he hw, Bool.false_eq_true, if_false, Bool.not_true, Bool.not_false,
        Bool.and_true, decide_eq_true_eq]
      split_ifs <;> first | rfl | omega
    constructor
    · intro target' ht
      rw [hm] at ht
      split_ifs at ht with hlt
      obtain rfl := Except.ok.inj ht
      refine ⟨rising_concat.mpr ⟨hes, he, fun f hf htype _ => ?_⟩, h.setField e hp⟩
      exact (hes.rank_le_latest hp hl hf htype).trans (not_lt.mp hlt)
    · intro hr
      obtain ⟨f, hf, htype, rfl⟩ := latest_mem hl
      have hle := (rising_concat.mp hr).2.2 f hf htype hp
      exact ⟨_, by rw [hm, if_neg (not_lt.mpr hle)]⟩

/-- All entries of a list. -/
theorem foldlM_mergeAction_ok {target : List (JsString × JsValue ν)} {es : List (ActionEntry ν)}
    (h : Agrees target es) (hes : Rising es) (fs : List (ActionEntry ν)) :
    (∀ target', fs.foldlM (mergeAction false) target = .ok target' →
        Rising (es ++ fs) ∧ Agrees target' (es ++ fs)) ∧
      (Rising (es ++ fs) → ∃ target', fs.foldlM (mergeAction false) target = .ok target') := by
  induction fs generalizing target es with
  | nil =>
    refine ⟨fun target' ht => ?_, fun _ => ⟨target, rfl⟩⟩
    obtain rfl := Except.ok.inj ht
    simpa using ⟨hes, h⟩
  | cons e fs ih =>
    have happ : es ++ e :: fs = es ++ [e] ++ fs := by simp
    obtain ⟨hstep, hstep'⟩ := mergeAction_ok h hes e
    constructor
    · intro target' ht
      rw [List.foldlM_cons] at ht
      rcases hm : mergeAction false target e with err | mid
      · rw [hm] at ht
        cases ht
      · rw [hm] at ht
        obtain ⟨hr, ha⟩ := hstep mid hm
        rw [happ]
        exact (ih ha hr).1 target' ht
    · intro hr
      rw [happ] at hr
      obtain ⟨mid, hm⟩ := hstep' hr.of_append
      obtain ⟨target', ht⟩ := (ih (hstep mid hm).2 hr.of_append).2 hr
      exact ⟨target', by rw [List.foldlM_cons, hm]; exact ht⟩

end Haechi.Policy
