import Haechi.Text.Json
import Mathlib.Data.List.Sort

/-! The stable text of a value: every object's keys are sorted by code unit
before rendering. Two values without holes have the same stable text exactly
when they agree up to the order of keys. -/

namespace Haechi.Json

open Text

variable {ν : Type}

/-- The order `Array.prototype.sort` puts keys in. -/
def KeyLe (a b : JsString × JsValue ν) : Prop :=
  a.1.map UInt16.toNat ≤ b.1.map UInt16.toNat

instance : DecidableRel (KeyLe (ν := ν)) := fun a b =>
  inferInstanceAs (Decidable (a.1.map UInt16.toNat ≤ b.1.map UInt16.toNat))

instance : Std.Total (KeyLe (ν := ν)) where
  total a b := le_total (a.1.map UInt16.toNat) (b.1.map UInt16.toNat)

instance : IsTrans _ (KeyLe (ν := ν)) where
  trans _ _ _ h h' := le_trans (α := List ℕ) h h'

theorem KeyLe.key_eq {a b : JsString × JsValue ν} (h : KeyLe a b) (h' : KeyLe b a) : a.1 = b.1 :=
  List.map_injective_iff.mpr (fun _ _ => UInt16.toNat_inj.mp) (le_antisymm h h')

mutual

/-- The value with every object's keys sorted. -/
def sortKeys : JsValue ν → JsValue ν
  | .arr items => .arr (sortItems items)
  | .obj fields => .obj ((sortFields fields).insertionSort KeyLe)
  | v => v

def sortItems : List (JsValue ν) → List (JsValue ν)
  | [] => []
  | v :: vs => sortKeys v :: sortItems vs

def sortFields : List (JsString × JsValue ν) → List (JsString × JsValue ν)
  | [] => []
  | (k, v) :: fs => (k, sortKeys v) :: sortFields fs

end

theorem sortItems_eq_map (items : List (JsValue ν)) : sortItems items = items.map sortKeys := by
  induction items with
  | nil => rfl
  | cons v vs ih => rw [sortItems, ih, List.map_cons]

theorem sortFields_eq_map (fields : List (JsString × JsValue ν)) :
    sortFields fields = fields.map fun kv => (kv.1, sortKeys kv.2) := by
  induction fields with
  | nil => rfl
  | cons kv fs ih => rw [sortFields, ih, List.map_cons]

/-- The members of an object in key order, their values sorted as well. -/
def sortMembers (fields : List (JsString × JsValue ν)) : List (JsString × JsValue ν) :=
  (sortFields fields).insertionSort KeyLe

theorem sortKeys_obj (fields : List (JsString × JsValue ν)) :
    sortKeys (.obj fields) = .obj (sortMembers fields) := rfl

theorem mem_sortMembers {fields : List (JsString × JsValue ν)} {kv : JsString × JsValue ν} :
    kv ∈ sortMembers fields ↔ ∃ w ∈ fields, (w.1, sortKeys w.2) = kv := by
  rw [sortMembers, (List.perm_insertionSort _ _).mem_iff, sortFields_eq_map, List.mem_map]

theorem sortMembers_keys (fields : List (JsString × JsValue ν)) :
    ((sortMembers fields).map Prod.fst).Perm (fields.map Prod.fst) := by
  refine ((List.perm_insertionSort KeyLe (sortFields fields)).map Prod.fst).trans ?_
  rw [sortFields_eq_map, List.map_map]
  exact .refl _

theorem field?_sortMembers {fs : List (JsString × JsValue ν)} (hn : (fs.map Prod.fst).Nodup)
    (k : JsString) :
    JsValue.field? k (sortMembers fs) = (JsValue.field? k fs).map sortKeys := by
  have hnodup : ((sortMembers fs).map Prod.fst).Nodup := (sortMembers_keys fs).nodup_iff.mpr hn
  cases hf : JsValue.field? k fs with
  | none =>
    rw [Option.map_none, JsValue.field?_eq_none, (sortMembers_keys fs).mem_iff]
    exact JsValue.field?_eq_none.mp hf
  | some v =>
    exact JsValue.field?_of_mem hnodup
      (mem_sortMembers.mpr ⟨(k, v), JsValue.mem_of_field? hf, rfl⟩)

/-- The sorted members are the only sorted list of these members. -/
theorem sortMembers_eq_of_perm {fs gs : List (JsString × JsValue ν)}
    (hn : (fs.map Prod.fst).Nodup) (hperm : (sortMembers fs).Perm (sortMembers gs)) :
    sortMembers fs = sortMembers gs := by
  refine hperm.eq_of_pairwise ?_ (List.pairwise_insertionSort KeyLe _)
    (List.pairwise_insertionSort KeyLe _)
  intro a b ha hb hab hba
  exact List.inj_on_of_nodup_map ((sortMembers_keys fs).nodup_iff.mpr hn) ha
    (hperm.mem_iff.mpr hb) (hab.key_eq hba)

/-! ### What sorting keeps -/

theorem sortKeys_eq_null {v : JsValue ν} : sortKeys v = .null ↔ v = .null := by
  cases v <;> simp [sortKeys]

theorem sortKeys_eq_str {v : JsValue ν} {s : JsString} : sortKeys v = .str s ↔ v = .str s := by
  cases v <;> simp [sortKeys]

theorem forall_mem_sortMembers {fs : List (JsString × JsValue ν)} {p : JsValue ν → Prop} :
    (∀ kv ∈ sortMembers fs, p kv.2) ↔ ∀ kv ∈ fs, p (sortKeys kv.2) := by
  constructor
  · exact fun h kv hkv => h _ (mem_sortMembers.mpr ⟨kv, hkv, rfl⟩)
  · rintro h kv hkv
    obtain ⟨w, hw, rfl⟩ := mem_sortMembers.mp hkv
    exact h w hw

theorem isJson_sortKeys (v : JsValue ν) : (sortKeys v).isJson = v.isJson := by
  induction v using JsValue.induct with
  | arr items ih =>
    rw [sortKeys, sortItems_eq_map, Bool.eq_iff_iff, JsValue.isJson_arr, JsValue.isJson_arr,
      List.forall_mem_map]
    exact forall₂_congr fun v hv => by rw [ih v hv]
  | obj fields ih =>
    rw [sortKeys_obj, Bool.eq_iff_iff, JsValue.isJson_obj, JsValue.isJson_obj,
      forall_mem_sortMembers (p := fun v => v.isJson = true)]
    exact forall₂_congr fun kv hkv => by rw [ih kv hkv]
  | _ => rfl

theorem distinct_sortKeys (v : JsValue ν) : (sortKeys v).Distinct ↔ v.Distinct := by
  induction v using JsValue.induct with
  | arr items ih =>
    rw [sortKeys, sortItems_eq_map, JsValue.distinct_arr, JsValue.distinct_arr,
      List.forall_mem_map]
    exact forall₂_congr ih
  | obj fields ih =>
    rw [sortKeys_obj, JsValue.distinct_obj, JsValue.distinct_obj,
      (sortMembers_keys fields).nodup_iff, forall_mem_sortMembers]
    exact and_congr_right fun _ => forall₂_congr ih
  | _ => exact Iff.rfl

theorem isLone_map_sortKeys (items : List (JsValue ν)) :
    isLone (items.map sortKeys) = isLone items := by
  match items with
  | [] => rfl
  | [v] => cases v <;> rfl
  | _ :: _ :: _ => simp [isLone]

theorem hasLone_sortKeys (v : JsValue ν) : hasLone (sortKeys v) = false ↔ hasLone v = false := by
  induction v using JsValue.induct with
  | arr items ih =>
    rw [sortKeys, sortItems_eq_map, hasLone, hasLone, isLone_map_sortKeys, Bool.or_eq_false_iff,
      Bool.or_eq_false_iff, hasLoneItems_eq_false, hasLoneItems_eq_false, List.forall_mem_map]
    exact and_congr_right fun _ => forall₂_congr ih
  | obj fields ih =>
    rw [sortKeys_obj, hasLone, hasLone, hasLoneFields_eq_false, hasLoneFields_eq_false,
      forall_mem_sortMembers (p := fun v => hasLone v = false)]
    exact forall₂_congr ih
  | _ => exact Iff.rfl

/-! ### The stable text -/

/-- Equal as JSON values: equal up to the order of keys. -/
def SameJson (v w : JsValue ν) : Prop := sortKeys v = sortKeys w

/-- Objects are the same JSON value when they have the same members. -/
theorem sameJson_obj {fs gs : List (JsString × JsValue ν)} (hf : (fs.map Prod.fst).Nodup)
    (hg : (gs.map Prod.fst).Nodup) :
    SameJson (.obj fs) (.obj gs) ↔
      ∀ k, (JsValue.field? k fs).map sortKeys = (JsValue.field? k gs).map sortKeys := by
  have hmem : ∀ {hs : List (JsString × JsValue ν)}, (hs.map Prod.fst).Nodup →
      ∀ kv, kv ∈ sortMembers hs ↔ (JsValue.field? kv.1 hs).map sortKeys = some kv.2 := by
    intro hs hn kv
    rw [← field?_sortMembers hn]
    exact ⟨fun h => JsValue.field?_of_mem ((sortMembers_keys hs).nodup_iff.mpr hn) h,
      JsValue.mem_of_field?⟩
  have hnodup : ∀ {hs : List (JsString × JsValue ν)}, (hs.map Prod.fst).Nodup →
      (sortMembers hs).Nodup := fun hn =>
    List.Nodup.of_map Prod.fst ((sortMembers_keys _).nodup_iff.mpr hn)
  rw [SameJson, sortKeys_obj, sortKeys_obj, JsValue.obj.injEq]
  constructor
  · intro h k
    rw [← field?_sortMembers hf, ← field?_sortMembers hg, h]
  · intro h
    have hperm : (sortMembers fs).Perm (sortMembers gs) :=
      (List.perm_ext_iff_of_nodup (hnodup hf) (hnodup hg)).mpr fun kv => by
        rw [hmem hf, hmem hg, h]
    exact sortMembers_eq_of_perm hf hperm

theorem SameJson.isJson_eq {v w : JsValue ν} (h : SameJson v w) : v.isJson = w.isJson := by
  rw [← isJson_sortKeys v, h, isJson_sortKeys]

/-- The members of the same JSON values are the same. -/
theorem SameJson.get {v w : JsValue ν} (h : SameJson v w) (hv : v.Distinct) (hw : w.Distinct)
    (k : JsString) : SameJson (v.get k) (w.get k) := by
  cases v with
  | obj fs =>
    cases w with
    | obj gs =>
      have hk := (sameJson_obj (JsValue.distinct_obj.mp hv).1 (JsValue.distinct_obj.mp hw).1).mp h k
      simp only [JsValue.get]
      cases hf : JsValue.field? k fs <;> cases hg : JsValue.field? k gs <;> rw [hf, hg] at hk
      · rfl
      · cases hk
      · cases hk
      · exact Option.some.inj hk
    | _ => cases h
  | _ => cases w <;> first | rfl | cases h

theorem SameJson.eq_str {v : JsValue ν} {s : JsString} (h : SameJson v (.str s)) : v = .str s :=
  sortKeys_eq_str.mp h

variable [JsNumber ν]

theorem truthy_sortKeys (v : JsValue ν) : (sortKeys v).truthy = v.truthy := by
  cases v <;> rfl

theorem SameJson.truthy_eq {v w : JsValue ν} (h : SameJson v w) : v.truthy = w.truthy := by
  rw [← truthy_sortKeys v, h, truthy_sortKeys]

/-- `canonicalize`. -/
def canonicalize (v : JsValue ν) : Option JsString := render (sortKeys v)

/-- **Stable texts.** A value whose stable text is that of a JSON value is that
JSON value, up to the order of keys. -/
theorem sameJson_of_canonicalize {v w : JsValue ν} (hv : WellFormed v) (hwd : w.Distinct)
    (hwl : hasLone w = false) (h : canonicalize w = canonicalize v) : SameJson w v :=
  eq_of_render_eq ((isJson_sortKeys v).trans hv.1) ((distinct_sortKeys v).mpr hv.2)
    ((distinct_sortKeys w).mpr hwd) ((hasLone_sortKeys w).mpr hwl) h

end Haechi.Json
