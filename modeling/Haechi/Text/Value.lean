import Haechi.Text.Number

/-! Plain data values: what a JSON text denotes, and what an in-memory object
holds just before it is written. The second kind may have holes (`undefined`
members), the first may not, so both share one type and `isJson` tells them
apart. Objects list their members in enumeration order. -/

namespace Haechi

/-- A data value. `undef` is `undefined`, and any other value that
`JSON.stringify` renders as `undefined`. -/
inductive JsValue (ν : Type) where
  | undef
  | null
  | bool (b : Bool)
  | num (x : ν)
  | str (s : JsString)
  | arr (items : List (JsValue ν))
  | obj (fields : List (JsString × JsValue ν))

namespace JsValue

variable {ν : Type}

/-- Induction over a value, with the hypothesis for every item and member. -/
@[elab_as_elim]
theorem induct {motive : JsValue ν → Prop} (undef : motive .undef) (null : motive .null)
    (bool : ∀ b, motive (.bool b)) (num : ∀ x, motive (.num x)) (str : ∀ s, motive (.str s))
    (arr : ∀ items, (∀ v ∈ items, motive v) → motive (.arr items))
    (obj : ∀ fields, (∀ kv ∈ fields, motive kv.2) → motive (.obj fields)) (v : JsValue ν) :
    motive v :=
  @JsValue.rec ν motive (fun items => ∀ v ∈ items, motive v)
    (fun fields => ∀ kv ∈ fields, motive kv.2) (fun kv => motive kv.2)
    undef null bool num str arr obj
    (List.forall_mem_nil _) (fun _ _ h ih => List.forall_mem_cons.mpr ⟨h, ih⟩)
    (List.forall_mem_nil _) (fun _ _ h ih => List.forall_mem_cons.mpr ⟨h, ih⟩)
    (fun _ _ h => h) v

/-- The member of an object under a key. -/
def field? (k : JsString) : List (JsString × JsValue ν) → Option (JsValue ν)
  | [] => none
  | (k', v) :: fs => if k' = k then some v else field? k fs

/-- Own-property lookup; a missing property reads as `undefined`. -/
def get (v : JsValue ν) (k : JsString) : JsValue ν :=
  match v with
  | .obj fields => (field? k fields).getD .undef
  | _ => .undef

theorem field?_eq_none {k : JsString} {fs : List (JsString × JsValue ν)} :
    field? k fs = none ↔ k ∉ fs.map Prod.fst := by
  induction fs with
  | nil => simp [field?]
  | cons kv fs ih =>
    obtain ⟨k', v⟩ := kv
    simp only [field?]
    split_ifs with h
    · simp [h]
    · simp [ih, Ne.symm h]

theorem mem_of_field? {k : JsString} {v : JsValue ν} {fs : List (JsString × JsValue ν)}
    (h : field? k fs = some v) : (k, v) ∈ fs := by
  induction fs with
  | nil => simp [field?] at h
  | cons kv fs ih =>
    obtain ⟨k', v'⟩ := kv
    simp only [field?] at h
    split_ifs at h with hk
    · simp_all
    · exact List.mem_cons_of_mem _ (ih h)

theorem field?_of_mem {k : JsString} {v : JsValue ν} {fs : List (JsString × JsValue ν)}
    (hn : (fs.map Prod.fst).Nodup) (h : (k, v) ∈ fs) : field? k fs = some v := by
  induction fs with
  | nil => simp at h
  | cons kv fs ih =>
    obtain ⟨k', v'⟩ := kv
    simp only [List.map_cons, List.nodup_cons] at hn
    rcases List.mem_cons.mp h with h | h
    · simp_all [field?]
    · have hne : k' ≠ k := by
        rintro rfl
        exact hn.1 (List.mem_map_of_mem h)
      simp [field?, hne, ih hn.2 h]

theorem field?_append (k : JsString) (xs ys : List (JsString × JsValue ν)) :
    field? k (xs ++ ys) = (field? k xs).or (field? k ys) := by
  induction xs with
  | nil => rfl
  | cons kv xs ih =>
    simp only [List.cons_append, field?]
    split_ifs
    · rfl
    · exact ih

/-- `{ ...fields, [k]: v }`: an existing member keeps its place. -/
def setField (k : JsString) (v : JsValue ν) (fs : List (JsString × JsValue ν)) :
    List (JsString × JsValue ν) :=
  if k ∈ fs.map Prod.fst then fs.map fun kv => if kv.1 = k then (k, v) else kv
  else fs ++ [(k, v)]

/-- The members left by `const { [k]: _, ...rest } = object`. -/
def eraseField (k : JsString) (fs : List (JsString × JsValue ν)) : List (JsString × JsValue ν) :=
  fs.filter fun kv => kv.1 != k

theorem keys_replace (k : JsString) (v : JsValue ν) (fs : List (JsString × JsValue ν)) :
    (fs.map fun kv => if kv.1 = k then (k, v) else kv).map Prod.fst = fs.map Prod.fst := by
  rw [List.map_map]
  refine List.map_congr_left fun kv _ => ?_
  by_cases h : kv.1 = k <;> simp [h]

theorem nodup_setField (k : JsString) (v : JsValue ν) {fs : List (JsString × JsValue ν)}
    (h : (fs.map Prod.fst).Nodup) : ((setField k v fs).map Prod.fst).Nodup := by
  rw [setField]
  split_ifs with hk
  · rwa [keys_replace]
  · rw [List.map_append, List.map_singleton]
    exact h.append (List.nodup_singleton k) (by simpa using hk)

theorem nodup_eraseField (k : JsString) {fs : List (JsString × JsValue ν)}
    (h : (fs.map Prod.fst).Nodup) : ((eraseField k fs).map Prod.fst).Nodup :=
  h.sublist (List.filter_sublist.map _)

theorem mem_setField {k : JsString} {v : JsValue ν} {fs : List (JsString × JsValue ν)}
    {kv : JsString × JsValue ν} (h : kv ∈ setField k v fs) : kv = (k, v) ∨ kv ∈ fs ∧ kv.1 ≠ k := by
  rw [setField] at h
  split_ifs at h with hk
  · obtain ⟨w, hw, rfl⟩ := List.mem_map.mp h
    by_cases hwk : w.1 = k <;> simp [hwk, hw]
  · rcases List.mem_append.mp h with h | h
    · exact .inr ⟨h, fun he => hk (he ▸ List.mem_map_of_mem h)⟩
    · exact .inl (List.mem_singleton.mp h)

theorem mem_setField_self (k : JsString) (v : JsValue ν) (fs : List (JsString × JsValue ν)) :
    (k, v) ∈ setField k v fs := by
  rw [setField]
  split_ifs with hk
  · obtain ⟨w, hw, rfl⟩ := List.mem_map.mp hk
    exact List.mem_map.mpr ⟨w, hw, if_pos rfl⟩
  · simp

theorem mem_setField_of_ne {k : JsString} (v : JsValue ν) {fs : List (JsString × JsValue ν)}
    {kv : JsString × JsValue ν} (h : kv ∈ fs) (hk : kv.1 ≠ k) : kv ∈ setField k v fs := by
  rw [setField]
  split_ifs
  · exact List.mem_map.mpr ⟨kv, h, if_neg hk⟩
  · exact List.mem_append_left _ h

theorem field?_setField_self (k : JsString) (v : JsValue ν) {fs : List (JsString × JsValue ν)}
    (h : (fs.map Prod.fst).Nodup) : field? k (setField k v fs) = some v :=
  field?_of_mem (nodup_setField k v h) (mem_setField_self k v fs)

theorem field?_setField_of_ne {k k' : JsString} (h : k ≠ k') (v : JsValue ν)
    (fs : List (JsString × JsValue ν)) : field? k (setField k' v fs) = field? k fs := by
  rw [setField]
  split_ifs with hk
  · clear hk
    induction fs with
    | nil => rfl
    | cons kv fs ih =>
      obtain ⟨k'', w⟩ := kv
      by_cases hk' : k'' = k'
      · subst hk'
        simp [field?, h.symm, ih]
      · simp [field?, hk', ih]
  · clear hk
    induction fs with
    | nil => simp [field?, h.symm]
    | cons kv fs ih =>
      obtain ⟨k'', w⟩ := kv
      simp [field?, ih]

theorem field?_eraseField_of_ne {k k' : JsString} (h : k ≠ k')
    (fs : List (JsString × JsValue ν)) : field? k (eraseField k' fs) = field? k fs := by
  induction fs with
  | nil => rfl
  | cons kv fs ih =>
    obtain ⟨k'', w⟩ := kv
    by_cases hk : k'' = k'
    · subst hk
      have herase : eraseField k'' ((k'', w) :: fs) = eraseField k'' fs := by simp [eraseField]
      rw [herase, ih, field?, if_neg h.symm]
    · have herase : eraseField k' ((k'', w) :: fs) = (k'', w) :: eraseField k' fs := by
        simp [eraseField, hk]
      rw [herase, field?, field?, ih]

/-- The later of two writes to one member counts. -/
theorem setField_setField (k : JsString) (v w : JsValue ν) (fs : List (JsString × JsValue ν)) :
    setField k w (setField k v fs) = setField k w fs := by
  have hmem : k ∈ (setField k v fs).map Prod.fst :=
    List.mem_map.mpr ⟨(k, v), mem_setField_self k v fs, rfl⟩
  rw [setField, if_pos hmem]
  by_cases hk : k ∈ fs.map Prod.fst
  · rw [setField, if_pos hk, setField, if_pos hk, List.map_map]
    refine List.map_congr_left fun kv _ => ?_
    by_cases h : kv.1 = k <;> simp [h]
  · rw [setField, if_neg hk, setField, if_neg hk, List.map_append, List.map_singleton, if_pos rfl]
    congr 1
    refine (List.map_congr_left fun kv hkv => ?_).trans (List.map_id fs)
    have hne : kv.1 ≠ k := fun he => hk (he ▸ List.mem_map_of_mem hkv)
    simp [hne]

/-- JavaScript truthiness. -/
def truthy [JsNumber ν] : JsValue ν → Bool
  | .undef | .null => false
  | .bool b => b
  | .num x => JsNumber.toNat? x != some 0
  | .str s => !s.isEmpty
  | .arr _ | .obj _ => true

/-! ### Values a JSON text can denote -/

mutual

/-- No hole anywhere. -/
def isJson : JsValue ν → Bool
  | .undef => false
  | .arr items => isJsonItems items
  | .obj fields => isJsonFields fields
  | _ => true

def isJsonItems : List (JsValue ν) → Bool
  | [] => true
  | v :: vs => isJson v && isJsonItems vs

def isJsonFields : List (JsString × JsValue ν) → Bool
  | [] => true
  | (_, v) :: fs => isJson v && isJsonFields fs

end

theorem isJsonItems_iff {items : List (JsValue ν)} :
    isJsonItems items = true ↔ ∀ v ∈ items, v.isJson = true := by
  induction items with
  | nil => simp [isJsonItems]
  | cons v vs ih => simp [isJsonItems, ih]

theorem isJsonFields_iff {fields : List (JsString × JsValue ν)} :
    isJsonFields fields = true ↔ ∀ kv ∈ fields, kv.2.isJson = true := by
  induction fields with
  | nil => simp [isJsonFields]
  | cons kv fs ih => simp [isJsonFields, ih]

theorem isJson_arr {items : List (JsValue ν)} :
    (JsValue.arr items).isJson = true ↔ ∀ v ∈ items, v.isJson = true := by
  rw [isJson, isJsonItems_iff]

theorem isJson_obj {fields : List (JsString × JsValue ν)} :
    (JsValue.obj fields).isJson = true ↔ ∀ kv ∈ fields, kv.2.isJson = true := by
  rw [isJson, isJsonFields_iff]

mutual

/-- No object lists a key twice. -/
def Distinct : JsValue ν → Prop
  | .arr items => DistinctItems items
  | .obj fields => (fields.map Prod.fst).Nodup ∧ DistinctFields fields
  | _ => True

def DistinctItems : List (JsValue ν) → Prop
  | [] => True
  | v :: vs => Distinct v ∧ DistinctItems vs

def DistinctFields : List (JsString × JsValue ν) → Prop
  | [] => True
  | (_, v) :: fs => Distinct v ∧ DistinctFields fs

end

theorem distinctItems_iff {items : List (JsValue ν)} :
    DistinctItems items ↔ ∀ v ∈ items, v.Distinct := by
  induction items with
  | nil => simp [DistinctItems]
  | cons v vs ih => simp [DistinctItems, ih]

theorem distinctFields_iff {fields : List (JsString × JsValue ν)} :
    DistinctFields fields ↔ ∀ kv ∈ fields, kv.2.Distinct := by
  induction fields with
  | nil => simp [DistinctFields]
  | cons kv fs ih => simp [DistinctFields, ih]

theorem distinct_arr {items : List (JsValue ν)} :
    (JsValue.arr items).Distinct ↔ ∀ v ∈ items, v.Distinct := by
  rw [Distinct, distinctItems_iff]

theorem distinct_obj {fields : List (JsString × JsValue ν)} :
    (JsValue.obj fields).Distinct ↔
      (fields.map Prod.fst).Nodup ∧ ∀ kv ∈ fields, kv.2.Distinct := by
  rw [Distinct, distinctFields_iff]

/-! ### What `JSON.stringify` keeps -/

mutual

/-- `JSON.stringify` drops members that are holes and writes `null` for items
that are. -/
def prune : JsValue ν → JsValue ν
  | .arr items => .arr (pruneItems items)
  | .obj fields => .obj (pruneFields fields)
  | v => v

def pruneItems : List (JsValue ν) → List (JsValue ν)
  | [] => []
  | .undef :: vs => .null :: pruneItems vs
  | v :: vs => prune v :: pruneItems vs

def pruneFields : List (JsString × JsValue ν) → List (JsString × JsValue ν)
  | [] => []
  | (_, .undef) :: fs => pruneFields fs
  | (k, v) :: fs => (k, prune v) :: pruneFields fs

end

theorem pruneItems_of_isJson {items : List (JsValue ν)} (h : ∀ v ∈ items, v.isJson = true)
    (ih : ∀ v ∈ items, v.prune = v) : pruneItems items = items := by
  induction items with
  | nil => rfl
  | cons v vs ihl =>
    have hv := h v (by simp)
    have hvs := ihl (fun w hw => h w (by simp [hw])) (fun w hw => ih w (by simp [hw]))
    have hp := ih v (by simp)
    cases v <;> simp_all [pruneItems, isJson]

theorem pruneFields_of_isJson {fields : List (JsString × JsValue ν)}
    (h : ∀ kv ∈ fields, kv.2.isJson = true) (ih : ∀ kv ∈ fields, kv.2.prune = kv.2) :
    pruneFields fields = fields := by
  induction fields with
  | nil => rfl
  | cons kv fs ihl =>
    obtain ⟨k, v⟩ := kv
    have hv := h (k, v) (by simp)
    have hfs := ihl (fun w hw => h w (by simp [hw])) (fun w hw => ih w (by simp [hw]))
    have hp := ih (k, v) (by simp)
    cases v <;> simp_all [pruneFields, isJson]

/-- A JSON value is kept as it is. -/
theorem prune_of_isJson (v : JsValue ν) (h : v.isJson = true) : v.prune = v := by
  induction v using induct with
  | arr items ih =>
    have hi := isJson_arr.mp h
    rw [prune, pruneItems_of_isJson hi fun w hw => ih w hw (hi w hw)]
  | obj fields ih =>
    have hf := isJson_obj.mp h
    rw [prune, pruneFields_of_isJson hf fun kv hkv => ih kv hkv (hf kv hkv)]
  | _ => rfl

theorem prune_eq_undef {v : JsValue ν} : v.prune = .undef ↔ v = .undef := by
  cases v <;> simp [prune]

theorem pruneItems_eq_map (items : List (JsValue ν)) :
    pruneItems items = items.map fun v => match v with | .undef => .null | v => v.prune := by
  induction items with
  | nil => rfl
  | cons v vs ih => cases v <;> rw [pruneItems, ih] <;> first | rfl | simp

theorem mem_pruneFields {fields : List (JsString × JsValue ν)} {kv : JsString × JsValue ν}
    (h : kv ∈ pruneFields fields) : ∃ v, (kv.1, v) ∈ fields ∧ v ≠ .undef ∧ kv.2 = v.prune := by
  induction fields with
  | nil => cases h
  | cons kv' fs ih =>
    obtain ⟨k, v⟩ := kv'
    have hrest : kv ∈ pruneFields fs →
        ∃ w, (kv.1, w) ∈ (k, v) :: fs ∧ w ≠ .undef ∧ kv.2 = w.prune := fun h' => by
      obtain ⟨w, hw, hne, heq⟩ := ih h'
      exact ⟨w, List.mem_cons_of_mem _ hw, hne, heq⟩
    by_cases hv : v = .undef
    · subst hv
      exact hrest (by simpa [pruneFields] using h)
    · have hcons : pruneFields ((k, v) :: fs) = (k, v.prune) :: pruneFields fs := by
        cases v <;> first | rfl | exact absurd rfl hv
      rw [hcons] at h
      rcases List.mem_cons.mp h with rfl | h
      · exact ⟨v, by simp, hv, rfl⟩
      · exact hrest h

theorem mem_pruneFields_of_mem {fields : List (JsString × JsValue ν)} {k : JsString}
    {v : JsValue ν} (h : (k, v) ∈ fields) (hv : v ≠ .undef) :
    (k, v.prune) ∈ pruneFields fields := by
  induction fields with
  | nil => cases h
  | cons kv fs ih =>
    obtain ⟨k', w⟩ := kv
    rcases List.mem_cons.mp h with heq | hmem
    · cases heq
      cases v <;> first | exact List.mem_cons_self | exact absurd rfl hv
    · have hrest := ih hmem
      cases w <;> first | exact List.mem_cons_of_mem _ hrest | exact hrest

theorem keys_pruneFields (fields : List (JsString × JsValue ν)) :
    ((pruneFields fields).map Prod.fst).Sublist (fields.map Prod.fst) := by
  induction fields with
  | nil => exact List.Sublist.refl _
  | cons kv fs ih =>
    obtain ⟨k, v⟩ := kv
    cases v
    case undef => exact ih.cons _
    all_goals exact ih.cons_cons _

/-- A member that is no hole is kept. -/
theorem get_prune {fields : List (JsString × JsValue ν)} (hn : (fields.map Prod.fst).Nodup)
    {k : JsString} {v : JsValue ν} (h : field? k fields = some v) (hv : v ≠ .undef) :
    (JsValue.obj fields).prune.get k = v.prune := by
  have hmem := mem_pruneFields_of_mem (mem_of_field? h) hv
  rw [prune, get, field?_of_mem (hn.sublist (keys_pruneFields fields)) hmem, Option.getD_some]

/-- What `JSON.stringify` keeps has no hole. -/
theorem isJson_prune (v : JsValue ν) (hv : v ≠ .undef) : v.prune.isJson = true := by
  induction v using induct with
  | undef => exact absurd rfl hv
  | arr items ih =>
    rw [prune, isJson_arr, pruneItems_eq_map, List.forall_mem_map]
    intro v hv
    cases v
    case undef => rfl
    all_goals exact ih _ hv (by simp)
  | obj fields ih =>
    rw [prune, isJson_obj]
    intro kv hkv
    obtain ⟨v, hmem, hne, heq⟩ := mem_pruneFields hkv
    rw [heq]
    exact ih _ hmem hne
  | _ => rfl

theorem distinct_prune (v : JsValue ν) (hv : v.Distinct) : v.prune.Distinct := by
  induction v using induct with
  | arr items ih =>
    rw [prune, distinct_arr, pruneItems_eq_map, List.forall_mem_map]
    intro v hmem
    have hd := distinct_arr.mp hv v hmem
    cases v
    case undef => trivial
    all_goals exact ih _ hmem hd
  | obj fields ih =>
    obtain ⟨hn, hd⟩ := distinct_obj.mp hv
    rw [prune, distinct_obj]
    refine ⟨hn.sublist (keys_pruneFields fields), fun kv hkv => ?_⟩
    obtain ⟨v, hmem, -, heq⟩ := mem_pruneFields hkv
    rw [heq]
    exact ih _ hmem (hd _ hmem)
  | _ => trivial

end JsValue

end Haechi
