import Haechi.Policy.Profiles

/-! Layers of members. `{ ...lower, ...upper }` answers to a name with the upper layer's
member, and with the lower one's where the upper has none; laid over its own lower layer
a result stays as it is. Values that are no objects have members too, a text those of
its characters, and any value has a text. -/

namespace Haechi.Cli

open JsValue Policy Text

variable {ν : Type}

/-- The members of an object. -/
abbrev Fields (ν : Type) := List (JsString × JsValue ν)

/-! ### Spreading -/

theorem get_obj (fields : Fields ν) (k : JsString) :
    (obj fields).get k = (field? k fields).getD .undef := rfl

theorem field?_spread {lower upper : Fields ν} (h : (upper.map Prod.fst).Nodup)
    (hl : (lower.map Prod.fst).Nodup) (k : JsString) :
    field? k (spread lower upper) = (field? k upper).or (field? k lower) := by
  induction upper generalizing lower with
  | nil => rfl
  | cons kv upper ih =>
    obtain ⟨k', v⟩ := kv
    obtain ⟨hk', hn⟩ := List.nodup_cons.mp h
    have hstep := ih hn (nodup_setField k' v hl)
    rw [spread, List.foldl_cons, ← spread, hstep, field?]
    split_ifs with hk
    · subst hk
      rw [field?_eq_none.mpr hk', field?_setField_self _ _ hl]
      rfl
    · rw [field?_setField_of_ne (Ne.symm hk)]

/-- A member that is there already is written again. -/
theorem setField_same {k : JsString} {v : JsValue ν} {fs : Fields ν}
    (hn : (fs.map Prod.fst).Nodup) (h : field? k fs = some v) : setField k v fs = fs := by
  rw [setField, if_pos (List.mem_map_of_mem (mem_of_field? h))]
  refine (List.map_congr_left fun kv hkv => ?_).trans (List.map_id fs)
  split_ifs with hk
  · obtain ⟨k', w⟩ := kv
    obtain rfl : k' = k := hk
    rw [field?_of_mem hn hkv] at h
    rw [Option.some.inj h]
    rfl
  · rfl

theorem spread_same {lower upper : Fields ν} (hn : (lower.map Prod.fst).Nodup)
    (h : ∀ kv ∈ upper, field? kv.1 lower = some kv.2) : spread lower upper = lower := by
  induction upper with
  | nil => rfl
  | cons kv upper ih =>
    obtain ⟨hkv, hrest⟩ := List.forall_mem_cons.mp h
    rw [spread, List.foldl_cons, setField_same hn hkv]
    exact ih hrest

theorem prefix_keys_setField (k : JsString) (v : JsValue ν) (fs : Fields ν) :
    fs.map Prod.fst <+: (setField k v fs).map Prod.fst := by
  rw [setField]
  split_ifs
  · rw [keys_replace]
  · rw [List.map_append]
    exact List.prefix_append _ _

theorem prefix_keys_spread (lower upper : Fields ν) :
    lower.map Prod.fst <+: (spread lower upper).map Prod.fst := by
  induction upper generalizing lower with
  | nil => exact List.prefix_rfl
  | cons kv upper ih => exact (prefix_keys_setField kv.1 kv.2 lower).trans (ih _)

theorem map_replace_of_notMem {k : JsString} (v : JsValue ν) {fs : Fields ν}
    (h : k ∉ fs.map Prod.fst) : fs.map (fun kv => if kv.1 = k then (k, v) else kv) = fs := by
  refine (List.map_congr_left fun kv hkv => ?_).trans (List.map_id fs)
  have hne : kv.1 ≠ k := fun he => h (he ▸ List.mem_map_of_mem hkv)
  exact if_neg hne

/-- A member keeps its place. -/
theorem setField_append_cons {k : JsString} (v w : JsValue ν) {done rest : Fields ν}
    (hdone : k ∉ done.map Prod.fst) (hrest : k ∉ rest.map Prod.fst) :
    setField k v (done ++ (k, w) :: rest) = done ++ (k, v) :: rest := by
  rw [setField, if_pos (by simp), List.map_append, List.map_cons, if_pos rfl,
    map_replace_of_notMem v hdone, map_replace_of_notMem v hrest]

/-- What is written over the first of its own names is all that remains. -/
theorem spread_append_of_keys (done : Fields ν) {lower upper : Fields ν}
    (hn : ((done ++ upper).map Prod.fst).Nodup)
    (h : lower.map Prod.fst <+: upper.map Prod.fst) :
    spread (done ++ lower) upper = done ++ upper := by
  induction upper generalizing done lower with
  | nil => simpa [spread] using h
  | cons kv upper ih =>
    obtain ⟨k, v⟩ := kv
    have hnext : ((done ++ [(k, v)] ++ upper).map Prod.fst).Nodup := by simpa using hn
    have hsplit := hn
    rw [List.map_append, List.map_cons] at hsplit
    have hdone : k ∉ done.map Prod.fst := fun hmem =>
      List.disjoint_of_nodup_append hsplit hmem List.mem_cons_self
    have hupper : k ∉ upper.map Prod.fst :=
      (List.nodup_cons.mp (List.nodup_append.mp hsplit).2.1).1
    cases lower with
    | nil =>
      have hnew : setField k v done = done ++ [(k, v)] := by rw [setField, if_neg hdone]
      have hnil : ([] : Fields ν).map Prod.fst <+: upper.map Prod.fst := List.nil_prefix
      have hrest := ih (done ++ [(k, v)]) hnext hnil
      rw [List.append_nil] at hrest ⊢
      rw [spread, List.foldl_cons, hnew, ← spread, hrest]
      exact (List.append_cons done (k, v) upper).symm
    | cons kv' lower =>
      obtain ⟨k', w⟩ := kv'
      obtain ⟨hk, hbegin⟩ := List.cons_prefix_cons.mp h
      obtain rfl : k' = k := hk
      have hlower : k' ∉ lower.map Prod.fst := fun hmem => hupper (hbegin.subset hmem)
      have hrest := ih (done ++ [(k', v)]) hnext hbegin
      rw [spread, List.foldl_cons, setField_append_cons v w hdone hlower,
        List.append_cons done (k', v) lower, ← spread, hrest]
      exact (List.append_cons done (k', v) upper).symm

/-- What begins with the names of the lower layer stays as it is over it. -/
theorem spread_of_keys {lower upper : Fields ν} (hn : (upper.map Prod.fst).Nodup)
    (h : lower.map Prod.fst <+: upper.map Prod.fst) : spread lower upper = upper :=
  spread_append_of_keys [] hn h

/-! ### Members and texts of values -/

def indexed (items : List (JsValue ν)) : Fields ν :=
  items.zipIdx.map fun item => (natText item.2, item.1)

/-- The members `{ ...value }` copies. -/
def members : JsValue ν → Fields ν
  | .obj fields => fields
  | .arr items => indexed items
  | .str s => indexed (s.map fun c => .str [c])
  | _ => []

theorem keys_indexed (items : List (JsValue ν)) :
    (indexed items).map Prod.fst = (items.zipIdx.map Prod.snd).map natText := by
  rw [indexed, List.map_map, List.map_map]
  rfl

theorem nodup_indexed (items : List (JsValue ν)) : ((indexed items).map Prod.fst).Nodup := by
  rw [keys_indexed, List.zipIdx_map_snd]
  exact List.Nodup.map natText_injective List.nodup_range'

theorem nodup_members {v : JsValue ν} (hv : v.Distinct) : ((members v).map Prod.fst).Nodup := by
  cases v with
  | obj fields => exact (distinct_obj.mp hv).1
  | arr items => exact nodup_indexed items
  | str s => exact nodup_indexed _
  | _ => exact List.nodup_nil

theorem get_indexed (items : List (JsValue ν)) {k : JsString} (hk : ∃ c ∈ k, isDigit c = false) :
    (obj (indexed items)).get k = .undef := by
  have habsent : k ∉ (indexed items).map Prod.fst := by
    rw [keys_indexed]
    intro hmem
    obtain ⟨n, -, rfl⟩ := List.mem_map.mp hmem
    obtain ⟨c, hc, hdigit⟩ := hk
    exact Bool.false_ne_true (hdigit.symm.trans (natText_all n c hc))
  rw [get_obj, field?_eq_none.mpr habsent, Option.getD_none]

/-- A name that is no number is a member of objects only. -/
theorem get_members (v : JsValue ν) {k : JsString} (hk : ∃ c ∈ k, isDigit c = false) :
    (obj (members v)).get k = v.get k := by
  cases v with
  | arr items => exact get_indexed items hk
  | str s => exact get_indexed _ hk
  | _ => rfl

/-- A member of a JSON value is one, if it is there. -/
theorem wellFormed_get {v : JsValue ν} (hv : Json.WellFormed v) (k : JsString) :
    v.get k = .undef ∨ Json.WellFormed (v.get k) := by
  cases v with
  | obj fields =>
    rw [get_obj]
    cases hf : field? k fields with
    | none => exact .inl rfl
    | some w =>
      have hmem := mem_of_field? hf
      exact .inr ⟨isJson_obj.mp hv.1 _ hmem, (distinct_obj.mp hv.2).2 _ hmem⟩
  | _ => exact .inl rfl

theorem isJson_indexed {items : List (JsValue ν)} (h : ∀ v ∈ items, v.isJson = true) :
    ∀ kv ∈ indexed items, kv.2.isJson = true := by
  intro kv hkv
  obtain ⟨item, hitem, rfl⟩ := List.mem_map.mp hkv
  exact h item.1 (List.fst_mem_of_mem_zipIdx hitem)

/-- No member of a JSON value is a hole. -/
theorem isJson_members {v : JsValue ν} (hv : v.isJson = true) :
    ∀ kv ∈ members v, kv.2.isJson = true := by
  cases v with
  | obj fields => exact isJson_obj.mp hv
  | arr items => exact isJson_indexed (isJson_arr.mp hv)
  | str s => exact isJson_indexed (by simp [isJson])
  | _ => exact List.forall_mem_nil _

/-- `{ ...lower, ...value }`. -/
def layered (lower : Fields ν) (value : JsValue ν) : Fields ν := spread lower (members value)

section Texts

variable [JsNumber ν]

mutual

/-- `String(value)`. A member named `toString` is no function, and then there is no text. -/
def toText? : JsValue ν → Option JsString
  | .undef => some (js "undefined")
  | .null => some (js "null")
  | .bool b => some (if b then js "true" else js "false")
  | .num x => some (JsNumber.toText x)
  | .str s => some s
  | .arr items => (itemTexts items).map [44].intercalate
  | .obj fields => if js "toString" ∈ fields.map Prod.fst then none else some (js "[object Object]")

/-- The texts an array joins, empty ones for `undefined` and `null`. -/
def itemTexts : List (JsValue ν) → Option (List JsString)
  | [] => some []
  | .undef :: items => (itemTexts items).map ([] :: ·)
  | .null :: items => (itemTexts items).map ([] :: ·)
  | item :: items => (toText? item).bind fun text => (itemTexts items).map (text :: ·)

end

def noText : JsString := js "Cannot convert object to primitive value"

/-- A message with a value in it. -/
def message (before : String) (v : JsValue ν) (after : String) : JsString :=
  (toText? v).elim noText fun text => js before ++ text ++ js after

/-- A message with `JSON.stringify` of a value in it. -/
def quoted (before : String) (v : JsValue ν) (after : String) : JsString :=
  js before ++ (Json.stringify v).getD (js "undefined") ++ js after

end Texts

end Haechi.Cli
