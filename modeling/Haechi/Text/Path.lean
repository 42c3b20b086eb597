import Haechi.Text.Value

/-! Paths into data values: reading the value a path leads to, and assigning to
it. Objects are values here, so an assignment in place gives the whole value
back, changed along the path; it fails where the language throws. -/

namespace Haechi

/-- One part of a path: a member of an object or a position in an array. -/
inductive PathPart where
  | key (k : JsString)
  | index (n : ℕ)
deriving DecidableEq

abbrev Path := List PathPart

/-- The property name of a part. -/
def PathPart.name : PathPart → JsString
  | .key k => k
  | .index n => Text.natText n

namespace JsValue

variable {ν : Type}

/-- `value?.[part]`. The characters of strings and the lengths of arrays are not
data of a JSON value, and no path leads to them. -/
def prop (v : JsValue ν) (part : PathPart) : JsValue ν :=
  match v, part with
  | .obj fields, part => (field? part.name fields).getD .undef
  | .arr items, .index n => items[n]?.getD .undef
  | _, _ => .undef

def getByPath : JsValue ν → Path → JsValue ν
  | v, [] => v
  | v, part :: rest => getByPath (v.prop part) rest

/-- `value[part] = next` on an object, or on a position of an array. A value that
is no object throws. -/
def assign (v : JsValue ν) (part : PathPart) (next : JsValue ν) : Option (JsValue ν) :=
  match v, part with
  | .obj fields, part => some (.obj (setField part.name next fields))
  | .arr items, .index n => if n < items.length then some (.arr (items.set n next)) else none
  | _, _ => none

/-- Only a leaf has the empty path, and assigning to a property of one throws. -/
def setByPath : JsValue ν → Path → JsValue ν → Option (JsValue ν)
  | _, [], _ => none
  | v, [part], next => v.assign part next
  | v, part :: rest, next => (setByPath (v.prop part) rest next).bind (v.assign part)

theorem setByPath_cons {v : JsValue ν} {part : PathPart} {rest : Path} (h : rest ≠ [])
    (next : JsValue ν) :
    v.setByPath (part :: rest) next = (setByPath (v.prop part) rest next).bind (v.assign part) := by
  cases rest with
  | nil => exact absurd rfl h
  | cons part' rest => rfl

theorem prop_key {fields : List (JsString × JsValue ν)} (hn : (fields.map Prod.fst).Nodup)
    {k : JsString} {v : JsValue ν} (h : (k, v) ∈ fields) : (JsValue.obj fields).prop (.key k) = v := by
  simp only [prop, PathPart.name, field?_of_mem hn h, Option.getD_some]

theorem prop_index {items : List (JsValue ν)} {n : ℕ} {v : JsValue ν} (h : items[n]? = some v) :
    (JsValue.arr items).prop (.index n) = v := by simp [prop, h]

/-! ### Places -/

/-- The path leads through the containers of a value to a value in it. -/
inductive Leads : JsValue ν → Path → JsValue ν → Prop
  | here (v : JsValue ν) : Leads v [] v
  | item {items : List (JsValue ν)} {n : ℕ} {v w : JsValue ν} {rest : Path} :
      items[n]? = some v → Leads v rest w → Leads (.arr items) (.index n :: rest) w
  | member {fields : List (JsString × JsValue ν)} {k : JsString} {v w : JsValue ν} {rest : Path} :
      (k, v) ∈ fields → Leads v rest w → Leads (.obj fields) (.key k :: rest) w

theorem leads_nil {v w : JsValue ν} : Leads v [] w ↔ v = w := by
  constructor
  · intro h
    cases h
    rfl
  · rintro rfl
    exact .here v

theorem Leads.append {u v w : JsValue ν} {p q : Path} (h : Leads u p v) (h' : Leads v q w) :
    Leads u (p ++ q) w := by
  induction h with
  | here => exact h'
  | item hn _ ih => exact .item hn (ih h')
  | member hk _ ih => exact .member hk (ih h')

/-- A path leads to one value, if no object has two members of one name. -/
theorem Leads.unique {u v w : JsValue ν} {p : Path} (hu : u.Distinct) (h : Leads u p v)
    (h' : Leads u p w) : v = w := by
  induction h with
  | here => exact leads_nil.mp h'
  | item hn _ ih =>
    cases h' with
    | item hn' h' =>
      obtain rfl := Option.some.inj (hn.symm.trans hn')
      exact ih (distinct_arr.mp hu _ (List.mem_of_getElem? hn)) h'
  | member hk _ ih =>
    obtain ⟨hnodup, hfields⟩ := distinct_obj.mp hu
    cases h' with
    | member hk' h' =>
      obtain rfl := Option.some.inj
        ((field?_of_mem hnodup hk).symm.trans (field?_of_mem hnodup hk'))
      exact ih (hfields _ hk) h'

theorem Leads.distinct {u v : JsValue ν} {p : Path} (hu : u.Distinct) (h : Leads u p v) :
    v.Distinct := by
  induction h with
  | here => exact hu
  | item hn _ ih => exact ih (distinct_arr.mp hu _ (List.mem_of_getElem? hn))
  | member hk _ ih => exact ih ((distinct_obj.mp hu).2 _ hk)

/-- Put a value in the place a path leads to. -/
def replaceAt : JsValue ν → Path → JsValue ν → Option (JsValue ν)
  | _, [], next => some next
  | v, part :: rest, next => (replaceAt (v.prop part) rest next).bind (v.assign part)

theorem setByPath_eq_replaceAt {path : Path} (h : path ≠ []) (v next : JsValue ν) :
    v.setByPath path next = v.replaceAt path next := by
  induction path generalizing v with
  | nil => exact absurd rfl h
  | cons part rest ih =>
    cases rest with
    | nil => rfl
    | cons part' rest =>
      rw [setByPath_cons (List.cons_ne_nil _ _), ih (List.cons_ne_nil _ _)]
      rfl

end JsValue

end Haechi
