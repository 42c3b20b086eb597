import Haechi.Text.Value

/-! Reading a property of a plain object by a computed name. An object that does
not hold the name itself gives what `Object.prototype` holds, which is a function
or an object and never a data value. Loops over `Object.entries` see the members
the object holds itself and no others. -/

namespace Haechi

/-- The names `Object.prototype` answers to. -/
def prototypeMembers : List JsString :=
  [js "constructor", js "__defineGetter__", js "__defineSetter__", js "hasOwnProperty",
    js "__lookupGetter__", js "__lookupSetter__", js "isPrototypeOf",
    js "propertyIsEnumerable", js "toString", js "valueOf", js "__proto__",
    js "toLocaleString"]

/-- What `object[name]` evaluates to. -/
inductive Property (ν : Type) where
  | value (v : JsValue ν)
  | inherited

namespace JsValue

variable {ν : Type}

def property (fields : List (JsString × JsValue ν)) (name : JsString) : Property ν :=
  match field? name fields with
  | some v => .value v
  | none => if name ∈ prototypeMembers then .inherited else .value .undef

theorem property_of_field? {fields : List (JsString × JsValue ν)} {name : JsString}
    {v : JsValue ν} (h : field? name fields = some v) : property fields name = .value v := by
  rw [property, h]

theorem property_of_absent {fields : List (JsString × JsValue ν)} {name : JsString}
    (h : field? name fields = none) (hp : name ∉ prototypeMembers) :
    property fields name = .value .undef := by
  rw [property, h]
  exact if_neg hp

theorem property_of_inherited {fields : List (JsString × JsValue ν)} {name : JsString}
    (h : field? name fields = none) (hp : name ∈ prototypeMembers) :
    property fields name = .inherited := by
  rw [property, h]
  exact if_pos hp

/-- A default of a destructuring pattern or a parameter. -/
def orDefault (v d : JsValue ν) : JsValue ν :=
  match v with
  | .undef => d
  | v => v

/-- The operator `??`. -/
def orElse (v d : JsValue ν) : JsValue ν :=
  match v with
  | .undef | .null => d
  | v => v

end JsValue

end Haechi
