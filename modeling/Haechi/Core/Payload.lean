import Haechi.Core.Transform

/-! Protecting a JSON payload: its leaves and keys are collected and scanned, the
policy decides what happens to each detection, and the payload is rewritten
through the paths of the detections, values first and then keys, the deepest
first. -/

namespace Haechi.Core

open Text Haechi.Filter

variable {ν : Type} [JsNumber ν]

/-! ### Collecting what is scanned -/

/-- The path as the audit log may show it: object keys are hashed. -/
def pathTextFrom (shortHash : JsString → JsString) : Bool → Path → JsString
  | _, [] => []
  | _, .index n :: rest => 91 :: natText n ++ 93 :: pathTextFrom shortHash false rest
  | isFirst, .key k :: rest =>
    (if isFirst then [] else [46]) ++ js "key_" ++ shortHash k ++ pathTextFrom shortHash false rest

def safePathToString (shortHash : JsString → JsString) (path : Path) : JsString :=
  pathTextFrom shortHash true path

/-- The entry of a text at a path. -/
def entryAt (shortHash : JsString → JsString) (path : Path) (value : JsString) (kind : Kind) :
    Entry where
  path := path
  pathText := safePathToString shortHash path
  value := value
  kind := kind

section Collect

variable (shortHash : JsString → JsString) (maxDepth : ℕ)

mutual

/-- The entries of a value at a path. A container at the depth limit throws. -/
def collectStringEntries (path : Path) : JsValue ν → Option (List Entry)
  | .str s => some [entryAt shortHash path s .value]
  | .num x => some [entryAt shortHash path (JsNumber.toText x) .number]
  | .arr items => if maxDepth ≤ path.length then none else collectItems path 0 items
  | .obj fields => if maxDepth ≤ path.length then none else collectFields path fields
  | _ => some []

def collectItems (path : Path) (n : ℕ) : List (JsValue ν) → Option (List Entry)
  | [] => some []
  | v :: vs => do
    return (← collectStringEntries (path ++ [.index n]) v) ++ (← collectItems path (n + 1) vs)

def collectFields (path : Path) : List (JsString × JsValue ν) → Option (List Entry)
  | [] => some []
  | (k, v) :: fs => do
    return entryAt shortHash (path ++ [.key k]) k .key ::
      ((← collectStringEntries (path ++ [.key k]) v) ++ (← collectFields path fs))

end

end Collect

/-! ### Rewriting a payload -/

/-- The items of one leaf or key. -/
structure Group where
  kind : Kind
  path : Path
  items : List Item

/-- `byPath`: an item joins the group of its kind and path, or opens it. -/
def addToGroup (groups : List Group) (item : Item) : List Group :=
  if groups.any fun g => g.kind == item.1.kind && g.path == item.1.path then
    groups.map fun g =>
      if g.kind = item.1.kind ∧ g.path = item.1.path then { g with items := g.items ++ [item] }
      else g
  else groups ++ [⟨item.1.kind, item.1.path, [item]⟩]

def groupByPath (items : List Item) : List Group := items.foldl addToGroup []

/-- The text of a string or number leaf. -/
def leafText : JsValue ν → Option JsString
  | .str s => some s
  | .num x => some (JsNumber.toText x)
  | _ => none

/-- One value group. A number is replaced only when its text changes, a string
always. -/
def rewriteValue (r : Replacer) (output : JsValue ν) (g : Group) : Option (JsValue ν) :=
  match g.kind, output.getByPath g.path with
  | .number, .num x =>
    let transformed := transformString r (JsNumber.toText x) g.items
    if transformed ≠ JsNumber.toText x then output.setByPath g.path (.str transformed)
    else some output
  | .value, .str s => output.setByPath g.path (.str (transformString r s g.items))
  | _, _ => some output

/-- The text with a number after it. -/
def suffixed (text : JsString) (n : ℕ) : JsString := text ++ 35 :: natText n

/-- The first free name among `text#n`, `text#(n+1)`, … -/
def freeSuffix (keys : List JsString) (text : JsString) : ℕ → ℕ → JsString
  | 0, n => suffixed text n
  | fuel + 1, n =>
    if suffixed text n ∈ keys then freeSuffix keys text fuel (n + 1) else suffixed text n

/-- The text itself, if no key is it. Among as many suffixes as there are keys, and
one more, one is free. -/
def freeKey (keys : List JsString) (text : JsString) : JsString :=
  if text ∈ keys then freeSuffix keys text keys.length 2 else text

/-- Rename one member of an object. It moves to the end. -/
def renameKey (r : Replacer) (key : JsString) (items : List Item)
    (fields : List (JsString × JsValue ν)) : List (JsString × JsValue ν) :=
  match JsValue.field? key fields with
  | none => fields
  | some child =>
    let transformed := transformString r key items
    if transformed = key then fields
    else
      let others := JsValue.eraseField key fields
      others ++ [(freeKey (others.map Prod.fst) transformed, child)]

/-- Change the members of the object a path leads to, in place. -/
def updateObject (f : List (JsString × JsValue ν) → List (JsString × JsValue ν)) :
    Path → JsValue ν → JsValue ν
  | [], .obj fields => .obj (f fields)
  | [], v => v
  | part :: rest, v =>
    match v.prop part with
    | .undef => v
    | w => (v.assign part (updateObject f rest w)).getD v

/-- One key group: the last part of its path is the key, the others lead to the
object. -/
def rewriteKey (r : Replacer) (output : JsValue ν) (g : Group) : JsValue ν :=
  match g.path.getLast? with
  | some (.key key) => updateObject (renameKey r key g.items) g.path.dropLast output
  | _ => output

def valueGroups (groups : List Group) : List Group := groups.filter fun g => g.kind != .key

/-- The key groups, the longest path first. -/
def keyGroups (groups : List Group) : List Group :=
  (groups.filter fun g => g.kind == .key).insertionSort fun a b => b.path.length ≤ a.path.length

/-- `transformPayload`, which throws where an assignment does. -/
def transformPayload (r : Replacer) (enforced : Bool) (payload : JsValue ν) (items : List Item) :
    Option (JsValue ν) :=
  if !enforced || items.isEmpty then some payload
  else do
    let output ← (valueGroups (groupByPath items)).foldlM (rewriteValue r) payload
    return (keyGroups (groupByPath items)).foldl (rewriteKey r) output

/-! ### Protecting a payload -/

/-- The default filter engine. -/
structure Engine where
  nfkc : Nfkc
  decodeAndRescan : Bool
  rules : List Rule

def Engine.detect (e : Engine) (entries : List Entry) (ctx : Context) : List Detection :=
  Filter.detect e.nfkc e.decodeAndRescan e.rules entries ctx

/-- What one request is protected with: the engine and its context, the policy, the
mode, and the limits and dials of the configuration. -/
structure Setup where
  engine : Engine
  context : Context
  decide : Detection → Action
  replacer : Replacer
  /-- The mode is neither `dry-run` nor `report-only`. -/
  enforced : Bool
  maxNestingDepth : ℕ
  minConfidence : ℚ
  allowlist : List AllowEntry
  maxMatchBytes : ℕ

namespace Setup

variable (c : Setup)

/-- The entries of a value, or the error of a value that is nested too deeply. -/
def entries (v : JsValue ν) : Option (List Entry) :=
  collectStringEntries c.replacer.shortHash c.maxNestingDepth [] v

def decideAll (detections : List Detection) : List Item := detections.map fun d => (d, c.decide d)

/-- Some decision blocks, and decisions are enforced. -/
def blocks (items : List Item) : Bool := c.enforced && items.any fun item => item.2 == .block

end Setup

structure Protected (ν : Type) where
  payload : Option (JsValue ν)
  blocked : Bool
  items : List Item
  precision : Precision

/-- `protectJson`, without the audit record it writes. It throws on a value that is
nested too deeply and where the rewriting throws. -/
def protectJson (c : Setup) (payload : JsValue ν) : Option (Protected ν) := do
  let entries ← c.entries payload
  let precision := applyPrecisionControls (c.engine.detect entries c.context) c.minConfidence
    (compileAllowlist c.allowlist)
  let items := c.decideAll precision.detections
  if c.blocks items then return ⟨none, true, items, precision⟩
  else
    let output ← transformPayload c.replacer c.enforced payload items
    return ⟨some output, false, items, precision⟩

end Haechi.Core
