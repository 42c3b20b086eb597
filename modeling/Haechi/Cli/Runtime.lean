import Haechi.Cli.Normalize

/-! The mode the gateway runs in. It may be set in the environment, at the top of the
configuration file or in its policy section, and what uses it asks the policy section
first. Proved: as the defaults give the policy section a mode of its own, a mode that is
set elsewhere is the one in use exactly when it is the default, or when the file's policy
section sets its mode to `null`. -/

namespace Haechi.Cli

open JsValue Policy Text

variable {ν : Type} [JsNumber ν]

/-! ### The runtime -/

/-- `String(name)` of each preset's name; what cannot be iterated over has none. -/
def presetNames : JsValue ν → Option (List JsString)
  | .undef => some []
  | .arr items => some (items.map fun item => (toText? item).getD noText)
  | .str s => some (codePoints s)
  | _ => none

/-- `Object.entries(value)`, where `undefined` has a default. -/
def entriesOf : JsValue ν → Option (Fields ν)
  | .null => none
  | v => some (members v)

/-- The base policy, as `buildPolicy` reads it. -/
def sourceOf (policy : JsValue ν) : Option (Source ν) := do
  let presets ← presetNames (policy.get (js "presets"))
  let actions ← entriesOf (policy.get (js "actions"))
  return {
    presets
    mode := policy.get (js "mode")
    defaultAction := policy.get (js "defaultAction")
    actions := spread [] actions
    customRules := policy.get (js "customRules")
    allowUnsafeOverrides := policy.get (js "allowUnsafeOverrides")
    distinct := nodup_spread actions List.nodup_nil }

def overrideOf (profile : JsValue ν) : Option (Override ν) := do
  let own := fun name : String => field? (js name) (members profile)
  let presets ← match own "presets" with
    | none => some none
    | some presets => (presetNames presets).map some
  return {
    presets
    mode := own "mode"
    defaultAction := own "defaultAction"
    actions := members (profile.get (js "actions"))
    customRules := own "customRules"
    allowUnsafeOverrides := own "allowUnsafeOverrides"
    modelAllowlist := profile.get (js "modelAllowlist")
    rate := profile.get (js "rate") }

def bindingMap (map : JsValue ν) : Option (Fields ν) :=
  if isGiven map then some (members map) else none

def bindingOf (binding : JsValue ν) : Option (Binding ν) :=
  if binding.truthy then
    some ⟨binding.get (js "default"), bindingMap (binding.get (js "byScope")),
      bindingMap (binding.get (js "byLabel"))⟩
  else none

/-- The argument of `createPolicyProfiles`; not every value has its shape. -/
def policyConfigOf (policy : JsValue ν) : Option (PolicyConfig ν) := do
  let source ← sourceOf policy
  let profiles ← entriesOf (policy.get (js "profiles"))
  let profiles ← profiles.mapM fun (name, profile) =>
    (overrideOf profile).map fun override => (name, override)
  return {
    source with
    modelAllowlist := policy.get (js "modelAllowlist")
    rate := policy.get (js "rate")
    profiles
    profileBinding := bindingOf (policy.get (js "profileBinding")) }

inductive RuntimeError (ν : Type) where
  | config (message : JsString)
  | policy (error : PolicyError ν)
  | typeError

/-- The part of the runtime that decides in which mode it runs. -/
structure Runtime (ν : Type) where
  config : Fields ν
  policyProfiles : PolicyProfiles ν
  /-- The `mode` that `createHaechi` is given. -/
  mode : JsValue ν

/-- What the proxy, the bridge and the policy take for the mode. -/
def effectiveMode (config : Fields ν) : JsValue ν :=
  (((obj config).get (js "policy")).get (js "mode")).orElse ((obj config).get (js "mode"))

section Create

variable (host : Host)
  -- the policy of the verified bundle at a path, under the keys of a file
  (loadBundle : JsValue ν → JsValue ν → Except (RuntimeError ν) (JsValue ν))

/-- The policy of the bundle, where one is named, and else the section itself. -/
def policyBase (normalized : Fields ν) : Except (RuntimeError ν) (JsValue ν) :=
  let policy := (obj normalized).get (js "policy")
  if (policy.get (js "bundlePath")).truthy then
    loadBundle (policy.get (js "bundlePath"))
      (((obj normalized).get (js "keys")).get (js "keyFile"))
  else .ok policy

def policySource (normalized : Fields ν) : Except (RuntimeError ν) (Fields ν) := do
  let base ← policyBase loadBundle normalized
  return setField (js "mode") (effectiveMode normalized) (spread [] (members base))

/-- `applyPrivacyProfile`, when a profile is set. -/
def privacyTransform (normalized : Fields ν) :
    Except (RuntimeError ν) (Option (Source ν → Source ν)) :=
  let id := ((obj normalized).get (js "privacy")).get (js "profile")
  if id.truthy then
    match getPrivacyProfile host id with
    | .error message => .error (.config message)
    | .ok none => .error .typeError
    | .ok (some profile) => .ok (some fun source => (profile.apply source).toSource)
  else .ok none

def createRuntime (config : Fields ν) : Except (RuntimeError ν) (Runtime ν) := do
  let normalized ← (normalizeConfig host config).mapError .config
  let source ← policySource loadBundle normalized
  let transform ← privacyTransform host normalized
  match policyConfigOf (.obj source) with
  | none => .error .typeError
  | some policyConfig => do
    let policyProfiles ← (createPolicyProfiles policyConfig transform).mapError .policy
    return ⟨normalized, policyProfiles, (obj normalized).get (js "mode")⟩

end Create

namespace Runtime

variable (r : Runtime ν)

/-- `mode` of the proxy's request handler. -/
def proxyMode : JsValue ν := effectiveMode r.config

/-- `mode` of the context in which the MCP bridge protects messages. -/
def bridgeMode : JsValue ν := effectiveMode r.config

/-- `effectiveMode` of `protectJson`, in a context with this mode. -/
def protectMode (mode : JsValue ν) : JsValue ν :=
  mode.orElse (r.mode.orDefault (.str (js "dry-run")))

/-- Everything that has a mode runs in this one. -/
structure Runs (m : JsValue ν) : Prop where
  proxy : r.protectMode r.proxyMode = m
  bridge : r.protectMode r.bridgeMode = m
  policy : r.policyProfiles.base.policyEngine.mode = m
  decisions : ∀ (engine : MergedPolicy ν) type ruleId,
    (engine.decide type ruleId (r.protectMode r.proxyMode)).mode = m

end Runtime

/-! ### What the overlay writes -/

/-- The sections that the environment may set a member of. -/
def overlaid : List JsString := [js "proxy", js "target", js "logging"]

/-- A variable that sets a member of one of these sections. -/
def Sectional (overlay : Overlay ν) : Prop :=
  ∀ config value config', overlay.apply config value = .ok config' →
    ∃ name key v, js name ∈ overlaid ∧ config' = withMember name key v config

theorem sectional_overlayPort (host : Host) : Sectional (overlayPort host : Overlay ν) := by
  intro config value config' h
  simp only [overlayPort] at h
  split at h
  · exact ⟨"proxy", "port", _, by simp [overlaid], (Except.ok.inj h).symm⟩
  · cases h

omit [JsNumber ν] in
theorem sectional_overlayHost : Sectional (overlayHost : Overlay ν) := by
  intro config value config' h
  simp only [overlayHost] at h
  split_ifs at h
  exact ⟨"proxy", "host", _, by simp [overlaid], (Except.ok.inj h).symm⟩

omit [JsNumber ν] in
theorem sectional_overlayUpstream (host : Host) :
    Sectional (overlayUpstream host : Overlay ν) := by
  intro config value config' h
  simp only [overlayUpstream] at h
  split_ifs at h
  exact ⟨"target", "upstream", _, by simp [overlaid], (Except.ok.inj h).symm⟩

omit [JsNumber ν] in
theorem sectional_overlayLogFormat : Sectional (overlayLogFormat : Overlay ν) := by
  intro config value config' h
  simp only [overlayLogFormat] at h
  split_ifs at h
  exact ⟨"logging", "format", _, by simp [overlaid], (Except.ok.inj h).symm⟩

omit [JsNumber ν] in
/-- The members outside these sections stay. -/
theorem Sectional.field? {overlay : Overlay ν} (hoverlay : Sectional overlay) {env : Env}
    {config config' : Fields ν} (h : overlay.run env config = .ok config') {k : JsString}
    (hk : k ∉ overlaid) : field? k config' = field? k config := by
  unfold Overlay.run at h
  split at h
  · rw [Except.ok.inj h]
  · obtain ⟨name, key, v, hname, rfl⟩ := hoverlay _ _ _ h
    rw [withMember, field?_setField_of_ne]
    rintro rfl
    exact hk hname

omit [JsNumber ν] in
theorem Sectional.nodup {overlay : Overlay ν} (hoverlay : Sectional overlay) {env : Env}
    {config config' : Fields ν} (h : overlay.run env config = .ok config')
    (hn : (config.map Prod.fst).Nodup) : (config'.map Prod.fst).Nodup := by
  unfold Overlay.run at h
  split at h
  · rwa [← Except.ok.inj h]
  · obtain ⟨name, key, v, -, rfl⟩ := hoverlay _ _ _ h
    exact nodup_setField _ _ hn

omit [JsNumber ν] in
theorem field?_spread_nil {upper : Fields ν} (hn : (upper.map Prod.fst).Nodup) (k : JsString) :
    JsValue.field? k (spread [] upper) = JsValue.field? k upper := by
  have hnil : (([] : Fields ν).map Prod.fst).Nodup := List.nodup_nil
  rw [field?_spread hn hnil]
  exact Option.or_none

/-- The mode a variable gives, and else the file's own. -/
def topMode (env : Env) (raw : JsValue ν) : Option (JsValue ν) :=
  ((env (js "HAECHI_MODE")).map .str).or (field? (js "mode") (members raw))

omit [JsNumber ν] in
theorem overlayMode_apply {config config' : Fields ν} {value : JsString}
    (h : overlayMode.apply config value = .ok config') :
    config' = setField (js "mode") (.str value) config := by
  simp only [overlayMode] at h
  split_ifs at h
  exact (Except.ok.inj h).symm

omit [JsNumber ν] in
theorem overlayMode_run {env : Env} {config config' : Fields ν}
    (h : overlayMode.run env config = .ok config') (hn : (config.map Prod.fst).Nodup) :
    (config'.map Prod.fst).Nodup ∧
      (∀ k, k ≠ js "mode" → field? k config' = field? k config) ∧
      field? (js "mode") config' =
        ((env (js "HAECHI_MODE")).map .str).or (field? (js "mode") config) := by
  have henv : (overlayMode : Overlay ν).env = js "HAECHI_MODE" := rfl
  rw [Overlay.run, henv] at h
  cases hmode : env (js "HAECHI_MODE") with
  | none =>
    simp only [hmode] at h
    obtain rfl := Except.ok.inj h
    exact ⟨hn, fun _ _ => rfl, rfl⟩
  | some value =>
    simp only [hmode] at h
    obtain rfl := overlayMode_apply h
    exact ⟨nodup_setField _ _ hn, fun k hk => field?_setField_of_ne hk _ _,
      field?_setField_self _ _ hn⟩

theorem applyEnvOverlay_ok {host : Host} {env : Env} {raw : JsValue ν} {config : Fields ν}
    (hraw : raw.Distinct) (h : applyEnvOverlay host env raw = .ok config) :
    (config.map Prod.fst).Nodup ∧ field? (js "mode") config = topMode env raw ∧
      field? (js "policy") config = field? (js "policy") (members raw) := by
  simp only [applyEnvOverlay, envOverlay, List.foldlM_cons, List.foldlM_nil] at h
  obtain ⟨c₁, h₁, h⟩ := bind_eq_ok.mp h
  obtain ⟨c₂, h₂, h⟩ := bind_eq_ok.mp h
  obtain ⟨c₃, h₃, h⟩ := bind_eq_ok.mp h
  obtain ⟨c₄, h₄, h⟩ := bind_eq_ok.mp h
  obtain ⟨c₅, h₅, h⟩ := bind_eq_ok.mp h
  obtain rfl := Except.ok.inj h
  have hport := sectional_overlayPort (ν := ν) host
  have hhost := sectional_overlayHost (ν := ν)
  have hupstream := sectional_overlayUpstream (ν := ν) host
  have hformat := sectional_overlayLogFormat (ν := ν)
  have hstart : ((spread [] (members raw)).map Prod.fst).Nodup :=
    nodup_spread _ List.nodup_nil
  have hn₃ := hupstream.nodup h₃ (hhost.nodup h₂ (hport.nodup h₁ hstart))
  obtain ⟨hn₄, hother, hmode⟩ := overlayMode_run h₄ hn₃
  -- before the mode, and after it, a member outside the sections is the file's own
  have hbefore : ∀ k, k ∉ overlaid → JsValue.field? k c₃ = JsValue.field? k (members raw) := by
    intro k hk
    rw [hupstream.field? h₃ hk, hhost.field? h₂ hk, hport.field? h₁ hk,
      field?_spread_nil (nodup_members hraw)]
  refine ⟨hformat.nodup h₅ hn₄, ?_, ?_⟩
  · rw [hformat.field? h₅ (by decide), hmode, hbefore _ (by decide), topMode]
  · rw [hformat.field? h₅ (by decide), hother _ (by decide), hbefore _ (by decide)]

/-! ### The mode in use -/

theorem normalizeConfig_ok {host : Host} {config n : Fields ν}
    (h : normalizeConfig host config = .ok n) :
    ∃ proxy target, n = setField (js "target") target (mergedConfig config proxy) := by
  simp only [normalizeConfig] at h
  obtain ⟨proxy, -, h⟩ := bind_eq_ok.mp h
  obtain ⟨-, -, h⟩ := bind_eq_ok.mp h
  obtain ⟨target, -, h⟩ := bind_eq_ok.mp h
  obtain ⟨-, -, h⟩ := bind_eq_ok.mp h
  exact ⟨proxy, target, (Except.ok.inj h).symm⟩

/-- The mode at the top: the configuration's own, over the default. -/
theorem normalizeConfig_mode {host : Host} {config n : Fields ν}
    (h : normalizeConfig host config = .ok n) (hn : (config.map Prod.fst).Nodup) :
    (obj n).get (js "mode") = (field? (js "mode") config).getD (text "dry-run") := by
  obtain ⟨proxy, target, heq⟩ := normalizeConfig_ok h
  have hdefault := nodup_defaultConfig (ν := ν)
  have hmode : field? (js "mode") (defaultConfig : Fields ν) = some (text "dry-run") :=
    field?_of_mem hdefault (by simp [defaultConfig, record])
  have hsection : field? (js "mode") (mergedConfig config proxy) =
      field? (js "mode") (spread defaultConfig config) := by
    apply field?_mergedConfig_of_notMem
    simp only [sections, List.map_cons, List.map_nil]
    decide
  rw [heq, get_setField_of_ne (by decide), get_obj, hsection, field?_spread hn hdefault, hmode]
  cases field? (js "mode") config <;> rfl

theorem normalizeConfig_policy {host : Host} {config n : Fields ν}
    (h : normalizeConfig host config = .ok n) :
    (obj n).get (js "policy") =
      mergeInner defaultPolicy "actions" defaultActions ((obj config).get (js "policy")) := by
  obtain ⟨proxy, target, heq⟩ := normalizeConfig_ok h
  rw [heq, get_setField_of_ne (by decide)]
  exact get_mergedConfig config proxy
    ("policy", mergeInner defaultPolicy "actions" defaultActions) (by simp [sections])

/-- The mode of the merged policy section: its own, over the default. -/
theorem mergeInner_mode {policy : JsValue ν} (hn : ((members policy).map Prod.fst).Nodup) :
    (mergeInner defaultPolicy "actions" defaultActions policy).get (js "mode") =
      (field? (js "mode") (members policy)).getD (text "dry-run") := by
  have hdefault := nodup_defaultLayers (ν := ν) defaultPolicy (by simp [defaultLayers])
  have hmode : field? (js "mode") (defaultPolicy : Fields ν) = some (text "dry-run") :=
    field?_of_mem hdefault (by simp [defaultPolicy, record])
  rw [mergeInner, get_setField_of_ne (by decide), get_obj, layered, field?_spread hn hdefault,
    hmode]
  cases field? (js "mode") (members policy) <;> rfl

theorem mapError_eq_ok {α ε ε' : Type} {f : ε → ε'} {x : Except ε α} {a : α} :
    x.mapError f = .ok a ↔ x = .ok a := by
  cases x <;> simp [Except.mapError]

omit [JsNumber ν] in
theorem orDefault_of_isGiven {m : JsValue ν} (h : isGiven m = true) (d : JsValue ν) :
    m.orDefault d = m := by
  cases m <;> first | rfl | cases h

omit [JsNumber ν] in
theorem orElse_of_isGiven {m : JsValue ν} (h : isGiven m = true) (d : JsValue ν) :
    m.orElse d = m := by
  cases m <;> first | rfl | cases h

theorem policyConfigOf_mode {policy : JsValue ν} {c : PolicyConfig ν}
    (h : policyConfigOf policy = some c) : c.mode = policy.get (js "mode") := by
  simp only [policyConfigOf] at h
  obtain ⟨source, hsource, h⟩ := Option.bind_eq_some_iff.mp h
  obtain ⟨profiles, -, h⟩ := Option.bind_eq_some_iff.mp h
  obtain ⟨overrides, -, h⟩ := Option.bind_eq_some_iff.mp h
  obtain rfl := Option.some.inj h
  simp only [sourceOf] at hsource
  obtain ⟨presets, -, hsource⟩ := Option.bind_eq_some_iff.mp hsource
  obtain ⟨actions, -, hsource⟩ := Option.bind_eq_some_iff.mp hsource
  obtain rfl := Option.some.inj hsource
  rfl

/-- A privacy profile does not touch the mode. -/
theorem privacyTransform_mode {host : Host} {normalized : Fields ν}
    {transform : Option (Source ν → Source ν)}
    (h : privacyTransform host normalized = .ok transform) (s : Source ν) :
    (transform.getD id s).mode = s.mode := by
  simp only [privacyTransform] at h
  split_ifs at h
  · split at h
    · cases h
    · cases h
    · obtain rfl := Except.ok.inj h
      rfl
  · obtain rfl := Except.ok.inj h
    rfl

section Created

variable {host : Host}
  {loadBundle : JsValue ν → JsValue ν → Except (RuntimeError ν) (JsValue ν)}

theorem policySource_mode {normalized source : Fields ν}
    (h : policySource loadBundle normalized = .ok source) :
    (obj source).get (js "mode") = effectiveMode normalized := by
  simp only [policySource] at h
  obtain ⟨base, -, h⟩ := bind_eq_ok.mp h
  obtain rfl := Except.ok.inj h
  have hnil : (([] : Fields ν).map Prod.fst).Nodup := List.nodup_nil
  rw [get_obj, field?_setField_self _ _ (nodup_spread _ hnil), Option.getD_some]

theorem createRuntime_ok {config : Fields ν} {r : Runtime ν}
    (h : createRuntime host loadBundle config = .ok r) :
    normalizeConfig host config = .ok r.config ∧
      r.policyProfiles.base.policyEngine.mode =
        (effectiveMode r.config).orDefault (.str (js "dry-run")) := by
  simp only [createRuntime] at h
  obtain ⟨normalized, hnormalized, h⟩ := bind_eq_ok.mp h
  obtain ⟨source, hsource, h⟩ := bind_eq_ok.mp h
  obtain ⟨transform, htransform, h⟩ := bind_eq_ok.mp h
  split at h
  · cases h
  · next policyConfig hconfig =>
    obtain ⟨profiles, hprofiles, h⟩ := bind_eq_ok.mp h
    obtain rfl := Except.ok.inj h
    refine ⟨mapError_eq_ok.mp hnormalized, ?_⟩
    rw [createPolicyProfiles_mode (mapError_eq_ok.mp hprofiles), privacyTransform_mode htransform,
      policyConfigOf_mode hconfig, policySource_mode hsource]

/-- A given mode that the configuration comes to is the one everything runs in. -/
theorem runs_of_effectiveMode {config : Fields ν} {r : Runtime ν}
    (h : createRuntime host loadBundle config = .ok r) {m : JsValue ν} (hm : isGiven m = true)
    (heffective : effectiveMode r.config = m) : r.Runs m := by
  have hprotect : r.protectMode (effectiveMode r.config) = m := by
    rw [heffective, Runtime.protectMode, orElse_of_isGiven hm]
  refine ⟨hprotect, hprotect, ?_, fun engine type ruleId => ?_⟩
  · rw [(createRuntime_ok h).2, heffective, orDefault_of_isGiven hm]
  · rw [MergedPolicy.decide, Runtime.proxyMode, hprotect, orElse_of_isGiven hm,
      orElse_of_isGiven hm]

end Created

/-- The mode that a loaded file comes to: its policy section's over that of the defaults,
and only where that is nullish the one at the top. -/
theorem effectiveMode_loaded {host : Host} {env : Env} {raw : JsValue ν}
    (hraw : Json.WellFormed raw) {config : Fields ν} (h : loadConfig host env raw = .ok config) :
    effectiveMode config =
      ((field? (js "mode") (members (raw.get (js "policy")))).getD (text "dry-run")).orElse
        ((topMode env raw).getD (text "dry-run")) := by
  obtain ⟨overlaid, hoverlay, hnormal⟩ := bind_eq_ok.mp h
  obtain ⟨hn, hmode, hpolicy⟩ := applyEnvOverlay_ok hraw.2 hoverlay
  have hsection : (obj overlaid).get (js "policy") = raw.get (js "policy") := by
    rw [get_obj, hpolicy, ← get_obj, get_members raw (by decide)]
  have hdistinct : ((members (raw.get (js "policy"))).map Prod.fst).Nodup := by
    rcases wellFormed_get hraw (js "policy") with hnone | hsome
    · rw [hnone]
      exact List.nodup_nil
    · exact nodup_members hsome.2
  rw [effectiveMode, normalizeConfig_mode hnormal hn, normalizeConfig_policy hnormal, hsection,
    mergeInner_mode hdistinct, hmode]

omit [JsNumber ν] in
/-- A policy section that does not set its mode leaves it out, or makes it `null`. -/
theorem policyMode_unset {raw : JsValue ν} (hraw : Json.WellFormed raw)
    (hunset : isGiven ((raw.get (js "policy")).get (js "mode")) = false) :
    field? (js "mode") (members (raw.get (js "policy"))) =
      if isNull ((raw.get (js "policy")).get (js "mode")) then some .null else none := by
  have hget := get_members (raw.get (js "policy")) (k := js "mode") (by decide)
  rw [get_obj] at hget
  rcases wellFormed_get hraw (js "policy") with hnone | hsome
  · rw [hnone]
    rfl
  · cases hf : field? (js "mode") (members (raw.get (js "policy"))) with
    | none =>
      rw [hf, Option.getD_none] at hget
      rw [← hget]
      rfl
    | some w =>
      rw [hf, Option.getD_some] at hget
      have hjson : w.isJson = true := isJson_members hsome.1 _ (mem_of_field? hf)
      rw [← hget] at hunset ⊢
      cases w with
      | undef => cases hjson
      | null => rfl
      | _ => cases hunset

/-- A mode given in the environment or at the top of the file is the one in use exactly
when it is the default, or the file's policy section makes its own `null`. -/
theorem effectiveMode_iff (host : Host)
    (loadBundle : JsValue ν → JsValue ν → Except (RuntimeError ν) (JsValue ν)) (env : Env)
    (file : JsString) (raw : JsValue ν) (hfile : Json.parse file = some raw)
    (hunset : isGiven ((raw.get (js "policy")).get (js "mode")) = false)
    (m : JsValue ν) (hm : topMode env raw = some m) (hgiven : isGiven m = true)
    (config : Fields ν) (hload : loadConfig host env raw = .ok config) :
    (effectiveMode config = m ∧
        ∀ r, createRuntime host loadBundle config = .ok r → r.Runs m) ↔
      m = text "dry-run" ∨ (raw.get (js "policy")).get (js "mode") = .null := by
  have hraw := Json.parse_wellFormed hfile
  have heffective := effectiveMode_loaded hraw hload
  rw [policyMode_unset hraw hunset, hm, Option.getD_some] at heffective
  have hnull : isNull ((raw.get (js "policy")).get (js "mode")) = true ↔
      (raw.get (js "policy")).get (js "mode") = .null := by
    cases (raw.get (js "policy")).get (js "mode") <;> simp [isNull]
  have hmode : effectiveMode config = m ↔
      m = text "dry-run" ∨ (raw.get (js "policy")).get (js "mode") = .null := by
    rw [← hnull]
    cases hcase : isNull ((raw.get (js "policy")).get (js "mode")) with
    | false =>
      have hdefault : effectiveMode config = text "dry-run" := by
        rw [heffective, hcase]
        rfl
      rw [hdefault, or_iff_left Bool.false_ne_true]
      exact eq_comm
    | true =>
      have hfileMode : effectiveMode config = m := by
        rw [heffective, hcase]
        rfl
      exact iff_of_true hfileMode (.inr rfl)
  constructor
  · exact fun h => hmode.mp h.1
  · intro h
    refine ⟨hmode.mpr h, fun r hr => runs_of_effectiveMode hr hgiven ?_⟩
    -- normalizing once more has changed nothing
    obtain ⟨overlaid, -, hnormal⟩ := bind_eq_ok.mp hload
    have hsame := (normalizeConfig_normalized hnormal).symm.trans (createRuntime_ok hr).1
    rw [← Except.ok.inj hsame]
    exact hmode.mpr h

/-- A platform without files, and one that reads no number and no URL. -/
def bareHost : Host where
  toCaseFolding := Proxy.asciiFolding
  toInteger _ := none
  protocolOf _ := none
  readFile _ := .error (js "ENOENT")
  cannotClone name := name

def noBundle (_ _ : JsValue NumberToken) : Except (RuntimeError NumberToken) (JsValue NumberToken) :=
  .error .typeError

/-- An environment with this mode and nothing else. -/
def modeEnv (mode : Option String) : Env := fun name =>
  if name = js "HAECHI_MODE" then mode.map js else none

/-- A file that enforces, and leaves the mode of its policy open. -/
def openFile : JsString := js "\x7b\"mode\":\"enforce\",\"policy\":\x7b\"mode\":null\x7d\x7d"

def openConfig : JsValue NumberToken :=
  .obj [(js "mode", text "enforce"), (js "policy", .obj [(js "mode", .null)])]

theorem distinct_openConfig : openConfig.Distinct := by
  have hkeys : js "mode" ≠ js "policy" := by decide
  simp [openConfig, distinct_obj, JsValue.Distinct, DistinctFields, text, hkeys]

theorem parse_openFile : Json.parse openFile = some openConfig :=
  Json.parse_stringify (v := openConfig) (by decide +kernel) distinct_openConfig

theorem exists_of_isOk {ε α : Type} {x : Except ε α} (h : x.isOk = true) : ∃ a, x = .ok a := by
  cases x with
  | error e => cases h
  | ok a => exact ⟨a, rfl⟩

theorem effectiveMode_iff_open : ∃ config,
    loadConfig bareHost (modeEnv none) openConfig = .ok config ∧
      effectiveMode config = text "enforce" ∧
        ∀ r, createRuntime bareHost noBundle config = .ok r → r.Runs (text "enforce") := by
  have hok : (loadConfig bareHost (modeEnv none) openConfig).isOk = true := by decide +kernel
  obtain ⟨config, hload⟩ := exists_of_isOk hok
  exact ⟨config, hload, (effectiveMode_iff bareHost noBundle (modeEnv none) openFile openConfig
    parse_openFile rfl (text "enforce") rfl rfl config hload).mpr (.inr rfl)⟩

/-- With an empty file the default of the policy section wins over the environment. -/
theorem mode_overridden : ¬∀ (host : Host)
    (loadBundle : JsValue NumberToken → JsValue NumberToken →
      Except (RuntimeError NumberToken) (JsValue NumberToken))
    (env : Env) (file : JsString) (raw : JsValue NumberToken), Json.parse file = some raw →
      (raw.get (js "policy")).get (js "mode") = .undef →
      ∀ mode ∈ modes, topMode env raw = some (.str mode) →
        ∀ config, loadConfig host env raw = .ok config →
          effectiveMode config = .str mode ∧
            ∀ r, createRuntime host loadBundle config = .ok r → r.Runs (.str mode) := by
  intro hclaim
  have hok : (loadConfig (ν := NumberToken) bareHost (modeEnv (some "enforce")) (.obj [])).isOk =
      true := by decide +kernel
  obtain ⟨config, hload⟩ := exists_of_isOk hok
  have hempty : Json.WellFormed (.obj [] : JsValue NumberToken) :=
    Json.wellFormed_obj List.nodup_nil (List.forall_mem_nil _)
  have hdefault : effectiveMode config = .str (js "dry-run") := effectiveMode_loaded hempty hload
  have hparse : Json.parse (js "\x7b\x7d") = some (.obj [] : JsValue NumberToken) :=
    Json.parse_stringify (v := .obj []) (by decide +kernel) hempty.2
  have henforce := (hclaim bareHost noBundle (modeEnv (some "enforce")) _ (.obj []) hparse rfl
    (js "enforce") (by decide) rfl config hload).1
  rw [hdefault] at henforce
  exact absurd (JsValue.str.inj henforce) (by decide)

end Haechi.Cli
