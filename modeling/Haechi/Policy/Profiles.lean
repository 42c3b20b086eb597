import Haechi.Policy.Monotone

/-! Named profiles and the binding of identities to them. Every profile is compiled
from the base policy with its own fields on top; the binding is checked to name
declared profiles only. The resolver then reads the two maps of the binding by
strings that come from the identity. Proved: it returns the declared profile that
the bindings name exactly when that profile's name is not empty and no scope before
the first bound one is an inherited name. -/

namespace Haechi.Policy

open JsValue

variable {ν : Type}

/-- A named profile; what it leaves out is taken from the base policy. -/
structure Override (ν : Type) where
  presets : Option (List JsString)
  mode : Option (JsValue ν)
  defaultAction : Option (JsValue ν)
  actions : List (JsString × JsValue ν)
  customRules : Option (JsValue ν)
  allowUnsafeOverrides : Option (JsValue ν)
  modelAllowlist : JsValue ν
  rate : JsValue ν

/-- `policy.profileBinding`. -/
structure Binding (ν : Type) where
  default : JsValue ν
  byScope : Option (List (JsString × JsValue ν))
  byLabel : Option (List (JsString × JsValue ν))

/-- The `policy` section of the configuration. -/
structure PolicyConfig (ν : Type) extends Source ν where
  modelAllowlist : JsValue ν
  rate : JsValue ν
  profiles : List (JsString × Override ν)
  profileBinding : Option (Binding ν)

/-- A policy ready to decide, with the two fields the proxy reads. -/
structure Compiled (ν : Type) where
  policyEngine : MergedPolicy ν
  modelAllowlist : JsValue ν
  rate : JsValue ν

structure PolicyProfiles (ν : Type) where
  base : Compiled ν
  engines : List (JsString × Compiled ν)
  profileBinding : Option (Binding ν)

/-- `{ ...fields, ...others }`. -/
def spread (fields others : List (JsString × JsValue ν)) : List (JsString × JsValue ν) :=
  others.foldl (fun fs kv => setField kv.1 kv.2 fs) fields

theorem nodup_spread {fields : List (JsString × JsValue ν)} (others : List (JsString × JsValue ν))
    (h : (fields.map Prod.fst).Nodup) : ((spread fields others).map Prod.fst).Nodup := by
  induction others generalizing fields with
  | nil => exact h
  | cons kv others ih => exact ih (nodup_setField _ _ h)

section Create

variable [JsNumber ν]

/-- `createPolicyEngine`; the engine is the policy it decides by. -/
def createPolicyEngine (p : MergedPolicy ν) : Except (PolicyError ν) (MergedPolicy ν) := do
  validatePolicy p
  return p

namespace PolicyConfig

variable (c : PolicyConfig ν) (transform : Source ν → Source ν)

/-- The base policy's fields under a profile's own. -/
def mergedSource (o : Override ν) : Source ν where
  presets := o.presets.getD c.presets
  mode := o.mode.getD c.mode
  defaultAction := o.defaultAction.getD c.defaultAction
  actions := spread c.actions o.actions
  customRules := o.customRules.getD c.customRules
  allowUnsafeOverrides := o.allowUnsafeOverrides.getD c.allowUnsafeOverrides
  distinct := nodup_spread _ c.distinct

def compileProfile (o : Override ν) : Except (PolicyError ν) (Compiled ν) := do
  let policyEngine ← createPolicyEngine (← buildPolicy (transform (c.mergedSource o)))
  return ⟨policyEngine, (o.modelAllowlist.orElse c.modelAllowlist).orElse .null,
    (o.rate.orElse c.rate).orElse .null⟩

end PolicyConfig

/-- `engines.has`. -/
def declares (engines : List (JsString × Compiled ν)) : JsValue ν → Bool
  | .str name => (engines.lookup name).isSome
  | _ => false

/-- A binding must name declared profiles. -/
def checkBinding (engines : List (JsString × Compiled ν)) (b : Binding ν) :
    Except (PolicyError ν) Unit :=
  if !b.default.truthy || !declares engines b.default then .error .undeclaredDefault
  else
    match (b.byScope.getD [] ++ b.byLabel.getD []).find? fun kv => !declares engines kv.2 with
    | some kv => .error (.unknownProfile kv.1 kv.2)
    | none => .ok ()

/-- Profiles need a binding. -/
def checkProfiles (engines : List (JsString × Compiled ν)) (c : PolicyConfig ν) :
    Except (PolicyError ν) Unit :=
  match c.profileBinding with
  | some b => checkBinding engines b
  | none => if c.profiles.isEmpty then .ok () else .error .unboundProfiles

/-- `createPolicyProfiles`; without a transform the sources are taken as they are. -/
def createPolicyProfiles (c : PolicyConfig ν) (transform : Option (Source ν → Source ν)) :
    Except (PolicyError ν) (PolicyProfiles ν) := do
  let apply := transform.getD id
  let baseEngine ← createPolicyEngine (← buildPolicy (apply c.toSource))
  let engines ← c.profiles.mapM fun no => do
    return (no.1, ← c.compileProfile apply no.2)
  checkProfiles engines c
  return ⟨⟨baseEngine, c.modelAllowlist.orElse .null, c.rate.orElse .null⟩, engines,
    c.profileBinding⟩

/-! ### Resolving an identity -/

/-- What the resolver reads of an identity. -/
structure Identity where
  scopes : List JsString
  labels : List (JsString × JsString)

/-- What `resolve` returns; `none` is an absent field. -/
structure Resolved (ν : Type) where
  profile : Property ν
  policyEngine : Option (MergedPolicy ν)
  modelAllowlist : Option (JsValue ν)
  rate : Option (JsValue ν)

/-- `{ profile: name, ...compiled }`. -/
def Compiled.resolved (c : Compiled ν) (profile : Property ν) : Resolved ν :=
  ⟨profile, some c.policyEngine, some c.modelAllowlist, some c.rate⟩

/-- `{ profile: name, ...engines.get(name) }`. -/
def select (engines : List (JsString × Compiled ν)) (name : Property ν) : Resolved ν :=
  let found := match name with
    | .value (.str n) => engines.lookup n
    | _ => none
  match found with
  | some compiled => compiled.resolved name
  | none => ⟨name, none, none, none⟩

/-- `map?.[key]`. -/
def readBinding (map : Option (List (JsString × JsValue ν))) (key : JsString) : Property ν :=
  match map with
  | none => .value .undef
  | some fields => property fields key

/-- What an inherited name gives is truthy. -/
def isTruthy : Property ν → Bool
  | .value v => v.truthy
  | .inherited => true

/-- The key of a label in the binding. -/
def labelKey (label : JsString × JsString) : JsString := label.1 ++ 61 :: label.2

def PolicyProfiles.resolve (ps : PolicyProfiles ν) (identity : Option Identity) : Resolved ν :=
  match ps.profileBinding with
  | none => ps.base.resolved (.value .null)
  | some b =>
    match identity with
    | none => select ps.engines (.value b.default)
    | some identity =>
      match (identity.scopes.map (readBinding b.byScope)).find? isTruthy with
      | some name => select ps.engines name
      | none =>
        match (identity.labels.map fun l => readBinding b.byLabel (labelKey l)).find? isTruthy with
        | some name => select ps.engines name
        | none => select ps.engines (.value b.default)

/-! ### What the bindings name -/

omit [JsNumber ν] in
/-- The entry a map of the binding has under a key, if it has one of its own. -/
def ownEntry (map : Option (List (JsString × JsValue ν))) (key : JsString) :
    Option (JsValue ν) :=
  map.bind (field? key)

/-- The target of the first own entry that matches a scope, else a label, else the
default. -/
def Binding.target (b : Binding ν) (identity : Identity) : JsValue ν :=
  (identity.scopes.filterMap (ownEntry b.byScope) ++
    identity.labels.filterMap fun l => ownEntry b.byLabel (labelKey l)).headD b.default

/-- No scope before the first bound one is an inherited name. -/
def Binding.Plain (b : Binding ν) (identity : Identity) : Prop :=
  ∀ scope ∈ identity.scopes.takeWhile fun scope => (ownEntry b.byScope scope).isNone,
    b.byScope ≠ none → scope ∉ prototypeMembers

omit [JsNumber ν] in
theorem readBinding_of_own {map : Option (List (JsString × JsValue ν))} {key : JsString}
    {v : JsValue ν} (h : ownEntry map key = some v) : readBinding map key = .value v := by
  obtain ⟨fields, rfl, hf⟩ := Option.bind_eq_some_iff.mp h
  exact property_of_field? hf

omit [JsNumber ν] in
theorem readBinding_of_absent {map : Option (List (JsString × JsValue ν))} {key : JsString}
    (h : ownEntry map key = none) (hp : map ≠ none → key ∉ prototypeMembers) :
    readBinding map key = .value .undef := by
  cases map with
  | none => rfl
  | some fields => exact property_of_absent h (hp (by simp))

omit [JsNumber ν] in
theorem readBinding_of_inherited {map : Option (List (JsString × JsValue ν))} {key : JsString}
    (h : ownEntry map key = none) (hmap : map ≠ none) (hp : key ∈ prototypeMembers) :
    readBinding map key = .inherited := by
  cases map with
  | none => exact absurd rfl hmap
  | some fields => exact property_of_inherited h hp

/-- Reading the keys of a map up to the first that is bound. -/
theorem find?_readBinding {map : Option (List (JsString × JsValue ν))} {keys : List JsString}
    (h : ∀ key ∈ keys.takeWhile fun key => (ownEntry map key).isNone,
      map ≠ none → key ∉ prototypeMembers) :
    match (keys.filterMap (ownEntry map)).head? with
    | some v => v.truthy = true → (keys.map (readBinding map)).find? isTruthy = some (.value v)
    | none => (keys.map (readBinding map)).find? isTruthy = none := by
  induction keys with
  | nil => rfl
  | cons key keys ih =>
    rcases ho : ownEntry map key with _ | v
    · rw [List.takeWhile_cons_of_pos (by simp [ho])] at h
      have hread := readBinding_of_absent ho (h key (by simp))
      have hrest := ih fun k hk => h k (by simp [hk])
      rw [List.filterMap_cons_none ho, List.map_cons, hread,
        List.find?_cons_of_neg (by simp [isTruthy, truthy])]
      exact hrest
    · rw [List.filterMap_cons_some ho, List.map_cons, readBinding_of_own ho]
      exact fun hv => List.find?_cons_of_pos hv

/-- An inherited name before the first bound key is what the loop stops at. -/
theorem find?_readBinding_inherited {map : Option (List (JsString × JsValue ν))}
    {keys : List JsString}
    (h : ¬∀ key ∈ keys.takeWhile fun key => (ownEntry map key).isNone,
      map ≠ none → key ∉ prototypeMembers) :
    (keys.map (readBinding map)).find? isTruthy = some .inherited := by
  induction keys with
  | nil => simp at h
  | cons key keys ih =>
    rcases ho : ownEntry map key with _ | v
    · rw [List.takeWhile_cons_of_pos (by simp [ho])] at h
      by_cases hkey : map ≠ none → key ∉ prototypeMembers
      · have hread := readBinding_of_absent ho hkey
        rw [List.map_cons, hread, List.find?_cons_of_neg (by simp [isTruthy, truthy])]
        exact ih fun hrest => h fun k hk => by
          rcases List.mem_cons.mp hk with rfl | hk
          · exact hkey
          · exact hrest k hk
      · push Not at hkey
        rw [List.map_cons, readBinding_of_inherited ho hkey.1 hkey.2]
        exact List.find?_cons_of_pos rfl
    · rw [List.takeWhile_cons_of_neg (by simp [ho])] at h
      exact absurd (fun _ hk => absurd hk List.not_mem_nil) h

/-- The key of a label has an equals sign in it, which no inherited name has. -/
theorem labelKey_notMem (label : JsString × JsString) : labelKey label ∉ prototypeMembers := by
  have hall : ∀ name ∈ prototypeMembers, (61 : UInt16) ∉ name := by decide +kernel
  exact fun h => hall _ h (by simp [labelKey])

/-! ### The checks of the construction -/

omit [JsNumber ν] in
theorem declares_iff {engines : List (JsString × Compiled ν)} {v : JsValue ν} :
    declares engines v = true ↔ ∃ name compiled, v = .str name ∧
      engines.lookup name = some compiled := by
  cases v <;> simp [declares, Option.isSome_iff_exists]

/-- A checked binding names declared profiles, and its default is not empty. -/
theorem checkBinding_ok {engines : List (JsString × Compiled ν)} {b : Binding ν}
    (h : checkBinding engines b = .ok ()) : b.default.truthy = true ∧
      declares engines b.default = true ∧
        (∀ key v, ownEntry b.byScope key = some v → declares engines v = true) ∧
          ∀ key v, ownEntry b.byLabel key = some v → declares engines v = true := by
  rw [checkBinding] at h
  by_cases hd : (!b.default.truthy || !declares engines b.default) = true
  · rw [if_pos hd] at h
    cases h
  rw [if_neg hd] at h
  simp only [Bool.or_eq_true, Bool.not_eq_true', not_or, Bool.not_eq_false] at hd
  rcases hf : (b.byScope.getD [] ++ b.byLabel.getD []).find? fun kv => !declares engines kv.2
    with _ | kv
  · have hall : ∀ kv ∈ b.byScope.getD [] ++ b.byLabel.getD [], declares engines kv.2 = true :=
      fun kv hkv => by simpa using List.find?_eq_none.mp hf kv hkv
    refine ⟨hd.1, hd.2, fun key v hv => ?_, fun key v hv => ?_⟩
    · obtain ⟨fields, hmap, hv⟩ := Option.bind_eq_some_iff.mp hv
      exact hall (key, v) (List.mem_append_left _ (by rw [hmap]; exact mem_of_field? hv))
    · obtain ⟨fields, hmap, hv⟩ := Option.bind_eq_some_iff.mp hv
      exact hall (key, v) (List.mem_append_right _ (by rw [hmap]; exact mem_of_field? hv))
  · simp only [hf] at h
    cases h

omit [JsNumber ν] in
theorem mem_of_mapM_eq_ok {ε α β : Type} {f : α → Except ε β} {xs : List α} {ys : List β}
    (h : xs.mapM f = .ok ys) {y : β} (hy : y ∈ ys) : ∃ x ∈ xs, f x = .ok y := by
  induction xs generalizing ys with
  | nil =>
    obtain rfl := Except.ok.inj (List.mapM_nil.symm.trans h)
    cases hy
  | cons x xs ih =>
    rw [List.mapM_cons] at h
    obtain ⟨z, hz, h⟩ := bind_eq_ok.mp h
    obtain ⟨zs, hzs, h⟩ := bind_eq_ok.mp h
    obtain rfl := Except.ok.inj h
    rcases List.mem_cons.mp hy with rfl | hy
    · exact ⟨x, by simp, hz⟩
    · obtain ⟨x', hx', hf⟩ := ih hzs hy
      exact ⟨x', List.mem_cons_of_mem _ hx', hf⟩

/-- What the construction returns: compiled declared profiles, and a checked binding. -/
theorem createPolicyProfiles_ok {c : PolicyConfig ν} {transform : Option (Source ν → Source ν)}
    {ps : PolicyProfiles ν} (h : createPolicyProfiles c transform = .ok ps) :
    ps.profileBinding = c.profileBinding ∧
      (∀ b, c.profileBinding = some b → checkBinding ps.engines b = .ok ()) ∧
        ∀ name compiled, ps.engines.lookup name = some compiled →
          ∃ o, (name, o) ∈ c.profiles ∧ c.compileProfile (transform.getD id) o = .ok compiled := by
  obtain ⟨merged, -, h⟩ := bind_eq_ok.mp h
  obtain ⟨baseEngine, -, h⟩ := bind_eq_ok.mp h
  obtain ⟨engines, hengines, h⟩ := bind_eq_ok.mp h
  have hcompiled : ∀ name compiled, engines.lookup name = some compiled →
      ∃ o, (name, o) ∈ c.profiles ∧ c.compileProfile (transform.getD id) o = .ok compiled := by
    intro name compiled hlookup
    obtain ⟨⟨n, o⟩, hmem, hf⟩ := mem_of_mapM_eq_ok hengines (mem_of_lookup hlookup)
    obtain ⟨compiled', hc, hf⟩ := bind_eq_ok.mp hf
    obtain ⟨rfl, rfl⟩ := Prod.mk.inj (Except.ok.inj hf)
    exact ⟨o, hmem, hc⟩
  obtain ⟨⟨⟩, hcheck, h⟩ := bind_eq_ok.mp h
  obtain rfl := Except.ok.inj h
  refine ⟨rfl, fun b hb => ?_, hcompiled⟩
  rwa [checkProfiles, hb] at hcheck

/-! ### The mode of a policy -/

theorem mergePreset_mode {overrides : Bool} {merged merged' : MergedPolicy ν} {name : JsString}
    (h : mergePreset overrides merged name = .ok merged') : merged'.mode = merged.mode := by
  unfold mergePreset at h
  split at h
  · cases h
  · obtain ⟨actions, -, h⟩ := bind_eq_ok.mp h
    obtain rfl := Except.ok.inj h
    rfl

theorem foldlM_mergePreset_mode {overrides : Bool} {names : List JsString}
    {merged merged' : MergedPolicy ν}
    (h : names.foldlM (mergePreset overrides) merged = .ok merged') :
    merged'.mode = merged.mode := by
  induction names generalizing merged with
  | nil => rw [Except.ok.inj h]
  | cons name names ih =>
    rw [List.foldlM_cons] at h
    obtain ⟨mid, hmid, hrest⟩ := bind_eq_ok.mp h
    rw [ih hrest, mergePreset_mode hmid]

/-- A policy is built with the mode it is given. -/
theorem buildPolicy_mode {s : Source ν} {p : MergedPolicy ν} (h : buildPolicy s = .ok p) :
    p.mode = s.mode.orDefault (.str (js "dry-run")) := by
  simp only [buildPolicy] at h
  obtain ⟨merged, hmerged, h⟩ := bind_eq_ok.mp h
  obtain ⟨actions, -, h⟩ := bind_eq_ok.mp h
  obtain ⟨⟨⟩, -, h⟩ := bind_eq_ok.mp h
  obtain rfl := Except.ok.inj h
  exact foldlM_mergePreset_mode hmerged

theorem createPolicyProfiles_mode {c : PolicyConfig ν}
    {transform : Option (Source ν → Source ν)} {ps : PolicyProfiles ν}
    (h : createPolicyProfiles c transform = .ok ps) :
    ps.base.policyEngine.mode =
      ((transform.getD id) c.toSource).mode.orDefault (.str (js "dry-run")) := by
  obtain ⟨merged, hmerged, h⟩ := bind_eq_ok.mp h
  obtain ⟨baseEngine, hbase, h⟩ := bind_eq_ok.mp h
  obtain ⟨engines, -, h⟩ := bind_eq_ok.mp h
  obtain ⟨⟨⟩, -, h⟩ := bind_eq_ok.mp h
  obtain ⟨⟨⟩, -, hengine⟩ := bind_eq_ok.mp hbase
  obtain rfl := Except.ok.inj h
  obtain rfl := Except.ok.inj hengine
  exact buildPolicy_mode hmerged

/-! ### Resolution -/

omit [JsNumber ν] in
/-- The labels' part of the target. -/
theorem filterMap_labels (map : Option (List (JsString × JsValue ν)))
    (labels : List (JsString × JsString)) :
    (labels.filterMap fun l => ownEntry map (labelKey l)) =
      (labels.map labelKey).filterMap (ownEntry map) := by
  rw [List.filterMap_map]
  rfl

omit [JsNumber ν] in
theorem map_labels (map : Option (List (JsString × JsValue ν)))
    (labels : List (JsString × JsString)) :
    (labels.map fun l => readBinding map (labelKey l)) =
      (labels.map labelKey).map (readBinding map) := by
  rw [List.map_map]
  rfl

theorem resolve_profile_truthy {ps : PolicyProfiles ν} {b : Binding ν}
    (hb : ps.profileBinding = some b) (hd : b.default.truthy = true) (identity : Identity) :
    isTruthy (ps.resolve (some identity)).profile = true := by
  have hselect : ∀ name : Property ν, (select ps.engines name).profile = name := fun name => by
    simp only [select]
    split <;> rfl
  rw [PolicyProfiles.resolve, hb]
  simp only
  split
  · rename_i name hf
    rw [hselect]
    exact List.find?_some hf
  · split
    · rename_i name hf
      rw [hselect]
      exact List.find?_some hf
    · rw [hselect]
      exact hd

/-- Away from inherited names the resolver selects the target of the bindings. -/
theorem resolve_eq_select {ps : PolicyProfiles ν} {b : Binding ν}
    (hb : ps.profileBinding = some b) {identity : Identity} (hplain : b.Plain identity)
    (ht : (b.target identity).truthy = true) :
    ps.resolve (some identity) = select ps.engines (.value (b.target identity)) := by
  have hlabels : ∀ key ∈ (identity.labels.map labelKey).takeWhile fun key =>
      (ownEntry b.byLabel key).isNone, b.byLabel ≠ none → key ∉ prototypeMembers := by
    intro key hkey _
    obtain ⟨l, -, rfl⟩ := List.mem_map.mp ((List.takeWhile_sublist _).mem hkey)
    exact labelKey_notMem l
  have hscope := find?_readBinding hplain
  have hlabel := find?_readBinding hlabels
  rw [Binding.target, filterMap_labels] at ht ⊢
  rw [PolicyProfiles.resolve, hb]
  simp only [map_labels]
  rcases hs : identity.scopes.filterMap (ownEntry b.byScope) with _ | ⟨v, vs⟩
  · rw [hs] at hscope ht
    simp only [List.head?_nil] at hscope
    simp only [hscope]
    rcases hl : (identity.labels.map labelKey).filterMap (ownEntry b.byLabel) with _ | ⟨v, vs⟩
    · rw [hl] at hlabel
      simp only [List.head?_nil] at hlabel
      simp only [hlabel, List.append_nil, List.headD_nil]
    · rw [hl] at hlabel ht
      simp only [hlabel ht, List.nil_append, List.headD_cons]
  · rw [hs] at hscope ht
    simp only [hscope ht, List.cons_append, List.headD_cons]

/-- The resolver returns the declared profile that the bindings name exactly when its
name is not empty and no scope before the first bound one is an inherited name. -/
theorem resolve_declared_iff (c : PolicyConfig ν) (transform : Option (Source ν → Source ν))
    (ps : PolicyProfiles ν) (h : createPolicyProfiles c transform = .ok ps) (b : Binding ν)
    (hb : c.profileBinding = some b) (identity : Identity) :
    (∃ name o compiled, b.target identity = .str name ∧ (name, o) ∈ c.profiles ∧
        c.compileProfile (transform.getD id) o = .ok compiled ∧
          ps.resolve (some identity) = compiled.resolved (.value (.str name))) ↔
      b.target identity ≠ .str [] ∧ b.Plain identity := by
  obtain ⟨hbinding, hcheck, hcompiled⟩ := createPolicyProfiles_ok h
  rw [hb] at hbinding
  obtain ⟨hd, hdefault, hscope, hlabel⟩ := checkBinding_ok (hcheck b hb)
  constructor
  · rintro ⟨name, o, compiled, ht, -, -, hres⟩
    have htruthy := resolve_profile_truthy hbinding hd identity
    constructor
    · intro hempty
      obtain rfl : name = [] := JsValue.str.inj (ht.symm.trans hempty)
      rw [hres] at htruthy
      exact absurd htruthy (by simp [Compiled.resolved, isTruthy, truthy])
    · by_contra hplain
      have hfind := find?_readBinding_inherited hplain
      rw [PolicyProfiles.resolve, hbinding] at hres
      simp only [hfind] at hres
      cases hres
  · rintro ⟨hne, hplain⟩
    have hdeclared : declares ps.engines (b.target identity) = true := by
      rw [Binding.target]
      rcases hs : identity.scopes.filterMap (ownEntry b.byScope) ++
          identity.labels.filterMap fun l => ownEntry b.byLabel (labelKey l) with _ | ⟨v, vs⟩
      · exact hdefault
      · have hv : v ∈ identity.scopes.filterMap (ownEntry b.byScope) ++
            identity.labels.filterMap fun l => ownEntry b.byLabel (labelKey l) := by simp [hs]
        rcases List.mem_append.mp hv with hv | hv
        · obtain ⟨key, -, hv⟩ := List.mem_filterMap.mp hv
          exact hscope key v hv
        · obtain ⟨l, -, hv⟩ := List.mem_filterMap.mp hv
          exact hlabel _ v hv
    obtain ⟨name, compiled, ht, hlookup⟩ := declares_iff.mp hdeclared
    obtain ⟨o, ho, hc⟩ := hcompiled name compiled hlookup
    have htruthy : (b.target identity).truthy = true := by
      have hname : name ≠ [] := fun he => hne (he ▸ ht)
      simpa [ht, truthy] using hname
    refine ⟨name, o, compiled, ht, ho, hc, ?_⟩
    rw [resolve_eq_select hbinding hplain htruthy, ht, select]
    simp only [hlookup]

end Create

/-- One profile, bound to the scope `admin` and to everyone else by default. -/
def served : PolicyConfig NumberToken where
  presets := [js "llm-redact"]
  mode := .undef
  defaultAction := .undef
  actions := []
  customRules := .undef
  allowUnsafeOverrides := .undef
  distinct := List.nodup_nil
  modelAllowlist := .undef
  rate := .undef
  profiles := [(js "strict", ⟨none, none, none, [(js "email", .str (js "block"))], none, none,
    .arr [.str (js "small")], .undef⟩)]
  profileBinding := some ⟨.str (js "strict"), some [(js "admin", .str (js "strict"))], none⟩

/-- The scope `admin` gets the profile it is bound to. -/
theorem resolve_declared_admin : ∃ ps, createPolicyProfiles served none = .ok ps ∧
    ∃ name o compiled, (name, o) ∈ served.profiles ∧
      served.compileProfile id o = .ok compiled ∧
        ps.resolve (some ⟨[js "admin"], []⟩) = compiled.resolved (.value (.str name)) := by
  have hbuilt : ∃ ps, createPolicyProfiles served none = .ok ps := ⟨_, rfl⟩
  obtain ⟨ps, hps⟩ := hbuilt
  obtain ⟨name, o, compiled, -, hmem, hc, hres⟩ :=
    (resolve_declared_iff served none ps hps _ rfl ⟨[js "admin"], []⟩).mpr
      ⟨by simp [Binding.target, ownEntry, field?, js], fun scope hscope _ => by
        simp [ownEntry, field?] at hscope⟩
  exact ⟨ps, hps, name, o, compiled, hmem, hc, hres⟩

/-- An identity with the scope `constructor` gets no declared profile. -/
theorem resolve_inherited : ¬∀ (c : PolicyConfig NumberToken)
    (transform : Option (Source NumberToken → Source NumberToken))
    (ps : PolicyProfiles NumberToken), createPolicyProfiles c transform = .ok ps →
      ∀ b, c.profileBinding = some b → ∀ identity,
        ∃ name o compiled, b.target identity = .str name ∧ (name, o) ∈ c.profiles ∧
          c.compileProfile (transform.getD id) o = .ok compiled ∧
            ps.resolve (some identity) = compiled.resolved (.value (.str name)) := by
  intro h
  have hbuilt : ∃ ps, createPolicyProfiles served none = .ok ps ∧
      (ps.resolve (some ⟨[js "constructor"], []⟩)).policyEngine = none := ⟨_, rfl, rfl⟩
  obtain ⟨ps, hps, hnone⟩ := hbuilt
  obtain ⟨name, o, compiled, -, -, -, hres⟩ := h served none ps hps _ rfl ⟨[js "constructor"], []⟩
  rw [hres] at hnone
  cases hnone

end Haechi.Policy
