import Haechi.Effects
import Haechi.Policy.Merge

/-! The merge as a whole. `buildPolicy` accepts a configuration exactly when its
explicit entries rise and its other fields are valid, and the decision of the
policy is then the last entry of the type, or the default in force where no source
has one. Every source is therefore respected exactly when no source's own default
is stronger than what stands for the type, and the type is no inherited name. -/

namespace Haechi.Policy

open Core JsValue

variable {ν : Type}

/-! ### A configuration and its sources -/

/-- A preset that has a default overwrites the default so far. -/
def overwriteDefault (d : JsValue ν) (name : JsString) : JsValue ν :=
  ((presetOf name).bind Preset.defaultAction).elim d .str

/-- A source of actions: a preset or the user's configuration. -/
structure Contributor (ν : Type) where
  actions : List (JsString × JsValue ν)
  /-- `undefined` where the source has no default of its own. -/
  defaultAction : JsValue ν

/-- The action a source assigns to a type: its entry, or else its own default. -/
def Contributor.assigns (c : Contributor ν) (type : JsString) : Option Action :=
  (field? type c.actions).elim (actionOf c.defaultAction) actionOf

def Preset.contributor (p : Preset) : Contributor ν :=
  ⟨p.actions.map fun ta => (ta.1, .str ta.2), p.defaultAction.elim .undef .str⟩

namespace Source

variable (s : Source ν)

/-- The explicit entries of the presets, in order. -/
def presetEntries : List (ActionEntry ν) := s.presets.flatMap Policy.presetEntries

/-- The explicit entries of all sources, in order. -/
def entries : List (ActionEntry ν) := s.presetEntries ++ s.userEntries

/-- The default of the last preset that has one, else the user's, else `redact`. -/
def defaultInForce : JsValue ν :=
  (s.presets.foldl overwriteDefault (s.defaultAction.orDefault (.str (js "redact")))).orElse
    (.str (js "redact"))

/-- Each preset, and the user's configuration. -/
def contributors : List (Contributor ν) :=
  (s.presets.filterMap fun name => (presetOf name).map Preset.contributor) ++
    [⟨s.actions, s.defaultAction⟩]

/-- What stands for a type: its explicit entries, or the default in force. -/
def standing (type : JsString) : List (JsValue ν) :=
  let own := (s.entries.filter fun e => e.type = type).map ActionEntry.action
  if own = [] then [s.defaultInForce] else own

/-- No source's own default is stronger than all that stands for the type, and a type
under an inherited name is assigned nothing. -/
def Covered (type : JsString) : Prop :=
  (∀ c ∈ s.contributors, field? type c.actions = none → ∀ a ∈ actionOf c.defaultAction,
      ∃ v ∈ s.standing type, ∃ b ∈ actionOf v, strength a ≤ strength b) ∧
    (type ∈ prototypeMembers → ∀ c ∈ s.contributors, c.assigns type = none)

/-- The configuration is one that `buildPolicy` takes. -/
structure Accepted [JsNumber ν] : Prop where
  known : ∀ name ∈ s.presets, (presetOf name).isSome
  rising : Rising s.entries
  validDefault : s.defaultInForce.truthy = true → (actionOf s.defaultInForce).isSome
  validMode : validMode (s.mode.orDefault (.str (js "dry-run"))) = true
  validOverrides : s.allowUnsafeOverrides = .undef ∨ ∃ b, s.allowUnsafeOverrides = .bool b

end Source

/-! ### What the merge returns -/

section Build

variable [JsNumber ν]

/-- The presets of a list, merged one after the other. -/
theorem foldlM_mergePreset_ok {merged : MergedPolicy ν} {es : List (ActionEntry ν)}
    (h : Agrees merged.actions es) (hes : Rising es) (names : List JsString) :
    (∀ merged', names.foldlM (mergePreset false) merged = .ok merged' →
        (∀ name ∈ names, (presetOf name).isSome) ∧
          Rising (es ++ names.flatMap presetEntries) ∧
          Agrees merged'.actions (es ++ names.flatMap presetEntries) ∧
          merged' = { merged with
            defaultAction := names.foldl overwriteDefault merged.defaultAction
            actions := merged'.actions }) ∧
      ((∀ name ∈ names, (presetOf name).isSome) → Rising (es ++ names.flatMap presetEntries) →
        ∃ merged', names.foldlM (mergePreset false) merged = .ok merged') := by
  induction names generalizing merged es with
  | nil =>
    refine ⟨fun merged' hm => ?_, fun _ _ => ⟨merged, rfl⟩⟩
    obtain rfl := Except.ok.inj hm
    simpa using ⟨hes, h⟩
  | cons name names ih =>
    have happ : es ++ (name :: names).flatMap presetEntries =
        es ++ presetEntries (ν := ν) name ++ names.flatMap presetEntries := by simp
    obtain ⟨hstep, hstep'⟩ := foldlM_mergeAction_ok h hes (presetEntries name)
    constructor
    · intro merged' hm
      rw [List.foldlM_cons, bind_eq_ok] at hm
      obtain ⟨mid, hmid, hrest⟩ := hm
      rcases hp : presetOf name with _ | p
      · rw [mergePreset, hp] at hmid
        cases hmid
      · simp only [mergePreset, hp] at hmid
        obtain ⟨actions, hact, hmid⟩ := bind_eq_ok.mp hmid
        obtain ⟨hr, ha⟩ := hstep actions hact
        obtain rfl := Except.ok.inj hmid
        obtain ⟨hknown, hrise, hagree, heq⟩ := (ih ha hr).1 merged' hrest
        refine ⟨?_, happ ▸ hrise, happ ▸ hagree, ?_⟩
        · simpa [hp] using hknown
        · rw [heq]
          simp [overwriteDefault, hp]
    · intro hknown hrise
      rw [happ] at hrise
      obtain ⟨p, hp⟩ := Option.isSome_iff_exists.mp (hknown name (by simp))
      obtain ⟨actions, hact⟩ := hstep' hrise.of_append
      have hmid : mergePreset false merged name = .ok { merged with
          defaultAction := p.defaultAction.elim merged.defaultAction .str
          actions } := by
        simp only [mergePreset, hp]
        exact bind_eq_ok.mpr ⟨actions, hact, rfl⟩
      have hagree : Agrees { merged with
          defaultAction := p.defaultAction.elim merged.defaultAction .str
          actions }.actions (es ++ presetEntries name) := (hstep actions hact).2
      obtain ⟨merged', hm⟩ := (ih hagree (hstep actions hact).1).2
        (fun n hn => hknown n (by simp [hn])) hrise
      exact ⟨merged', by rw [List.foldlM_cons, hmid]; exact hm⟩

theorem validatePolicy_ok {p : MergedPolicy ν} :
    validatePolicy p = .ok () ↔
      (p.defaultAction.truthy = true → (actionOf p.defaultAction).isSome) ∧
        (∀ kv ∈ p.actions, (actionOf kv.2).isSome) ∧ validMode p.mode = true ∧
          (p.allowUnsafeOverrides = .undef ∨ ∃ b, p.allowUnsafeOverrides = .bool b) := by
  rw [validatePolicy]
  by_cases hd : (p.defaultAction.truthy && (actionOf p.defaultAction).isNone) = true
  · rw [if_pos hd]
    simp only [Bool.and_eq_true, Option.isNone_iff_eq_none] at hd
    refine ⟨fun h => (by cases h), fun h => absurd (h.1 hd.1) (by simp [hd.2])⟩
  rw [if_neg hd]
  have hd : p.defaultAction.truthy = true → (actionOf p.defaultAction).isSome := by
    simpa [Option.isSome_iff_ne_none] using hd
  rcases hf : p.actions.find? fun kv => (actionOf kv.2).isNone with _ | kv
  swap
  · have hmem := List.mem_of_find?_eq_some hf
    have hnone : actionOf kv.2 = none := by
      simpa using List.find?_some hf
    simp only [hf]
    exact ⟨fun h => (by cases h), fun h => absurd (h.2.1 kv hmem) (by simp [hnone])⟩
  have hall : ∀ kv ∈ p.actions, (actionOf kv.2).isSome := fun kv hkv => by
    simpa [Option.isSome_iff_ne_none] using List.find?_eq_none.mp hf kv hkv
  by_cases hm : validMode p.mode = true
  · simp only [hf, hm, Bool.not_true, Bool.false_eq_true, if_false]
    cases p.allowUnsafeOverrides with
    | undef => simpa using ⟨hd, fun k v hkv => hall (k, v) hkv⟩
    | bool b => simpa using ⟨hd, fun k v hkv => hall (k, v) hkv⟩
    | _ => simp
  · simp [hf, hm]

omit [JsNumber ν] in
theorem injection_notMem : js "injection" ∉ prototypeMembers := by decide +kernel

theorem field?_reportInjection {actions : List (JsString × JsValue ν)}
    (hn : (actions.map Prod.fst).Nodup) (hv : ∀ kv ∈ actions, (actionOf kv.2).isSome)
    (type : JsString) :
    field? type (reportInjection actions) =
      if type = js "injection" then
        some ((field? type actions).getD (.str (js "allow")))
      else field? type actions := by
  split_ifs with h
  · subst h
    rw [reportInjection]
    rcases hf : field? (js "injection") actions with _ | v
    · exact field?_setField_self _ _ hn
    · simp [truthy_of_actionOf (hv _ (mem_of_field? hf)), hf]
  · rw [reportInjection]
    split
    · split_ifs
      · rfl
      · exact field?_setField_of_ne h _ _
    · exact field?_setField_of_ne h _ _

theorem mem_reportInjection {actions : List (JsString × JsValue ν)}
    {kv : JsString × JsValue ν} (h : kv ∈ reportInjection actions) :
    kv ∈ actions ∨ kv.2 = .str (js "allow") := by
  rw [reportInjection] at h
  have hset : kv ∈ setField (js "injection") (.str (js "allow")) actions →
      kv ∈ actions ∨ kv.2 = .str (js "allow") := fun h =>
    (mem_setField h).elim (fun he => .inr (congrArg Prod.snd he)) fun h => .inl h.1
  split at h
  · split_ifs at h
    · exact .inl h
    · exact hset h
  · exact hset h

/-- What a type without an entry falls back to. -/
def Source.fallback (s : Source ν) (type : JsString) : JsValue ν :=
  if type = js "injection" then .str (js "allow") else s.defaultInForce

/-- The decision a configuration comes to for a type. -/
def Source.decisionFor (s : Source ν) (type : JsString) : Property ν :=
  if type ∈ prototypeMembers then .inherited
  else .value ((latest type s.entries).getD (s.fallback type))

/-- The decision of a policy whose map agrees with the entries. -/
theorem effectiveAction_eq {p : MergedPolicy ν} {target : List (JsString × JsValue ν)}
    {es : List (ActionEntry ν)} (h : Agrees target es) (hes : Rising es)
    (hp : p.actions = reportInjection target) (type : JsString) :
    p.effectiveAction type =
      if type ∈ prototypeMembers then .inherited
      else .value ((latest type es).getD (if type = js "injection" then .str (js "allow")
        else p.defaultAction.orElse (.str (js "redact")))) := by
  have hfield := field?_reportInjection h.nodup (fun kv hkv => h.valid hes hkv) type
  rw [← hp, h.field] at hfield
  by_cases hproto : type ∈ prototypeMembers
  · have hne : type ≠ js "injection" := fun he => injection_notMem (he ▸ hproto)
    rw [if_neg hne, if_pos hproto] at hfield
    rw [MergedPolicy.effectiveAction, property_of_inherited hfield hproto, if_pos hproto]
  rw [if_neg hproto] at hfield ⊢
  have hvalue : ∀ v : JsValue ν, (actionOf v).isSome → field? type p.actions = some v →
      p.effectiveAction type = .value v := fun v hv hf => by
    rw [MergedPolicy.effectiveAction, property_of_field? hf]
    show Property.value _ = _
    rw [orElse_of_actionOf hv, orElse_of_actionOf hv]
  rcases hl : latest type es with _ | v
  · rw [hl] at hfield
    split_ifs at hfield ⊢
    · exact hvalue _ (by simp [actionOf, validActions, js]) hfield
    · rw [MergedPolicy.effectiveAction, property_of_absent hfield hproto]
      rfl
  · rw [hl] at hfield
    refine hvalue v (hes.valid_latest hl) ?_
    split_ifs at hfield <;> exact hfield

/-- `buildPolicy` takes exactly the accepted configurations. -/
theorem buildPolicy_ok (s : Source ν) (hover : s.allowUnsafeOverrides.truthy = false) :
    (∀ p, buildPolicy s = .ok p → s.Accepted ∧
        ∀ type, p.effectiveAction type = s.decisionFor type) ∧
      (s.Accepted → ∃ p, buildPolicy s = .ok p) := by
  have hstart : s.start.allowUnsafeOverrides.truthy = false := by
    rw [Source.start]
    cases h : s.allowUnsafeOverrides <;> simp_all [orDefault, truthy]
  have hoverrides : (s.start.allowUnsafeOverrides = .undef ∨
      ∃ b, s.start.allowUnsafeOverrides = .bool b) ↔
        (s.allowUnsafeOverrides = .undef ∨ ∃ b, s.allowUnsafeOverrides = .bool b) := by
    rw [Source.start]
    cases s.allowUnsafeOverrides <;> simp [orDefault]
  have hdefault : ∀ d : JsValue ν, (d.truthy = true → (actionOf d).isSome) ↔
      ((d.orElse (.str (js "redact"))).truthy = true →
        (actionOf (d.orElse (.str (js "redact")))).isSome) := by
    have hredact : (actionOf (.str (js "redact") : JsValue ν)).isSome := by
      simp [actionOf, validActions, js]
    intro d
    cases d <;> simp [orElse, truthy, hredact]
  obtain ⟨hpresets, hpresets'⟩ :=
    foldlM_mergePreset_ok (show Agrees s.start.actions [] from agrees_nil) rising_nil s.presets
  constructor
  · intro p hp
    simp only [buildPolicy, hstart] at hp
    obtain ⟨merged, hm, hp⟩ := bind_eq_ok.mp hp
    obtain ⟨actions, hact, hp⟩ := bind_eq_ok.mp hp
    obtain ⟨⟨⟩, hvalid, hp⟩ := bind_eq_ok.mp hp
    obtain rfl := Except.ok.inj hp
    obtain ⟨hknown, hr, ha, heq⟩ := hpresets merged hm
    obtain ⟨hrise, hagree⟩ := (foldlM_mergeAction_ok ha hr s.userEntries).1 actions hact
    obtain ⟨hd, -, hmode, hov⟩ := validatePolicy_ok.mp hvalid
    rw [List.nil_append] at hrise hagree
    rw [heq] at hd hmode hov
    refine ⟨⟨hknown, hrise, (hdefault _).mp hd, hmode, hoverrides.mp hov⟩, fun type => ?_⟩
    rw [effectiveAction_eq hagree hrise rfl, heq]
    rfl
  · rintro ⟨hknown, hrise, hd, hmode, hov⟩
    obtain ⟨merged, hm⟩ := hpresets' hknown hrise.of_append
    obtain ⟨-, hr, ha, heq⟩ := hpresets merged hm
    obtain ⟨actions, hact⟩ := (foldlM_mergeAction_ok ha hr s.userEntries).2 hrise
    have hagree := ((foldlM_mergeAction_ok ha hr s.userEntries).1 actions hact).2
    have hvalid : validatePolicy { merged with actions := reportInjection actions } = .ok () := by
      rw [validatePolicy_ok, heq]
      refine ⟨(hdefault _).mpr hd, fun kv hkv => ?_, hmode, hoverrides.mpr hov⟩
      rcases mem_reportInjection hkv with h | h
      · exact hagree.valid hrise h
      · rw [h]
        simp [actionOf, validActions, js]
    refine ⟨{ merged with actions := reportInjection actions }, ?_⟩
    simp only [buildPolicy, hstart]
    exact bind_eq_ok.mpr ⟨merged, hm, bind_eq_ok.mpr ⟨actions, hact,
      bind_eq_ok.mpr ⟨(), hvalid, rfl⟩⟩⟩

/-! ### Every source is respected -/

omit [JsNumber ν] in
theorem atLeast_value {v : JsValue ν} {a : Action} :
    AtLeast (.value v) a ↔ ∃ b ∈ actionOf v, strength a ≤ strength b := by
  constructor
  · rintro ⟨w, b, h, hb, hle⟩
    obtain rfl := Property.value.inj h
    exact ⟨b, hb, hle⟩
  · rintro ⟨b, hb, hle⟩
    exact ⟨v, b, rfl, hb, hle⟩

omit [JsNumber ν] in
theorem not_atLeast_inherited (a : Action) : ¬AtLeast (.inherited : Property ν) a := by
  rintro ⟨_, _, h, -⟩
  cases h

omit [JsNumber ν] in
/-- What the decision comes to stands for the type, and nothing that stands for it is
stronger. -/
theorem Source.standing_latest {s : Source ν} (h : Rising s.entries) {type : JsString}
    (hp : type ∉ prototypeMembers) :
    (latest type s.entries).getD s.defaultInForce ∈ s.standing type ∧
      ∀ v ∈ s.standing type, ∀ a ∈ actionOf v,
        ∃ b ∈ actionOf ((latest type s.entries).getD s.defaultInForce),
          strength a ≤ strength b := by
  rw [standing]
  rcases hl : latest type s.entries with _ | w
  · have hnone : (s.entries.filter fun e => e.type = type).map ActionEntry.action = [] := by
      simpa using latest_eq_none.mp hl
    rw [if_pos hnone, Option.getD_none]
    refine ⟨List.mem_singleton_self _, fun v hv a ha => ?_⟩
    obtain rfl := List.mem_singleton.mp hv
    exact ⟨a, ha, le_rfl⟩
  · obtain ⟨e, he, ht, rfl⟩ := latest_mem hl
    have hmem : e.action ∈ (s.entries.filter fun e => e.type = type).map ActionEntry.action :=
      List.mem_map.mpr ⟨e, by simp [he, ht], rfl⟩
    rw [if_neg (List.ne_nil_of_mem hmem)]
    refine ⟨hmem, fun v hv a ha => ?_⟩
    obtain ⟨f, hf, rfl⟩ := List.mem_map.mp hv
    obtain ⟨hf, hft⟩ := List.mem_filter.mp hf
    obtain ⟨b, hb⟩ := Option.isSome_iff_exists.mp (h.valid_latest hl)
    have hle := h.rank_le_latest hp hl hf (by simpa using hft)
    rw [rank_of_actionOf ha, rank_of_actionOf hb] at hle
    exact ⟨b, hb, hle⟩

omit [JsNumber ν] in
/-- The entry a source has for a type is among the entries of the merge. -/
theorem Source.mem_entries_of_contributor {s : Source ν} {c : Contributor ν}
    (hc : c ∈ s.contributors) {type : JsString} {v : JsValue ν}
    (hv : field? type c.actions = some v) : ∃ e ∈ s.entries, e.type = type ∧ e.action = v := by
  have hmem := mem_of_field? hv
  rcases List.mem_append.mp hc with hc | hc
  · obtain ⟨name, hname, hc⟩ := List.mem_filterMap.mp hc
    obtain ⟨p, hp, rfl⟩ := Option.map_eq_some_iff.mp hc
    obtain ⟨ta, hta, heq⟩ := List.mem_map.mp hmem
    obtain ⟨rfl, rfl⟩ := Prod.mk.inj heq
    refine ⟨⟨.preset name, ta.1, .str ta.2⟩, List.mem_append_left _ ?_, rfl, rfl⟩
    refine List.mem_flatMap.mpr ⟨name, hname, ?_⟩
    rw [Policy.presetEntries, hp]
    exact List.mem_map_of_mem hta
  · obtain rfl := List.mem_singleton.mp hc
    exact ⟨⟨.user, type, v⟩, List.mem_append_right _ (List.mem_map_of_mem hmem), rfl, rfl⟩

/-- The decision for a type is at least as strong as what every source assigns to it
exactly when the configuration is refused or its defaults leave the type covered. -/
theorem buildPolicy_monotone_iff (s : Source ν) (type : JsString) (ht : type ≠ js "injection")
    (hover : s.allowUnsafeOverrides.truthy = false) :
    (∀ p, buildPolicy s = .ok p → ∀ c ∈ s.contributors, ∀ a ∈ c.assigns type,
        AtLeast (p.effectiveAction type) a) ↔ (s.Accepted → s.Covered type) := by
  obtain ⟨hok, hex⟩ := buildPolicy_ok s hover
  have hfallback : s.fallback type = s.defaultInForce := if_neg ht
  constructor
  · intro h hs
    obtain ⟨p, hp⟩ := hex hs
    have hdec := (hok p hp).2 type
    rw [Source.decisionFor, hfallback] at hdec
    constructor
    · intro c hc hnone a ha
      have hleast := h p hp c hc a (by simpa [Contributor.assigns, hnone] using ha)
      rw [hdec] at hleast
      split_ifs at hleast with hproto
      · exact absurd hleast (not_atLeast_inherited a)
      · exact ⟨_, (Source.standing_latest hs.rising hproto).1, atLeast_value.mp hleast⟩
    · intro hproto c hc
      refine Option.eq_none_iff_forall_not_mem.mpr fun a ha => ?_
      have hleast := h p hp c hc a ha
      rw [hdec, if_pos hproto] at hleast
      exact not_atLeast_inherited a hleast
  · intro h p hp c hc a ha
    obtain ⟨hs, hdec⟩ := hok p hp
    obtain ⟨hdefault, hnoproto⟩ := h hs
    rw [hdec type, Source.decisionFor, hfallback]
    split_ifs with hproto
    · exact absurd ha (by simp [hnoproto hproto c hc])
    rw [atLeast_value]
    obtain ⟨-, hstrong⟩ := Source.standing_latest hs.rising hproto
    rcases hf : field? type c.actions with _ | v
    · obtain ⟨v, hv, b, hb, hle⟩ :=
        hdefault c hc hf a (by simpa [Contributor.assigns, hf] using ha)
      obtain ⟨b', hb', hle'⟩ := hstrong v hv b hb
      exact ⟨b', hb', hle.trans hle'⟩
    · obtain ⟨e, he, het, rfl⟩ := Source.mem_entries_of_contributor hc hf
      have hmem : e.action ∈ (s.entries.filter fun e => e.type = type).map ActionEntry.action :=
        List.mem_map.mpr ⟨e, by simp [he, het], rfl⟩
      refine hstrong e.action ?_ a (by simpa [Contributor.assigns, hf] using ha)
      rw [Source.standing, if_neg (List.ne_nil_of_mem hmem)]
      exact hmem

end Build

/-- One preset and nothing else. -/
def stock : Source NumberToken where
  presets := [js "llm-redact"]
  mode := .undef
  defaultAction := .undef
  actions := []
  customRules := .undef
  allowUnsafeOverrides := .undef
  distinct := List.nodup_nil

/-- An unlisted type is redacted, as the preset asks. -/
theorem buildPolicy_monotone_stock : stock.contributors ≠ [] ∧
    ∀ p, buildPolicy stock = .ok p → ∀ c ∈ stock.contributors, ∀ a ∈ c.assigns (js "card"),
      AtLeast (p.effectiveAction (js "card")) a := by
  refine ⟨List.cons_ne_nil _ _, ?_⟩
  refine (buildPolicy_monotone_iff stock (js "card") (by decide +kernel) rfl).mpr fun _ => ?_
  refine ⟨fun c hc _ a ha => ?_, fun h => absurd h (by decide +kernel)⟩
  have hstanding : stock.standing (js "card") = [.str (js "redact")] := by rfl
  obtain rfl | rfl : c = ⟨[(js "email", .str (js "redact")), (js "phone", .str (js "mask"))],
      .str (js "redact")⟩ ∨ c = ⟨[], .undef⟩ := by
    simpa [Source.contributors, stock, presetOf, Policy.presets, Preset.contributor] using hc
  · exact ⟨.str (js "redact"), by simp [hstanding], a, ha, le_rfl⟩
  · cases ha

/-! ### A default overwritten by a weaker one -/

/-- The user blocks by default; the preset that comes first in the file redacts. -/
def overruled : Source NumberToken where
  presets := [js "llm-redact"]
  mode := .undef
  defaultAction := .str (js "block")
  actions := []
  customRules := .undef
  allowUnsafeOverrides := .undef
  distinct := List.nodup_nil

/-- The user's default is `block`, and an unlisted type is redacted. -/
theorem buildPolicy_overrules : ¬∀ (s : Source NumberToken) (type : JsString),
    type ≠ js "injection" → s.allowUnsafeOverrides.truthy = false →
      ∀ p, buildPolicy s = .ok p → ∀ c ∈ s.contributors, ∀ a ∈ c.assigns type,
        AtLeast (p.effectiveAction type) a := by
  intro h
  have hbuild : buildPolicy overruled = .ok
      { mode := .str (js "dry-run")
        defaultAction := .str (js "redact")
        actions := [(js "email", .str (js "redact")), (js "phone", .str (js "mask")),
          (js "injection", .str (js "allow"))]
        customRules := .arr []
        allowUnsafeOverrides := .bool false } := by rfl
  have hleast := h overruled (js "card") (by decide +kernel) rfl _ hbuild
    ⟨[], .str (js "block")⟩ (by simp [Source.contributors, overruled]) .block rfl
  obtain ⟨v, b, hv, hact, hle⟩ := hleast
  obtain rfl : (.str (js "redact") : JsValue NumberToken) = v := Property.value.inj hv
  obtain rfl : Action.redact = b := Option.some.inj hact
  exact absurd hle (by decide)

end Haechi.Policy
