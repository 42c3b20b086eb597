import Haechi.Policy.Monotone

/-! A privacy profile is merged into the user's own map before the policy is built.
There it never replaces a stricter entry, but it makes explicit what was left to
presets and defaults, and an explicit entry must not be weaker than a preset's and
overrules any default. Proved: the policy with the profile is built and no decision
of it is weaker exactly when each action the profile adds is at least as strong as
what stood for its type. -/

namespace Haechi.Policy

open Core JsValue

variable {ν : Type}

/-! ### Profiles -/

structure PrivacyProfile where
  id : JsString
  actions : List (JsString × JsString)
deriving DecidableEq

/-- `PROFILES`. -/
def privacyProfiles : List PrivacyProfile :=
  [⟨js "kr-pipa",
      [(js "kr_rrn", js "block"), (js "phone", js "mask"), (js "email", js "redact"),
        (js "card", js "block"), (js "api_key", js "block"), (js "secret", js "block"),
        (js "jp_mynumber", js "block")]⟩,
    ⟨js "eu-gdpr",
      [(js "email", js "tokenize"), (js "phone", js "mask"), (js "card", js "block"),
        (js "api_key", js "block"), (js "secret", js "block"), (js "kr_rrn", js "block"),
        (js "fr_nir", js "block"), (js "es_dni", js "block"), (js "uk_nino", js "block"),
        (js "it_codice_fiscale", js "block"), (js "de_steuer_id", js "block"),
        (js "nl_bsn", js "block"), (js "jp_mynumber", js "block")]⟩,
    ⟨js "asia-pdpa",
      [(js "sg_nric", js "block"), (js "in_aadhaar", js "block"), (js "jp_mynumber", js "block"),
        (js "kr_rrn", js "block"), (js "fr_nir", js "block"), (js "es_dni", js "block"),
        (js "it_codice_fiscale", js "block"), (js "de_steuer_id", js "block"),
        (js "nl_bsn", js "block"), (js "phone", js "mask"), (js "email", js "redact"),
        (js "card", js "block"), (js "api_key", js "block"), (js "secret", js "block")]⟩,
    ⟨js "us-general",
      [(js "email", js "redact"), (js "phone", js "mask"), (js "card", js "block"),
        (js "api_key", js "block"), (js "secret", js "block"), (js "jp_mynumber", js "block")]⟩,
    ⟨js "jp-appi",
      [(js "jp_mynumber", js "block"), (js "phone", js "mask"), (js "email", js "redact"),
        (js "card", js "block"), (js "api_key", js "block"), (js "secret", js "block"),
        (js "kr_rrn", js "block")]⟩]

/-- An unknown id throws, an inherited name as well: what stands there has no actions. -/
def getPrivacyProfile (id : JsString) : Option PrivacyProfile :=
  privacyProfiles.find? fun profile => profile.id = id

section Apply

variable [JsNumber ν]

/-- One action of a profile: it is put where there is none or a weaker one. -/
def strengthen (actions : List (JsString × JsValue ν)) (ta : JsString × JsString) :
    List (JsString × JsValue ν) :=
  match property actions ta.1 with
  | .inherited => actions
  | .value existing =>
    if !existing.truthy || weaker existing (.str ta.2) then setField ta.1 (.str ta.2) actions
    else actions

theorem nodup_strengthen {actions : List (JsString × JsValue ν)}
    (h : (actions.map Prod.fst).Nodup) (ta : JsString × JsString) :
    ((strengthen actions ta).map Prod.fst).Nodup := by
  rw [strengthen]
  split
  · exact h
  · split_ifs
    · exact nodup_setField _ _ h
    · exact h

theorem nodup_foldl_strengthen (tas : List (JsString × JsString))
    {actions : List (JsString × JsValue ν)} (h : (actions.map Prod.fst).Nodup) :
    ((tas.foldl strengthen actions).map Prod.fst).Nodup := by
  induction tas generalizing actions with
  | nil => exact h
  | cons ta tas ih => exact ih (nodup_strengthen h ta)

/-- A policy source with the profile applied to it. -/
structure ProfiledSource (ν : Type) extends Source ν where
  privacyProfile : JsString

/-- `applyPrivacyProfile` once the profile is found. -/
def PrivacyProfile.apply (profile : PrivacyProfile) (s : Source ν) : ProfiledSource ν where
  toSource := { s with
    actions := profile.actions.foldl strengthen s.actions
    distinct := nodup_foldl_strengthen profile.actions s.distinct }
  privacyProfile := profile.id

def applyPrivacyProfile (s : Source ν) (profileId : JsString) : Option (ProfiledSource ν) :=
  (getPrivacyProfile profileId).map fun profile => profile.apply s

end Apply

/-- A profile names each type once, no type under an inherited name and none twice,
and gives it an action. -/
def PrivacyProfile.Sound (profile : PrivacyProfile) : Prop :=
  (profile.actions.map Prod.fst).Nodup ∧ js "injection" ∉ profile.actions.map Prod.fst ∧
    ∀ ta ∈ profile.actions, ta.1 ∉ prototypeMembers ∧ (validActions.lookup ta.2).isSome

instance (profile : PrivacyProfile) : Decidable profile.Sound :=
  inferInstanceAs (Decidable (_ ∧ _ ∧ _))

theorem sound_privacyProfiles : ∀ profile ∈ privacyProfiles, profile.Sound := by
  decide +kernel

/-! ### The user's map in the merge -/

/-- The user's entries in order. -/
def userEntriesOf (actions : List (JsString × JsValue ν)) : List (ActionEntry ν) :=
  actions.map fun ta => ⟨.user, ta.1, ta.2⟩

theorem latest_user (type : JsString) (es : List (ActionEntry ν))
    {actions : List (JsString × JsValue ν)} (hn : (actions.map Prod.fst).Nodup) :
    latest type (es ++ userEntriesOf actions) = (field? type actions).or (latest type es) := by
  induction actions using List.reverseRecOn with
  | nil => simp [userEntriesOf, field?]
  | append_singleton actions kv ih =>
    rw [List.map_append, List.nodup_append] at hn
    have happ : es ++ userEntriesOf (actions ++ [kv]) =
        es ++ userEntriesOf actions ++ [⟨.user, kv.1, kv.2⟩] := by simp [userEntriesOf]
    rw [happ, latest_concat, field?_append, ih hn.1]
    by_cases hk : kv.1 = type
    · have hnone : field? type actions = none :=
        field?_eq_none.mpr fun hmem => hn.2.2 _ hmem kv.1 (by simp) hk.symm
      simp [field?, hk, hnone]
    · simp [field?, hk]

/-- The user's entries follow rising ones and still rise. -/
theorem rising_user {es : List (ActionEntry ν)} {actions : List (JsString × JsValue ν)}
    (hn : (actions.map Prod.fst).Nodup) :
    Rising (es ++ userEntriesOf actions) ↔ Rising es ∧
      ∀ type v, field? type actions = some v → (actionOf v).isSome ∧
        (type ∉ prototypeMembers → ∀ e ∈ es, e.type = type → rank e.action ≤ rank v) := by
  constructor
  · intro h
    refine ⟨h.of_append, fun type v hv => ?_⟩
    have hmem : (⟨.user, type, v⟩ : ActionEntry ν) ∈ userEntriesOf actions :=
      List.mem_map.mpr ⟨(type, v), mem_of_field? hv, rfl⟩
    refine ⟨h.valid _ (List.mem_append_right _ hmem), fun hp e he ht => ?_⟩
    exact (List.pairwise_append.mp h.rising).2.2 e he _ hmem ht (ht ▸ hp)
  · rintro ⟨h, huser⟩
    have hfield : ∀ e ∈ userEntriesOf actions, field? e.type actions = some e.action :=
      fun e he => by
        obtain ⟨ta, hta, rfl⟩ := List.mem_map.mp he
        exact field?_of_mem hn hta
    constructor
    · intro e he
      rcases List.mem_append.mp he with he | he
      · exact h.valid e he
      · exact (huser _ _ (hfield e he)).1
    · refine List.pairwise_append.mpr ⟨h.rising, ?_, fun e he f hf ht hp => ?_⟩
      · -- the keys of an object are distinct, so no two entries have one type
        refine List.pairwise_map.mpr ((List.pairwise_map.mp hn).imp fun hne ht => ?_)
        exact absurd ht hne
      · exact (huser _ _ (hfield f hf)).2 (ht ▸ hp) e he ht

/-! ### The map with the profile applied -/

/-- What becomes of the user's entry for a type that a profile gives an action. -/
def raised (existing : Option (JsValue ν)) (action : JsString) : JsValue ν :=
  match existing with
  | none => .str action
  | some v => if rank v < rank (.str action : JsValue ν) then .str action else v

theorem rank_raised_some (v : JsValue ν) (action : JsString) :
    rank v ≤ rank (raised (some v) action) := by
  rw [raised]
  split_ifs with h
  · exact h.le
  · exact le_rfl

theorem valid_raised {existing : Option (JsValue ν)} {action : JsString}
    (h : ∀ v ∈ existing, (actionOf v).isSome)
    (ha : (actionOf (.str action : JsValue ν)).isSome) :
    (actionOf (raised existing action)).isSome := by
  cases existing with
  | none => exact ha
  | some v =>
    rw [raised]
    split_ifs
    · exact ha
    · exact h v rfl

section Strengthen

variable [JsNumber ν]

theorem field?_strengthen {actions : List (JsString × JsValue ν)}
    (hn : (actions.map Prod.fst).Nodup) {ta : JsString × JsString}
    (hp : ta.1 ∉ prototypeMembers) (ha : (validActions.lookup ta.2).isSome)
    (hv : ∀ type v, field? type actions = some v → (actionOf v).isSome) (type : JsString) :
    field? type (strengthen actions ta) =
      if type = ta.1 then some (raised (field? ta.1 actions) ta.2) else field? type actions := by
  have hset : field? type (setField ta.1 (.str ta.2) actions) =
      if type = ta.1 then some (.str ta.2) else field? type actions := by
    split_ifs with h
    · rw [h, field?_setField_self _ _ hn]
    · rw [field?_setField_of_ne h]
  rw [strengthen]
  rcases hf : field? ta.1 actions with _ | v
  · simp only [property_of_absent hf hp, truthy, Bool.not_false, Bool.true_or, if_true]
    exact hset
  · simp only [property_of_field? hf, truthy_of_actionOf (hv _ _ hf), Bool.not_true,
      Bool.false_or, weaker_eq (hv _ _ hf) (show (actionOf (.str ta.2 : JsValue ν)).isSome from ha),
      decide_eq_true_eq, raised]
    split_ifs with hlt ht ht
    · rw [hset, if_pos ht]
    · rw [hset, if_neg ht]
    · rw [ht, hf]
    · rfl

/-- A fold over a profile touches the profile's types only, each once. -/
theorem field?_foldl_strengthen {tas : List (JsString × JsString)}
    (htas : (tas.map Prod.fst).Nodup)
    (hsound : ∀ ta ∈ tas, ta.1 ∉ prototypeMembers ∧ (validActions.lookup ta.2).isSome)
    {actions : List (JsString × JsValue ν)} (hn : (actions.map Prod.fst).Nodup)
    (hv : ∀ type v, field? type actions = some v → (actionOf v).isSome) :
    (∀ ta ∈ tas, field? ta.1 (tas.foldl strengthen actions) =
        some (raised (field? ta.1 actions) ta.2)) ∧
      ∀ type ∉ tas.map Prod.fst,
        field? type (tas.foldl strengthen actions) = field? type actions := by
  induction tas generalizing actions with
  | nil => simp
  | cons ta tas ih =>
    obtain ⟨hp, ha⟩ := hsound ta (by simp)
    have hstep := field?_strengthen hn hp ha hv
    have hv' : ∀ type v, field? type (strengthen actions ta) = some v →
        (actionOf v).isSome := fun t v h => by
      rw [hstep] at h
      split_ifs at h with ht
      · rw [← Option.some.inj h]
        exact valid_raised (fun w hw => hv _ _ hw) ha
      · exact hv t v h
    rw [List.map_cons, List.nodup_cons] at htas
    obtain ⟨hin, hout⟩ :=
      ih htas.2 (fun t h => hsound t (by simp [h])) (nodup_strengthen hn ta) hv'
    constructor
    · intro tb htb
      rw [List.foldl_cons]
      rcases List.mem_cons.mp htb with rfl | htb
      · rw [hout _ htas.1, hstep, if_pos rfl]
      · have hne : tb.1 ≠ ta.1 := fun he => htas.1 (he ▸ List.mem_map_of_mem htb)
        rw [hin tb htb, hstep, if_neg hne]
    · intro type ht
      rw [List.map_cons, List.mem_cons, not_or] at ht
      rw [List.foldl_cons, hout type ht.2, hstep, if_neg ht.1]

/-! ### With and without the profile -/

/-- Whatever the first decision is at least as strong as, the second is too. -/
def NotWeaker (d d' : Property ν) : Prop := ∀ a, AtLeast d a → AtLeast d' a

omit [JsNumber ν] in
theorem notWeaker_value {v w : JsValue ν} (hw : (actionOf w).isSome) (h : rank v ≤ rank w) :
    NotWeaker (.value v) (.value w) := by
  intro a ha
  obtain ⟨b, hb, hle⟩ := atLeast_value.mp ha
  obtain ⟨c, hc⟩ := Option.isSome_iff_exists.mp hw
  rw [rank_of_actionOf hb, rank_of_actionOf hc] at h
  exact atLeast_value.mpr ⟨c, hc, hle.trans h⟩

/-- Each action the profile adds to the user's map is at least as strong as what stood
for its type: the presets' entries, or the default in force. -/
def Source.YieldsTo (s : Source ν) (profile : PrivacyProfile) : Prop :=
  ∀ ta ∈ profile.actions, field? ta.1 s.actions = none →
    ∀ v ∈ s.standing ta.1, rank v ≤ rank (.str ta.2 : JsValue ν)

section Profiled

variable {s : Source ν} {profile : PrivacyProfile}

omit [JsNumber ν] in
theorem latest_entries (s : Source ν) (type : JsString) :
    latest type s.entries = (field? type s.actions).or (latest type s.presetEntries) :=
  latest_user type s.presetEntries s.distinct

/-- The user's entries are actions, and none is weaker than a preset's. -/
theorem Source.Accepted.user (hs : s.Accepted) : ∀ type v, field? type s.actions = some v →
    (actionOf v).isSome ∧ (type ∉ prototypeMembers →
      ∀ e ∈ s.presetEntries, e.type = type → rank e.action ≤ rank v) :=
  ((rising_user s.distinct).mp hs.rising).2

theorem field?_apply (hprofile : profile.Sound) (hs : s.Accepted) :
    (∀ ta ∈ profile.actions, field? ta.1 (profile.apply s).actions =
        some (raised (field? ta.1 s.actions) ta.2)) ∧
      ∀ type ∉ profile.actions.map Prod.fst,
        field? type (profile.apply s).actions = field? type s.actions :=
  field?_foldl_strengthen hprofile.1 hprofile.2.2 s.distinct fun t v h => (hs.user t v h).1

omit [JsNumber ν] in
theorem PrivacyProfile.Sound.fallback_eq (hprofile : profile.Sound) (s : Source ν)
    {ta : JsString × JsString} (hta : ta ∈ profile.actions) :
    s.fallback ta.1 = s.defaultInForce :=
  if_neg fun he : ta.1 = js "injection" => hprofile.2.1 (he ▸ List.mem_map_of_mem hta)

theorem yieldsTo_of_notWeaker (hprofile : profile.Sound) (hs : s.Accepted)
    (hs' : (profile.apply s).toSource.Accepted)
    (hweak : ∀ type, NotWeaker (s.decisionFor type)
      ((profile.apply s).toSource.decisionFor type)) :
    s.YieldsTo profile := by
  intro ta hta hnone v hv
  have hproto := (hprofile.2.2 ta hta).1
  have hnew : field? ta.1 (profile.apply s).actions = some (.str ta.2) := by
    rw [(field?_apply hprofile hs).1 ta hta, hnone]
    rfl
  rw [Source.standing] at hv
  split_ifs at hv with hown
  · -- the default in force stood for the type
    obtain rfl := List.mem_singleton.mp hv
    have hold : latest ta.1 s.entries = none := by
      simpa [latest_eq_none] using hown
    have hweak := hweak ta.1
    rw [Source.decisionFor, Source.decisionFor, if_neg hproto, if_neg hproto, hold,
      latest_entries, hnew, hprofile.fallback_eq s hta] at hweak
    rcases hd : actionOf s.defaultInForce with _ | b
    · simp [rank, hd]
    · obtain ⟨c, hc, hle⟩ := atLeast_value.mp (hweak b (atLeast_value.mpr ⟨b, hd, le_rfl⟩))
      rw [rank_of_actionOf hd]
      exact hle.trans (rank_of_actionOf hc).ge
  · -- a preset's entry did
    obtain ⟨e, he, rfl⟩ := List.mem_map.mp hv
    obtain ⟨he, ht⟩ := List.mem_filter.mp he
    have ht : e.type = ta.1 := by simpa using ht
    have hpreset : e ∈ s.presetEntries := by
      refine (List.mem_append.mp he).resolve_right fun huser => ?_
      obtain ⟨kv, hkv, rfl⟩ := List.mem_map.mp huser
      exact field?_eq_none.mp hnone (ht ▸ List.mem_map_of_mem hkv)
    exact (hs'.user ta.1 _ hnew).2 hproto e hpreset ht

/-- The map that the profile leaves is one of actions that are no weaker than the presets'. -/
theorem Source.YieldsTo.user (h : s.YieldsTo profile) (hprofile : profile.Sound)
    (hs : s.Accepted) : ∀ type v, field? type (profile.apply s).actions = some v →
    (actionOf v).isSome ∧ (type ∉ prototypeMembers →
      ∀ e ∈ s.presetEntries, e.type = type → rank e.action ≤ rank v) := by
  obtain ⟨hadded, hkept⟩ := field?_apply hprofile hs
  intro type v hv
  by_cases ht : type ∈ profile.actions.map Prod.fst
  · obtain ⟨ta, hta, rfl⟩ := List.mem_map.mp ht
    obtain rfl := Option.some.inj ((hadded ta hta).symm.trans hv)
    refine ⟨valid_raised (fun w hw => (hs.user _ w hw).1) (hprofile.2.2 ta hta).2, ?_⟩
    intro hproto e he het
    rcases hf : field? ta.1 s.actions with _ | w
    · refine h ta hta hf e.action ?_
      have hmem : e.action ∈
          (s.entries.filter fun e => e.type = ta.1).map ActionEntry.action :=
        List.mem_map.mpr ⟨e, by simp [Source.entries, he, het], rfl⟩
      rw [Source.standing, if_neg (List.ne_nil_of_mem hmem)]
      exact hmem
    · exact ((hs.user _ w hf).2 hproto e he het).trans (rank_raised_some w ta.2)
  · exact hs.user type v ((hkept type ht).symm.trans hv)

theorem Source.YieldsTo.accepted (h : s.YieldsTo profile) (hprofile : profile.Sound)
    (hs : s.Accepted) : (profile.apply s).toSource.Accepted :=
  have hrising := (rising_user s.distinct).mp hs.rising
  ⟨hs.known, (rising_user (profile.apply s).distinct).mpr ⟨hrising.1, h.user hprofile hs⟩,
    hs.validDefault, hs.validMode, hs.validOverrides⟩

theorem Source.YieldsTo.notWeaker (h : s.YieldsTo profile) (hprofile : profile.Sound)
    (hs : s.Accepted) (type : JsString) :
    NotWeaker (s.decisionFor type) ((profile.apply s).toSource.decisionFor type) := by
  obtain ⟨hadded, hkept⟩ := field?_apply hprofile hs
  rw [Source.decisionFor, Source.decisionFor]
  by_cases hproto : type ∈ prototypeMembers
  · rw [if_pos hproto, if_pos hproto]
    exact fun a ha => ha
  rw [if_neg hproto, if_neg hproto, latest_entries (profile.apply s).toSource]
  by_cases ht : type ∈ profile.actions.map Prod.fst
  · obtain ⟨ta, hta, rfl⟩ := List.mem_map.mp ht
    have hvalid : (actionOf (raised (field? ta.1 s.actions) ta.2)).isSome :=
      valid_raised (fun w hw => (hs.user _ w hw).1) (hprofile.2.2 ta hta).2
    rw [hadded ta hta]
    refine notWeaker_value hvalid ?_
    rcases hf : field? ta.1 s.actions with _ | w
    · have hstanding := (Source.standing_latest hs.rising hproto).1
      rw [hprofile.fallback_eq s hta]
      exact h ta hta hf _ hstanding
    · rw [latest_entries s, hf]
      exact rank_raised_some w ta.2
  · rw [hkept type ht, latest_entries s]
    exact fun a ha => ha

end Profiled

/-- Applying a sound profile keeps a configuration buildable and weakens no decision
exactly when the configuration yields to it. -/
theorem apply_keeps_iff (s : Source ν) {profile : PrivacyProfile} (hprofile : profile.Sound)
    (hover : s.allowUnsafeOverrides.truthy = false) {p : MergedPolicy ν}
    (hp : buildPolicy s = .ok p) :
    (∃ p', buildPolicy (profile.apply s).toSource = .ok p' ∧
        ∀ type, NotWeaker (p.effectiveAction type) (p'.effectiveAction type)) ↔
      s.YieldsTo profile := by
  obtain ⟨hs, hdec⟩ := (buildPolicy_ok s hover).1 p hp
  obtain ⟨hok', hex'⟩ := buildPolicy_ok (profile.apply s).toSource hover
  constructor
  · rintro ⟨p', hp', hweak⟩
    obtain ⟨hs', hdec'⟩ := hok' p' hp'
    apply yieldsTo_of_notWeaker hprofile hs hs'
    intro type
    rw [← hdec, ← hdec']
    exact hweak type
  · intro h
    obtain ⟨p', hp'⟩ := hex' (h.accepted hprofile hs)
    refine ⟨p', hp', fun type => ?_⟩
    rw [hdec, (hok' p' hp').2]
    exact h.notWeaker hprofile hs type

theorem sound_of_getPrivacyProfile {id : JsString} {profile : PrivacyProfile}
    (h : getPrivacyProfile id = some profile) : profile.Sound :=
  sound_privacyProfiles profile (List.mem_of_find?_eq_some h)

/-- `buildPolicy` of what `applyPrivacyProfile` returns succeeds, and weakens no decision,
exactly when the configuration yields to the profile. -/
theorem applyPrivacyProfile_iff (s : Source ν) (hover : s.allowUnsafeOverrides.truthy = false)
    (p : MergedPolicy ν) (hp : buildPolicy s = .ok p) (id : JsString) (profile : PrivacyProfile)
    (hprofile : getPrivacyProfile id = some profile) :
    (∃ s' p', applyPrivacyProfile s id = some s' ∧ buildPolicy s'.toSource = .ok p' ∧
        ∀ type, NotWeaker (p.effectiveAction type) (p'.effectiveAction type)) ↔
      s.YieldsTo profile := by
  have happly : applyPrivacyProfile s id = some (profile.apply s) := by
    rw [applyPrivacyProfile, hprofile, Option.map_some]
  rw [← apply_keeps_iff s (sound_of_getPrivacyProfile hprofile) hover hp]
  constructor
  · rintro ⟨s', p', hs', hp', hweak⟩
    obtain rfl := Option.some.inj (happly.symm.trans hs')
    exact ⟨p', hp', hweak⟩
  · rintro ⟨p', hp', hweak⟩
    exact ⟨_, p', happly, hp', hweak⟩

end Strengthen

/-- The policy of `stock`: everything is redacted, phone numbers are masked. -/
def stockPolicy : MergedPolicy NumberToken where
  mode := .str (js "dry-run")
  defaultAction := .str (js "redact")
  actions := [(js "email", .str (js "redact")), (js "phone", .str (js "mask")),
    (js "injection", .str (js "allow"))]
  customRules := .arr []
  allowUnsafeOverrides := .bool false

theorem applyPrivacyProfile_stock : ∃ s' p',
    applyPrivacyProfile stock (js "us-general") = some s' ∧ buildPolicy s'.toSource = .ok p' ∧
      ∀ type, NotWeaker (stockPolicy.effectiveAction type) (p'.effectiveAction type) := by
  have hyields : ∀ profile ∈ privacyProfiles, profile.id = js "us-general" →
      ∀ ta ∈ profile.actions, ∀ v ∈ stock.standing ta.1,
        rank v ≤ rank (.str ta.2 : JsValue NumberToken) := by
    decide +kernel
  obtain ⟨profile, hprofile⟩ : ∃ profile, getPrivacyProfile (js "us-general") = some profile :=
    ⟨_, rfl⟩
  have hid : profile.id = js "us-general" := by simpa using List.find?_some hprofile
  refine (applyPrivacyProfile_iff stock rfl stockPolicy rfl _ profile hprofile).mpr ?_
  exact fun ta hta _ v hv =>
    hyields profile (List.mem_of_find?_eq_some hprofile) hid ta hta v hv

/-! ### A default made explicit and weaker -/

/-- Everything is blocked unless listed, and nothing is listed. -/
def blocking : Source NumberToken where
  presets := []
  mode := .undef
  defaultAction := .str (js "block")
  actions := []
  customRules := .undef
  allowUnsafeOverrides := .undef
  distinct := List.nodup_nil

/-- With the profile `kr-pipa` phone numbers are masked where they were blocked. -/
theorem applyPrivacyProfile_weakens : ¬∀ (s : Source NumberToken),
    s.allowUnsafeOverrides.truthy = false → ∀ p, buildPolicy s = .ok p →
      ∀ id profile, getPrivacyProfile id = some profile →
        ∃ s' p', applyPrivacyProfile s id = some s' ∧ buildPolicy s'.toSource = .ok p' ∧
          ∀ type, NotWeaker (p.effectiveAction type) (p'.effectiveAction type) := by
  intro h
  have hfind : ∃ profile s', getPrivacyProfile (js "kr-pipa") = some profile ∧
      applyPrivacyProfile blocking (js "kr-pipa") = some s' ∧
        ∃ p', buildPolicy s'.toSource = .ok p' ∧
          p'.effectiveAction (js "phone") = .value (.str (js "mask")) :=
    ⟨⟨js "kr-pipa", _⟩, _, rfl, rfl, _, rfl, rfl⟩
  obtain ⟨profile, s₁, hprofile, hs₁, p₁, hp₁, hmask⟩ := hfind
  obtain ⟨s', p', hs', hp', hweak⟩ := h blocking rfl _ rfl _ profile hprofile
  obtain rfl := Option.some.inj (hs₁.symm.trans hs')
  obtain rfl := Except.ok.inj (hp₁.symm.trans hp')
  have hblock := hweak (js "phone") .block ⟨.str (js "block"), .block, rfl, rfl, le_rfl⟩
  rw [hmask] at hblock
  obtain ⟨v, b, hv, hb, hle⟩ := hblock
  obtain rfl := Property.value.inj hv
  obtain rfl : Action.mask = b := Option.some.inj hb
  exact absurd hle (by decide)

end Haechi.Policy
