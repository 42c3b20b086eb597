import Haechi.Cli.Config

/-! A configuration that was normalized is not changed by normalizing it again: every
section holds its own defaults, the TLS material is loaded, and the header names are
accepted once more. The defaults are accepted, and are what an empty file comes to. -/

namespace Haechi.Cli

open JsValue Policy Text

variable {ν : Type}

/-! ### Sections -/

theorem members_obj (fields : Fields ν) : members (.obj fields) = fields := rfl

theorem get_setField_of_ne {k k' : JsString} (h : k ≠ k') (v : JsValue ν) (fs : Fields ν) :
    (obj (setField k' v fs)).get k = (obj fs).get k := by
  rw [get_obj, get_obj, field?_setField_of_ne h]

theorem orElse_orElse (v d : JsValue ν) : (v.orElse d).orElse d = v.orElse d := by
  cases v <;> cases d <;> rfl

section Merging

variable {defaults : Fields ν} (hd : (defaults.map Prod.fst).Nodup)

include hd

theorem nodup_layered (v : JsValue ν) : ((layered defaults v).map Prod.fst).Nodup :=
  nodup_spread (members v) hd

theorem merge_merge (v : JsValue ν) : merge defaults (merge defaults v) = merge defaults v :=
  congrArg obj (spread_of_keys (nodup_layered hd v) (prefix_keys_spread _ _))

/-- A section with a member set stays as it is over the defaults. -/
theorem layered_setField (v w : JsValue ν) (k : JsString) :
    layered defaults (.obj (setField k w (layered defaults v))) =
      setField k w (layered defaults v) :=
  spread_of_keys (nodup_setField k w (nodup_layered hd v))
    ((prefix_keys_spread _ _).trans (prefix_keys_setField _ _ _))

theorem get_setField_layered (v w : JsValue ν) (k : JsString) :
    (obj (setField k w (layered defaults v))).get k = w := by
  rw [get_obj, field?_setField_self k w (nodup_layered hd v), Option.getD_some]

theorem mergeInner_mergeInner (name : String) {inner : Fields ν}
    (hi : (inner.map Prod.fst).Nodup) (v : JsValue ν) :
    mergeInner defaults name inner (mergeInner defaults name inner v) =
      mergeInner defaults name inner v := by
  rw [mergeInner, mergeInner, layered_setField hd, get_setField_layered hd, merge_merge hi,
    setField_setField]

theorem mergeGiven_mergeGiven (name : String) (value v : JsValue ν) :
    mergeGiven defaults name value (mergeGiven defaults name value v) =
      mergeGiven defaults name value v := by
  rw [mergeGiven, mergeGiven, layered_setField hd, get_setField_layered hd, orElse_orElse,
    setField_setField]

end Merging

variable [JsNumber ν] {host : Host}

/-- The layers of defaults below the sections. -/
def defaultLayers : List (Fields ν) :=
  [defaultConfig, defaultTarget, defaultProxy, defaultResponseProtection, defaultStreaming,
    defaultLimits, defaultActions, defaultPolicy, defaultFilters, defaultKeys, defaultAnchor,
    defaultAudit, defaultTokenVault, defaultPrivacy, defaultLogging, defaultMetrics, defaultAuth,
    defaultPlugins, defaultMcp]

theorem nodup_defaultLayers : ∀ layer ∈ (defaultLayers : List (Fields ν)),
    (layer.map Prod.fst).Nodup := by
  simp only [defaultLayers, List.forall_mem_cons]
  refine ⟨?_, ?_, ?_, ?_, ?_, ?_, ?_, ?_, ?_, ?_, ?_, ?_, ?_, ?_, ?_, ?_, ?_, ?_, ?_, by simp⟩
  all_goals
    simp only [defaultConfig, defaultTarget, defaultProxy, defaultResponseProtection,
      defaultStreaming, defaultLimits, defaultActions, defaultPolicy, defaultFilters, defaultKeys,
      defaultAnchor, defaultAudit, defaultTokenVault, defaultPrivacy, defaultLogging,
      defaultMetrics, defaultAuth, defaultPlugins, defaultMcp, record, List.map_cons,
      List.map_nil]
    decide

theorem nodup_defaultConfig : ((defaultConfig : Fields ν).map Prod.fst).Nodup :=
  nodup_defaultLayers defaultConfig (by simp [defaultLayers])

theorem nodup_defaultProxy : ((defaultProxy : Fields ν).map Prod.fst).Nodup :=
  nodup_defaultLayers defaultProxy (by simp [defaultLayers])

/-! ### TLS material -/

/-- Material that is loaded names no file, and is not loaded again. -/
theorem resolveProxyTls_loaded {fields : Fields ν} (hfiles : hasFilePaths (.obj fields) = false)
    (hinline : hasInlineMaterial (.obj fields) = true) :
    resolveProxyTls host (.obj fields) = .ok (.obj fields) := by
  simp [resolveProxyTls, hfiles, hinline]

theorem readTlsFile_ok {path : JsString} {label : String} {v : JsValue ν}
    (h : readTlsFile host path label = .ok v) : ∃ bytes, v = buffer bytes := by
  unfold readTlsFile at h
  split at h
  · next bytes _ => exact ⟨bytes, (Except.ok.inj h).symm⟩
  · cases h

theorem readPfx_resolved {tls t : JsValue ν} (h : readPfx host tls = .ok t) :
    resolveProxyTls host t = .ok t := by
  simp only [readPfx] at h
  obtain ⟨pfxFile, -, h⟩ := bind_eq_ok.mp h
  obtain ⟨-, -, h⟩ := bind_eq_ok.mp h
  obtain ⟨pfx, hpfx, h⟩ := bind_eq_ok.mp h
  obtain ⟨bytes, rfl⟩ := readTlsFile_ok hpfx
  obtain rfl := Except.ok.inj h
  apply resolveProxyTls_loaded
  · split_ifs <;> rfl
  · split_ifs <;> rfl

theorem readKeyCert_resolved {tls t : JsValue ν} (h : readKeyCert host tls = .ok t) :
    resolveProxyTls host t = .ok t := by
  simp only [readKeyCert] at h
  obtain ⟨keyFile, -, h⟩ := bind_eq_ok.mp h
  obtain ⟨certFile, -, h⟩ := bind_eq_ok.mp h
  obtain ⟨key, hkey, h⟩ := bind_eq_ok.mp h
  obtain ⟨cert, -, h⟩ := bind_eq_ok.mp h
  obtain ⟨bytes, rfl⟩ := readTlsFile_ok hkey
  obtain rfl := Except.ok.inj h
  exact resolveProxyTls_loaded rfl rfl

/-- What was resolved is resolved to itself. -/
theorem resolveProxyTls_resolved {tls t : JsValue ν} (h : resolveProxyTls host tls = .ok t) :
    resolveProxyTls host t = .ok t := by
  unfold resolveProxyTls at h
  split at h
  · obtain rfl := Except.ok.inj h
    rfl
  · obtain rfl := Except.ok.inj h
    rfl
  · split_ifs at h with hloaded hboth hpfx hkeyCert
    · obtain rfl := Except.ok.inj h
      obtain ⟨hinline, hfiles⟩ := Bool.and_eq_true_iff.mp hloaded
      exact resolveProxyTls_loaded (by simpa using hfiles) hinline
    · exact readPfx_resolved h
    · exact readKeyCert_resolved h
  · cases h

theorem normalizeProxy_normalized {proxy p : JsValue ν} (h : normalizeProxy host proxy = .ok p) :
    normalizeProxy host p = .ok p := by
  simp only [normalizeProxy] at h
  obtain ⟨tls, htls, h⟩ := bind_eq_ok.mp h
  obtain rfl := Except.ok.inj h
  have hd := nodup_defaultProxy (ν := ν)
  simp only [normalizeProxy, layered_setField hd, get_setField_layered hd, setField_setField]
  rw [resolveProxyTls_resolved htls]
  rfl

/-! ### Header names -/

theorem eraseDups_eraseDups (names : List JsString) :
    names.eraseDups.eraseDups = names.eraseDups := by
  induction hn : names.length using Nat.strong_induction_on generalizing names with
  | _ n ih =>
    cases names with
    | nil => rfl
    | cons name names =>
      have hlt : (names.filter fun b => !b == name).length < n := by
        have hle := List.length_filter_le (fun b => !b == name) names
        rw [List.length_cons] at hn
        omega
      have hkept : (names.filter fun b => !b == name).eraseDups.filter (fun b => !b == name) =
          (names.filter fun b => !b == name).eraseDups := by
        rw [List.filter_eq_self]
        intro b hb
        exact (List.mem_filter.mp (List.mem_eraseDups.mp hb)).2
      rw [List.eraseDups_cons, List.eraseDups_cons, hkept, ih _ hlt _ rfl]

theorem ensure_ok {ok : Bool} {error : JsString} {u : Unit} :
    ensure ok error = .ok u ↔ ok = true := by
  cases ok <;> simp [ensure]

omit [JsNumber ν] in
theorem nonBlank_ok {v : JsValue ν} {error s : JsString} :
    nonBlank v error = .ok s ↔ v = .str s ∧ trim s ≠ [] := by
  cases v with
  | str t =>
    rw [nonBlank]
    split_ifs with ht
    · simp only [str.injEq, false_iff, not_and, not_not]
      rintro rfl
      exact ht
    · simp only [Except.ok.injEq, str.injEq, iff_self_and]
      rintro rfl
      exact ht
  | _ => simp [nonBlank]

omit [JsNumber ν] in
/-- An accepted name is one that the proxy does not always drop. -/
theorem forwardHeaderName_ok {entry : JsValue ν} {name : JsString} :
    forwardHeaderName host entry = .ok name ↔ entry = .str name ∧ trim name ≠ [] ∧
      host.toLowerCase (trim name) = name ∧ name ∉ Proxy.forwardHeadersForbidden := by
  simp only [forwardHeaderName, bind_eq_ok, nonBlank_ok, ensure_ok, decide_eq_true_eq]
  constructor
  · rintro ⟨s, ⟨rfl, hs⟩, ⟨⟩, hlower, ⟨⟩, hallowed, h⟩
    obtain rfl : host.toLowerCase (trim s) = name := Except.ok.inj h
    rw [hlower] at hallowed ⊢
    exact ⟨rfl, hs, hlower, hallowed⟩
  · rintro ⟨rfl, hs, hlower, hallowed⟩
    exact ⟨name, ⟨rfl, hs⟩, (), hlower, (), hlower.symm ▸ hallowed, congrArg _ hlower⟩

omit [JsNumber ν] in
/-- The names are those that the runtime of the proxy accepts. -/
theorem forwardHeaderName_iff {entry : JsValue ν} {name : JsString} :
    Proxy.forwardHeaderName host.toCaseFolding entry = some name ↔
      forwardHeaderName host entry = .ok name := by
  rw [forwardHeaderName_ok]
  cases entry with
  | str s =>
    simp only [Proxy.forwardHeaderName, str.injEq]
    split_ifs with h
    · simp only [false_iff]
      rintro ⟨rfl, hs, hlower, hallowed⟩
      rw [hlower] at h
      rcases h with h | h | h
      · exact hs h
      · exact h rfl
      · exact hallowed h
    · push Not at h
      obtain ⟨hs, hlower, hallowed⟩ := h
      rw [Option.some.injEq, hlower]
      constructor
      · rintro rfl
        exact ⟨rfl, hs, hlower, hlower ▸ hallowed⟩
      · exact fun h => h.1
  | _ => simp [Proxy.forwardHeaderName]

theorem mapM_map_eq_ok {α β ε : Type} {f : β → Except ε α} {g : α → β} {xs : List α}
    (h : ∀ x ∈ xs, f (g x) = .ok x) : (xs.map g).mapM f = .ok xs := by
  induction xs with
  | nil => rfl
  | cons x xs ih =>
    obtain ⟨hx, hxs⟩ := List.forall_mem_cons.mp h
    rw [List.map_cons, List.mapM_cons, hx, ih hxs]
    rfl

omit [JsNumber ν] in
/-- The target with its names checked, which is accepted as it is. -/
theorem validateForwardHeaders_ok {target : Fields ν} {t : JsValue ν}
    (hn : (target.map Prod.fst).Nodup)
    (h : validateForwardHeaders host (.obj target) = .ok t) :
    (t = .obj target ∨ ∃ v, t = .obj (setField (js "forwardHeaders") v target)) ∧
      validateForwardHeaders host t = .ok t := by
  have hsame := h
  unfold validateForwardHeaders at h
  split at h
  · obtain rfl := Except.ok.inj h
    exact ⟨.inl rfl, hsame⟩
  · obtain rfl := Except.ok.inj h
    exact ⟨.inl rfl, hsame⟩
  · next items _ =>
    obtain ⟨names, hnames, h⟩ := bind_eq_ok.mp h
    obtain rfl := Except.ok.inj h
    rw [members_obj]
    refine ⟨.inr ⟨_, rfl⟩, ?_⟩
    have hget : (obj (setField (js "forwardHeaders") (.arr (names.eraseDups.map .str))
        target)).get (js "forwardHeaders") = .arr (names.eraseDups.map .str) := by
      rw [get_obj, field?_setField_self _ _ hn, Option.getD_some]
    have hagain : (names.eraseDups.map (JsValue.str (ν := ν))).mapM (forwardHeaderName host) =
        .ok names.eraseDups := by
      apply mapM_map_eq_ok
      intro name hname
      obtain ⟨entry, -, hentry⟩ := mem_of_mapM_eq_ok hnames (List.mem_eraseDups.mp hname)
      exact forwardHeaderName_ok.mpr ⟨rfl, (forwardHeaderName_ok.mp hentry).2⟩
    rw [validateForwardHeaders, hget]
    refine bind_eq_ok.mpr ⟨_, hagain, ?_⟩
    rw [members_obj, eraseDups_eraseDups, setField_setField]
    rfl
  · cases h

/-! ### The adapter -/

/-- A target that names no inherited member has the adapter of the proxy. -/
theorem createProtocolAdapter_eq {target : JsValue ν} {type adapter : JsString}
    (htype : target.get (js "type") = .str type)
    (hadapter : target.get (js "adapter") = .str adapter)
    (ht : type ∉ prototypeMembers) (ha : adapter ∉ prototypeMembers) :
    createProtocolAdapter target =
      (Proxy.createProtocolAdapter (some type) (some adapter)).map some := by
  have hknown : ∀ key, key ∉ prototypeMembers → isAdapter key = (Proxy.adapterOf key).isSome := by
    intro key hkey
    simp [isAdapter, hkey]
  have hid : ∀ key found, Proxy.adapterOf key = some found → found.id = key := by
    intro key found h
    simpa using List.find?_some h
  have hadapterId : adapterId target = Proxy.adapterId (some type) (some adapter) := by
    simp only [adapterId, htype, hadapter, toText?, hknown type ht, isGiven, Proxy.adapterId,
      Option.bind_some]
    cases h : Proxy.adapterOf type with
    | none => rfl
    | some found => exact congrArg Except.ok (hid type found h).symm
  have hfound : ∃ id, Proxy.adapterId (some type) (some adapter) = .ok id ∧
      id ∉ prototypeMembers := by
    simp only [Proxy.adapterId, Option.bind_some]
    cases h : Proxy.adapterOf type with
    | none => exact ⟨adapter, rfl, ha⟩
    | some found => exact ⟨found.id, rfl, hid type found h ▸ ht⟩
  obtain ⟨id, hid', hplain⟩ := hfound
  simp only [createProtocolAdapter, hadapterId, Proxy.createProtocolAdapter, hid']
  show (ensure (isAdapter id) _ >>= fun _ => .ok (Proxy.adapterOf id)) = _
  rw [hknown id hplain]
  cases h : Proxy.adapterOf id <;> rfl
/-! ### Settled sections -/

/-- Every section is what its merge makes of it. -/
def Settled (proxy : JsValue ν) (n : Fields ν) : Prop :=
  ∀ s ∈ sections proxy, ∃ v, field? (js s.1) n = some v ∧ s.2 v = v

theorem mergedConfig_settled {proxy : JsValue ν} {n : Fields ν}
    (hn : (n.map Prod.fst).Nodup)
    (hbegin : (defaultConfig : Fields ν).map Prod.fst <+: n.map Prod.fst)
    (h : Settled proxy n) : mergedConfig n proxy = n := by
  rw [mergedConfig, spread_of_keys hn hbegin]
  apply spread_same hn
  rw [List.forall_mem_map]
  intro s hs
  obtain ⟨v, hv, hsettled⟩ := h s hs
  rw [get_obj, hv, Option.getD_some, hsettled]

theorem sections_idempotent (proxy : JsValue ν) :
    ∀ part ∈ sections proxy, ∀ v, part.2 (part.2 v) = part.2 v := by
  have hd : ∀ layer ∈ (defaultLayers : List (Fields ν)), (layer.map Prod.fst).Nodup :=
    nodup_defaultLayers
  simp only [defaultLayers, List.forall_mem_cons] at hd
  obtain ⟨-, htarget, -, hresponse, hstreaming, hlimits, hactions, hpolicy, hfilters, hkeys,
    hanchor, haudit, hvault, hprivacy, hlogging, hmetrics, hauth, hplugins, hmcp, -⟩ := hd
  simp only [sections, List.forall_mem_cons]
  exact ⟨fun v => orElse_orElse v _, merge_merge htarget, fun _ => trivial, merge_merge hresponse,
    merge_merge hstreaming, merge_merge hlimits, mergeInner_mergeInner hpolicy _ hactions,
    merge_merge hfilters, merge_merge hkeys, mergeInner_mergeInner haudit _ hanchor,
    merge_merge hvault, merge_merge hprivacy, merge_merge hlogging, merge_merge hmetrics,
    mergeGiven_mergeGiven hauth _ _, merge_merge hplugins, mergeGiven_mergeGiven hmcp _ _,
    by simp⟩

theorem nodup_sections (proxy : JsValue ν) :
    ((sections proxy).map fun part => js part.1).Nodup := by
  simp only [sections, List.map_cons, List.map_nil]
  decide

theorem nodup_mergedSections (config : Fields ν) (proxy : JsValue ν) :
    (((sections proxy).map fun part =>
      (js part.1, part.2 ((obj config).get (js part.1)))).map Prod.fst).Nodup := by
  rw [List.map_map]
  exact nodup_sections proxy

/-- What a section of the merged configuration is. -/
theorem field?_mergedConfig (config : Fields ν) (proxy : JsValue ν)
    (part : String × (JsValue ν → JsValue ν)) (hpart : part ∈ sections proxy) :
    field? (js part.1) (mergedConfig config proxy) =
      some (part.2 ((obj config).get (js part.1))) := by
  have hkeys := nodup_mergedSections config proxy
  have hdefault := nodup_defaultConfig (ν := ν)
  rw [mergedConfig, field?_spread hkeys (nodup_spread config hdefault),
    field?_of_mem hkeys (List.mem_map_of_mem hpart)]
  rfl

/-- Any other member is the configuration's own, over the default. -/
theorem field?_mergedConfig_of_notMem (config : Fields ν) (proxy : JsValue ν) {k : JsString}
    (hk : k ∉ (sections proxy).map fun part => js part.1) :
    field? k (mergedConfig config proxy) = field? k (spread defaultConfig config) := by
  have hdefault := nodup_defaultConfig (ν := ν)
  rw [mergedConfig, field?_spread (nodup_mergedSections config proxy)
    (nodup_spread config hdefault), field?_eq_none.mpr]
  · rfl
  · rwa [List.map_map]

theorem settled_mergedConfig (config : Fields ν) (proxy : JsValue ν) :
    Settled proxy (mergedConfig config proxy) := by
  intro part hpart
  exact ⟨_, field?_mergedConfig config proxy part hpart, sections_idempotent proxy part hpart _⟩

theorem get_mergedConfig (config : Fields ν) (proxy : JsValue ν)
    (part : String × (JsValue ν → JsValue ν)) (hpart : part ∈ sections proxy) :
    (obj (mergedConfig config proxy)).get (js part.1) =
      part.2 ((obj config).get (js part.1)) := by
  rw [get_obj, field?_mergedConfig config proxy part hpart, Option.getD_some]

theorem nodup_mergedConfig (config : Fields ν) (proxy : JsValue ν) :
    ((mergedConfig config proxy).map Prod.fst).Nodup :=
  nodup_spread _ (nodup_spread config (nodup_defaultConfig))

theorem prefix_keys_mergedConfig (config : Fields ν) (proxy : JsValue ν) :
    (defaultConfig : Fields ν).map Prod.fst <+: (mergedConfig config proxy).map Prod.fst :=
  (prefix_keys_spread _ _).trans (prefix_keys_spread _ _)

/-- The checks do not read the target. -/
theorem checkSections_setField_target (t : JsValue ν) (fs : Fields ν) :
    checkSections host (.obj (setField (js "target") t fs)) = checkSections host (.obj fs) := by
  have hne : ∀ name ∈ ["keys", "proxy", "audit", "tokenVault", "mcp", "privacy", "logging",
      "metrics", "responseProtection", "streaming", "limits", "configVersion", "policy", "filters",
      "auth", "plugins"], js name ≠ js "target" := by decide
  have hget := fun name hname => get_setField_of_ne (hne name hname) t fs
  simp only [List.forall_mem_cons] at hget
  obtain ⟨hkeys, hproxy, haudit, hvault, hmcp, hprivacy, hlogging, hmetrics, hresponse, hstreaming,
    hlimits, hversion, hpolicy, hfilters, hauth, hplugins, -⟩ := hget
  simp only [checkSections, hkeys, hproxy, haudit, hvault, hmcp, hprivacy, hlogging, hmetrics,
    hresponse, hstreaming, hlimits, hversion, hpolicy, hfilters, hauth, hplugins]

/-- A target as the normalization leaves it. -/
theorem merge_target {w t : JsValue ν}
    (h : validateForwardHeaders host (merge defaultTarget w) = .ok t) :
    merge defaultTarget t = t ∧ validateForwardHeaders host t = .ok t := by
  have hd := nodup_defaultLayers (ν := ν) defaultTarget (by simp [defaultLayers])
  obtain ⟨rfl | ⟨v, rfl⟩, hagain⟩ := validateForwardHeaders_ok (nodup_layered hd w) h
  · exact ⟨merge_merge hd w, hagain⟩
  · exact ⟨congrArg obj (layered_setField hd w v _), hagain⟩

theorem settled_setField_target {config : Fields ν} {proxy t : JsValue ν}
    (ht : merge defaultTarget t = t) :
    Settled proxy (setField (js "target") t (mergedConfig config proxy)) := by
  intro part hpart
  by_cases hname : js part.1 = js "target"
  · have hmem : ("target", merge defaultTarget) ∈ sections proxy := by simp [sections]
    obtain rfl := List.inj_on_of_nodup_map (nodup_sections proxy) hpart hmem hname
    exact ⟨t, field?_setField_self _ t (nodup_mergedConfig config proxy), ht⟩
  · rw [field?_setField_of_ne hname]
    exact settled_mergedConfig config proxy part hpart

/-- A normalized configuration is normalized to itself. -/
theorem normalizeConfig_normalized {config n : Fields ν}
    (h : normalizeConfig host config = .ok n) : normalizeConfig host n = .ok n := by
  simp only [normalizeConfig] at h
  obtain ⟨proxy, hproxy, h⟩ := bind_eq_ok.mp h
  obtain ⟨⟨⟩, hchecks, h⟩ := bind_eq_ok.mp h
  obtain ⟨target, htarget, h⟩ := bind_eq_ok.mp h
  obtain ⟨adapter, hadapter, h⟩ := bind_eq_ok.mp h
  obtain rfl := Except.ok.inj h
  have hgetProxy : (obj (setField (js "target") target (mergedConfig config proxy))).get
      (js "proxy") = proxy := by
    rw [get_setField_of_ne (by decide)]
    exact get_mergedConfig config proxy ("proxy", fun _ => proxy) (by simp [sections])
  have hgetTarget : (obj (mergedConfig config proxy)).get (js "target") =
      merge defaultTarget ((obj config).get (js "target")) :=
    get_mergedConfig config proxy ("target", merge defaultTarget) (by simp [sections])
  rw [hgetTarget] at htarget
  obtain ⟨hmerged, hagain⟩ := merge_target htarget
  have hnodup := nodup_mergedConfig config proxy
  have hsettled : mergedConfig (setField (js "target") target (mergedConfig config proxy)) proxy =
      setField (js "target") target (mergedConfig config proxy) :=
    mergedConfig_settled (nodup_setField _ _ hnodup)
      ((prefix_keys_mergedConfig config proxy).trans (prefix_keys_setField _ _ _))
      (settled_setField_target hmerged)
  simp only [normalizeConfig, hgetProxy]
  refine bind_eq_ok.mpr ⟨proxy, normalizeProxy_normalized hproxy, bind_eq_ok.mpr ⟨(), ?_,
    bind_eq_ok.mpr ⟨target, ?_, bind_eq_ok.mpr ⟨adapter, hadapter, ?_⟩⟩⟩⟩
  · rw [hsettled, checkSections_setField_target, hchecks]
  · rw [hsettled, get_obj, field?_setField_self _ _ hnodup, Option.getD_some, hagain]
  · rw [hsettled, setField_setField]
    rfl

/-! ### The defaults are accepted -/

omit [JsNumber ν] in
@[simp] theorem get_cons (k k' : JsString) (v : JsValue ν) (fs : Fields ν) :
    (obj ((k, v) :: fs)).get k' = if k = k' then v else (obj fs).get k' := by
  rw [get_obj, get_obj, field?]
  split_ifs <;> rfl

omit [JsNumber ν] in
@[simp] theorem get_nil (k : JsString) : (obj ([] : Fields ν)).get k = .undef := rfl

@[simp] theorem ensure_true (error : JsString) : ensure true error = .ok () := rfl

omit [JsNumber ν] in
@[simp] theorem isOneOf_str (names : List String) (s : JsString) :
    isOneOf names (.str s : JsValue ν) = decide (s ∈ names.map js) := rfl

omit [JsNumber ν] in
@[simp] theorem isNonBlank_str (s : JsString) :
    isNonBlank (.str s : JsValue ν) = !(trim s).isEmpty := rfl

@[simp] theorem isIntegerFrom_count (least n : ℕ) :
    isIntegerFrom least (count n : JsValue ν) = decide (least ≤ n) := by
  simp [isIntegerFrom, count, JsNumber.toNat?_ofNat]

@[simp] theorem isNumberFrom_count (least n : ℕ) :
    isNumberFrom least (count n : JsValue ν) = decide (least ≤ n) := by
  simp [isNumberFrom, count, JsNumber.lt_ofNat, ← decide_not]

/-- Every section of the defaults passes its own check. -/
theorem checkSections_default : checkSections host (.obj defaultConfig : JsValue ν) = .ok () := by
  have hkeys : checkKeys (.obj defaultKeys : JsValue ν) = .ok () := by
    simp +decide [checkKeys, defaultKeys, record, text]
  have hproxy : checkProxy (.obj defaultProxy : JsValue ν) = .ok () := by
    simp +decide [checkProxy, defaultProxy, record, text, count, isValidPort, isBoolean, isNull,
      JsNumber.toNat?_ofNat]
  have haudit : checkAudit (.obj defaultAudit : JsValue ν) = .ok () := by
    simp +decide [checkAudit, defaultAudit, defaultAnchor, record, text]
  have hvault : checkTokenVault (.obj defaultTokenVault : JsValue ν) = .ok () := by
    simp +decide [checkTokenVault, defaultTokenVault, record, text, isBoolean, isNull]
  have hmcp : checkMcp (.obj defaultMcp : JsValue ν) = .ok () := by
    simp +decide [checkMcp, defaultMcp, defaultMethods, record, text, texts, isBoolean,
      isNonEmptyList, isListOf]
  have hprivacy : checkPrivacy host (.obj defaultPrivacy : JsValue ν) = .ok () := by
    simp +decide [checkPrivacy, defaultPrivacy, record, truthy]
  have hlogging : checkLogging (.obj defaultLogging : JsValue ν) = .ok () := by
    simp +decide [checkLogging, defaultLogging, record, text]
  have hmetrics : checkMetrics (.obj defaultMetrics : JsValue ν) = .ok () := by
    simp +decide [checkMetrics, defaultMetrics, record, isBoolean]
  have hresponse : checkResponseProtection (.obj defaultResponseProtection : JsValue ν) =
      .ok () := by
    simp +decide [checkResponseProtection, defaultResponseProtection, record, text, isBoolean]
  have hstreaming : checkStreaming (.obj defaultStreaming : JsValue ν) = .ok () := by
    simp +decide [checkStreaming, defaultStreaming, record, text]
  have hlimits : checkLimits (.obj defaultLimits : JsValue ν) = .ok () := by
    simp +decide [checkLimits, defaultLimits, record, checkTimeout, isGiven]
  have hversion : checkConfigVersion (count configVersion : JsValue ν) = .ok () := by
    simp +decide [checkConfigVersion, configVersion]
  have hpolicy : validatePolicyExtras (.obj defaultPolicy : JsValue ν) = .ok () := by
    simp +decide [validatePolicyExtras, checkGates, defaultPolicy, record, isDefined]
  have hfilters : validateFilters (.obj defaultFilters : JsValue ν) = .ok () := by
    simp +decide [validateFilters, defaultFilters, record, isDefined, isConfidence, count,
      checkAllowlist, isBoolean, JsNumber.lt_ofNat]
  have hauth : checkAuth (.obj defaultAuth : JsValue ν) = .ok () := by
    simp +decide [checkAuth, defaultAuth, defaultLabelKeys, record, text, texts, isListOf]
  have hplugin : checkAuthPlugin host (.obj defaultAuth) (.obj defaultPlugins : JsValue ν) =
      .ok () := by
    simp +decide [checkAuthPlugin, defaultAuth, record, text]
  simp +decide [checkSections, defaultConfig, record, hkeys, hproxy, haudit, hvault, hmcp, hprivacy,
    hlogging, hmetrics, hresponse, hstreaming, hlimits, hversion, hpolicy, hfilters, hauth, hplugin]

omit [JsNumber ν] in
theorem merge_undef (defaults : Fields ν) : merge defaults .undef = .obj defaults := rfl

omit [JsNumber ν] in
theorem mergeInner_undef {defaults inner : Fields ν} {name : String}
    (hd : (defaults.map Prod.fst).Nodup) (h : (js name, .obj inner) ∈ defaults) :
    mergeInner defaults name inner .undef = .obj defaults :=
  congrArg obj (setField_same hd (field?_of_mem hd h))

omit [JsNumber ν] in
theorem mergeGiven_undef {defaults : Fields ν} {name : String} {fallback : JsValue ν}
    (hd : (defaults.map Prod.fst).Nodup) (h : (js name, fallback) ∈ defaults) :
    mergeGiven defaults name fallback .undef = .obj defaults :=
  congrArg obj (setField_same hd (field?_of_mem hd h))

/-- A section that is left out is what the defaults hold. -/
theorem sections_default : ∀ part ∈ sections (.obj defaultProxy : JsValue ν),
    field? (js part.1) (defaultConfig : Fields ν) = some (part.2 .undef) := by
  have hd : ∀ layer ∈ (defaultLayers : List (Fields ν)), (layer.map Prod.fst).Nodup :=
    nodup_defaultLayers
  simp only [defaultLayers, List.forall_mem_cons] at hd
  obtain ⟨hconfig, -, -, -, -, -, -, hpolicy, -, -, -, haudit, -, -, -, -, hauth, -, hmcp, -⟩ := hd
  have hactions : (js "actions", .obj defaultActions) ∈ (defaultPolicy : Fields ν) := by
    simp [defaultPolicy, record]
  have hanchor : (js "anchor", .obj defaultAnchor) ∈ (defaultAudit : Fields ν) := by
    simp [defaultAudit, record]
  have hlabels : (js "allowedLabelKeys", defaultLabelKeys) ∈ (defaultAuth : Fields ν) := by
    simp [defaultAuth, record]
  have hmethods : (js "allowedMethods", defaultMethods) ∈ (defaultMcp : Fields ν) := by
    simp [defaultMcp, record]
  have hparts : ∀ part ∈ sections (.obj defaultProxy : JsValue ν),
      (js part.1, part.2 .undef) ∈ (defaultConfig : Fields ν) := by
    simp [sections, merge_undef, mergeInner_undef hpolicy hactions,
      mergeInner_undef haudit hanchor, mergeGiven_undef hauth hlabels,
      mergeGiven_undef hmcp hmethods, orElse, defaultConfig, record]
  exact fun part hpart => field?_of_mem hconfig (hparts part hpart)

theorem normalizeProxy_undef :
    normalizeProxy host (.undef : JsValue ν) = .ok (.obj defaultProxy) := by
  have hd := nodup_defaultProxy (ν := ν)
  have htls : field? (js "tls") (defaultProxy : Fields ν) = some .null :=
    field?_of_mem hd (by simp [defaultProxy, record])
  have hlayered : layered (defaultProxy : Fields ν) .undef = defaultProxy := rfl
  simp only [normalizeProxy, hlayered, get_obj, htls, Option.getD_some, resolveProxyTls]
  exact bind_eq_ok.mpr ⟨.null, rfl, congrArg (fun fields => Except.ok (obj fields))
    (setField_same hd htls)⟩

/-- A file without members comes to the defaults. -/
theorem normalizeConfig_nil : normalizeConfig host ([] : Fields ν) = .ok defaultConfig := by
  have hd := nodup_defaultConfig (ν := ν)
  have hmerged : mergedConfig ([] : Fields ν) (.obj defaultProxy) = defaultConfig := by
    apply spread_same hd
    rw [List.forall_mem_map]
    exact fun part hpart => sections_default part hpart
  have htarget : field? (js "target") (defaultConfig : Fields ν) = some (.obj defaultTarget) :=
    field?_of_mem hd (by simp [defaultConfig, record])
  have hheaders : validateForwardHeaders host (.obj defaultTarget : JsValue ν) =
      .ok (.obj defaultTarget) := by
    simp +decide [validateForwardHeaders, defaultTarget, record]
  have hadapter : ∃ adapter, createProtocolAdapter (.obj defaultTarget : JsValue ν) =
      .ok adapter := by
    have htype : (obj (defaultTarget : Fields ν)).get (js "type") = text "llm-http" := by
      simp +decide [defaultTarget, record]
    have hname : (obj (defaultTarget : Fields ν)).get (js "adapter") = text "openai-compatible" := by
      simp +decide [defaultTarget, record]
    have hid : adapterId (.obj defaultTarget : JsValue ν) = .ok (js "openai-compatible") := by
      have hunknown : isAdapter (js "llm-http") = false := by decide
      simp [adapterId, htype, hname, text, toText?, hunknown, isGiven]
    have hknown : isAdapter (js "openai-compatible") = true := by decide
    exact ⟨_, bind_eq_ok.mpr ⟨_, hid, by rw [hknown]; rfl⟩⟩
  obtain ⟨adapter, hadapter⟩ := hadapter
  refine bind_eq_ok.mpr ⟨_, normalizeProxy_undef, bind_eq_ok.mpr ⟨(), ?_, bind_eq_ok.mpr
    ⟨.obj defaultTarget, ?_, bind_eq_ok.mpr ⟨adapter, hadapter, ?_⟩⟩⟩⟩
  · rw [hmerged, checkSections_default]
  · rw [hmerged, get_obj, htarget, Option.getD_some, hheaders]
  · rw [hmerged, setField_same hd htarget]
    rfl

end Haechi.Cli
