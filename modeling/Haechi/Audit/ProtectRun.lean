import Haechi.Audit.Links
import Haechi.Core.AuditEvent

/-! A protected payload and its audit record. Proved: the event lists no key twice, so the sink
can take it, and the summary in the record, also as it is read back, is the summary in memory
after sanitizing. -/

namespace Haechi.Audit

open Text Json Core

variable {ν : Type} [JsNumber ν]

/-! ### Protected payloads and their records -/

def actionText : Core.Action → JsString
  | .allow => js "allow"
  | .redact => js "redact"
  | .mask => js "mask"
  | .tokenize => js "tokenize"
  | .encrypt => js "encrypt"
  | .block => js "block"

/-- A payload was protected: what it was protected with, the request's context, the stamp of
the record, and the result. -/
structure ProtectRun (ν : Type) [JsNumber ν] where
  setup : Setup
  /-- A confidence as a number. -/
  number : ℚ → ν
  context : AuditContext ν
  identity_distinct : ∀ fields, context.identity = some fields → (JsValue.obj fields).Distinct
  profile_distinct : context.profile.Distinct
  mode : JsString
  stamp : Stamp
  payload : JsValue ν
  result : Protected ν
  ran : protectJson setup payload = some result

namespace ProtectRun

variable (run : ProtectRun ν)

def detections : List Filter.Detection := run.result.precision.detections

def actions : List JsString := run.result.items.map fun item => actionText item.2

/-- The summary in memory. -/
def summary : JsValue ν := summarize run.detections run.actions run.result.precision

/-- The members of the audit event. -/
def eventFields : Fields ν :=
  buildAuditEvent run.setup.replacer.shortHash run.number run.context run.mode run.setup.enforced
    run.result.blocked run.payload run.actions run.result.precision run.stamp

end ProtectRun

/-! ### The event lists no key twice -/

theorem distinct_countsObject {counts : Counts} (h : (counts.map Prod.fst).Nodup) :
    (countsObject counts : JsValue ν).Distinct := by
  apply JsValue.distinct_obj.mpr
  constructor
  · rwa [List.map_map]
  · intro kv hkv
    obtain ⟨kc, -, rfl⟩ := List.mem_map.mp hkv
    cases kc.2 <;> trivial

/-- The tallies of the dials list no type twice. -/
def TalliedOnce (p : Precision) : Prop :=
  (p.suppressed.byType.map Prod.fst).Nodup ∧ (p.dropped.byType.map Prod.fst).Nodup

theorem nodup_add {t : Tally} (h : (t.byType.map Prod.fst).Nodup) (type : JsString) :
    ((t.add type).byType.map Prod.fst).Nodup := by
  rw [Tally.add, bumpName]
  split_ifs
  · exact h
  · exact nodup_addName h

theorem talliedOnce_step (minConfidence : ℚ) (allowlist : Option Allowlist) {p : Precision}
    (h : TalliedOnce p) (d : Filter.Detection) : TalliedOnce (p.step minConfidence allowlist d) := by
  rw [Precision.step]
  split_ifs
  · exact ⟨nodup_add h.1 d.type, h.2⟩
  · exact ⟨h.1, nodup_add h.2 d.type⟩
  · exact h

theorem talliedOnce_applyPrecisionControls (ds : List Filter.Detection) (minConfidence : ℚ)
    (allowlist : Option Allowlist) :
    TalliedOnce (applyPrecisionControls ds minConfidence allowlist) := by
  have hrun : ∀ (ds : List Filter.Detection) p, TalliedOnce p →
      TalliedOnce (ds.foldl (Precision.step minConfidence allowlist) p) := by
    intro ds
    induction ds with
    | nil => exact fun p h => h
    | cons d ds ih => exact fun p h => ih _ (talliedOnce_step minConfidence allowlist h d)
  exact hrun ds _ ⟨List.nodup_nil, List.nodup_nil⟩

theorem mem_removedFields {count byType : String} {t : Tally} {kv : JsString × JsValue ν}
    (h : kv ∈ removedFields count byType t) :
    kv = (js count, .num (JsNumber.ofNat t.count)) ∨ kv = (js byType, countsObject t.byType) := by
  rw [removedFields] at h
  split_ifs at h
  · simpa using h
  · cases h

theorem keys_removedFields (count byType : String) (t : Tally) :
    ((removedFields count byType t : Fields ν).map Prod.fst).Sublist [js count, js byType] := by
  rw [removedFields]
  split_ifs
  · exact List.Sublist.refl _
  · exact List.nil_sublist _

/-- Each member of a summary is a count or an object of counts. -/
theorem mem_summarize (ds : List Filter.Detection) (actions : List JsString) {p : Precision}
    (hp : TalliedOnce p) {fields : Fields ν} (h : summarize ds actions p = .obj fields) :
    (fields.map Prod.fst).Nodup ∧ ∀ kv ∈ fields, (∃ n, kv.2 = .num (JsNumber.ofNat n)) ∨
      ∃ counts : Counts, (counts.map Prod.fst).Nodup ∧ kv.2 = countsObject counts := by
  rw [summarize, JsValue.obj.injEq] at h
  subst h
  constructor
  · have hkeys : [js "detectionCount", js "byType", js "byAction", js "suppressedCount",
        js "suppressedByType", js "droppedCount", js "droppedByType"].Nodup := by decide
    refine List.Nodup.sublist ?_ hkeys
    simp only [List.map_append]
    exact ((List.Sublist.refl _).append (keys_removedFields _ _ _)).append
      (keys_removedFields _ _ _)
  · intro kv hkv
    rcases List.mem_append.mp hkv with hkv | hkv
    · rcases List.mem_append.mp hkv with hkv | hkv
      · simp only [List.mem_cons, List.not_mem_nil, or_false] at hkv
        rcases hkv with rfl | rfl | rfl
        · exact .inl ⟨_, rfl⟩
        · exact .inr ⟨_, nodup_countNames _, rfl⟩
        · exact .inr ⟨_, nodup_countNames _, rfl⟩
      · rcases mem_removedFields hkv with rfl | rfl
        · exact .inl ⟨_, rfl⟩
        · exact .inr ⟨_, hp.1, rfl⟩
    · rcases mem_removedFields hkv with rfl | rfl
      · exact .inl ⟨_, rfl⟩
      · exact .inr ⟨_, hp.2, rfl⟩

omit [JsNumber ν] in
theorem distinct_auditIdentity {identity : Option (Fields ν)}
    (h : ∀ fields, identity = some fields → (JsValue.obj fields).Distinct) :
    (auditIdentity identity).Distinct := by
  cases identity with
  | none => trivial
  | some fields =>
    have hget : ∀ k, ((JsValue.obj fields).get k).Distinct := by
      intro k
      rw [JsValue.get]
      cases hk : JsValue.field? k fields with
      | none => trivial
      | some v => exact (JsValue.distinct_obj.mp (h fields rfl)).2 (k, v) (JsValue.mem_of_field? hk)
    have hkeys : (["id", "type", "subjectHash", "issuerHash", "provider"].map js).Nodup := by decide
    refine JsValue.distinct_obj.mpr ⟨by rwa [List.map_map], fun kv hkv => ?_⟩
    obtain ⟨k, -, rfl⟩ := List.mem_map.mp hkv
    exact hget (js k)

omit [JsNumber ν] in
theorem distinct_detectionRow (number : ℚ → ν) (enforced : Bool) (d : Filter.Detection)
    (action : JsString) : (detectionRow number enforced d action).Distinct := by
  have hkeys : (["type", "ruleId", "path", "kind", "confidence", "action", "enforced"].map js).Nodup := by
    decide
  refine JsValue.distinct_obj.mpr ⟨hkeys, ?_⟩
  simp only [List.forall_mem_cons, List.not_mem_nil, false_imp_iff, implies_true, and_true]
  refine ⟨trivial, trivial, trivial, trivial, ?_, trivial, trivial⟩
  cases d.confidence <;> trivial

namespace ProtectRun

variable (run : ProtectRun ν)

theorem result_eq :
    (∃ detections, run.result.precision =
      applyPrecisionControls detections run.setup.minConfidence
        (compileAllowlist run.setup.allowlist)) ∧
      run.result.items = run.setup.decideAll run.detections := by
  have hran := run.ran
  simp only [protectJson, Option.bind_eq_bind, Option.bind_eq_some_iff] at hran
  obtain ⟨entries, -, h⟩ := hran
  unfold detections
  split_ifs at h
  · rw [← Option.some.inj h]
    exact ⟨⟨_, rfl⟩, rfl⟩
  · obtain ⟨output, -, h⟩ := Option.bind_eq_some_iff.mp h
    rw [← Option.some.inj h]
    exact ⟨⟨_, rfl⟩, rfl⟩

theorem talliedOnce : TalliedOnce run.result.precision := by
  obtain ⟨⟨detections, h⟩, -⟩ := run.result_eq
  rw [h]
  exact talliedOnce_applyPrecisionControls _ _ _

theorem summary_distinct : run.summary.Distinct := by
  have hmem := mem_summarize (ν := ν) run.detections run.actions run.talliedOnce rfl
  refine JsValue.distinct_obj.mpr ⟨hmem.1, fun kv hkv => ?_⟩
  rcases hmem.2 kv hkv with ⟨n, hn⟩ | ⟨counts, hcounts, heq⟩
  · rw [hn]
    trivial
  · rw [heq]
    exact distinct_countsObject hcounts

theorem eventFields_distinct : (JsValue.obj run.eventFields).Distinct := by
  have hkeys : (["schemaVersion", "id", "correlationId", "timestamp", "protocol", "operation",
      "identity", "profile", "mode", "enforced", "blocked", "payloadShapeHash", "detections",
      "summary"].map js).Nodup := by decide
  have hprofile : (orNull run.context.profile).Distinct := by
    have h := run.profile_distinct
    unfold orNull
    split
    · trivial
    · exact h
  have hrows : (JsValue.arr (List.zipWith (detectionRow run.number run.setup.enforced)
      run.detections run.actions)).Distinct := by
    rw [JsValue.distinct_arr, ← List.map_uncurry_zip_eq_zipWith, List.forall_mem_map]
    exact fun row _ => distinct_detectionRow run.number run.setup.enforced row.1 row.2
  refine JsValue.distinct_obj.mpr ⟨hkeys, ?_⟩
  rw [eventFields, buildAuditEvent]
  simp only [List.forall_mem_cons, List.not_mem_nil, false_imp_iff, implies_true, and_true]
  exact ⟨trivial, trivial, trivial, trivial, trivial, trivial,
    distinct_auditIdentity run.identity_distinct, hprofile, trivial, trivial, trivial, trivial,
    hrows, run.summary_distinct⟩

/-- The audit event, as the sink receives it. -/
def event : Event ν := ⟨run.eventFields, run.eventFields_distinct⟩

/-- The summary in the record of the event, whatever the record is chained to. -/
def persisted (sha256 : Digest) (previous : Option (Integrity ν)) : JsValue ν :=
  (JsValue.obj (Link.record sha256 ⟨previous, run.event⟩)).get (js "summary")

theorem field?_summary (sha256 : Digest) (previous : Option (Integrity ν)) :
    JsValue.field? (js "summary") (Link.record sha256 ⟨previous, run.event⟩) =
      some (sanitizeAudit run.summary) := by
  have hsummary : JsValue.field? (js "summary") run.eventFields = some run.summary := rfl
  rw [Link.record_eq, JsValue.field?_setField_of_ne (by decide), Event.sanitized, event,
    field?_sanitizeFields (by decide), hsummary, Option.map_some]

/-- The record holds the summary in memory after sanitizing. -/
theorem persisted_eq (sha256 : Digest) (previous : Option (Integrity ν)) :
    run.persisted sha256 previous = sanitizeAudit run.summary := by
  rw [persisted, JsValue.get, field?_summary, Option.getD_some]

end ProtectRun

/-! ### The summary has no holes -/

omit [JsNumber ν] in
theorem isJson_sanitizeAudit (v : JsValue ν) (h : v.isJson = true) :
    (sanitizeAudit v).isJson = true := by
  induction v using JsValue.induct with
  | arr items ih =>
    rw [sanitizeAudit, JsValue.isJson_arr, sanitizeItems_eq_map, List.forall_mem_map]
    exact fun v hv => ih v hv (JsValue.isJson_arr.mp h v hv)
  | obj fields ih =>
    rw [sanitizeAudit, JsValue.isJson_obj]
    intro kv hkv
    obtain ⟨-, v, hmem, heq⟩ := mem_sanitizeFields hkv
    rw [heq]
    exact ih _ hmem (JsValue.isJson_obj.mp h _ hmem)
  | _ => exact h

theorem isJson_countsObject (counts : Counts) : (countsObject counts : JsValue ν).isJson = true := by
  rw [countsObject, JsValue.isJson_obj, List.forall_mem_map]
  intro kc _
  cases kc.2 <;> rfl

namespace ProtectRun

variable {sha256 : Digest}

theorem summary_isJson (run : ProtectRun ν) : run.summary.isJson = true := by
  have hmem := mem_summarize (ν := ν) run.detections run.actions run.talliedOnce rfl
  refine JsValue.isJson_obj.mpr fun kv hkv => ?_
  rcases hmem.2 kv hkv with ⟨n, hn⟩ | ⟨counts, -, heq⟩
  · rw [hn]
    rfl
  · rw [heq]
    exact isJson_countsObject counts

/-- What is read of the record's line holds the sanitized summary. -/
theorem get_summary_parsed (run : ProtectRun ν) (previous : Option (Integrity ν)) :
    (JsValue.obj (Link.record sha256 ⟨previous, run.event⟩)).prune.get (js "summary") =
      sanitizeAudit run.summary := by
  have hmember := run.field?_summary sha256 previous
  rw [JsValue.get_prune (Link.record_nodup _) hmember (by simp [summary, summarize, sanitizeAudit])]
  exact JsValue.prune_of_isJson _ (isJson_sanitizeAudit _ run.summary_isJson)

end ProtectRun

end Haechi.Audit
