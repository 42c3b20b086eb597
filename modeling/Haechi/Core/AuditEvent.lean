import Haechi.Core.Payload

/-! The audit event of a protected payload: the shape of the payload, and of every
detection its type, its rule, its place, its kind, its confidence and the action
taken, with counts of what the precision dials removed. Proved: the event says
nothing else. Payloads of one shape, with the same findings that meet the same
verdicts, are collected alike and have the same event. -/

namespace Haechi.Core

open Text Haechi.Filter

variable {ν : Type} [JsNumber ν]

/-- The members of an object. -/
abbrev Fields (ν : Type) := List (JsString × JsValue ν)

/-! ### The shape of a payload -/

/-- The shape of a leaf that is not a string. -/
def typeOnly (name : String) : JsValue ν := .obj [(js "type", .str (js name))]

mutual

def shapeOnly : JsValue ν → JsValue ν
  | .str s => .obj [(js "type", .str (js "string")), (js "length", .num (JsNumber.ofNat s.length))]
  | .arr items => .arr (shapeItems items)
  | .obj fields => .obj (shapeFields fields)
  | .null => typeOnly "null"
  | .bool _ => typeOnly "boolean"
  | .num _ => typeOnly "number"
  | .undef => typeOnly "undefined"

def shapeItems : List (JsValue ν) → List (JsValue ν)
  | [] => []
  | v :: vs => shapeOnly v :: shapeItems vs

def shapeFields : Fields ν → Fields ν
  | [] => []
  | (k, v) :: fs => (k, shapeOnly v) :: shapeFields fs

end

theorem shapeOnly_ne_str (v : JsValue ν) (s : JsString) : shapeOnly v ≠ .str s := by
  cases v <;> simp [shapeOnly, typeOnly]

/-- A leaf: neither an array nor an object. -/
def IsLeaf : JsValue ν → Prop
  | .arr _ | .obj _ => False
  | _ => True

/-- The shape of a leaf has a text in it, which no shape of an object has. -/
theorem shapeOnly_leaf {v : JsValue ν} (h : IsLeaf v) :
    ∃ name rest, shapeOnly v = .obj ((js "type", .str name) :: rest) := by
  cases v <;> first | exact h.elim | exact ⟨_, _, rfl⟩

theorem not_isLeaf_of_shapeOnly {v : JsValue ν} {fields : Fields ν}
    (h : shapeOnly v = .obj (shapeFields fields)) : ¬IsLeaf v := by
  intro hv
  obtain ⟨name, rest, hleaf⟩ := shapeOnly_leaf hv
  rw [hleaf, JsValue.obj.injEq] at h
  cases fields with
  | nil => cases h
  | cons kv fs =>
    obtain ⟨k, w⟩ := kv
    rw [shapeFields, List.cons.injEq, Prod.mk.injEq] at h
    exact shapeOnly_ne_str w name h.1.2.symm

theorem shapeOnly_eq_arr {v : JsValue ν} {items : List (JsValue ν)}
    (h : shapeOnly (.arr items) = shapeOnly v) :
    ∃ items', v = .arr items' ∧ shapeItems items = shapeItems items' := by
  cases v <;> simp only [shapeOnly, typeOnly, reduceCtorEq] at h
  exact ⟨_, rfl, JsValue.arr.inj h⟩

theorem shapeOnly_eq_obj {v : JsValue ν} {fields : Fields ν}
    (h : shapeOnly (.obj fields) = shapeOnly v) :
    ∃ fields', v = .obj fields' ∧ shapeFields fields = shapeFields fields' := by
  have hshape : shapeOnly v = .obj (shapeFields fields) := h.symm
  have hv : ¬IsLeaf v := not_isLeaf_of_shapeOnly hshape
  cases v with
  | obj fields' => exact ⟨fields', rfl, JsValue.obj.inj h⟩
  | arr items => simp only [shapeOnly, reduceCtorEq] at h
  | _ => exact (hv trivial).elim

section Collect

variable {shortHash : JsString → JsString} {maxDepth : ℕ}

theorem collect_leaf {v : JsValue ν} (h : IsLeaf v) (path : Path) :
    (collectStringEntries shortHash maxDepth path v).isSome = true := by
  cases v <;> first | exact h.elim | rfl

omit [JsNumber ν] in
/-- Both parts are collected. -/
theorem isSome_both {α β γ : Type} (x : Option α) (y : Option β) (f : α → β → γ) :
    (x.bind fun a => y.bind fun b => some (f a b)).isSome = (x.isSome && y.isSome) := by
  cases x <;> cases y <;> rfl

variable (shortHash maxDepth) in
/-- Any value of its shape is collected when the value is, at paths of one length. -/
def FitsByShape (v : JsValue ν) : Prop :=
  ∀ w, shapeOnly v = shapeOnly w → ∀ path path' : Path, path.length = path'.length →
    (collectStringEntries shortHash maxDepth path v).isSome =
      (collectStringEntries shortHash maxDepth path' w).isSome

theorem isSome_collectItems_of_shape {items items' : List (JsValue ν)}
    (ih : ∀ v ∈ items, FitsByShape shortHash maxDepth v)
    (h : shapeItems items = shapeItems items') {path path' : Path}
    (hlength : path.length = path'.length) (n : ℕ) :
    (collectItems shortHash maxDepth path n items).isSome =
      (collectItems shortHash maxDepth path' n items').isSome := by
  induction items generalizing items' n with
  | nil =>
    cases items' with
    | nil => rfl
    | cons w ws => cases h
  | cons v vs ihs =>
    cases items' with
    | nil => cases h
    | cons w ws =>
      obtain ⟨hv, hvs⟩ := List.cons.inj h
      simp only [collectItems, Option.pure_def, Option.bind_eq_bind, isSome_both]
      rw [ih v (by simp) w hv _ (path' ++ [.index n]) (by simp [hlength]),
        ihs (fun u hu => ih u (List.mem_cons_of_mem _ hu)) hvs]

theorem isSome_collectFields_of_shape {fields fields' : Fields ν}
    (ih : ∀ kv ∈ fields, FitsByShape shortHash maxDepth kv.2)
    (h : shapeFields fields = shapeFields fields') {path path' : Path}
    (hlength : path.length = path'.length) :
    (collectFields shortHash maxDepth path fields).isSome =
      (collectFields shortHash maxDepth path' fields').isSome := by
  induction fields generalizing fields' with
  | nil =>
    cases fields' with
    | nil => rfl
    | cons kw fs => cases h
  | cons kv fs ihs =>
    obtain ⟨k, v⟩ := kv
    cases fields' with
    | nil => cases h
    | cons kw fs' =>
      obtain ⟨k', w⟩ := kw
      simp only [shapeFields, List.cons.injEq, Prod.mk.injEq] at h
      obtain ⟨⟨rfl, hv⟩, hfs⟩ := h
      simp only [collectFields, Option.pure_def, Option.bind_eq_bind, isSome_both]
      rw [ih (k, v) (by simp) w hv _ (path' ++ [.key k]) (by simp [hlength]),
        ihs (fun u hu => ih u (List.mem_cons_of_mem _ hu)) hfs]

theorem isLeaf_of_shapeOnly {v w : JsValue ν} (hv : IsLeaf v) (h : shapeOnly v = shapeOnly w) :
    IsLeaf w := by
  cases w with
  | arr items =>
    obtain ⟨items', rfl, -⟩ := shapeOnly_eq_arr h.symm
    exact hv
  | obj fields =>
    obtain ⟨fields', rfl, -⟩ := shapeOnly_eq_obj h.symm
    exact hv
  | _ => trivial

/-- A value is too deep or not by its shape alone. -/
theorem fitsByShape (v : JsValue ν) : FitsByShape shortHash maxDepth v := by
  induction v using JsValue.induct with
  | arr items ih =>
    intro w h path path' hlength
    obtain ⟨items', rfl, hitems⟩ := shapeOnly_eq_arr h
    simp only [collectStringEntries, hlength]
    split_ifs
    · rfl
    · exact isSome_collectItems_of_shape ih hitems hlength 0
  | obj fields ih =>
    intro w h path path' hlength
    obtain ⟨fields', rfl, hfields⟩ := shapeOnly_eq_obj h
    simp only [collectStringEntries, hlength]
    split_ifs
    · rfl
    · exact isSome_collectFields_of_shape ih hfields hlength
  | _ =>
    intro w h path path' _
    have hw : IsLeaf w := isLeaf_of_shapeOnly (by trivial) h
    exact (collect_leaf (by trivial) path).trans (collect_leaf hw path').symm

end Collect

/-! ### The event -/

/-- What is new in every record: its id, the request's correlation id and the time. -/
structure Stamp where
  id : JsString
  correlationId : JsString
  timestamp : JsString

def Count.value : Count → JsValue ν
  | .number n => .num (JsNumber.ofNat n)
  | .text s => .str s

/-- Counts under names. -/
def countsObject (counts : Counts) : JsValue ν := .obj (counts.map fun kc => (kc.1, kc.2.value))

/-- Two members of a summary, when anything was removed. -/
def removedFields (count byType : String) (t : Tally) : Fields ν :=
  if t.count > 0 then
    [(js count, .num (JsNumber.ofNat t.count)), (js byType, countsObject t.byType)]
  else []

/-- `summarize`. -/
def summarize (detections : List Detection) (actions : List JsString) (p : Precision) :
    JsValue ν :=
  .obj ([(js "detectionCount", .num (JsNumber.ofNat detections.length)),
      (js "byType", countsObject (countNames (detections.map Detection.type))),
      (js "byAction", countsObject (countNames actions))] ++
    removedFields "suppressedCount" "suppressedByType" p.suppressed ++
    removedFields "droppedCount" "droppedByType" p.dropped)

def kindText : Kind → String
  | .value => "value"
  | .number => "number"
  | .key => "key"

/-- What the event says of a detection; `number` is a confidence as a number. -/
def detectionRow (number : ℚ → ν) (enforced : Bool) (d : Detection) (action : JsString) :
    JsValue ν :=
  .obj
    [(js "type", .str d.type),
      (js "ruleId", .str d.ruleId),
      (js "path", .str d.pathText),
      (js "kind", .str (js (kindText d.kind))),
      (js "confidence", (d.confidence.map fun q => JsValue.num (number q)).getD .undef),
      (js "action", .str action),
      (js "enforced", .bool enforced)]

/-- The members of an identity that the frozen schema has. -/
def auditIdentity (identity : Option (Fields ν)) : JsValue ν :=
  match identity with
  | none => .null
  | some fields => .obj (["id", "type", "subjectHash", "issuerHash", "provider"].map fun k =>
      (js k, (JsValue.obj fields).get (js k)))

/-- What the event takes from the request's context. -/
structure AuditContext (ν : Type) where
  protocol : JsString
  operation : JsString
  identity : Option (Fields ν)
  profile : JsValue ν

/-- `value ?? null`. -/
def orNull (v : JsValue ν) : JsValue ν :=
  match v with
  | .undef => .null
  | v => v

/-- `buildAuditEvent`. -/
def buildAuditEvent (shortHash : JsString → JsString) (number : ℚ → ν) (ctx : AuditContext ν)
    (mode : JsString) (enforced blocked : Bool) (payload : JsValue ν) (actions : List JsString)
    (p : Precision) (stamp : Stamp) : Fields ν :=
  [(js "schemaVersion", .str (js "1")),
    (js "id", .str stamp.id),
    (js "correlationId", .str stamp.correlationId),
    (js "timestamp", .str stamp.timestamp),
    (js "protocol", .str ctx.protocol),
    (js "operation", .str ctx.operation),
    (js "identity", auditIdentity ctx.identity),
    (js "profile", orNull ctx.profile),
    (js "mode", .str mode),
    (js "enforced", .bool enforced),
    (js "blocked", .bool blocked),
    (js "payloadShapeHash", .str (shortHash ((Json.stringify (shapeOnly payload)).getD []))),
    (js "detections", .arr (List.zipWith (detectionRow number enforced) p.detections actions)),
    (js "summary", summarize p.detections actions p)]

/-! ### Findings that the log cannot tell apart -/

/-- What becomes of a finding. -/
inductive Verdict where
  | suppressed
  | dropped
  | decided (action : JsString)
deriving DecidableEq

section Verdicts

variable (minConfidence : ℚ) (allowlist : Option Allowlist) (decide : Detection → JsString)

def verdict (d : Detection) : Verdict :=
  if !isHardBlock d.type && isAllowlisted d allowlist then .suppressed
  else if !isHardBlock d.type && isLowConfidence minConfidence d then .dropped
  else .decided (decide d)

/-- The findings have the same type, rule, path, kind and confidence. -/
structure SameFinding (d d' : Detection) : Prop where
  type : d.type = d'.type
  ruleId : d.ruleId = d'.ruleId
  pathText : d.pathText = d'.pathText
  kind : d.kind = d'.kind
  confidence : d.confidence = d'.confidence

/-- The findings are the same and so is what becomes of them. -/
def SameTreatment (d d' : Detection) : Prop :=
  SameFinding d d' ∧ verdict minConfidence allowlist decide d = verdict minConfidence allowlist decide d'

/-- The findings are the same and the same action is decided. -/
def SameDecision (d d' : Detection) : Prop := SameFinding d d' ∧ decide d = decide d'

/-- The dials left the same findings and removed the same. -/
structure SameTrim (p p' : Precision) : Prop where
  kept : List.Forall₂ (SameDecision decide) p.detections p'.detections
  suppressed : p.suppressed = p'.suppressed
  dropped : p.dropped = p'.dropped

variable {minConfidence allowlist decide}

omit [JsNumber ν] in
theorem map_eq_of_forall₂ {α β γ : Type} {R : α → β → Prop} {f : α → γ} {g : β → γ}
    (hR : ∀ a b, R a b → f a = g b) {l : List α} {l' : List β} (h : List.Forall₂ R l l') :
    l.map f = l'.map g := by
  induction h with
  | nil => rfl
  | cons hab _ ih => rw [List.map_cons, List.map_cons, hR _ _ hab, ih]

/-- A verdict of the engine is the engine's decision. -/
theorem decide_of_verdict {d : Detection} {a : JsString}
    (h : verdict minConfidence allowlist decide d = .decided a) : decide d = a := by
  rw [verdict] at h
  split_ifs at h
  exact Verdict.decided.inj h

variable (decide) in
/-- One step of the dials goes by the verdict. -/
theorem step_eq_verdict (p : Precision) (d : Detection) :
    p.step minConfidence allowlist d =
      match verdict minConfidence allowlist decide d with
      | .suppressed => { p with suppressed := p.suppressed.add d.type }
      | .dropped => { p with dropped := p.dropped.add d.type }
      | .decided _ => { p with detections := p.detections ++ [d] } := by
  rw [Precision.step, verdict]
  split_ifs <;> rfl

theorem SameTrim.step {p p' : Precision} (h : SameTrim decide p p') {d d' : Detection}
    (hd : SameTreatment minConfidence allowlist decide d d') :
    SameTrim decide (p.step minConfidence allowlist d) (p'.step minConfidence allowlist d') := by
  obtain ⟨hfinding, hverdict⟩ := hd
  rw [step_eq_verdict decide, step_eq_verdict decide, ← hverdict]
  rcases hd : verdict minConfidence allowlist decide d with _ | _ | a
  · exact { h with suppressed := by rw [h.suppressed, hfinding.type] }
  · exact { h with dropped := by rw [h.dropped, hfinding.type] }
  · have ha : decide d = a := decide_of_verdict hd
    have ha' : decide d' = a := decide_of_verdict (hverdict ▸ hd)
    exact { h with
      kept := List.rel_append h.kept (.cons ⟨hfinding, ha.trans ha'.symm⟩ .nil) }

theorem SameTrim.foldl {ds ds' : List Detection}
    (hds : List.Forall₂ (SameTreatment minConfidence allowlist decide) ds ds') {p p' : Precision}
    (h : SameTrim decide p p') :
    SameTrim decide (ds.foldl (Precision.step minConfidence allowlist) p)
      (ds'.foldl (Precision.step minConfidence allowlist) p') := by
  induction hds generalizing p p' with
  | nil => exact h
  | cons hd _ ih => exact ih (h.step hd)

/-- Detections treated alike leave the dials alike. -/
theorem sameTrim_applyPrecisionControls {ds ds' : List Detection}
    (hds : List.Forall₂ (SameTreatment minConfidence allowlist decide) ds ds') :
    SameTrim decide (applyPrecisionControls ds minConfidence allowlist)
      (applyPrecisionControls ds' minConfidence allowlist) :=
  SameTrim.foldl hds ⟨.nil, rfl, rfl⟩

variable {p p' : Precision}

theorem SameTrim.actions_eq (h : SameTrim decide p p') :
    p.detections.map decide = p'.detections.map decide :=
  map_eq_of_forall₂ (fun _ _ hd => hd.2) h.kept

omit [JsNumber ν] in
theorem detectionRow_congr (number : ℚ → ν) (enforced : Bool) {d d' : Detection}
    (h : SameFinding d d') :
    (detectionRow number enforced d : JsString → JsValue ν) = detectionRow number enforced d' := by
  funext action
  rw [detectionRow, detectionRow, h.type, h.ruleId, h.pathText, h.kind, h.confidence]

omit [JsNumber ν] in
theorem SameTrim.rows_eq (h : SameTrim decide p p') (number : ℚ → ν) (enforced : Bool) :
    List.zipWith (detectionRow number enforced) p.detections (p.detections.map decide) =
      List.zipWith (detectionRow number enforced) p'.detections (p'.detections.map decide) := by
  rw [List.zipWith_map_right, List.zipWith_map_right, List.zipWith_self, List.zipWith_self]
  exact map_eq_of_forall₂ (fun d d' hd => by rw [detectionRow_congr number enforced hd.1, hd.2])
    h.kept

theorem SameTrim.summarize_eq (h : SameTrim decide p p') :
    (summarize p.detections (p.detections.map decide) p : JsValue ν) =
      summarize p'.detections (p'.detections.map decide) p' := by
  have htypes : p.detections.map Detection.type = p'.detections.map Detection.type :=
    map_eq_of_forall₂ (fun _ _ hd => hd.1.type) h.kept
  rw [summarize, summarize, htypes, h.actions_eq, h.kept.length_eq, h.suppressed, h.dropped]

/-- Under one stamp, payloads of one shape that the dials leave alike have one event. -/
theorem buildAuditEvent_congr (shortHash : JsString → JsString) (number : ℚ → ν)
    (ctx : AuditContext ν) (mode : JsString) (enforced blocked : Bool) {payload payload' : JsValue ν}
    (hshape : shapeOnly payload = shapeOnly payload') (h : SameTrim decide p p') (stamp : Stamp) :
    buildAuditEvent shortHash number ctx mode enforced blocked payload (p.detections.map decide) p
        stamp =
      buildAuditEvent shortHash number ctx mode enforced blocked payload'
        (p'.detections.map decide) p' stamp := by
  rw [buildAuditEvent, buildAuditEvent, hshape, h.rows_eq, h.summarize_eq]

end Verdicts

end Haechi.Core
