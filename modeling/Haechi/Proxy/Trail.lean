import Haechi.Audit.Chain
import Haechi.Core.AuditEvent
import Haechi.Proxy.Handler

/-! The audit trail of a request: the events that the gate, the model list, the three
ways of meeting a streaming request, the two protections and the token vault hand to
the audit sink, each with all its members. Proved: two requests whose bodies have one
shape, whose findings are the same and which the gateway decides alike leave the same
records, except that a denied request names its model and that a restored response
says how many tokens were restored. -/

namespace Haechi.Proxy.Trail

open Text Haechi.Filter Haechi.Core Haechi.Audit Act

variable {ν : Type} [JsNumber ν]

/-! ### What the trail depends on -/

/-- The route of a request, with the texts that the events take from it. -/
structure Route extends RouteContext where
  protocol : JsString
  routeId : JsString
  path : JsString
  operation : JsString

/-- What the profile of an identity gives: a model list, a rate and a policy engine. -/
structure Grant (ν : Type) where
  profile : JsValue ν
  modelAllowlist : Option (List JsString)
  requestsPerMinute : Option ν
  decide : Traffic → Detection → JsString

/-- The runtime. -/
structure Gateway (ν : Type) where
  config : Config
  /-- `policy.mode ?? mode`. -/
  mode : JsString
  responseMode : JsString
  streamMode : JsString
  shortHash : JsString → JsString
  /-- A confidence as a number. -/
  number : ℚ → ν
  maxNestingDepth : ℕ
  /-- The filter engine, in the context of a direction. -/
  detect : Traffic → List Entry → Except Thrown (List Detection)
  minConfidence : ℚ
  allowlist : List AllowEntry
  revealPolicy : JsString
  /-- `policyProfiles.resolve`. -/
  resolve : Option (Fields ν) → Grant ν

/-- What the identity provider answers. -/
inductive Credentials (ν : Type) where
  | identity (fields : Fields ν)
  | refused (hasBearer : Bool)
  | failed

/-- What the upstream answers, and how an inspected stream ends: was it blocked, and
the type and the action of each detection in it. -/
structure Answer where
  tooLarge : Except Thrown Bool
  compressed : Bool
  isJson : Bool
  text : JsString
  inspected : Except Thrown (Bool × List (JsString × JsString))

/-- A request on its way: what it brings and what is met while it is handled. -/
structure Visit (ν : Type) where
  /-- `none` where no provider is configured. -/
  credentials : Option (Credentials ν)
  allowed : Except Thrown Bool
  body : Except Thrown JsString
  correlationId : JsString
  /-- The id and the time of the n-th record, if the sink takes it. -/
  sink : ℕ → Except Thrown (JsString × JsString)
  /-- The payload of a direction is rewritten. -/
  rewritten : Traffic → Except Thrown Unit
  answer : Except Thrown Answer
  /-- The tokens that the vault gave for the request. -/
  issuedTokens : List JsString
  vaultRead : Except Thrown Unit
  /-- The vault's record of the token is there, is valid and is decrypted. -/
  restores : JsString → Bool

/-! ### The events -/

section Events

variable (g : Gateway ν) (route : Route)

def identityValue (identity : Option (Fields ν)) : JsValue ν :=
  match identity with
  | none => .null
  | some fields => .obj fields

/-- `NO_ENFORCE_MODES`. -/
def isEnforced (mode : JsString) : Bool := mode ∉ [js "dry-run", js "report-only"]

def pathHash : JsValue ν := if route.path = [] then .null else .str (g.shortHash route.path)

/-- The summary of a single decision. -/
def decisionSummary (decision : String) : JsValue ν :=
  .obj
    [(js "detectionCount", .num (JsNumber.ofNat 0)),
      (js "byType", .obj []),
      (js "byAction", .obj [(js decision, .num (JsNumber.ofNat 1))])]

/-- The event of `recordProxyDecision`. -/
def proxyEvent (decision : String) (reason : JsString) (enforced blocked : Bool)
    (identity : Option (Fields ν)) (profile : JsValue ν) (stamp : Stamp) : Fields ν :=
  [(js "id", .str stamp.id),
    (js "correlationId", .str stamp.correlationId),
    (js "timestamp", .str stamp.timestamp),
    (js "protocol", .str route.protocol),
    (js "operation", .str (js "proxy:" ++ route.protocol ++ 58 :: route.routeId)),
    (js "mode", .str g.mode),
    (js "identity", identityValue identity),
    (js "profile", orNull profile),
    (js "enforced", .bool enforced),
    (js "blocked", .bool blocked),
    (js "decision", .str (js decision)),
    (js "reason", .str reason),
    (js "routeId", .str route.routeId),
    (js "pathHash", pathHash g route),
    (js "summary", decisionSummary decision)]

/-- What the stream protector counted. -/
def streamSummary (tallies : List (JsString × JsString)) : JsValue ν :=
  .obj
    [(js "detectionCount", .num (JsNumber.ofNat tallies.length)),
      (js "byType", countsObject (countNames (tallies.map Prod.fst))),
      (js "byAction", countsObject (countNames (tallies.map Prod.snd)))]

/-- The event of `recordStreamDecision`. -/
def streamEvent (blocked : Bool) (tallies : List (JsString × JsString))
    (identity : Option (Fields ν)) (profile : JsValue ν) (stamp : Stamp) : Fields ν :=
  [(js "id", .str stamp.id),
    (js "correlationId", .str stamp.correlationId),
    (js "timestamp", .str stamp.timestamp),
    (js "protocol", .str route.protocol),
    (js "operation", .str (js "response-stream:" ++ route.operation)),
    (js "mode", .str g.streamMode),
    (js "identity", identityValue identity),
    (js "profile", orNull profile),
    (js "enforced", .bool (isEnforced g.streamMode)),
    (js "blocked", .bool blocked),
    (js "decision", .str (js (if blocked then "stream_blocked" else "stream_inspected"))),
    (js "reason", .str (js (if blocked then "stream_policy_block" else "stream_inspected"))),
    (js "routeId", .str route.routeId),
    (js "pathHash", pathHash g route),
    (js "summary", streamSummary tallies)]

/-- The event of `recordVaultEvent` for `detokenize`. -/
def detokenizeEvent (restored skipped : ℕ) (stamp : Stamp) : Fields ν :=
  [(js "id", .str stamp.id),
    (js "timestamp", .str stamp.timestamp),
    (js "protocol", .str (js "token-vault")),
    (js "operation", .str (js "token-vault:detokenize")),
    (js "identity", .null),
    (js "mode", .str (js "n/a")),
    (js "enforced", .bool true),
    (js "blocked", .bool false),
    (js "decision", .str (js "detokenize")),
    (js "reason", if skipped > 0 then .str (natText skipped ++ js " tokens not restored") else .null),
    (js "token", .null),
    (js "tokenType", .null),
    (js "count", .num (JsNumber.ofNat restored)),
    (js "revealPolicy", .str g.revealPolicy),
    (js "summary", decisionSummary "detokenize")]

end Events

/-! ### Handling a request -/

abbrev M (ν α : Type) := Act Thrown (Fields ν) α

section Serve

variable (g : Gateway ν) (route : Route) (v : Visit ν)

/-- `auditSink.record`. -/
def record (event : Stamp → Fields ν) : M ν Unit := fun events =>
  match v.sink events.length with
  | .ok (id, timestamp) => (.ok (), events ++ [event ⟨id, v.correlationId, timestamp⟩])
  | .error e => (.error e, events)

/-- `recordAuthDenied`. -/
def recordAuthDenied (reason : String) : M ν Unit :=
  record v (proxyEvent g route "auth_denied" (js reason) true true none .null)

/-- Who is served: an identity, and what its profile grants. -/
structure Caller (ν : Type) where
  identity : Option (Fields ν)
  grant : Grant ν

/-- The second part of `authorizeRequest`; `none` is a denial. -/
def checkRate (caller : Caller ν) : M ν (Option (Caller ν)) :=
  match caller.grant.requestsPerMinute.filter fun n => (JsValue.num n).truthy with
  | none => Pure.pure (some caller)
  | some rate => do
    let allowed ← await v.allowed
    if allowed then return some caller
    else
      record v (proxyEvent g route "rate_limited" (js "rate:" ++ JsNumber.toText rate) true true
        caller.identity caller.grant.profile)
      return none

/-- `authorizeRequest`. -/
def authorizeRequest : M ν (Option (Caller ν)) :=
  match v.credentials with
  | some .failed => do
    recordAuthDenied g route v "provider_error"
    return none
  | some (.refused hasBearer) => do
    recordAuthDenied g route v (if hasBearer then "invalid_token" else "no_token")
    return none
  | some (.identity fields) => checkRate g route v ⟨some fields, g.resolve (some fields)⟩
  | none => checkRate g route v ⟨none, g.resolve none⟩

variable (caller : Caller ν)

/-- What `protectJson` is called with in a direction. -/
def auditContext : Traffic → AuditContext ν
  | .request =>
    ⟨route.protocol, js "request:" ++ route.operation, caller.identity, caller.grant.profile⟩
  | .response =>
    ⟨route.protocol, js "response:" ++ route.operation, caller.identity, caller.grant.profile⟩

def modeOf : Traffic → JsString
  | .request => g.mode
  | .response => g.responseMode

def isBlocked (t : Traffic) (p : Precision) : Bool :=
  isEnforced (modeOf g t) && (p.detections.map (caller.grant.decide t)).contains (js "block")

/-- The audit event of a protected payload. -/
def protectEvent (t : Traffic) (payload : JsValue ν) (p : Precision) (stamp : Stamp) : Fields ν :=
  buildAuditEvent g.shortHash g.number (auditContext route caller t) (modeOf g t)
    (isEnforced (modeOf g t)) (isBlocked g caller t p) payload
    (p.detections.map (caller.grant.decide t)) p stamp

/-- `protectJson`: is the payload blocked. -/
def protectJson (t : Traffic) (payload : JsValue ν) : M ν Bool := do
  let entries ← await
    ((collectStringEntries g.shortHash g.maxNestingDepth [] payload).elim
      (.error (proxyError 413 "haechi_request_too_deeply_nested")) .ok)
  let found ← await (g.detect t entries)
  let p := applyPrecisionControls found g.minConfidence (compileAllowlist g.allowlist)
  await (if isBlocked g caller t p then .ok () else v.rewritten t)
  record v (protectEvent g route caller t payload p)
  return isBlocked g caller t p

/-- `unprotectedResponseDecision`. -/
def recordUnprotected (reason : String) (hardDeny : Bool) : M ν Unit :=
  let allowed := g.config.responseProtection.failureAllowed && !hardDeny
  record v (proxyEvent g route
    (if allowed then "response_unprotected_allowed" else "response_unprotected_blocked")
    (js reason) (!allowed) (!allowed) none .null)

/-- `tokenVault.detokenize`. -/
def detokenize (tokens : List JsString) : M ν Unit := do
  await v.vaultRead
  record v (detokenizeEvent g (tokens.countP v.restores) (tokens.countP fun t => !v.restores t))

/-- `result.issuedTokens ?? []`. -/
def requestTokens : List JsString := if route.protectRequest then v.issuedTokens else []

/-- The response is JSON and is protected. -/
def protectResponse (json : JsValue ν) : M ν Unit := do
  let blocked ← protectJson g route v caller .response json
  if blocked || !g.config.detokenizeResponses || (requestTokens route v).isEmpty then return
  else detokenize g v (requestTokens route v)

/-- `maybeProtectResponse`. -/
def maybeProtectResponse (a : Answer) : M ν Unit :=
  if !g.config.responseProtection.enabled || !route.protectResponse then return
  else do
    let tooLarge ← await a.tooLarge
    if tooLarge then recordUnprotected g route v "response_body_too_large" true
    else if a.compressed && !g.config.responseProtection.allowCompressed then
      recordUnprotected g route v "compressed_response" false
    else if !a.isJson then recordUnprotected g route v "non_json_response" false
    else
      match (Json.parse a.text : Option (JsValue ν)) with
      | none => recordUnprotected g route v "invalid_json_response" false
      | some json => protectResponse g route v caller json

/-- The request's own protection. -/
def protectRequest (json : JsValue ν) : M ν Bool :=
  if route.protectRequest then protectJson g route v caller .request json else return false

/-- `handleInspectedStream`. -/
def handleInspectedStream (json : JsValue ν) : M ν Unit :=
  if !route.streaming then return
  else do
    let blocked ← protectRequest g route v caller json
    if blocked then return
    else
      let a ← await v.answer
      let result ← await a.inspected
      record v (streamEvent g route result.1 result.2 caller.identity caller.grant.profile)

/-- A streaming request. -/
def serveStreaming (json : JsValue ν) : M ν Unit :=
  match g.config.requestMode with
  | .inspect => handleInspectedStream g route v caller json
  | .passThrough =>
    record v (proxyEvent g route "streaming_request_pass_through"
      (js "streaming_request_pass_through") false false caller.identity caller.grant.profile)
  | .block => return

/-- A request with one response. -/
def serveBuffered (json : JsValue ν) : M ν Unit := do
  let blocked ← protectRequest g route v caller json
  if blocked then return
  else
    let a ← await v.answer
    maybeProtectResponse g route v caller a

/-- The text of the body's `model`. -/
def modelName (json : JsValue ν) : JsString :=
  match json.get (js "model") with
  | .str model => model
  | _ => []

/-- The body of a request that is authorized. -/
def requestJson : Except Thrown (JsValue ν) := v.body.bind parseJsonBody

/-- A request that is authorized. -/
def serveAuthorized : M ν Unit := do
  let json ← await (requestJson v)
  if modelDenied caller.grant.modelAllowlist json then
    record v (proxyEvent g route "model_not_allowed" (js "model:" ++ modelName json) true true
      caller.identity caller.grant.profile)
  else if isStreamingRequest json route.toRouteContext then serveStreaming g route v caller json
  else serveBuffered g route v caller json

/-- A request for which there is no local route. -/
def serve : M ν Unit := do
  match ← authorizeRequest g route v with
  | none => return
  | some caller => serveAuthorized g route v caller

/-- The events handed to the audit sink while the request is handled. -/
def trail : List (Fields ν) := (serve g route v []).2

end Serve

/-! ### Records that cannot be told apart -/

section Comparable

/-- What is new in every record. -/
def stampKeys : List JsString := ["id", "correlationId", "timestamp", "auditIntegrity"].map js

/-- The members that may tell more, by the decision of the event. -/
def withheldKeys : Option (JsValue ν) → List JsString
  | some (.str decision) =>
    if decision = js "model_not_allowed" then [js "reason"]
    else if decision = js "detokenize" then [js "count", js "reason"]
    else []
  | _ => []

def openKeys (fields : Fields ν) : List JsString :=
  stampKeys ++ withheldKeys (JsValue.field? (js "decision") fields)

/-- A record without what is new in it and without what its decision lets it tell. -/
def comparable (fields : Fields ν) : Fields ν := fields.filter fun kv => kv.1 ∉ openKeys fields

/-- The record of an event, wherever in the chain it comes. -/
def recordOf (sha256 : Digest) (previous : Option (Integrity ν)) (event : Fields ν) : Fields ν :=
  buildIntegrityRecord sha256 previous (sanitizeFields event)

section Filter

omit [JsNumber ν]

theorem filter_setField {k : JsString} {keys : List JsString} (hk : k ∈ keys) (v : JsValue ν)
    (fields : Fields ν) :
    (JsValue.setField k v fields).filter (fun kv => kv.1 ∉ keys) =
      fields.filter fun kv => kv.1 ∉ keys := by
  rw [JsValue.setField]
  split_ifs with hmem
  · clear hmem
    induction fields with
    | nil => rfl
    | cons kv fs ih =>
      rw [List.map_cons, List.filter_cons, List.filter_cons, ih]
      by_cases hkv : kv.1 = k
      · simp [hkv, hk]
      · rw [if_neg hkv]
  · simp [hk]

theorem comparable_setField {k : JsString} (hk : k ∈ stampKeys) (hdecision : js "decision" ≠ k)
    (v : JsValue ν) (fields : Fields ν) :
    comparable (JsValue.setField k v fields) = comparable fields := by
  have hopen : openKeys (JsValue.setField k v fields) = openKeys fields := by
    rw [openKeys, JsValue.field?_setField_of_ne hdecision, openKeys]
  have hmem : k ∈ openKeys fields := List.mem_append_left _ hk
  rw [comparable, hopen, filter_setField hmem, comparable]

theorem filter_sanitizeFields (keys : List JsString) (fields : Fields ν) :
    (sanitizeFields fields).filter (fun kv => kv.1 ∉ keys) =
      sanitizeFields (fields.filter fun kv => kv.1 ∉ keys) := by
  induction fields with
  | nil => rfl
  | cons kv fs ih =>
    obtain ⟨k, v⟩ := kv
    by_cases hk : k ∈ keys <;> by_cases hforbidden : k ∈ forbiddenKeys <;>
      simpa [sanitizeFields, hk, hforbidden] using ih

theorem withheldKeys_sanitize (decision : Option (JsValue ν)) :
    withheldKeys (decision.map sanitizeAudit) = withheldKeys decision := by
  rcases decision with _ | v
  · rfl
  · cases v <;> rfl

theorem openKeys_sanitizeFields (fields : Fields ν) :
    openKeys (sanitizeFields fields) = openKeys fields := by
  rw [openKeys, field?_sanitizeFields (by decide), withheldKeys_sanitize, openKeys]

/-- Members are sanitized one by one. -/
theorem comparable_sanitizeFields (fields : Fields ν) :
    comparable (sanitizeFields fields) = sanitizeFields (comparable fields) := by
  rw [comparable, openKeys_sanitizeFields, filter_sanitizeFields, comparable]

theorem field?_drop {k : JsString} {dropped : Fields ν} (h : k ∉ dropped.map Prod.fst)
    (before rest : Fields ν) :
    JsValue.field? k (before ++ (dropped ++ rest)) = JsValue.field? k (before ++ rest) := by
  induction before with
  | nil =>
    induction dropped with
    | nil => rfl
    | cons kv fs ih =>
      obtain ⟨k', v⟩ := kv
      rw [List.map_cons, List.mem_cons, not_or] at h
      rw [List.nil_append, List.cons_append, JsValue.field?, if_neg (Ne.symm h.1)]
      exact ih h.2
  | cons kv fs ih =>
    obtain ⟨k', v⟩ := kv
    rw [List.cons_append, List.cons_append, JsValue.field?, JsValue.field?, ih]

/-- Members that are new in every record do not count. -/
theorem comparable_stamped {stamps : Fields ν} (h : ∀ kv ∈ stamps, kv.1 ∈ stampKeys)
    (before rest : Fields ν) :
    comparable (before ++ (stamps ++ rest)) = comparable (before ++ rest) := by
  have hdecision : js "decision" ∉ stamps.map Prod.fst := by
    intro hmem
    obtain ⟨kv, hkv, hkey⟩ := List.mem_map.mp hmem
    exact absurd (hkey ▸ h kv hkv) (by decide)
  have hopen : openKeys (before ++ (stamps ++ rest)) = openKeys (before ++ rest) := by
    rw [openKeys, field?_drop hdecision, openKeys]
  have hstamps : stamps.filter (fun kv => kv.1 ∉ openKeys (before ++ rest)) = [] := by
    rw [List.filter_eq_nil_iff]
    intro kv hkv
    have hmem : kv.1 ∈ openKeys (before ++ rest) := List.mem_append_left _ (h kv hkv)
    simp [hmem]
  rw [comparable, hopen, List.filter_append, List.filter_append, hstamps, List.nil_append,
    ← List.filter_append, comparable]

end Filter

theorem integrity_mem_stampKeys : js "auditIntegrity" ∈ stampKeys := by decide

/-- Nor does the place of a record in the chain. -/
theorem comparable_recordOf (sha256 : Digest) (previous : Option (Integrity ν))
    (event : Fields ν) :
    comparable (recordOf sha256 previous event) = sanitizeFields (comparable event) := by
  have hne : js "decision" ≠ js "auditIntegrity" := by decide
  rw [recordOf, buildIntegrityRecord, comparable_setField integrity_mem_stampKeys hne,
    unsignedRecord, comparable_setField integrity_mem_stampKeys hne, comparable_sanitizeFields]

/-- The members that a stamp gives. -/
def stampFields (stamp : Stamp) : Fields ν :=
  [(js "id", .str stamp.id),
    (js "correlationId", .str stamp.correlationId),
    (js "timestamp", .str stamp.timestamp)]

omit [JsNumber ν] in
theorem comparable_stampFields (s t : Stamp) (before rest : Fields ν) :
    comparable (before ++ (stampFields s ++ rest)) =
      comparable (before ++ (stampFields t ++ rest)) := by
  have hkeys : ∀ s : Stamp, ∀ kv ∈ (stampFields s : Fields ν), kv.1 ∈ stampKeys := by
    intro s kv hkv
    have hmem : kv.1 ∈ (stampFields s : Fields ν).map Prod.fst := List.mem_map_of_mem hkv
    exact List.mem_append_left [js "auditIntegrity"] hmem
  rw [comparable_stamped (hkeys s), comparable_stamped (hkeys t)]

variable {g : Gateway ν} {route : Route}

theorem comparable_proxyEvent (decision : String) (reason : JsString) (enforced blocked : Bool)
    (identity : Option (Fields ν)) (profile : JsValue ν) (s t : Stamp) :
    comparable (proxyEvent g route decision reason enforced blocked identity profile s) =
      comparable (proxyEvent g route decision reason enforced blocked identity profile t) :=
  comparable_stampFields s t [] _

theorem comparable_streamEvent (blocked : Bool) (tallies : List (JsString × JsString))
    (identity : Option (Fields ν)) (profile : JsValue ν) (s t : Stamp) :
    comparable (streamEvent g route blocked tallies identity profile s) =
      comparable (streamEvent g route blocked tallies identity profile t) :=
  comparable_stampFields s t [] _

theorem comparable_protectEvent (caller : Caller ν) (t : Traffic) (payload : JsValue ν)
    (p : Precision) (s s' : Stamp) :
    comparable (protectEvent g route caller t payload p s) =
      comparable (protectEvent g route caller t payload p s') :=
  comparable_stampFields s s' [(js "schemaVersion", .str (js "1"))] _

/-- The reason of a denied model is withheld. -/
theorem comparable_denied (reason reason' : JsString) (identity : Option (Fields ν))
    (profile : JsValue ν) (s t : Stamp) :
    comparable (proxyEvent g route "model_not_allowed" reason true true identity profile s) =
      comparable (proxyEvent g route "model_not_allowed" reason' true true identity profile t) :=
  rfl

/-- The number of restored tokens is withheld. -/
theorem comparable_detokenizeEvent (restored skipped restored' skipped' : ℕ) (s t : Stamp) :
    comparable (detokenizeEvent g restored skipped s) =
      comparable (detokenizeEvent g restored' skipped' t) :=
  rfl

end Comparable

/-! ### Requests that the gateway treats alike -/

/-- Both succeed or both fail. -/
def BothOk {α β : Type} (x : Except Thrown α) (y : Except Thrown β) : Prop :=
  Agree (fun _ _ => True) x y

section Alike

variable (g : Gateway ν) (route : Route)

/-- Payloads of one shape, in which the same is found and the same is decided on it. -/
structure SamePayload (grant : Grant ν) (t : Traffic) (p p' : JsValue ν) : Prop where
  shape : shapeOnly p = shapeOnly p'
  findings : ∀ es es', collectStringEntries g.shortHash g.maxNestingDepth [] p = some es →
    collectStringEntries g.shortHash g.maxNestingDepth [] p' = some es' →
    Agree (List.Forall₂ (SameTreatment g.minConfidence (compileAllowlist g.allowlist)
      (grant.decide t))) (g.detect t es) (g.detect t es')

/-- Request bodies that also take the same way. -/
structure SameBody (grant : Grant ν) (b b' : JsValue ν) : Prop
    extends SamePayload g grant .request b b' where
  model : modelDenied grant.modelAllowlist b = modelDenied grant.modelAllowlist b'
  streaming : isStreamingRequest b route.toRouteContext = isStreamingRequest b' route.toRouteContext

/-- Upstream answers that take the same way. -/
structure SameAnswer (grant : Grant ν) (a a' : Answer) : Prop where
  tooLarge : Agree Eq a.tooLarge a'.tooLarge
  compressed : a.compressed = a'.compressed
  isJson : a.isJson = a'.isJson
  json : Option.Rel (SamePayload g grant .response) (Json.parse a.text : Option (JsValue ν))
    (Json.parse a'.text)
  inspected : Agree Eq a.inspected a'.inspected

/-- The identity that a request is served for. -/
def Visit.identity (v : Visit ν) : Option (Fields ν) :=
  match v.credentials with
  | some (.identity fields) => some fields
  | _ => none

/-- Two requests of one identity on one route: bodies of one shape, in which the same is
found, with the same decisions of the gateway and of what it asks. -/
structure SameVisit (v w : Visit ν) : Prop where
  credentials : v.credentials = w.credentials
  allowed : Agree Eq v.allowed w.allowed
  body : Agree (SameBody g route (g.resolve v.identity)) (requestJson v) (requestJson w)
  sink : ∀ n, BothOk (v.sink n) (w.sink n)
  rewritten : ∀ t, BothOk (v.rewritten t) (w.rewritten t)
  answer : Agree (SameAnswer g (g.resolve v.identity)) v.answer w.answer
  issued : v.issuedTokens.isEmpty = w.issuedTokens.isEmpty
  vaultRead : BothOk v.vaultRead w.vaultRead

variable {g} in
theorem SamePayload.refl (grant : Grant ν) (t : Traffic) (p : JsValue ν) :
    SamePayload g grant t p p where
  shape := rfl
  findings es es' hes hes' := by
    obtain rfl : es = es' := Option.some.inj (hes.symm.trans hes')
    rcases g.detect t es with _ | ds
    · trivial
    · exact List.forall₂_same.mpr fun d _ => ⟨⟨rfl, rfl, rfl, rfl, rfl⟩, rfl⟩

variable {g} in
theorem SameAnswer.refl (grant : Grant ν) (a : Answer) : SameAnswer g grant a a where
  tooLarge := Agree.refl (fun _ => rfl) _
  compressed := rfl
  isJson := rfl
  json := by
    rcases (Json.parse a.text : Option (JsValue ν)) with _ | p
    · exact .none
    · exact .some (SamePayload.refl grant .response p)
  inspected := Agree.refl (fun _ => rfl) _

end Alike

/-! ### Two runs -/

section Runs

/-- The events have comparable records. -/
def SameEvent (e e' : Fields ν) : Prop := comparable e = comparable e'

variable {g : Gateway ν} {route : Route} {v w : Visit ν}

/-- The two programs leave comparable events, and their results are related. -/
abbrev Alike {α β : Type} (Q : α → β → Prop) (m : M ν α) (m' : M ν β) : Prop :=
  Matches SameEvent Q m m'

omit [JsNumber ν] in
theorem alike_record (hsink : ∀ n, BothOk (v.sink n) (w.sink n)) {event event' : Stamp → Fields ν}
    (h : ∀ s t, comparable (event s) = comparable (event' t)) :
    Alike Eq (record v event) (record w event') := by
  intro s s' hs
  have hn := hsink s'.length
  simp only [record, hs.length_eq]
  rcases hv : v.sink s'.length with _ | ⟨id, time⟩ <;>
    rcases hw : w.sink s'.length with _ | ⟨id', time'⟩ <;> rw [hv, hw] at hn
  · exact ⟨hs, trivial⟩
  · exact hn.elim
  · exact hn.elim
  · exact ⟨List.rel_append hs (.cons (h _ _) .nil), rfl⟩

variable (h : SameVisit g route v w)

include h

theorem alike_proxyEvent (decision : String) (reason : JsString) (enforced blocked : Bool)
    (identity : Option (Fields ν)) (profile : JsValue ν) :
    Alike Eq
      (record v (proxyEvent g route decision reason enforced blocked identity profile))
      (record w (proxyEvent g route decision reason enforced blocked identity profile)) :=
  alike_record h.sink fun s t =>
    comparable_proxyEvent decision reason enforced blocked identity profile s t

omit h in
/-- Payloads of one shape are collected alike. -/
theorem agree_collect {p p' : JsValue ν} (hshape : shapeOnly p = shapeOnly p') (e : Thrown) :
    Agree
      (fun es es' => collectStringEntries g.shortHash g.maxNestingDepth [] p = some es ∧
        collectStringEntries g.shortHash g.maxNestingDepth [] p' = some es')
      ((collectStringEntries g.shortHash g.maxNestingDepth [] p).elim (.error e) .ok)
      ((collectStringEntries g.shortHash g.maxNestingDepth [] p').elim (.error e) .ok) := by
  have hfits : FitsByShape g.shortHash g.maxNestingDepth p := fitsByShape p
  have hfits := hfits p' hshape [] [] rfl
  rcases hp : collectStringEntries g.shortHash g.maxNestingDepth [] p with _ | es <;>
    rcases hp' : collectStringEntries g.shortHash g.maxNestingDepth [] p' with _ | es' <;>
    rw [hp, hp'] at hfits
  · trivial
  · cases hfits
  · cases hfits
  · exact ⟨rfl, rfl⟩

omit h [JsNumber ν] in
theorem isBlocked_congr {caller : Caller ν} {t : Traffic} {p p' : Precision}
    (htrim : SameTrim (caller.grant.decide t) p p') :
    isBlocked g caller t p = isBlocked g caller t p' := by
  rw [isBlocked, isBlocked, htrim.actions_eq]

theorem alike_protectJson (caller : Caller ν) (t : Traffic) {p p' : JsValue ν}
    (hp : SamePayload g caller.grant t p p') :
    Alike Eq (protectJson g route v caller t p) (protectJson g route w caller t p') := by
  refine (matches_await (agree_collect hp.shape _)).bind fun es es' hes => ?_
  refine (matches_await (hp.findings es es' hes.1 hes.2)).bind fun ds ds' hds => ?_
  have htrim := sameTrim_applyPrecisionControls hds
  have hblocked := isBlocked_congr (g := g) htrim
  refine Matches.bind (Q := fun _ _ => True) ?_ fun _ _ _ => ?_
  · rw [← hblocked]
    split_ifs
    · exact matches_pure trivial
    · exact matches_await (h.rewritten t)
  · refine (alike_record h.sink fun s s' => ?_).bind fun _ _ _ => matches_pure hblocked
    rw [comparable_protectEvent caller t p _ s s', protectEvent, protectEvent, hblocked,
      buildAuditEvent_congr g.shortHash g.number _ _ _ _ hp.shape htrim]

theorem alike_recordUnprotected (reason : String) (hardDeny : Bool) :
    Alike Eq (recordUnprotected g route v reason hardDeny)
      (recordUnprotected g route w reason hardDeny) :=
  alike_proxyEvent h _ _ _ _ _ _

theorem alike_protectResponse (caller : Caller ν) {p p' : JsValue ν}
    (hp : SamePayload g caller.grant .response p p') :
    Alike Eq (protectResponse g route v caller p) (protectResponse g route w caller p') := by
  refine (alike_protectJson h caller .response hp).bind fun blocked _ hblocked => ?_
  subst hblocked
  have htokens : (requestTokens route v).isEmpty = (requestTokens route w).isEmpty := by
    rw [requestTokens, requestTokens]
    split_ifs
    · exact h.issued
    · rfl
  rw [← htokens]
  split_ifs
  · exact matches_pure rfl
  · refine (matches_await h.vaultRead).bind fun _ _ _ => ?_
    exact alike_record h.sink fun s t => comparable_detokenizeEvent _ _ _ _ s t

theorem alike_maybeProtectResponse (caller : Caller ν) {a a' : Answer}
    (ha : SameAnswer g caller.grant a a') :
    Alike Eq (maybeProtectResponse g route v caller a)
      (maybeProtectResponse g route w caller a') := by
  rw [maybeProtectResponse, maybeProtectResponse]
  by_cases hoff : (!g.config.responseProtection.enabled || !route.protectResponse) = true
  · rw [if_pos hoff, if_pos hoff]
    exact matches_pure rfl
  rw [if_neg hoff, if_neg hoff]
  refine (matches_await ha.tooLarge).bind fun tooLarge _ htooLarge => ?_
  subst htooLarge
  rw [← ha.compressed, ← ha.isJson]
  split_ifs
  · exact alike_recordUnprotected h _ _
  · exact alike_recordUnprotected h _ _
  · exact alike_recordUnprotected h _ _
  have hjson := ha.json
  rcases hp : (Json.parse a.text : Option (JsValue ν)) with _ | p <;>
    rcases hp' : (Json.parse a'.text : Option (JsValue ν)) with _ | p' <;> rw [hp, hp'] at hjson
  · exact alike_recordUnprotected h _ _
  · cases hjson
  · cases hjson
  · cases hjson with
    | some hsame => exact alike_protectResponse h caller hsame

section Body

variable {caller : Caller ν} {b b' : JsValue ν} (hb : SameBody g route caller.grant b b')

include hb

theorem alike_protectRequest :
    Alike Eq (protectRequest g route v caller b) (protectRequest g route w caller b') := by
  rw [protectRequest, protectRequest]
  split_ifs
  · exact alike_protectJson h caller .request hb.toSamePayload
  · exact matches_pure rfl

variable (hgrant : caller.grant = g.resolve v.identity)

include hgrant

omit hgrant in
theorem alike_handleInspectedStream :
    Alike Eq (handleInspectedStream g route v caller b)
      (handleInspectedStream g route w caller b') := by
  rw [handleInspectedStream, handleInspectedStream]
  split_ifs
  · exact matches_pure rfl
  refine (alike_protectRequest h hb).bind fun blocked _ hblocked => ?_
  subst hblocked
  split_ifs
  · exact matches_pure rfl
  refine (matches_await h.answer).bind fun a a' ha => ?_
  refine (matches_await ha.inspected).bind fun result _ hresult => ?_
  subst hresult
  exact alike_record h.sink fun s t => comparable_streamEvent _ _ _ _ s t

theorem alike_serveBuffered :
    Alike Eq (serveBuffered g route v caller b) (serveBuffered g route w caller b') := by
  refine (alike_protectRequest h hb).bind fun blocked _ hblocked => ?_
  subst hblocked
  split_ifs
  · exact matches_pure rfl
  refine (matches_await h.answer).bind fun a a' ha => ?_
  exact alike_maybeProtectResponse h caller (hgrant ▸ ha)

omit hgrant in
theorem alike_serveStreaming :
    Alike Eq (serveStreaming g route v caller b) (serveStreaming g route w caller b') := by
  rw [serveStreaming, serveStreaming]
  rcases g.config.requestMode with _ | _ | _
  · exact matches_pure rfl
  · exact alike_proxyEvent h _ _ _ _ _ _
  · exact alike_handleInspectedStream h hb

end Body

theorem alike_serveAuthorized {caller : Caller ν} (hgrant : caller.grant = g.resolve v.identity) :
    Alike Eq (serveAuthorized g route v caller) (serveAuthorized g route w caller) := by
  refine (matches_await h.body).bind fun b b' hb => ?_
  rw [← hgrant] at hb
  rw [← hb.model, ← hb.streaming]
  split_ifs
  · exact alike_record h.sink fun s t => comparable_denied _ _ _ _ s t
  · exact alike_serveStreaming h hb
  · exact alike_serveBuffered h hb hgrant

/-- Who is served, if anyone. -/
def ServedAs (g : Gateway ν) (v : Visit ν) (served served' : Option (Caller ν)) : Prop :=
  served = served' ∧ ∀ caller ∈ served, caller.grant = g.resolve v.identity

omit h [JsNumber ν] in
theorem servedAs_none : ServedAs g v none none := ⟨rfl, fun _ hcaller => absurd hcaller (by simp)⟩

theorem alike_checkRate {caller : Caller ν} (hgrant : caller.grant = g.resolve v.identity) :
    Alike (ServedAs g v) (checkRate g route v caller) (checkRate g route w caller) := by
  have hserved : ServedAs g v (some caller) (some caller) :=
    ⟨rfl, fun _ hcaller => Option.some.inj hcaller ▸ hgrant⟩
  rw [checkRate, checkRate]
  rcases caller.grant.requestsPerMinute.filter fun n => (JsValue.num n).truthy with _ | rate
  · exact matches_pure hserved
  refine (matches_await h.allowed).bind fun allowed _ hallowed => ?_
  subst hallowed
  split_ifs
  · exact matches_pure hserved
  · exact (alike_proxyEvent h _ _ _ _ _ _).bind fun _ _ _ => matches_pure servedAs_none

theorem alike_authorizeRequest :
    Alike (ServedAs g v) (authorizeRequest g route v) (authorizeRequest g route w) := by
  rw [authorizeRequest, authorizeRequest, ← h.credentials]
  rcases hv : v.credentials with _ | _ | _ | _
  · exact alike_checkRate h (by rw [Visit.identity, hv])
  · exact alike_checkRate h (by rw [Visit.identity, hv])
  · exact (alike_proxyEvent h _ _ _ _ _ _).bind fun _ _ _ => matches_pure servedAs_none
  · exact (alike_proxyEvent h _ _ _ _ _ _).bind fun _ _ _ => matches_pure servedAs_none

theorem alike_serve : Alike Eq (serve g route v) (serve g route w) := by
  refine (alike_authorizeRequest h).bind fun served _ hserved => ?_
  obtain ⟨rfl, hgrant⟩ := hserved
  cases served with
  | none => exact matches_pure rfl
  | some caller => exact alike_serveAuthorized h (hgrant caller rfl)

/-- Requests that the gateway treats alike leave records that differ in what is new in
every record, in the name of a denied model and in the number of restored tokens, and in
nothing else, wherever in the chain they come. -/
theorem trail_noninterference (sha256 : Digest) :
    List.Forall₂
      (fun e e' => ∀ previous previous', comparable (recordOf sha256 previous e) =
        comparable (recordOf sha256 previous' e'))
      (trail g route v) (trail g route w) := by
  have htrail : List.Forall₂ SameEvent (trail g route v) (trail g route w) :=
    (alike_serve h).forall₂
  refine htrail.imp fun e e' he previous previous' => ?_
  rw [comparable_recordOf, comparable_recordOf, he]

end Runs

/-! ### What the records do tell -/

/-- A record without what is new in it. -/
def unstamped (fields : Fields ν) : Fields ν := fields.filter fun kv => kv.1 ∉ stampKeys

/-- The records of the two requests are equal up to what is new in them. -/
def SameRecords (sha256 : Digest) (g : Gateway ν) (route : Route) (v w : Visit ν) : Prop :=
  List.Forall₂
    (fun e e' => ∀ previous previous', unstamped (recordOf sha256 previous e) =
      unstamped (recordOf sha256 previous' e'))
    (trail g route v) (trail g route w)

/-- The text or the number under a key. -/
def memberText (k : JsString) (fields : Fields ν) : Option JsString :=
  match JsValue.field? k fields with
  | some (.str s) => some s
  | some (.num x) => some (JsNumber.toText x)
  | _ => none

theorem memberText_sanitizeFields {k : JsString} (hk : k ∉ forbiddenKeys) (fields : Fields ν) :
    memberText k (sanitizeFields fields) = memberText k fields := by
  rw [memberText, field?_sanitizeFields hk, memberText]
  rcases JsValue.field? k fields with _ | v
  · rfl
  · cases v <;> rfl

omit [JsNumber ν] in
theorem field?_filter {k : JsString} {keys : List JsString} (hk : k ∉ keys) (fields : Fields ν) :
    JsValue.field? k (fields.filter fun kv => kv.1 ∉ keys) = JsValue.field? k fields := by
  induction fields with
  | nil => rfl
  | cons kv fs ih =>
    obtain ⟨k', v⟩ := kv
    by_cases hkey : k' = k
    · subst hkey
      simp [JsValue.field?, hk]
    · by_cases hmem : k' ∈ keys <;> simpa [JsValue.field?, hkey, hmem] using ih

theorem unstamped_recordOf (sha256 : Digest) (previous : Option (Integrity ν))
    (event : Fields ν) :
    unstamped (recordOf sha256 previous event) = sanitizeFields (unstamped event) := by
  rw [recordOf, buildIntegrityRecord, unstamped, filter_setField integrity_mem_stampKeys,
    unsignedRecord, filter_setField integrity_mem_stampKeys, filter_sanitizeFields, unstamped]

/-- The same records have the same texts and numbers under every key. -/
theorem SameRecords.memberText_eq {sha256 : Digest} {g : Gateway ν} {route : Route}
    {v w : Visit ν} (h : SameRecords sha256 g route v w) {k : JsString} (hk : k ∉ stampKeys)
    (hforbidden : k ∉ forbiddenKeys) :
    (trail g route v).map (memberText k) = (trail g route w).map (memberText k) := by
  refine map_eq_of_forall₂ (fun e e' he => ?_) h
  have htext : ∀ e : Fields ν, memberText k (unstamped (recordOf sha256 none e)) =
      memberText k e := by
    intro e
    rw [unstamped_recordOf, memberText_sanitizeFields hforbidden, memberText, unstamped,
      field?_filter hk, memberText]
  rw [← htext e, ← htext e', he none none]

/-- A text that is read back is not empty. -/
theorem requestJson_of_stringify {v : Visit ν} {json : JsValue ν}
    (hv : v.body = .ok ((Json.stringify json).getD [])) (hj : json.isJson = true)
    (hd : json.Distinct) : requestJson v = .ok json := by
  have hne : json ≠ .undef := by
    rintro rfl
    cases hj
  have hprune : json.prune = json := JsValue.prune_of_isJson json hj
  obtain ⟨c, t, ht, -⟩ := Json.render_head (hprune.symm ▸ hne : json.prune ≠ .undef)
  have hparse : Json.parse (c :: t) = some json.prune := Json.parse_stringify ht hd
  have hbody : v.body = .ok (c :: t) := by rw [hv, show Json.stringify json = some (c :: t) from ht,
    Option.getD_some]
  rw [requestJson, hbody]
  show parseJsonBody (c :: t) = .ok json
  rw [parseJsonBody, if_neg (List.cons_ne_nil c t), hparse, hprune]

def chatRoute : Route where
  protectRequest := true
  protectResponse := true
  streamingByDefault := false
  streaming := true
  protocol := js "openai-compatible"
  routeId := js "chat.completions"
  path := js "/v1/chat/completions"
  operation := js "POST chat.completions"

/-- A leaf with an at sign is an address as a whole. -/
def addressAt (e : Entry) : Detection :=
  ⟨js "email", js "email", e.path, e.pathText, e.kind, 0, e.value.length, none, e.value⟩

/-- A gateway that serves one model, puts tokens for addresses and restores them. -/
def tokenGateway : Gateway NumberToken where
  config :=
    { enforceForwardedProto := false
      maxInFlight := 0
      metricsEnabled := false
      requestMode := .block
      responseProtection := ⟨true, 1000, false, false⟩
      passThroughMaxBytes := 1000
      detokenizeResponses := true }
  mode := js "enforce"
  responseMode := js "enforce"
  streamMode := js "enforce"
  shortHash := id
  number := fun _ => JsNumber.ofNat 1
  maxNestingDepth := 256
  detect := fun _ entries => .ok ((entries.filter fun e => 64 ∈ e.value).map addressAt)
  minConfidence := 0
  allowlist := []
  revealPolicy := js "disabled"
  resolve := fun _ => ⟨.null, some [js "small"], none, fun _ _ => js "tokenize"⟩

/-- A request without credentials, which the upstream answers with an empty object. -/
def visitOf (json : JsValue NumberToken) (tokens : List JsString) : Visit NumberToken where
  credentials := none
  allowed := .ok true
  body := .ok ((Json.stringify json).getD [])
  correlationId := js "c"
  sink := fun _ => .ok (js "id", js "now")
  rewritten := fun _ => .ok ()
  answer := .ok ⟨.ok false, false, true, js "\x7b\x7d", .ok (false, [])⟩
  issuedTokens := tokens
  vaultRead := .ok ()
  restores := fun _ => true

/-- A request for a model that is not served. -/
def asking (model : String) : Visit NumberToken :=
  visitOf (.obj [(js "model", .str (js model))]) []

/-- A request with two addresses. -/
def writing (first second : String) (tokens : List JsString) : Visit NumberToken :=
  visitOf (.arr [.str (js first), .str (js second)]) tokens

theorem distinct_asking (model : String) :
    (JsValue.obj [(js "model", .str (js model))] : JsValue NumberToken).Distinct :=
  JsValue.distinct_obj.mpr ⟨List.nodup_singleton _, List.forall_mem_singleton.mpr trivial⟩

theorem sameVisit_asking : SameVisit tokenGateway chatRoute (asking "a") (asking "b") where
  credentials := rfl
  allowed := rfl
  body := by
    rw [requestJson_of_stringify (v := asking "a") rfl rfl (distinct_asking "a"),
      requestJson_of_stringify (v := asking "b") rfl rfl (distinct_asking "b")]
    refine ⟨⟨rfl, fun es es' hes hes' => ?_⟩, by decide, by decide⟩
    cases hes
    cases hes'
    exact .nil
  sink _ := trivial
  rewritten _ := trivial
  answer := SameAnswer.refl _ _
  issued := rfl
  vaultRead := trivial

theorem distinct_writing (first second : String) :
    (JsValue.arr [.str (js first), .str (js second)] : JsValue NumberToken).Distinct := by
  rw [JsValue.distinct_arr, List.forall_mem_cons, List.forall_mem_singleton]
  exact ⟨trivial, trivial⟩

theorem sameVisit_writing : SameVisit tokenGateway chatRoute (writing "a@x" "a@x" [js "t"])
    (writing "a@x" "b@x" [js "t", js "u"]) where
  credentials := rfl
  allowed := rfl
  body := by
    rw [requestJson_of_stringify (v := writing "a@x" "a@x" [js "t"]) rfl rfl
        (distinct_writing "a@x" "a@x"),
      requestJson_of_stringify (v := writing "a@x" "b@x" [js "t", js "u"]) rfl rfl
        (distinct_writing "a@x" "b@x")]
    refine ⟨⟨rfl, fun es es' hes hes' => ?_⟩, by decide, by decide⟩
    cases hes
    cases hes'
    exact .cons ⟨⟨rfl, rfl, rfl, rfl, rfl⟩, rfl⟩ (.cons ⟨⟨rfl, rfl, rfl, rfl, rfl⟩, rfl⟩ .nil)
  sink _ := trivial
  rewritten _ := trivial
  answer := SameAnswer.refl _ _
  issued := rfl
  vaultRead := trivial

/-- The reason of a denied request names the model, and the number of restored tokens
says whether two addresses are one. -/
theorem trail_told_apart :
    (SameVisit tokenGateway chatRoute (asking "a") (asking "b") ∧
      ¬SameRecords hexDigest tokenGateway chatRoute (asking "a") (asking "b")) ∧
    SameVisit tokenGateway chatRoute (writing "a@x" "a@x" [js "t"])
        (writing "a@x" "b@x" [js "t", js "u"]) ∧
      ¬SameRecords hexDigest tokenGateway chatRoute (writing "a@x" "a@x" [js "t"])
        (writing "a@x" "b@x" [js "t", js "u"]) := by
  refine ⟨⟨sameVisit_asking, fun h => ?_⟩, sameVisit_writing, fun h => ?_⟩
  · have hreason := h.memberText_eq (k := js "reason") (by decide) (by decide)
    revert hreason
    decide +kernel
  · have hcount := h.memberText_eq (k := js "count") (by decide) (by decide)
    revert hcount
    decide +kernel

/-- Both pairs leave records that differ in nothing else. -/
theorem trail_noninterference_told :
    List.Forall₂
        (fun e e' => ∀ previous previous', comparable (recordOf hexDigest previous e) =
          comparable (recordOf hexDigest previous' e'))
        (trail tokenGateway chatRoute (asking "a")) (trail tokenGateway chatRoute (asking "b")) ∧
      List.Forall₂
        (fun e e' => ∀ previous previous', comparable (recordOf hexDigest previous e) =
          comparable (recordOf hexDigest previous' e'))
        (trail tokenGateway chatRoute (writing "a@x" "a@x" [js "t"]))
        (trail tokenGateway chatRoute (writing "a@x" "b@x" [js "t", js "u"])) :=
  ⟨trail_noninterference sameVisit_asking hexDigest, trail_noninterference sameVisit_writing hexDigest⟩

end Haechi.Proxy.Trail
