import Haechi.Effects
import Haechi.Proxy.Target
import Haechi.Text.Json

/-! The request handler of the proxy: the gates, the local routes, authentication,
the body, the model list, the three ways a streaming request is met, the request's
protection, the upstream call and the response. Every outcome that is awaited (the
audit sink, the protector, the upstream, the client) is given by the environment, and
what the handler does to the response and to the count of requests in flight is left
as events. -/

namespace Haechi.Proxy

open Text JsValue Act

/-! ### Events and failures -/

/-- A thrown value: `null` or `undefined`, or an object that may carry a status. -/
inductive Thrown where
  | nullish
  | error (statusCode : Option ℤ) (errorCode : Option JsString)
deriving DecidableEq

/-- `proxyError`. -/
def proxyError (statusCode : ℤ) (errorCode : String) : Thrown :=
  .error (some statusCode) (some (js errorCode))

/-- What a handler leaves behind; `τ` is what the stream protector counts. -/
inductive Event (τ : Type) where
  /-- `inFlight += 1`. -/
  | count
  /-- `inFlight -= 1`. -/
  | uncount
  | readBody
  /-- A decision record in the audit log. -/
  | record (decision : JsString)
  /-- The upstream request is sent. -/
  | forward
  | head (status : ℤ)
  | write (bytes : ℕ)
  /-- `response.end()`. -/
  | finish
  /-- `response.destroy()`, or the client closed the connection. -/
  | destroy
  /-- The decision record of an inspected stream. -/
  | streamRecord (blocked : Bool) (tallies : List τ)

namespace Event

variable {τ : Type}

def isHead : Event τ → Bool
  | .head _ => true
  | _ => false

def isStreamRecord : Event τ → Bool
  | .streamRecord _ _ => true
  | _ => false

end Event

variable {τ : Type}

abbrev M (τ α : Type) := Act Thrown (Event τ) α

/-- `statusCode |= 0`, and the range that `writeHead` takes. -/
def isStatus (status : ℤ) : Bool := 100 ≤ status.bmod (2 ^ 32) && status.bmod (2 ^ 32) ≤ 999

/-- `response.writeHead`: it throws where the head is written already. -/
def writeHead (status : ℤ) : M τ Unit := fun events =>
  if events.any Event.isHead then (.error (.error none (some (js "ERR_HTTP_HEADERS_SENT"))), events)
  else if isStatus status then (.ok (), events ++ [.head status])
  else (.error (.error none (some (js "ERR_HTTP_INVALID_STATUS_CODE"))), events)

/-- `writeJson`. -/
def writeJson (status : ℤ) : M τ Unit := do
  writeHead status
  emit .finish

/-! ### The configuration and the environment -/

inductive RequestMode where
  | block
  | passThrough
  | inspect
deriving DecidableEq

structure ResponseProtection where
  enabled : Bool
  maxBytes : ℕ
  allowCompressed : Bool
  /-- `failureMode` is `allow`. -/
  failureAllowed : Bool

structure Config where
  enforceForwardedProto : Bool
  maxInFlight : ℕ
  metricsEnabled : Bool
  requestMode : RequestMode
  responseProtection : ResponseProtection
  passThroughMaxBytes : ℕ
  detokenizeResponses : Bool

structure RouteContext where
  protectRequest : Bool
  protectResponse : Bool
  streamingByDefault : Bool
  /-- The route has a known streaming format. -/
  streaming : Bool

/-- What `authenticate` of the provider comes to. -/
inductive Authentication where
  | identity
  | refused
  | failed

/-- One read of the upstream body; after the last one the body is done. -/
inductive Read where
  | chunk (bytes : ℕ)
  | failed (e : Thrown)

/-- What the client does while a piped chunk is read and written. -/
inductive Client where
  | reads
  | drains
  /-- It is gone before the chunk arrives. -/
  | closedReading
  /-- It goes while the write waits for a drain. -/
  | closedWriting
deriving DecidableEq

/-- The upstream's response. -/
structure Upstream where
  status : ℤ
  contentLength : Option ℕ
  /-- There is a content encoding other than `identity`. -/
  compressed : Bool
  isJson : Bool
  body : Option (List Read)
  /-- `fetch` gives no other status. -/
  valid : 200 ≤ status ∧ status ≤ 599

theorem valid_ok : (200 : ℤ) ≤ 200 ∧ (200 : ℤ) ≤ 599 := by decide

inductive Fetched where
  | response (u : Upstream)
  | timedOut
  | failed

/-- How a frame of an inspected stream ends. -/
inductive FrameEnd where
  | written
  | blocked
  | failed (e : Thrown)

/-- What inspecting the upstream body meets: a frame, with the sizes of what is written
for it and what the protector counts in it, or a failing read. The last frame is the
flush of the held tail. -/
inductive InspectStep (τ : Type) where
  | frame (writes : List ℕ) (tallies : List τ) (result : FrameEnd)
  | sourceFailed (e : Thrown)

structure Env (τ : Type) where
  /-- The audit sink's readiness probe. -/
  ready : Bool
  classify : Except Thrown RouteContext
  /-- `none` where no provider is configured. -/
  authentication : Option Authentication
  /-- The rate limiter's answer, where the profile has a rate. -/
  allowed : Option (Except Thrown Bool)
  modelAllowlist : Option (List JsString)
  body : Except Thrown JsString
  /-- The audit sink takes a decision record. -/
  audit : JsString → Except Thrown Unit
  /-- `protectJson` of the request: is it blocked. -/
  protectRequest : Except Thrown Bool
  /-- `buildUpstreamUrl`. -/
  upstreamUrl : Except Thrown Unit
  fetched : Fetched
  createProtector : Except Thrown Unit
  inspected : List (InspectStep τ)
  streamAudit : Except Thrown Unit
  client : List Client
  /-- The response body is JSON text. -/
  validJson : Bool
  protectResponse : Except Thrown Bool
  detokenize : Except Thrown Unit

/-! ### Stages -/

section Stages

variable (c : Config) (env : Env τ) (r : Request)

/-- `recordProxyDecision`. -/
def record (decision : JsString) : M τ Unit := do
  await (env.audit decision)
  emit (.record decision)

/-- `handleReady`; a failing probe is caught. -/
def handleReady : M τ Unit := writeJson (if env.ready then 200 else 503)

def assertRelativeProxyTarget : M τ Unit :=
  if isRelativeTarget r.url then pure ()
  else raise (proxyError 400 "haechi_invalid_proxy_target")

/-- The first part of `authorizeRequest`: is the client refused. -/
def authenticate : M τ Bool :=
  match env.authentication with
  | none | some .identity => Pure.pure false
  | some .failed | some .refused => do
    record env (js "auth_denied")
    return true

/-- The second part: the rate limit of the profile. -/
def checkRate : M τ (Option ℤ) :=
  match env.allowed with
  | none => Pure.pure none
  | some allowed => do
    let ok ← await allowed
    if ok then return none
    else
      record env (js "rate_limited")
      return some 429

/-- What `authorizeRequest` comes to: the status of a denial, or none. -/
def authorizeRequest : M τ (Option ℤ) := do
  let denied ← authenticate env
  if denied then return some 401
  else checkRate env

/-- `forward`. -/
def forward : M τ Upstream := do
  await env.upstreamUrl
  emit .forward
  match env.fetched with
  | .response u => pure u
  | .timedOut => raise (proxyError 504 "haechi_upstream_timeout")
  | .failed => raise (proxyError 502 "haechi_upstream_unreachable")

/-- The loop of `readUpstreamBody`: is the body too large. -/
def readChunks (maxBytes : ℕ) : ℕ → List Read → Except Thrown Bool
  | _, [] => .ok false
  | _, .failed e :: _ => .error e
  | received, .chunk n :: reads =>
    if maxBytes < received + n then .ok true else readChunks maxBytes (received + n) reads

/-- `readUpstreamBody`. -/
def readUpstreamBody (maxBytes : ℕ) (u : Upstream) : Except Thrown Bool :=
  if u.contentLength.any fun n => maxBytes < n then .ok true
  else
    match u.body with
    | none => .ok false
    | some reads => readChunks maxBytes 0 reads

/-- `unprotectedResponseDecision`: the status sent. -/
def unprotectedResponse (u : Upstream) (hardDeny : Bool) : M τ ℤ := do
  let allowed := c.responseProtection.failureAllowed && !hardDeny
  record env (js (if allowed then "response_unprotected_allowed" else "response_unprotected_blocked"))
  return if allowed then u.status else 502

/-- The response body is read, and within the size limit. -/
def protectBody (u : Upstream) : M τ ℤ :=
  if u.compressed && !c.responseProtection.allowCompressed then unprotectedResponse c env u false
  else if !u.isJson || !env.validJson then unprotectedResponse c env u false
  else do
    let blocked ← await env.protectResponse
    if blocked then return 502
    else
      await (if c.detokenizeResponses then env.detokenize else .ok ())
      return u.status

/-- `maybeProtectResponse`: the status sent. -/
def maybeProtectResponse (route : RouteContext) (u : Upstream) : M τ ℤ :=
  if !c.responseProtection.enabled || !route.protectResponse then do
    let tooLarge ← await (readUpstreamBody c.passThroughMaxBytes u)
    return if tooLarge then 502 else u.status
  else do
    let tooLarge ← await (readUpstreamBody c.responseProtection.maxBytes u)
    if tooLarge then unprotectedResponse c env u true
    else protectBody c env u

/-- A client that goes cancels the pending read, which then counts as the end. -/
def unlessGone (client : List Client) (m : M τ Unit) : M τ Unit :=
  if client.head? = some .closedReading then do emit .destroy; emit .finish else m

/-- The loop of `pipeUpstreamBodyBounded`, which catches what the reads throw. -/
def pipeChunks (maxBytes : ℕ) : List Read → ℕ → List Client → M τ Unit
  | [], _, client => unlessGone client (emit .finish)
  | .failed _ :: _, _, client => unlessGone client (emit .destroy)
  | .chunk n :: reads, received, client =>
    unlessGone client <|
      if maxBytes < received + n then emit .destroy
      else do
        emit (.write n)
        if client.head? = some .closedWriting then emit .destroy
        else pipeChunks maxBytes reads (received + n) client.tail

/-- `pipeUpstreamBodyBounded`. -/
def pipeUpstreamBody (u : Upstream) : M τ Unit :=
  match u.body with
  | none => emit .finish
  | some reads => pipeChunks c.passThroughMaxBytes reads 0 env.client

/-- The texts a frame writes. -/
def writeAll : List ℕ → M τ Unit
  | [] => pure ()
  | n :: ns => do emit (.write n); writeAll ns

/-- `inspectResponseStream`: is the stream blocked, and the tallies so far. -/
def inspectResponseStream : List τ → List (InspectStep τ) → M τ (Bool × List τ)
  | seen, [] => pure (false, seen)
  | _, .sourceFailed e :: _ => raise e
  | seen, .frame writes tallies result :: steps => do
    writeAll writes
    match result with
    | .written => inspectResponseStream (seen ++ tallies) steps
    | .blocked => pure (true, seen ++ tallies)
    | .failed e => raise e

/-- What `handleInspectedStream` does once the head is written. -/
def sendInspected (u : Upstream) : M τ Unit := do
  let result ← inspectResponseStream [] (if u.body.isSome then env.inspected else [])
  await env.streamAudit
  emit (.streamRecord result.1 result.2)
  emit .finish

def handleInspectedStream (route : RouteContext) : M τ Unit :=
  if !route.streaming then writeJson 501
  else do
    let blocked ← await (if route.protectRequest then env.protectRequest else .ok false)
    if blocked then writeJson 403
    else
      let u ← forward env
      await env.createProtector
      writeHead u.status
      sendInspected env u

variable {ν : Type} [JsNumber ν]

/-- `parseJsonBody`. -/
def parseJsonBody (body : JsString) : Except Thrown (JsValue ν) :=
  if body = [] then .ok (.obj [])
  else
    match Json.parse body with
    | some v => .ok v
    | none => .error (proxyError 400 "haechi_invalid_json_request")

/-- `isStreamingRequest`. -/
def isStreamingRequest (v : JsValue ν) (route : RouteContext) : Bool :=
  match v with
  | .obj _ | .arr _ =>
    match v.get (js "stream") with
    | .bool true => true
    | .bool false => false
    | _ => route.streamingByDefault
  | _ => false

/-- The model of the body is not on the profile's list. -/
def modelDenied (allowlist : Option (List JsString)) (v : JsValue ν) : Bool :=
  match allowlist, v.get (js "model") with
  | some models, .str model => model ∉ models
  | _, _ => false

/-- A streaming request. -/
def serveStreaming (route : RouteContext) : M τ Unit :=
  match c.requestMode with
  | .inspect => handleInspectedStream env route
  | .passThrough => do
    record env (js "streaming_request_pass_through")
    let u ← forward env
    writeHead u.status
    pipeUpstreamBody c env u
  | .block => writeJson 501

/-- A request with one response. -/
def serveBuffered (route : RouteContext) : M τ Unit := do
  let blocked ← await (if route.protectRequest then env.protectRequest else .ok false)
  if blocked then writeJson 403
  else
    let u ← forward env
    let status ← maybeProtectResponse c env route u
    writeHead status
    emit .finish

/-- A request whose body is being read. -/
def serveBody (ν : Type) [JsNumber ν] (route : RouteContext) : M τ Unit := do
  let body ← await env.body
  let json : JsValue ν ← await (parseJsonBody body)
  if modelDenied env.modelAllowlist json then
    record env (js "model_not_allowed")
    writeJson 403
  else if isStreamingRequest json route then serveStreaming c env route
  else serveBuffered c env route

/-- A request that is authorized. -/
def serveAuthorized (ν : Type) [JsNumber ν] (route : RouteContext) : M τ Unit := do
  emit .readBody
  serveBody c env ν route

/-- The first hop of the header is `https`. -/
def isForwardedHttps : Bool :=
  match r.forwardedProto with
  | none => false
  | some raw =>
    let first := trim (raw.takeWhile (· != 44))
    first.map (fun c => if 65 ≤ c && c ≤ 90 then c + 32 else c) == js "https"

/-- A request for which there is no local route. -/
def serveUpstream (ν : Type) [JsNumber ν] : M τ Unit := do
  assertRelativeProxyTarget r
  let route ← await env.classify
  let denied ← authorizeRequest env
  match denied with
  | some status => writeJson status
  | none => serveAuthorized c env ν route

/-- The body of the `try` block. -/
def serve (ν : Type) [JsNumber ν] : M τ Unit :=
  if c.enforceForwardedProto && !isObservabilityRoute r && !isForwardedHttps r then writeJson 403
  else if isLocal r "/__haechi/live" then writeJson 200
  else if isLocal r "/__haechi/ready" then handleReady env
  else if isLocal r "/__haechi/health" then writeJson 200
  else if isLocal r "/__haechi/metrics" then
    if c.metricsEnabled then do writeHead 200; emit .finish else writeJson 404
  else serveUpstream c env r ν

/-- The `catch` block. Reading `statusCode` of a nullish value throws. -/
def recovery : Thrown → M τ Unit
  | .nullish => raise (.error none none)
  | .error statusCode _ => writeJson (statusCode.getD 500)

/-- `requestHandler`; `inFlight` is the count when the request arrives. -/
def requestHandler (ν : Type) [JsNumber ν] (inFlight : ℕ) : M τ Unit :=
  if !isObservabilityRoute r && 0 < c.maxInFlight && c.maxInFlight ≤ inFlight then writeJson 503
  else if isObservabilityRoute r then (serve c env r ν).recover recovery
  else do
    emit .count
    ((serve c env r ν).recover recovery).ensure .uncount

end Stages

end Haechi.Proxy
