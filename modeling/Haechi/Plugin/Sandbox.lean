import Haechi.Runs
import Haechi.Plugin.Manifest

/-! The sandboxes of an authentication plugin: a worker thread, or a child process. Calls
queue up, the first one makes sure of a child, sends its credential under a correlation
id and awaits the reply, a timer, or the end of the child; the child may say anything at
any time. -/

namespace Haechi.Plugin

open Text JsValue

variable {ν ι : Type}

/-! ### Claims -/

/-- What the host takes from a reply. -/
structure Claims where
  subject : JsString
  issuer : JsString
  type : Option JsString
  scopes : Option (List JsString)
  labels : Option (List (JsString × JsString))
deriving DecidableEq

def maxScopes : ℕ := 64

def maxLabels : ℕ := 32

def maxStringLen : ℕ := 1024

/-- A non-empty text within the bound. -/
def boundedText : JsValue ν → Option JsString
  | .str s => if s ≠ [] ∧ s.length ≤ maxStringLen then some s else none
  | _ => none

def sanitizeType : JsValue ν → Option (Option JsString)
  | .undef => some none
  | .str s => some (some s)
  | _ => none

def sanitizeScopes : JsValue ν → Option (Option (List JsString))
  | .undef => some none
  | .arr items => if items.length ≤ maxScopes then (items.mapM boundedText).map some else none
  | _ => none

def sanitizeLabels : JsValue ν → Option (Option (List (JsString × JsString)))
  | .undef => some none
  | .obj fields =>
    if fields.length ≤ maxLabels then
      (fields.mapM fun kv => (boundedText kv.2).map (kv.1, ·)).map some
    else none
  | _ => none

/-- `sanitizeClaims`; it throws on claims that are not of this shape. -/
def sanitizeClaims (raw : JsValue ν) : Option Claims := do
  guard (isRecord raw)
  let subject ← boundedText (raw.get (js "subject"))
  let issuer ← boundedText (raw.get (js "issuer"))
  let type ← sanitizeType (raw.get (js "type"))
  let scopes ← sanitizeScopes (raw.get (js "scopes"))
  let labels ← sanitizeLabels (raw.get (js "labels"))
  return ⟨subject, issuer, type, scopes, labels⟩

/-! ### The sandbox -/

inductive Isolation where
  | worker
  | process
deriving DecidableEq

/-- The claims of a reply that neither denies nor leaves them out. The names that the host
marks its own outcomes with are looked for in a reply too. -/
def claimsOf [JsNumber ν] (isolation : Isolation) (reply : JsValue ν) : Option Claims :=
  if truthy (reply.get (js "__oversized")) then none
  else if isolation == .process && truthy (reply.get (js "__keyfetch")) then none
  else if truthy (reply.get (js "__timeout")) then none
  else if isTrue (reply.get (js "deny")) then none
  else sanitizeClaims (reply.get (js "claims"))

structure SandboxConfig (ι : Type) where
  isolation : Isolation
  maxPendingCalls : ℕ
  /-- Key material is fetched for every call. -/
  keyMaterial : Bool
  respawnMaxKills : ℕ
  /-- No caller sets it, and it is 5. -/
  kills_pos : 0 < respawnMaxKills
  respawnWindowMs : ℕ
  respawnBackoffMs : ℕ
  /-- `buildExternalIdentity`, which may throw. -/
  build : Claims → Option ι

/-- What a round trip resolves to. -/
inductive Settled (ν : Type) where
  | null
  | timeout
  | oversized
  | keyFetch
  | reply (r : JsValue ν)

/-- Where a call is. -/
inductive Phase (ν ι : Type) where
  /-- It awaits its turn. -/
  | waiting
  /-- At the start of `ensureChild`. -/
  | ensuring
  | backoff
  /-- It awaits the handshake of the child. -/
  | spawning (child : ℕ)
  /-- After `ensureChild`. -/
  | ensured
  | fetching (cid : JsString)
  /-- Its message is sent. -/
  | inFlight (cid : JsString)
  | settled (value : Settled ν)
  /-- Its round trip is over and the identity is being built. -/
  | building (claims : Claims)
  | done (identity : Option ι)

namespace Phase

/-- The call waits or runs. -/
def active : Phase ν ι → Bool
  | .building _ | .done _ => false
  | _ => true

def rank : Phase ν ι → ℕ
  | .waiting => 9
  | .ensuring => 8
  | .backoff => 7
  | .spawning _ => 6
  | .ensured => 5
  | .fetching _ => 4
  | .inFlight _ => 3
  | .settled _ => 2
  | .building _ => 1
  | .done _ => 0

end Phase

/-- The variables of a sandbox, its calls so far, and the times at which children were
started and recorded as killed, the latest first. -/
structure Sandbox (ν ι : Type) where
  clock : ℕ
  child : Option ℕ
  spawned : ℕ
  closed : Bool
  killTimes : List ℕ
  breakerTripped : Bool
  /-- The map from correlation ids to calls. -/
  pending : List (JsString × ℕ)
  /-- The chain of turns. -/
  queue : List ℕ
  calls : List (Phase ν ι)
  spawns : List ℕ
  kills : List ℕ

/-- A worker is started at once, a process by the first call. -/
def startSandbox (c : SandboxConfig ι) (clock : ℕ) : Sandbox ν ι :=
  match c.isolation with
  | .worker => ⟨clock, some 0, 1, false, [], false, [], [], [], [clock], []⟩
  | .process => ⟨clock, none, 0, false, [], false, [], [], [], [], []⟩

/-- What comes from a child. -/
inductive Message (ν : Type) where
  | oversized
  | unparseable
  | parsed (r : JsValue ν)

/-- A step: of a caller, of the host, or of a child. -/
inductive SandboxAction (ν : Type) where
  | tick (d : ℕ)
  | authenticate (hasCredential : Bool)
  | turn (i : ℕ)
  | ensure (i : ℕ) (verified : Bool)
  | backoffOver (i : ℕ) (verified : Bool)
  | handshake (i : ℕ) (ok : Bool)
  | begin (i : ℕ) (cid : JsString) (fits sent : Bool)
  | fetched (i : ℕ) (ok sent : Bool)
  | timer (i : ℕ)
  | resume (i : ℕ)
  | built (i : ℕ)
  | message (child : ℕ) (m : Message ν)
  | died (child : ℕ) (crashed : Bool)
  | close

namespace Sandbox

variable (c : SandboxConfig ι) (s : Sandbox ν ι)

def goto (i : ℕ) (p : Phase ν ι) : Sandbox ν ι := { s with calls := s.calls.set i p }

/-- Every pending call is settled. -/
def settleAll (value : Settled ν) : Sandbox ν ι :=
  { s with
    calls := s.calls.mapIdx fun i p =>
      match p with
      | .inFlight cid => if (cid, i) ∈ s.pending then .settled value else p
      | _ => p
    pending := [] }

/-- The record of a kill, and the breaker. -/
def recordKill : Sandbox ν ι :=
  let killTimes := (s.killTimes ++ [s.clock]).filter fun ts => s.clock - ts < c.respawnWindowMs
  { s with
    killTimes
    breakerTripped := s.breakerTripped || decide (c.respawnMaxKills ≤ killTimes.length)
    kills := s.clock :: s.kills }

/-- `terminateChild`, and `terminateWorker`, which keeps no record. -/
def terminateChild : Sandbox ν ι :=
  let dropped := { s with child := none }
  let recorded := if s.child.isSome && c.isolation == .process then recordKill c dropped else dropped
  recorded.settleAll .null

/-- A call of `authenticate`, up to its turn. -/
def enqueue (hasCredential : Bool) : Sandbox ν ι :=
  if hasCredential && s.queue.length < c.maxPendingCalls then
    { s with calls := s.calls ++ [.waiting], queue := s.queue ++ [s.calls.length] }
  else { s with calls := s.calls ++ [.done none] }

/-- The gate runs, and a child is started if it passes. -/
def spawn (i : ℕ) (verified : Bool) : Sandbox ν ι :=
  if !verified then s.goto i (.settled .null)
  else
    match c.isolation with
    | .worker => { s.goto i .ensured with
        child := some s.spawned, spawned := s.spawned + 1, spawns := s.clock :: s.spawns }
    | .process => { s.goto i (.spawning s.spawned) with
        spawned := s.spawned + 1, spawns := s.clock :: s.spawns }

/-- `ensureChild`, up to its first `await`. -/
def ensureChild (i : ℕ) (verified : Bool) : Sandbox ν ι :=
  if s.child.isSome || s.closed then s.goto i .ensured
  else if s.breakerTripped then s.goto i (.settled .null)
  else if c.isolation == .process && !s.killTimes.isEmpty && 0 < c.respawnBackoffMs then
    s.goto i .backoff
  else spawn c s i verified

/-- The call is registered and its message sent, unless sending throws. -/
def send (i : ℕ) (cid : JsString) (sent : Bool) : Sandbox ν ι :=
  if s.child.isSome && sent then { s.goto i (.inFlight cid) with pending := (cid, i) :: s.pending }
  else s.goto i (.settled .null)

/-- `roundTrip` after `ensureChild`. -/
def begin (i : ℕ) (cid : JsString) (fits sent : Bool) : Sandbox ν ι :=
  if s.child.isNone then s.goto i (.settled .null)
  else if !fits then s.goto i (.settled .oversized)
  else if c.isolation == .process && c.keyMaterial then s.goto i (.fetching cid)
  else s.send i cid sent

/-- The frame is one that carries a reply. -/
def isReply (r : JsValue ν) : Bool :=
  match c.isolation with
  | .worker => true
  | .process => textOf (r.get (js "t")) == js "auth"

/-- A message handler; it looks at the correlation id only. -/
def receive (m : Message ν) : Sandbox ν ι :=
  match m with
  | .oversized => s.settleAll .oversized
  | .unparseable => s
  | .parsed r =>
    match r.get (js "cid") with
    | .str cid =>
      if isReply c r then
        match s.pending.lookup cid with
        | some i => { s.goto i (.settled (.reply r)) with pending := s.pending.filter fun e => e.1 != cid }
        | none => s
      else s
    | _ => s

/-- The timer of a call. -/
def expire (i : ℕ) (cid : JsString) : Sandbox ν ι :=
  let deleted := { s with pending := s.pending.filter fun e => e.1 != cid }
  (terminateChild c deleted).goto i (.settled .timeout)

/-- `authenticate` after the round trip: the turn is released. -/
def release [JsNumber ν] (i : ℕ) (value : Settled ν) : Sandbox ν ι :=
  let next : Phase ν ι :=
    match value with
    | .reply r => (claimsOf c.isolation r).elim (.done none) .building
    | _ => .done none
  { s.goto i next with queue := s.queue.erase i }

/-- A step that is possible. -/
def next [JsNumber ν] : SandboxAction ν → Option (Sandbox ν ι)
  | .tick d => some { s with clock := s.clock + d }
  | .authenticate hasCredential => some (enqueue c s hasCredential)
  | .turn i =>
    match s.calls[i]? with
    | some .waiting => if s.queue.head? = some i then some (s.goto i .ensuring) else none
    | _ => none
  | .ensure i verified =>
    match s.calls[i]? with
    | some .ensuring => some (ensureChild c s i verified)
    | _ => none
  | .backoffOver i verified =>
    match s.calls[i]? with
    | some .backoff =>
      some (if s.closed || s.breakerTripped then s.goto i (.settled .null) else spawn c s i verified)
    | _ => none
  | .handshake i ok =>
    match s.calls[i]? with
    | some (.spawning child) =>
      some (if ok && !s.closed then { s.goto i .ensured with child := some child }
        else s.goto i (.settled .null))
    | _ => none
  | .begin i cid fits sent =>
    match s.calls[i]? with
    | some .ensured => some (begin c s i cid fits sent)
    | _ => none
  | .fetched i ok sent =>
    match s.calls[i]? with
    | some (.fetching cid) => some (if ok then s.send i cid sent else s.goto i (.settled .keyFetch))
    | _ => none
  | .timer i =>
    match s.calls[i]? with
    | some (.inFlight cid) => some (expire c s i cid)
    | _ => none
  | .resume i =>
    match s.calls[i]? with
    | some (.settled value) => some (release c s i value)
    | _ => none
  | .built i =>
    match s.calls[i]? with
    | some (.building claims) => some (s.goto i (.done (c.build claims)))
    | _ => none
  | .message child m => if child < s.spawned then some (receive c s m) else none
  | .died child crashed =>
    if crashed && s.child == some child then some (terminateChild c s) else none
  | .close => some { s with closed := true, child := none, pending := [] }

/-- A step; one that is not possible changes nothing. -/
def step [JsNumber ν] (s : Sandbox ν ι) (a : SandboxAction ν) : Sandbox ν ι := (next c s a).getD s

end Sandbox

end Haechi.Plugin
