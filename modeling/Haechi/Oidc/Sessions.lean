import Haechi.Oidc.Tokens
import Haechi.Runs

/-! The session side of the OIDC broker. A turn of the event loop is one step: the
handlers run up to their next `await`, and every awaited call may come back at any time,
with any result. Session records are objects: the store holds a reference, and a refresh
keeps the one it was started with while logouts, evictions and other requests go on. -/

namespace Haechi.Oidc

structure Session where
  identity : Identity
  createdAt : ℤ
  lastSeen : ℤ
  gen : ℕ
  refreshTokenEnvelope : Option JsString
  originalCreatedAt : Option ℤ
deriving Inhabited

/-- What `performRefresh` awaits. It has returned, and settles when its `finally` has run. -/
inductive Phase where
  | discover
  | decrypt
  | grant
  | verify (response : TokenResponse)
  | identify (response : TokenResponse)
  | rotate (identity : Identity)
  | publish
  | evict
  | returned (session : Option ℕ)
  | settled (session : Option ℕ)

def Phase.isSettled : Phase → Bool
  | .settled _ => true
  | _ => false

/-- A call of `performRefresh`, with the object and the generation it captured. -/
structure Refresh where
  sessionId : JsString
  session : ℕ
  expectedGen : ℕ
  time : ℤ
  phase : Phase

/-- What the awaited call comes back with. A response may be the value `null`. -/
inductive Yield where
  | failed
  | done
  | response (response : Option TokenResponse)
  | claims (claims : Claims)
  | identity (identity : Identity)
  | envelope (envelope : JsString)

/-- What a request is told about its session. -/
structure View where
  identity : Identity
  createdAt : ℤ
  lastSeen : ℤ

inductive CallStatus where
  | awaiting (refresh : ℕ)
  | evicting
  | returned (view : Option View)

/-- A call of `authenticate`, with the time it has read. -/
structure Call where
  sessionId : JsString
  time : ℤ
  status : CallStatus

inductive LogoutStatus where
  | hashing
  | loggedOut
  | failed
deriving DecidableEq

structure Logout where
  sessionId : JsString
  status : LogoutStatus
deriving DecidableEq

/-- The broker: the objects, the store and the map of refreshes in flight, all calls so
far, and the sessions as they were minted. -/
structure Broker where
  objects : ℕ → Session
  size : ℕ
  store : JsString → Option ℕ
  inflight : JsString → Option ℕ
  refreshes : List Refresh
  calls : List Call
  logouts : List Logout
  minted : JsString → Option Session

def start : Broker :=
  ⟨fun _ => default, 0, fun _ => none, fun _ => none, [], [], [], fun _ => none⟩

/-! ### Objects and the store -/

def Broker.modify (s : Broker) (r : ℕ) (f : Session → Session) : Broker :=
  { s with objects := Function.update s.objects r (f (s.objects r)) }

def Broker.alloc (s : Broker) (session : Session) : Broker :=
  { s with objects := Function.update s.objects s.size session, size := s.size + 1 }

/-- An object passes the border of the store: the object itself, or a copy. -/
def Broker.pass (cfg : Config) (s : Broker) (r : ℕ) : ℕ × Broker :=
  if cfg.storeShares then (r, s) else (s.size, s.alloc (s.objects r))

def Broker.set (cfg : Config) (s : Broker) (id : JsString) (r : ℕ) : Broker :=
  { (s.pass cfg r).2 with store := Function.update s.store id (some (s.pass cfg r).1) }

/-- Delete, and look whether a record remains. -/
def destroySessionSync (s : Broker) (id : JsString) : Bool × Broker :=
  let s := { s with store := Function.update s.store id none }
  ((s.store id).isNone, s)

/-- `evictSession` up to its `await`. -/
def evictSession (s : Broker) (id : JsString) : Broker := (destroySessionSync s id).2

/-! ### The refresh -/

/-- The hard ceiling has been reached. -/
def ceilingReached (cfg : Config) (session : Session) (t : ℤ) : Bool :=
  session.originalCreatedAt.any fun c => c + cfg.refreshMaxLifetimeSeconds * 1000 ≤ t

/-- `performRefresh` up to its first `await`. -/
def performRefresh (cfg : Config) (s : Broker) (id : JsString) (r : ℕ) (t : ℤ) : Broker × Phase :=
  if ceilingReached cfg (s.objects r) t then (evictSession s id, .evict) else (s, .discover)

/-- The promise of the session's refresh: the one in flight, or a new one. -/
def refreshSingleFlight (cfg : Config) (s : Broker) (id : JsString) (r : ℕ) (t : ℤ) : Broker × ℕ :=
  match s.inflight id with
  | some i => (s, i)
  | none =>
    let p := performRefresh cfg s id r t
    ({ p.1 with
        refreshes := s.refreshes ++ [⟨id, r, (s.objects r).gen, t, p.2⟩]
        inflight := Function.update s.inflight id (some s.refreshes.length) },
      s.refreshes.length)

def Broker.goto (s : Broker) (i : ℕ) (p : Refresh) (phase : Phase) : Broker :=
  { s with refreshes := s.refreshes.set i { p with phase := phase } }

/-- Every failure of a refresh evicts the session. -/
def failRefresh (s : Broker) (i : ℕ) (p : Refresh) : Broker :=
  (evictSession s p.sessionId).goto i p .evict

/-- The commit: the check of the live session and the `set` are one turn. -/
def commitRefresh (cfg : Config) (s : Broker) (i : ℕ) (p : Refresh) (identity : Identity) : Broker :=
  let s := s.modify p.session fun o => { o with identity := identity }
  if (s.store p.sessionId).any fun live => (s.objects live).gen = p.expectedGen then
    ((s.modify p.session fun o => { o with gen := p.expectedGen + 1 }).set cfg p.sessionId
      p.session).goto i p .publish
  else s.goto i p (.returned none)

/-- A refresh goes on with what it awaited, up to its next `await`. -/
def continueRefresh (cfg : Config) (s : Broker) (i : ℕ) (p : Refresh) (y : Yield) : Broker :=
  match p.phase, y with
  | .discover, .done => s.goto i p .decrypt
  | .decrypt, .done => s.goto i p .grant
  | .grant, .response none => s.goto i p (.returned none)
  | .grant, .response (some response) =>
    if issOk cfg response && (nonempty? response.idToken).isSome then s.goto i p (.verify response)
    else failRefresh s i p
  | .verify response, .claims claims =>
    if oidcAudienceProfileOk cfg claims && (nonempty? claims.sub).isSome then
      s.goto i p (.identify response)
    else failRefresh s i p
  | .identify response, .identity identity =>
    if identity.subjectHash = (s.objects p.session).identity.subjectHash then
      let s := s.modify p.session fun o => { o with createdAt := p.time, lastSeen := p.time }
      match nonempty? response.refreshToken with
      | some _ => s.goto i p (.rotate identity)
      | none => commitRefresh cfg s i p identity
    else failRefresh s i p
  | .rotate identity, .envelope envelope =>
    commitRefresh cfg
      (s.modify p.session fun o => { o with refreshTokenEnvelope := some envelope }) i p identity
  | .publish, _ => s.goto i p (.returned (some p.session))
  | .evict, _ => s.goto i p (.returned none)
  | .returned session, _ =>
    { s.goto i p (.settled session) with inflight := Function.update s.inflight p.sessionId none }
  | .settled _, _ => s
  | _, .failed => failRefresh s i p
  | _, _ => s

/-! ### Authenticate -/

def Broker.call (s : Broker) (id : JsString) (t : ℤ) (status : CallStatus) : Broker :=
  { s with calls := s.calls ++ [⟨id, t, status⟩] }

def viewOf (session : Session) : View := ⟨session.identity, session.createdAt, session.lastSeen⟩

def idleExpiry (cfg : Config) (session : Session) : ℤ :=
  session.lastSeen + cfg.idleTtlSeconds * 1000

def absoluteExpiry (cfg : Config) (session : Session) : ℤ :=
  session.createdAt + cfg.sessionTtlSeconds * 1000

/-- When the renewal window opens: it is the last quarter of the absolute lifetime. -/
def renewAt (cfg : Config) (session : Session) : ℤ :=
  absoluteExpiry cfg session - cfg.sessionTtlSeconds * 250

def renewable (cfg : Config) (session : Session) : Bool :=
  cfg.enableRefresh && session.refreshTokenEnvelope.isSome

/-- `authenticate` with the object the store has handed out. -/
def authenticateWith (cfg : Config) (s : Broker) (id : JsString) (t : ℤ) (r : ℕ) : Broker :=
  let session := s.objects r
  if idleExpiry cfg session ≤ t then (evictSession s id).call id t .evicting
  else if renewable cfg session ∧ t < absoluteExpiry cfg session ∧ renewAt cfg session ≤ t then
    let f := refreshSingleFlight cfg s id r t
    f.1.call id t (.awaiting f.2)
  else if absoluteExpiry cfg session ≤ t then (evictSession s id).call id t .evicting
  else
    let s := (s.modify r fun o => { o with lastSeen := t }).set cfg id r
    s.call id t (.returned (some (viewOf { session with lastSeen := t })))

/-- `authenticate` up to its first `await`. -/
def authenticate (cfg : Config) (s : Broker) (id : JsString) (t : ℤ) : Broker :=
  match s.store id with
  | none => s.call id t (.returned none)
  | some r => authenticateWith cfg (s.pass cfg r).2 id t (s.pass cfg r).1

/-- How a call of `authenticate` that awaited something comes back. -/
def CallStatus.resume (s : Broker) : CallStatus → CallStatus
  | .awaiting i =>
    match s.refreshes[i]?.map Refresh.phase with
    | some (.settled session) => .returned (session.map fun r => viewOf (s.objects r))
    | _ => .awaiting i
  | .evicting => .returned none
  | .returned view => .returned view

/-! ### Logout and login -/

/-- `handleLogout` up to its first `await`. -/
def logout (s : Broker) (id : JsString) : Broker :=
  match s.store id with
  | some _ => { s with logouts := s.logouts ++ [⟨id, .hashing⟩] }
  | none =>
    let d := destroySessionSync s id
    { d.2 with logouts := s.logouts ++ [⟨id, if d.1 then .loggedOut else .failed⟩] }

/-- The rest of `handleLogout`, once the hash of the session id is there or has failed. -/
def continueLogout (s : Broker) (j : ℕ) (l : Logout) (hashed : Bool) : Broker :=
  if l.status = .hashing then
    if hashed then
      let d := destroySessionSync s l.sessionId
      { d.2 with
        logouts := s.logouts.set j { l with status := if d.1 then .loggedOut else .failed } }
    else { s with logouts := s.logouts.set j { l with status := .failed } }
  else s

/-- The last turn of `handleCallback`: a fresh session id gets its session. -/
def mint (cfg : Config) (s : Broker) (id : JsString) (identity : Identity) (t : ℤ)
    (envelope : Option JsString) : Broker :=
  let custody := if cfg.enableRefresh then envelope else none
  let session : Session := ⟨identity, t, t, 0, custody, custody.map fun _ => t⟩
  ({ s.alloc session with minted := Function.update s.minted id (some session) }).set cfg id s.size

/-! ### Steps -/

inductive Action where
  | login (id : JsString) (identity : Identity) (t : ℤ) (envelope : Option JsString)
  | authenticate (id : JsString) (t : ℤ)
  | refresh (i : ℕ) (yield : Yield)
  | resume (i : ℕ)
  | logout (id : JsString)
  | hashed (j : ℕ) (ok : Bool)

def step (cfg : Config) (s : Broker) : Action → Broker
  | .login id identity t envelope => mint cfg s id identity t envelope
  | .authenticate id t => authenticate cfg s id t
  | .refresh i y =>
    match s.refreshes[i]? with
    | some p => continueRefresh cfg s i p y
    | none => s
  | .resume i =>
    match s.calls[i]? with
    | some c => { s with calls := s.calls.set i { c with status := c.status.resume s } }
    | none => s
  | .logout id => logout s id
  | .hashed j ok =>
    match s.logouts[j]? with
    | some l => continueLogout s j l ok
    | none => s

/-- Session ids are fresh: a login draws one that no session has had. -/
def Fresh (s : Broker) : Action → Prop
  | .login id _ _ _ => s.minted id = none
  | _ => True

/-! ### What a turn of a refresh does -/

variable {cfg : Config} {s : Broker} {i r : ℕ} {p : Refresh} {id k : JsString} {t : ℤ}

theorem modify_id (s : Broker) (r : ℕ) : s.modify r (fun o => o) = s := by
  rw [Broker.modify, Function.update_eq_self]

theorem modify_modify (s : Broker) (r : ℕ) (f g : Session → Session) :
    (s.modify r f).modify r g = s.modify r fun o => g (f o) := by
  simp only [Broker.modify, Function.update_idem, Function.update_self]

/-- A write to a session leaves its ceiling, and keeps it renewable. -/
def Keeps (f : Session → Session) : Prop :=
  ∀ o, (f o).originalCreatedAt = o.originalCreatedAt ∧
    (o.refreshTokenEnvelope.isSome → (f o).refreshTokenEnvelope.isSome)

/-- A turn of a refresh writes to its object and goes on, evicts the session, commits
while the session is live, or settles. -/
inductive Turn (cfg : Config) (s : Broker) (i : ℕ) (p : Refresh) : Broker → Prop
  | idle : Turn cfg s i p s
  | moves (f : Session → Session) (hf : Keeps f) (phase : Phase) (h : phase.isSettled = false) :
      Turn cfg s i p ((s.modify p.session f).goto i p phase)
  | evicts : Turn cfg s i p (failRefresh s i p)
  | commits (f : Session → Session) (hf : Keeps f) (hlive : (s.store p.sessionId).isSome) :
      Turn cfg s i p
        (((s.modify p.session f).set cfg p.sessionId p.session).goto i p .publish)
  | settles (session : Option ℕ) (h : p.phase = .returned session) :
      Turn cfg s i p
        { s.goto i p (.settled session) with
          inflight := Function.update s.inflight p.sessionId none }

theorem Turn.goes {phase : Phase} (h : phase.isSettled = false) :
    Turn cfg s i p (s.goto i p phase) := by
  have hturn : Turn cfg s i p ((s.modify p.session fun o => o).goto i p phase) :=
    .moves (fun o => o) (fun _ => ⟨rfl, fun h => h⟩) phase h
  rwa [modify_id] at hturn

theorem commitRefresh_turn {f : Session → Session} (hf : Keeps f) (identity : Identity) :
    Turn cfg s i p (commitRefresh cfg (s.modify p.session f) i p identity) := by
  simp only [commitRefresh, modify_modify]
  split_ifs with hlive
  · refine Turn.commits (fun o => { f o with identity := identity, gen := p.expectedGen + 1 }) hf ?_
    cases hs : s.store p.sessionId with
    | none =>
      rw [show Broker.store (s.modify _ _) p.sessionId = none from hs] at hlive
      cases hlive
    | some r => rfl
  · exact Turn.moves (fun o => { f o with identity := identity }) hf _ rfl

theorem continueRefresh_turn (cfg : Config) (s : Broker) (i : ℕ) (p : Refresh) (y : Yield) :
    Turn cfg s i p (continueRefresh cfg s i p y) := by
  unfold continueRefresh
  split
  case h_1 => exact .goes rfl
  case h_2 => exact .goes rfl
  case h_3 => exact .goes rfl
  case h_4 =>
    split_ifs
    · exact .goes rfl
    · exact .evicts
  case h_5 =>
    split_ifs
    · exact .goes rfl
    · exact .evicts
  case h_6 response identity _ =>
    split_ifs
    · have hf : Keeps fun o => { o with createdAt := p.time, lastSeen := p.time } :=
        fun _ => ⟨rfl, fun h => h⟩
      split
      · exact .moves _ hf _ rfl
      · exact commitRefresh_turn hf identity
    · exact .evicts
  case h_7 identity envelope _ =>
    have hf : Keeps fun o => { o with refreshTokenEnvelope := some envelope } :=
      fun _ => ⟨rfl, fun _ => rfl⟩
    exact commitRefresh_turn hf identity
  case h_8 => exact .goes rfl
  case h_9 => exact .goes rfl
  case h_10 h => exact .settles _ h
  case h_11 => exact .idle
  case h_12 => exact .evicts
  case h_13 => exact .idle

/-! ### What the parts leave alone -/

@[simp] theorem pass_store : (s.pass cfg r).2.store = s.store := by
  unfold Broker.pass
  split <;> rfl

@[simp] theorem pass_inflight : (s.pass cfg r).2.inflight = s.inflight := by
  unfold Broker.pass
  split <;> rfl

@[simp] theorem pass_refreshes : (s.pass cfg r).2.refreshes = s.refreshes := by
  unfold Broker.pass
  split <;> rfl

@[simp] theorem pass_calls : (s.pass cfg r).2.calls = s.calls := by
  unfold Broker.pass
  split <;> rfl

@[simp] theorem pass_logouts : (s.pass cfg r).2.logouts = s.logouts := by
  unfold Broker.pass
  split <;> rfl

@[simp] theorem pass_minted : (s.pass cfg r).2.minted = s.minted := by
  unfold Broker.pass
  split <;> rfl

/-- A copy has the fields of its original. -/
@[simp] theorem pass_objects_self : (s.pass cfg r).2.objects (s.pass cfg r).1 = s.objects r := by
  unfold Broker.pass
  split
  · rfl
  · exact Function.update_self ..

theorem pass_objects {q : ℕ} (h : q < s.size) : (s.pass cfg r).2.objects q = s.objects q := by
  unfold Broker.pass
  split
  · rfl
  · exact Function.update_of_ne h.ne _ _

theorem pass_size_le : s.size ≤ (s.pass cfg r).2.size := by
  unfold Broker.pass
  split
  · exact le_rfl
  · exact Nat.le_succ _

theorem pass_lt (h : r < s.size) : (s.pass cfg r).1 < (s.pass cfg r).2.size := by
  unfold Broker.pass
  split
  · exact h
  · exact Nat.lt_succ_self _

@[simp] theorem set_calls : (s.set cfg id r).calls = s.calls := pass_calls

@[simp] theorem set_refreshes : (s.set cfg id r).refreshes = s.refreshes := pass_refreshes

@[simp] theorem set_inflight : (s.set cfg id r).inflight = s.inflight := pass_inflight

@[simp] theorem set_logouts : (s.set cfg id r).logouts = s.logouts := pass_logouts

@[simp] theorem set_minted : (s.set cfg id r).minted = s.minted := pass_minted

@[simp] theorem goto_calls {phase : Phase} : (s.goto i p phase).calls = s.calls := rfl

@[simp] theorem goto_minted {phase : Phase} : (s.goto i p phase).minted = s.minted := rfl

@[simp] theorem modify_calls {f : Session → Session} : (s.modify r f).calls = s.calls := rfl

@[simp] theorem modify_minted {f : Session → Session} : (s.modify r f).minted = s.minted := rfl

@[simp] theorem modify_logouts {f : Session → Session} : (s.modify r f).logouts = s.logouts := rfl

@[simp] theorem call_logouts {status : CallStatus} : (s.call id t status).logouts = s.logouts := rfl

@[simp] theorem call_minted {status : CallStatus} : (s.call id t status).minted = s.minted := rfl

theorem turn_calls {s' : Broker} (h : Turn cfg s i p s') : s'.calls = s.calls := by
  cases h with
  | commits f hf hlive => simp
  | _ => rfl

theorem turn_minted {s' : Broker} (h : Turn cfg s i p s') : s'.minted = s.minted := by
  cases h with
  | commits f hf hlive => simp
  | _ => rfl

@[simp] theorem mint_calls {identity : Identity} {envelope : Option JsString} :
    (mint cfg s id identity t envelope).calls = s.calls :=
  pass_calls (s := { s.alloc _ with minted := _ })

theorem turn_logouts {s' : Broker} (h : Turn cfg s i p s') : s'.logouts = s.logouts := by
  cases h with
  | commits f hf hlive => exact pass_logouts (s := s.modify p.session f)
  | _ => rfl

/-- The refresh a request waits for is there, and the rest is as before it. -/
theorem refreshSingleFlight_frame (cfg : Config) (s : Broker) (id : JsString) (r : ℕ) (t : ℤ) :
    (refreshSingleFlight cfg s id r t).1.calls = s.calls ∧
      (refreshSingleFlight cfg s id r t).1.minted = s.minted ∧
      (refreshSingleFlight cfg s id r t).1.logouts = s.logouts := by
  unfold refreshSingleFlight
  split
  · exact ⟨rfl, rfl, rfl⟩
  · simp only [performRefresh]
    split_ifs <;> exact ⟨rfl, rfl, rfl⟩

/-- A call of `authenticate` is one more call. -/
theorem authenticate_frame (cfg : Config) (s : Broker) (id : JsString) (t : ℤ) :
    ∃ status, (authenticate cfg s id t).calls = s.calls ++ [⟨id, t, status⟩] ∧
      (authenticate cfg s id t).minted = s.minted ∧
      (authenticate cfg s id t).logouts = s.logouts ∧
      (s.store id = none → status = .returned none) := by
  unfold authenticate
  split
  · next h => exact ⟨_, rfl, rfl, rfl, fun _ => rfl⟩
  · next r hr =>
    have habsent : ∀ status, s.store id = none → status = CallStatus.returned none := by
      intro status h
      rw [h] at hr
      cases hr
    simp only [authenticateWith]
    split_ifs
    · exact ⟨_, congrArg (· ++ _) pass_calls, pass_minted, pass_logouts, habsent _⟩
    · have hf := refreshSingleFlight_frame cfg (s.pass cfg r).2 id (s.pass cfg r).1 t
      exact ⟨_, congrArg (· ++ _) (hf.1.trans pass_calls), hf.2.1.trans pass_minted,
        hf.2.2.trans pass_logouts, habsent _⟩
    · exact ⟨_, congrArg (· ++ _) pass_calls, pass_minted, pass_logouts, habsent _⟩
    · refine ⟨_, congrArg (· ++ _) ?_, ?_, ?_, habsent _⟩
      · simp
      · simp
      · simp

def Action.isLogin : Action → Bool
  | .login .. => true
  | _ => false

/-- Only a login mints. -/
theorem step_minted_eq (a : Action) (h : a.isLogin = false) :
    (step cfg s a).minted = s.minted := by
  cases a with
  | login id identity t envelope => cases h
  | authenticate id t =>
    obtain ⟨-, -, hm, -, -⟩ := authenticate_frame cfg s id t
    exact hm
  | refresh i y =>
    rw [step]
    split
    · exact turn_minted (continueRefresh_turn ..)
    · rfl
  | resume i =>
    rw [step]
    split <;> rfl
  | logout id =>
    rw [step, logout]
    split <;> rfl
  | hashed j ok =>
    rw [step]
    split
    · unfold continueLogout
      split_ifs <;> rfl
    · rfl

/-- The session of an id is the one it was minted with, for good. -/
theorem step_minted (a : Action) (hfresh : Fresh s a) {m : Session} (h : s.minted k = some m) :
    (step cfg s a).minted k = some m := by
  cases a with
  | login id identity t envelope =>
    have hne : k ≠ id := by
      rintro rfl
      rw [show s.minted k = none from hfresh] at h
      cases h
    rw [step, mint, set_minted]
    exact (Function.update_of_ne hne ..).trans h
  | _ => rwa [step_minted_eq _ rfl]

end Haechi.Oidc
