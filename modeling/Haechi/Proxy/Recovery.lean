import Haechi.Proxy.Exempt

/-! One `catch` block serves the handler before and after the head of the response is
written. Before it the block answers with the error; after it `writeHead` throws and
the handler's promise is rejected. What a request comes to before anything is sent is
a plan, and the handler is that plan carried out, up to records and reads. Proved: the
promise resolves, one head is written, the response is closed, the count is taken back
and an inspected stream leaves its record, exactly when what is thrown before the head
can be answered and nothing fails behind the head of an inspected stream. -/

namespace Haechi.Proxy

open Text Act

variable {τ : Type}

/-! ### Plans -/

/-- How a request is answered. -/
inductive Reply where
  | json (status : ℤ)
  | piped (u : Upstream)
  | inspected (u : Upstream)

/-- What a program comes to. -/
def outcome {α : Type} (m : M τ α) : Except Thrown α := (m []).1

section Plan

variable (c : Config) (env : Env τ) (r : Request)

/-- Is the request itself blocked. -/
def requestBlocked (route : RouteContext) : Except Thrown Bool :=
  if route.protectRequest then env.protectRequest else .ok false

/-- What an inspected stream comes to before its head. -/
def planInspected (route : RouteContext) : Except Thrown Reply :=
  if !route.streaming then .ok (.json 501)
  else do
    let blocked ← requestBlocked env route
    if blocked then .ok (.json 403)
    else do
      let u ← outcome (forward env)
      env.createProtector
      .ok (.inspected u)

def planStreaming (route : RouteContext) : Except Thrown Reply :=
  match c.requestMode with
  | .inspect => planInspected env route
  | .passThrough => do
    env.audit (js "streaming_request_pass_through")
    let u ← outcome (forward env)
    .ok (.piped u)
  | .block => .ok (.json 501)

def planBuffered (route : RouteContext) : Except Thrown Reply := do
  let blocked ← requestBlocked env route
  if blocked then .ok (.json 403)
  else do
    let u ← outcome (forward env)
    let status ← outcome (maybeProtectResponse c env route u)
    .ok (.json status)

variable (ν : Type) [JsNumber ν]

def planBody (route : RouteContext) : Except Thrown Reply := do
  let body ← env.body
  let json : JsValue ν ← parseJsonBody body
  if modelDenied env.modelAllowlist json then do
    env.audit (js "model_not_allowed")
    .ok (.json 403)
  else if isStreamingRequest json route then planStreaming c env route
  else planBuffered c env route

def planUpstream : Except Thrown Reply := do
  outcome (assertRelativeProxyTarget r : M τ Unit)
  let route ← env.classify
  let denied ← outcome (authorizeRequest env)
  match denied with
  | some status => .ok (.json status)
  | none => planBody c env ν route

/-- What a request comes to before anything is sent. -/
def plan : Except Thrown Reply :=
  if c.enforceForwardedProto && !isObservabilityRoute r && !isForwardedHttps r then
    .ok (.json 403)
  else if isLocal r "/__haechi/live" then .ok (.json 200)
  else if isLocal r "/__haechi/ready" then .ok (.json (if env.ready then 200 else 503))
  else if isLocal r "/__haechi/health" then .ok (.json 200)
  else if isLocal r "/__haechi/metrics" then .ok (.json (if c.metricsEnabled then 200 else 404))
  else planUpstream c env r ν

end Plan

/-- A plan carried out. -/
def send (c : Config) (env : Env τ) : Reply → M τ Unit
  | .json status => writeJson status
  | .piped u => do writeHead u.status; pipeUpstreamBody c env u
  | .inspected u => do writeHead u.status; sendInspected env u

def deliver (c : Config) (env : Env τ) (p : Except Thrown Reply) : M τ Unit :=
  await p >>= send c env

/-! ### The handler carries out its plan -/

/-- Records and reads: nothing is sent to the client. -/
def Quiet : Event τ → Prop
  | .readBody | .record _ | .forward => True
  | _ => False

/-- The program sends nothing and its outcome does not depend on what was sent. -/
def Settles {α : Type} (m : M τ α) : Prop := ∃ x, Leads Quiet m (await x)

theorem await_apply {α : Type} (x : Except Thrown α) (s : List (Event τ)) :
    (await x : M τ α) s = (x, s) := by
  cases x <;> rfl

theorem Settles.leads {α : Type} {m : M τ α} (h : Settles m) :
    Leads Quiet m (await (outcome m)) := by
  obtain ⟨x, hx⟩ := h
  obtain ⟨es, -, heq⟩ := hx []
  rw [outcome, heq, await_apply]
  exact hx

theorem settles_await {α : Type} (x : Except Thrown α) : Settles (await x : M τ α) :=
  ⟨x, Leads.refl _⟩

theorem settles_pure {α : Type} (a : α) : Settles (Pure.pure a : M τ α) := settles_await (.ok a)

theorem settles_raise {α : Type} (e : Thrown) : Settles (raise e : M τ α) :=
  settles_await (.error e)

theorem settles_emit {e : Event τ} (h : Quiet e) : Settles (emit e : M τ Unit) :=
  ⟨.ok (), Leads.emit h⟩

theorem Settles.bind {α β : Type} {m : M τ α} {f : α → M τ β} (hm : Settles m)
    (hf : ∀ a, Settles (f a)) : Settles (m >>= f) := by
  obtain ⟨x, hx⟩ := hm
  cases x with
  | error e => exact ⟨.error e, hx.bind f⟩
  | ok a =>
    obtain ⟨y, hy⟩ := hf a
    exact ⟨y, (hx.bind f).trans hy⟩

section Settle

variable (c : Config) (env : Env τ) (r : Request)

theorem settles_record (decision : JsString) : Settles (record env decision) :=
  (settles_await _).bind fun _ => settles_emit (show Quiet (.record decision) from trivial)

theorem settles_assertRelativeProxyTarget : Settles (assertRelativeProxyTarget r : M τ Unit) := by
  rw [assertRelativeProxyTarget]
  split
  · exact settles_pure _
  · exact settles_raise _

theorem settles_authorizeRequest : Settles (authorizeRequest env) := by
  refine Settles.bind ?_ fun denied => ?_
  · rw [authenticate]
    split
    · exact settles_pure _
    · exact settles_pure _
    · exact (settles_record env _).bind fun _ => settles_pure _
    · exact (settles_record env _).bind fun _ => settles_pure _
  · split
    · exact settles_pure _
    · rw [checkRate]
      split
      · exact settles_pure _
      · refine (settles_await _).bind fun ok => ?_
        split
        · exact settles_pure _
        · exact (settles_record env _).bind fun _ => settles_pure _

theorem settles_forward : Settles (forward env) := by
  have hsent : Settles (emit .forward : M τ Unit) := settles_emit (show Quiet .forward from trivial)
  refine (settles_await _).bind fun _ => hsent.bind fun _ => ?_
  split
  · exact settles_pure _
  · exact settles_raise _
  · exact settles_raise _

theorem settles_maybeProtectResponse (route : RouteContext) (u : Upstream) :
    Settles (maybeProtectResponse c env route u) := by
  have hun : ∀ hardDeny, Settles (unprotectedResponse c env u hardDeny) := fun _ =>
    (settles_record env _).bind fun _ => settles_pure _
  rw [maybeProtectResponse]
  split
  · exact (settles_await _).bind fun _ => settles_pure _
  refine (settles_await _).bind fun tooLarge => ?_
  split
  · exact hun true
  rw [protectBody]
  split
  · exact hun false
  split
  · exact hun false
  refine (settles_await _).bind fun blocked => ?_
  split
  · exact settles_pure _
  · exact (settles_await _).bind fun _ => settles_pure _

/-- A step that settles, in the handler and in the plan. -/
theorem leads_deliver_bind {α : Type} {m : M τ α} {f : α → M τ Unit}
    {k : α → Except Thrown Reply} (hm : Settles m)
    (hf : ∀ a, Leads Quiet (f a) (deliver c env (k a))) :
    Leads Quiet (m >>= f) (deliver c env (outcome m >>= k)) := by
  refine (hm.leads.bind f).trans ?_
  cases outcome m with
  | error e => exact Leads.refl _
  | ok a => exact hf a

theorem leads_deliver_await {α : Type} {x : Except Thrown α} {f : α → M τ Unit}
    {k : α → Except Thrown Reply} (hf : ∀ a, Leads Quiet (f a) (deliver c env (k a))) :
    Leads Quiet (await x >>= f) (deliver c env (x >>= k)) := by
  cases x with
  | error e => exact Leads.refl _
  | ok a => exact hf a

theorem leads_writeJson (status : ℤ) :
    Leads Quiet (writeJson status) (deliver c env (.ok (.json status))) := Leads.refl _

theorem leads_handleInspectedStream (route : RouteContext) :
    Leads Quiet (handleInspectedStream env route) (deliver c env (planInspected env route)) := by
  rw [handleInspectedStream, planInspected]
  split
  · exact leads_writeJson c env 501
  refine leads_deliver_await c env fun blocked => ?_
  split
  · exact leads_writeJson c env 403
  refine leads_deliver_bind c env (settles_forward env) fun u => ?_
  exact leads_deliver_await c env fun _ => Leads.refl _

theorem leads_serveStreaming (route : RouteContext) :
    Leads Quiet (serveStreaming c env route) (deliver c env (planStreaming c env route)) := by
  rw [serveStreaming, planStreaming]
  cases c.requestMode with
  | inspect => exact leads_handleInspectedStream c env route
  | passThrough =>
    simp only [record, Act.bind_assoc]
    refine leads_deliver_await c env fun _ => ?_
    refine (Leads.emit_bind (show Quiet (.record _) from trivial) _).trans ?_
    exact leads_deliver_bind c env (settles_forward env) fun u => Leads.refl _
  | block => exact leads_writeJson c env 501

theorem leads_serveBuffered (route : RouteContext) :
    Leads Quiet (serveBuffered c env route) (deliver c env (planBuffered c env route)) := by
  rw [serveBuffered, planBuffered]
  refine leads_deliver_await c env fun blocked => ?_
  split
  · exact leads_writeJson c env 403
  refine leads_deliver_bind c env (settles_forward env) fun u => ?_
  exact leads_deliver_bind c env (settles_maybeProtectResponse c env route u) fun status =>
    leads_writeJson c env status

variable (ν : Type) [JsNumber ν]

theorem leads_serveBody (route : RouteContext) :
    Leads Quiet (serveBody c env ν route) (deliver c env (planBody c env ν route)) := by
  refine leads_deliver_await c env fun body => leads_deliver_await c env fun json => ?_
  split
  · rw [record, Act.bind_assoc]
    refine leads_deliver_await c env fun _ => ?_
    exact (Leads.emit_bind (show Quiet (.record _) from trivial) _).trans (leads_writeJson c env 403)
  split
  · exact leads_serveStreaming c env route
  · exact leads_serveBuffered c env route

theorem leads_serveUpstream :
    Leads Quiet (serveUpstream c env r ν) (deliver c env (planUpstream c env r ν)) := by
  refine leads_deliver_bind c env (settles_assertRelativeProxyTarget r) fun _ => ?_
  refine leads_deliver_await c env fun route => ?_
  refine leads_deliver_bind c env (settles_authorizeRequest env) fun denied => ?_
  cases denied with
  | some status => exact leads_writeJson c env status
  | none =>
    exact (Leads.emit_bind (show Quiet .readBody from trivial) _).trans
      (leads_serveBody c env ν route)

/-- The handler carries out its plan, up to records and reads. -/
theorem leads_serve : Leads Quiet (serve c env r ν) (deliver c env (plan c env r ν)) := by
  rw [serve, plan]
  split
  · exact leads_writeJson c env 403
  split
  · exact leads_writeJson c env 200
  split
  · exact leads_writeJson c env _
  split
  · exact leads_writeJson c env 200
  split
  · split
    · exact leads_writeJson c env 200
    · exact leads_writeJson c env 404
  · exact leads_serveUpstream c env r ν

end Settle

/-! ### Statuses -/

theorem isStatus_of_le {status : ℤ} (h : 100 ≤ status ∧ status ≤ 999) : isStatus status = true := by
  have hmod : status.bmod (2 ^ 32) = status := Int.bmod_eq_of_le (by omega) (by omega)
  rw [isStatus, hmod]
  simpa using h

theorem Upstream.isStatus_status (u : Upstream) : isStatus u.status = true :=
  isStatus_of_le ⟨by linarith [u.valid.1], by linarith [u.valid.2]⟩

theorem gives_authorizeRequest (env : Env τ) :
    Gives (fun denied => ∀ status ∈ denied, isStatus status = true) (authorizeRequest env) := by
  have hstatus : ∀ status : ℤ, isStatus status = true →
      ∀ status' ∈ some status, isStatus status' = true := by
    rintro status h status' ⟨⟩
    exact h
  refine Gives.bind fun denied => ?_
  split
  · exact gives_pure (hstatus 401 (isStatus_of_le (by norm_num)))
  rw [checkRate]
  split
  · exact gives_pure (by simp)
  refine Gives.bind fun ok => ?_
  split
  · exact gives_pure (by simp)
  · exact Gives.bind fun _ => gives_pure (hstatus 429 (isStatus_of_le (by norm_num)))

theorem gives_maybeProtectResponse (c : Config) (env : Env τ) (route : RouteContext)
    (u : Upstream) :
    Gives (fun status => isStatus status = true) (maybeProtectResponse c env route u) := by
  have h502 : isStatus 502 = true := isStatus_of_le (by norm_num)
  have hite : ∀ b : Bool, isStatus (if b then 502 else u.status) = true := by
    rintro (_ | _)
    · exact u.isStatus_status
    · exact h502
  have hun : ∀ hardDeny, Gives (fun status => isStatus status = true)
      (unprotectedResponse c env u hardDeny) := by
    intro hardDeny
    refine Gives.bind fun _ => gives_pure ?_
    split
    · exact u.isStatus_status
    · exact h502
  rw [maybeProtectResponse]
  split
  · exact Gives.bind fun tooLarge => gives_pure (hite tooLarge)
  refine Gives.bind fun tooLarge => ?_
  split
  · exact hun true
  rw [protectBody]
  split
  · exact hun false
  split
  · exact hun false
  refine Gives.bind fun blocked => ?_
  split
  · exact gives_pure h502
  · exact Gives.bind fun _ => gives_pure u.isStatus_status

/-- An answer of the gateway itself has a status that can be sent. -/
def Sendable (p : Except Thrown Reply) : Prop :=
  ∀ status, p = .ok (.json status) → isStatus status = true

theorem sendable_json {status : ℤ} (h : isStatus status = true) :
    Sendable (.ok (.json status)) := by
  rintro status' ⟨⟩
  exact h

theorem Sendable.bind {α : Type} {x : Except Thrown α} {k : α → Except Thrown Reply}
    (h : ∀ a, x = .ok a → Sendable (k a)) : Sendable (x >>= k) := by
  cases x with
  | error e => rintro status ⟨⟩
  | ok a => exact h a rfl

section Sendable

variable (c : Config) (env : Env τ) (r : Request) (ν : Type) [JsNumber ν]

theorem sendable_planStreaming (route : RouteContext) : Sendable (planStreaming c env route) := by
  have hjson : ∀ status : ℤ, 100 ≤ status ∧ status ≤ 999 → Sendable (.ok (.json status)) :=
    fun _ h => sendable_json (isStatus_of_le h)
  rw [planStreaming]
  split
  · rw [planInspected]
    split
    · exact hjson 501 (by norm_num)
    refine Sendable.bind fun blocked _ => ?_
    split
    · exact hjson 403 (by norm_num)
    · exact Sendable.bind fun u _ => Sendable.bind fun _ _ => by rintro status ⟨⟩
  · exact Sendable.bind fun _ _ => Sendable.bind fun u _ => by rintro status ⟨⟩
  · exact hjson 501 (by norm_num)

theorem sendable_planBuffered (route : RouteContext) : Sendable (planBuffered c env route) := by
  refine Sendable.bind fun blocked _ => ?_
  split
  · exact sendable_json (isStatus_of_le (by norm_num))
  refine Sendable.bind fun u _ => Sendable.bind fun status hstatus => sendable_json ?_
  exact gives_maybeProtectResponse c env route u [] status hstatus

theorem sendable_planUpstream : Sendable (planUpstream c env r ν) := by
  refine Sendable.bind fun _ _ => Sendable.bind fun route _ => Sendable.bind fun denied hd => ?_
  cases denied with
  | some status => exact sendable_json (gives_authorizeRequest env [] _ hd status rfl)
  | none =>
    refine Sendable.bind fun body _ => Sendable.bind fun json _ => ?_
    split
    · exact Sendable.bind fun _ _ => sendable_json (isStatus_of_le (by norm_num))
    split
    · exact sendable_planStreaming c env route
    · exact sendable_planBuffered c env route

theorem sendable_plan : Sendable (plan c env r ν) := by
  have hjson : ∀ status : ℤ, 100 ≤ status ∧ status ≤ 999 → Sendable (.ok (.json status)) :=
    fun _ h => sendable_json (isStatus_of_le h)
  rw [plan]
  split
  · exact hjson 403 (by norm_num)
  split
  · exact hjson 200 (by norm_num)
  split
  · exact hjson _ (by cases env.ready <;> norm_num)
  split
  · exact hjson 200 (by norm_num)
  split
  · exact hjson _ (by cases c.metricsEnabled <;> norm_num)
  · exact sendable_planUpstream c env r ν

end Sendable

/-! ### Behind the head -/

/-- What an inspected stream runs through. -/
def streamSteps (env : Env τ) (u : Upstream) : List (InspectStep τ) :=
  if u.body.isSome then env.inspected else []

/-- No read and no frame fails up to the end of the stream or the frame that is blocked. -/
def Unbroken : List (InspectStep τ) → Prop
  | [] => True
  | .sourceFailed _ :: _ => False
  | .frame _ _ .written :: steps => Unbroken steps
  | .frame _ _ .blocked :: _ => True
  | .frame _ _ (.failed _) :: _ => False

/-- What the protector counts until the stream stops. -/
def tallied : List (InspectStep τ) → List τ
  | [] => []
  | .sourceFailed _ :: _ => []
  | .frame _ tallies .written :: steps => tallies ++ tallied steps
  | .frame _ tallies _ :: _ => tallies

/-- Events of a body. -/
def Body : Event τ → Prop
  | .write _ | .finish | .destroy => True
  | _ => False

theorem writeAll_apply (ns : List ℕ) (s : List (Event τ)) :
    (writeAll ns : M τ Unit) s = (.ok (), s ++ ns.map .write) := by
  induction ns generalizing s with
  | nil => simp [writeAll, Pure.pure, Act.pure]
  | cons n ns ih =>
    rw [writeAll, emit_bind_apply, ih]
    simp

theorem body_map_write (ns : List ℕ) : ∀ e ∈ ns.map (Event.write (τ := τ)), Body e := by
  intro e he
  obtain ⟨n, -, rfl⟩ := List.mem_map.mp he
  trivial

theorem inspectResponseStream_frame (seen : List τ) (writes : List ℕ) (tallies : List τ)
    (result : FrameEnd) (steps : List (InspectStep τ)) (s : List (Event τ)) :
    inspectResponseStream seen (.frame writes tallies result :: steps) s =
      (match result with
        | .written => inspectResponseStream (seen ++ tallies) steps
        | .blocked => Pure.pure (true, seen ++ tallies)
        | .failed e => raise e) (s ++ writes.map Event.write) := by
  rw [inspectResponseStream.eq_def]
  show (writeAll writes >>= fun _ => _ : M τ _) s = _
  cases result <;> simp only [bind_apply, writeAll_apply]

theorem inspectResponseStream_unbroken {steps : List (InspectStep τ)} (h : Unbroken steps)
    (seen : List τ) (s : List (Event τ)) : ∃ blocked es, (∀ e ∈ es, Body e) ∧
      inspectResponseStream seen steps s = (.ok (blocked, seen ++ tallied steps), s ++ es) := by
  induction steps generalizing seen s with
  | nil => exact ⟨false, [], by simp, by simp [inspectResponseStream, tallied, Pure.pure, Act.pure]⟩
  | cons step steps ih =>
    cases step with
    | sourceFailed e => exact h.elim
    | frame writes tallies result =>
      rw [inspectResponseStream_frame]
      cases result with
      | failed e => exact h.elim
      | blocked => exact ⟨true, writes.map .write, body_map_write writes, rfl⟩
      | written =>
        obtain ⟨blocked, es, hes, heq⟩ := ih h (seen ++ tallies) (s ++ writes.map .write)
        refine ⟨blocked, writes.map .write ++ es, fun e he => ?_, ?_⟩
        · exact (List.mem_append.mp he).elim (body_map_write writes e) (hes e)
        · simpa [tallied] using heq

theorem inspectResponseStream_broken {steps : List (InspectStep τ)} (h : ¬Unbroken steps)
    (seen : List τ) (s : List (Event τ)) :
    ∃ err es, inspectResponseStream seen steps s = (.error err, s ++ es) := by
  induction steps generalizing seen s with
  | nil => exact absurd trivial h
  | cons step steps ih =>
    cases step with
    | sourceFailed e => exact ⟨e, [], by simp [inspectResponseStream, raise]⟩
    | frame writes tallies result =>
      rw [inspectResponseStream_frame]
      cases result with
      | failed e => exact ⟨e, writes.map .write, rfl⟩
      | blocked => exact absurd trivial h
      | written =>
        obtain ⟨err, es, heq⟩ := ih h (seen ++ tallies) (s ++ writes.map .write)
        exact ⟨err, writes.map .write ++ es, by simpa using heq⟩

/-- The program returns and closes the response, and it leaves only body events. -/
def Closes (m : M τ Unit) : Prop := ∀ s, ∃ es, (∀ e ∈ es, Body e) ∧
  (.finish ∈ es ∨ .destroy ∈ es) ∧ m s = (.ok (), s ++ es)

theorem closes_finish : Closes (emit .finish : M τ Unit) := fun _ =>
  ⟨[.finish], by simp [Body], by simp, rfl⟩

theorem closes_destroy : Closes (emit .destroy : M τ Unit) := fun _ =>
  ⟨[.destroy], by simp [Body], by simp, rfl⟩

theorem Closes.emit_bind {m : M τ Unit} {e : Event τ} (he : Body e) (h : Closes m) :
    Closes (emit e >>= fun _ => m) := by
  intro s
  obtain ⟨es, hes, hclosed, heq⟩ := h (s ++ [e])
  refine ⟨e :: es, by simpa using ⟨he, hes⟩, ?_, ?_⟩
  · exact hclosed.imp (List.mem_cons_of_mem e) (List.mem_cons_of_mem e)
  · rw [emit_bind_apply, heq]
    simp

theorem closes_unlessGone (client : List Client) {m : M τ Unit} (h : Closes m) :
    Closes (unlessGone client m) := by
  rw [unlessGone]
  split
  · exact Closes.emit_bind (show Body .destroy from trivial) closes_finish
  · exact h

theorem closes_pipeChunks (maxBytes : ℕ) (reads : List Read) (received : ℕ)
    (client : List Client) : Closes (pipeChunks maxBytes reads received client : M τ Unit) := by
  induction reads generalizing received client with
  | nil => exact closes_unlessGone client closes_finish
  | cons read reads ih =>
    cases read with
    | failed e => exact closes_unlessGone client closes_destroy
    | chunk n =>
      refine closes_unlessGone client ?_
      split
      · exact closes_destroy
      · refine Closes.emit_bind (show Body (.write n) from trivial) ?_
        split
        · exact closes_destroy
        · exact ih _ _

theorem closes_pipeUpstreamBody (c : Config) (env : Env τ) (u : Upstream) :
    Closes (pipeUpstreamBody c env u) := by
  rw [pipeUpstreamBody]
  split
  · exact closes_finish
  · exact closes_pipeChunks _ _ _ _

/-! ### Recovery -/

namespace Event

def isCount : Event τ → Bool
  | .count => true
  | _ => false

def isUncount : Event τ → Bool
  | .uncount => true
  | _ => false

end Event

/-- What is thrown before the head can be answered, and nothing fails behind the head of
an inspected stream. -/
def Answerable (env : Env τ) : Except Thrown Reply → Prop
  | .error .nullish => False
  | .error (.error statusCode _) => isStatus (statusCode.getD 500) = true
  | .ok (.inspected u) => Unbroken (streamSteps env u) ∧ env.streamAudit = .ok ()
  | .ok _ => True

/-- What is left between the counts. -/
structure Answered (env : Env τ) (p : Except Thrown Reply) (es : List (Event τ)) : Prop where
  oneHead : es.countP Event.isHead ≤ 1
  closed : .finish ∈ es ∨ .destroy ∈ es
  uncounted : es.countP Event.isCount = 0 ∧ es.countP Event.isUncount = 0
  recorded : ∀ u, p = .ok (.inspected u) → ∃ blocked, es.filter Event.isStreamRecord =
    [.streamRecord blocked (tallied (streamSteps env u))]

theorem countP_eq_zero_of_kind {P : Event τ → Prop} {f : Event τ → Bool}
    (h : ∀ e, P e → f e = false) {es : List (Event τ)} (hes : ∀ e ∈ es, P e) :
    es.countP f = 0 := by
  rw [List.countP_eq_zero]
  intro e he
  simp [h e (hes e he)]

theorem filter_eq_nil_of_kind {P : Event τ → Prop} {f : Event τ → Bool}
    (h : ∀ e, P e → f e = false) {es : List (Event τ)} (hes : ∀ e ∈ es, P e) :
    es.filter f = [] := by
  rw [List.filter_eq_nil_iff]
  intro e he
  simp [h e (hes e he)]

theorem Body.isHead {e : Event τ} (h : Body e) : e.isHead = false := by
  cases e <;> first | rfl | exact h.elim

theorem Body.isCount {e : Event τ} (h : Body e) : e.isCount = false := by
  cases e <;> first | rfl | exact h.elim

theorem Body.isUncount {e : Event τ} (h : Body e) : e.isUncount = false := by
  cases e <;> first | rfl | exact h.elim

theorem Body.isStreamRecord {e : Event τ} (h : Body e) : e.isStreamRecord = false := by
  cases e <;> first | rfl | exact h.elim

theorem writeHead_apply {status : ℤ} (h : isStatus status = true) {s : List (Event τ)}
    (hs : s.countP Event.isHead = 0) :
    (writeHead status : M τ Unit) s = (.ok (), s ++ [.head status]) := by
  have hany : s.any Event.isHead = false := by
    rw [List.any_eq_false]
    exact List.countP_eq_zero.mp hs
  simp [writeHead, hany, h]

theorem writeJson_apply {status : ℤ} (h : isStatus status = true) {s : List (Event τ)}
    (hs : s.countP Event.isHead = 0) :
    (writeJson status : M τ Unit) s = (.ok (), s ++ [.head status, .finish]) := by
  rw [writeJson, bind_apply, writeHead_apply h hs]
  simp [emit]

/-- The head fails where there is one. -/
theorem writeJson_late (status : ℤ) {s : List (Event τ)} (hs : s.countP Event.isHead ≠ 0) :
    ∃ e, (writeJson status : M τ Unit) s = (.error e, s) := by
  have hany : s.any Event.isHead = true := by
    by_contra h
    rw [Bool.not_eq_true, List.any_eq_false] at h
    exact hs (List.countP_eq_zero.mpr h)
  exact ⟨_, by rw [writeJson, bind_apply, writeHead, if_pos hany]⟩

theorem recovery_late (e : Thrown) {s : List (Event τ)} (hs : s.countP Event.isHead ≠ 0) :
    ∃ e', (recovery e : M τ Unit) s = (.error e', s) := by
  cases e with
  | nullish => exact ⟨_, rfl⟩
  | error statusCode errorCode => exact writeJson_late _ hs

theorem answered_json (env : Env τ) {p : Except Thrown Reply} (hp : ∀ u, p ≠ .ok (.inspected u))
    (status : ℤ) : Answered env p [.head status, .finish] where
  oneHead := by simp [Event.isHead, List.countP_cons]
  closed := by simp
  uncounted := by simp [Event.isCount, Event.isUncount]
  recorded := fun u hu => absurd hu (hp u)

section Recover

variable (c : Config) (env : Env τ)

theorem deliver_answered {p : Except Thrown Reply} (hp : Sendable p) (h : Answerable env p)
    {s : List (Event τ)} (hs : s.countP Event.isHead = 0) : ∃ es, Answered env p es ∧
      (deliver c env p).recover recovery s = (.ok (), s ++ es) := by
  match p with
  | .error (.error statusCode _) =>
    exact ⟨_, answered_json env (by simp) _, writeJson_apply h hs⟩
  | .ok (.json status) =>
    refine ⟨_, answered_json env (by simp) status, ?_⟩
    show Act.recover (writeJson status) recovery s = _
    rw [Act.recover, writeJson_apply (hp status rfl) hs]
  | .ok (.piped u) =>
    obtain ⟨es, hes, hclosed, heq⟩ :=
      closes_pipeUpstreamBody c env u (s ++ [.head u.status])
    refine ⟨.head u.status :: es, ⟨?_, ?_, ⟨?_, ?_⟩, by simp⟩, ?_⟩
    · simp [List.countP_cons, Event.isHead, countP_eq_zero_of_kind (fun _ => Body.isHead) hes]
    · exact hclosed.imp (List.mem_cons_of_mem _) (List.mem_cons_of_mem _)
    · simp [Event.isCount, countP_eq_zero_of_kind (fun _ => Body.isCount) hes]
    · simp [Event.isUncount, countP_eq_zero_of_kind (fun _ => Body.isUncount) hes]
    · show Act.recover (writeHead u.status >>= fun _ => pipeUpstreamBody c env u) recovery s = _
      rw [Act.recover, bind_apply, writeHead_apply u.isStatus_status hs]
      simp [heq]
  | .ok (.inspected u) =>
    obtain ⟨blocked, es, hes, heq⟩ :=
      inspectResponseStream_unbroken h.1 [] (s ++ [.head u.status])
    rw [List.nil_append] at heq
    refine ⟨.head u.status :: es ++ [.streamRecord blocked (tallied (streamSteps env u)), .finish],
      ⟨?_, by simp, ⟨?_, ?_⟩, ?_⟩, ?_⟩
    · simp [List.countP_append, List.countP_cons, Event.isHead,
        countP_eq_zero_of_kind (fun _ => Body.isHead) hes]
    · simp [List.countP_append, Event.isCount,
        countP_eq_zero_of_kind (fun _ => Body.isCount) hes]
    · simp [List.countP_append, Event.isUncount,
        countP_eq_zero_of_kind (fun _ => Body.isUncount) hes]
    · rintro _ ⟨⟩
      exact ⟨blocked, by simp [List.filter_append, List.filter_cons, Event.isStreamRecord,
        filter_eq_nil_of_kind (fun _ => Body.isStreamRecord) hes]⟩
    · show Act.recover (writeHead u.status >>= fun _ => sendInspected env u) recovery s = _
      rw [Act.recover, bind_apply, writeHead_apply u.isStatus_status hs]
      simp only [sendInspected, bind_apply]
      rw [← streamSteps, heq, h.2]
      simp [emit, Act.pure, Pure.pure]

theorem deliver_rejected {p : Except Thrown Reply} (h : ¬Answerable env p)
    {s : List (Event τ)} (hs : s.countP Event.isHead = 0) :
    ∃ e, ((deliver c env p).recover recovery s).1 = .error e := by
  match p with
  | .error .nullish => exact ⟨_, rfl⟩
  | .error (.error statusCode _) =>
    have hany : s.any Event.isHead = false := by
      rw [List.any_eq_false]
      exact List.countP_eq_zero.mp hs
    refine ⟨.error none (some (js "ERR_HTTP_INVALID_STATUS_CODE")), ?_⟩
    show ((writeJson (statusCode.getD 500) : M τ Unit) s).1 = _
    rw [writeJson, bind_apply, writeHead, if_neg (by simp [hany]), if_neg (show ¬isStatus (statusCode.getD 500) = true from h)]
  | .ok (.json status) => exact absurd trivial h
  | .ok (.piped u) => exact absurd trivial h
  | .ok (.inspected u) =>
    have hfail : ∃ e es, sendInspected env u (s ++ [.head u.status]) =
        (.error e, s ++ [.head u.status] ++ es) := by
      simp only [sendInspected, bind_apply]
      rw [← streamSteps]
      by_cases hsteps : Unbroken (streamSteps env u)
      · obtain ⟨blocked, es, -, heq⟩ :=
          inspectResponseStream_unbroken hsteps [] (s ++ [.head u.status])
        rw [heq]
        cases ha : env.streamAudit with
        | error e => exact ⟨e, es, rfl⟩
        | ok _ => exact absurd ⟨hsteps, ha⟩ h
      · obtain ⟨e, es, heq⟩ := inspectResponseStream_broken hsteps [] (s ++ [.head u.status])
        rw [heq]
        exact ⟨e, es, rfl⟩
    obtain ⟨e, es, heq⟩ := hfail
    obtain ⟨e', he'⟩ := recovery_late e (s := s ++ [.head u.status] ++ es)
      (by simp [List.countP_append, List.countP_cons, Event.isHead])
    refine ⟨e', ?_⟩
    show (Act.recover (writeHead u.status >>= fun _ => sendInspected env u) recovery s).1 = _
    rw [Act.recover, bind_apply, writeHead_apply u.isStatus_status hs]
    simp only [heq, he']

end Recover

section Settled

variable (c : Config) (env : Env τ) (r : Request) (ν : Type) [JsNumber ν] (inFlight : ℕ)

/-- The promise resolves, the head is written at most once, the response is closed, the
count is taken back, and an inspected stream that delivered a byte leaves its record. -/
structure Settled : Prop where
  resolves : (requestHandler c env r ν inFlight []).1 = .ok ()
  oneHead : (events c env r ν inFlight).countP Event.isHead ≤ 1
  closed : .finish ∈ events c env r ν inFlight ∨ .destroy ∈ events c env r ν inFlight
  counted : (events c env r ν inFlight).countP Event.isUncount =
    (events c env r ν inFlight).countP Event.isCount
  once : (events c env r ν inFlight).countP Event.isCount ≤ 1
  recorded : ∀ u, plan c env r ν = .ok (.inspected u) →
    (∃ n, 0 < n ∧ .write n ∈ events c env r ν inFlight) →
      ∃ blocked, (events c env r ν inFlight).filter Event.isStreamRecord =
        [.streamRecord blocked (tallied (streamSteps env u))]

/-- The request is turned away before any work. -/
def Overloaded : Prop :=
  isObservabilityRoute r = false ∧ 0 < c.maxInFlight ∧ c.maxInFlight ≤ inFlight

/-- The `try` block with its `catch`, up to records and reads. -/
theorem recover_serve {s : List (Event τ)} (hs : s.countP Event.isHead = 0) :
    ∃ qs, (∀ e ∈ qs, Quiet e) ∧ (s ++ qs).countP Event.isHead = 0 ∧
      (serve c env r ν).recover recovery s =
        (deliver c env (plan c env r ν)).recover recovery (s ++ qs) := by
  obtain ⟨qs, hqs, heq⟩ := leads_serve c env r ν s
  have hkind : ∀ e : Event τ, Quiet e → e.isHead = false := by
    rintro (_ | _) h <;> first | rfl | exact h.elim
  refine ⟨qs, hqs, ?_, by rw [Act.recover, Act.recover, heq]⟩
  rw [List.countP_append, hs, countP_eq_zero_of_kind hkind hqs]

/-- Between the counts, everything is answered. -/
theorem recover_serve_answered (h : Answerable env (plan c env r ν)) {s : List (Event τ)}
    (hs : s.countP Event.isHead = 0) : ∃ es, Answered env (plan c env r ν) es ∧
      (serve c env r ν).recover recovery s = (.ok (), s ++ es) := by
  obtain ⟨qs, hqs, hhead, heq⟩ := recover_serve c env r ν hs
  obtain ⟨es, hes, hdeliver⟩ := deliver_answered c env (sendable_plan c env r ν) h hhead
  have hcount : ∀ e : Event τ, Quiet e → e.isCount = false := by
    rintro (_ | _) h <;> first | rfl | exact h.elim
  have huncount : ∀ e : Event τ, Quiet e → e.isUncount = false := by
    rintro (_ | _) h <;> first | rfl | exact h.elim
  have hrecord : ∀ e : Event τ, Quiet e → e.isStreamRecord = false := by
    rintro (_ | _) h <;> first | rfl | exact h.elim
  have hqhead : qs.countP Event.isHead = 0 := by
    rw [List.countP_append] at hhead
    omega
  refine ⟨qs ++ es, ⟨?_, ?_, ⟨?_, ?_⟩, fun u hu => ?_⟩, by rw [heq, hdeliver, List.append_assoc]⟩
  · rw [List.countP_append, hqhead, Nat.zero_add]
    exact hes.oneHead
  · exact hes.closed.imp (List.mem_append_right qs) (List.mem_append_right qs)
  · rw [List.countP_append, countP_eq_zero_of_kind hcount hqs, hes.uncounted.1]
  · rw [List.countP_append, countP_eq_zero_of_kind huncount hqs, hes.uncounted.2]
  · obtain ⟨blocked, hfilter⟩ := hes.recorded u hu
    exact ⟨blocked, by rw [List.filter_append, filter_eq_nil_of_kind hrecord hqs, hfilter]; rfl⟩

theorem requestHandler_overloaded (h : Overloaded c r inFlight) :
    requestHandler c env r ν inFlight = writeJson 503 := by
  simp [requestHandler, h.1, h.2.1, h.2.2]

theorem requestHandler_exempt (h : isObservabilityRoute r = true) :
    requestHandler c env r ν inFlight = (serve c env r ν).recover recovery := by
  simp [requestHandler, h]

theorem requestHandler_counted (h : isObservabilityRoute r = false)
    (hover : ¬Overloaded c r inFlight) : requestHandler c env r ν inFlight [] =
      (((serve c env r ν).recover recovery [.count]).1,
        ((serve c env r ν).recover recovery [.count]).2 ++ [.uncount]) := by
  have hceiling : (0 < c.maxInFlight && c.maxInFlight ≤ inFlight) = false := by
    rw [Bool.eq_false_iff]
    intro htrue
    rw [Bool.and_eq_true, decide_eq_true_eq, decide_eq_true_eq] at htrue
    exact hover ⟨h, htrue⟩
  simp only [requestHandler, h, Bool.not_false, Bool.true_and, hceiling, Bool.false_eq_true,
    if_false]
  rfl

/-- The handler settles exactly when the request is turned away for load, or what is
thrown before the head can be answered and nothing fails behind an inspected stream's
head. -/
theorem settled_iff : Settled c env r ν inFlight ↔
    Overloaded c r inFlight ∨ Answerable env (plan c env r ν) := by
  by_cases hover : Overloaded c r inFlight
  · have hrun : requestHandler c env r ν inFlight [] = (.ok (), [.head 503, .finish]) := by
      rw [requestHandler_overloaded c env r ν inFlight hover]
      exact writeJson_apply (isStatus_of_le (by norm_num)) rfl
    have hevents : events c env r ν inFlight = [.head 503, .finish] := by rw [events, hrun]
    refine iff_of_true ⟨by rw [hrun], ?_, ?_, ?_, ?_, ?_⟩ (.inl hover)
    · simp [hevents, List.countP_cons, Event.isHead]
    · simp [hevents]
    · simp [hevents, Event.isCount, Event.isUncount]
    · simp [hevents, Event.isCount]
    · simp [hevents]
  have hreject : ∀ {s : List (Event τ)}, s.countP Event.isHead = 0 →
      ¬Answerable env (plan c env r ν) →
      ((serve c env r ν).recover recovery s).1 ≠ .ok () := by
    intro s hs h
    obtain ⟨qs, -, hhead, heq⟩ := recover_serve c env r ν hs
    obtain ⟨e, he⟩ := deliver_rejected c env h hhead
    rw [heq, he]
    simp
  by_cases hexempt : isObservabilityRoute r = true
  · have hrun := requestHandler_exempt c env r ν inFlight hexempt
    constructor
    · intro h
      by_contra hnot
      refine hreject (s := []) rfl (fun ha => hnot (.inr ha)) ?_
      rw [← hrun]
      exact h.resolves
    · intro h
      obtain ⟨es, hes, heq⟩ := recover_serve_answered c env r ν (h.resolve_left hover) (s := []) rfl
      have hevents : events c env r ν inFlight = es := by
        rw [events, hrun, heq]
        rfl
      exact ⟨by rw [hrun, heq], hevents ▸ hes.oneHead, hevents ▸ hes.closed,
        by rw [hevents, hes.uncounted.1, hes.uncounted.2], by simp [hevents, hes.uncounted.1],
        fun u hu _ => hevents ▸ hes.recorded u hu⟩
  · have hrun := requestHandler_counted c env r ν inFlight (by simpa using hexempt) hover
    constructor
    · intro h
      by_contra hnot
      refine hreject (s := [.count]) rfl (fun ha => hnot (.inr ha)) ?_
      rw [← h.resolves, hrun]
    · intro h
      obtain ⟨es, hes, heq⟩ :=
        recover_serve_answered c env r ν (h.resolve_left hover) (s := [.count]) rfl
      have hevents : events c env r ν inFlight = .count :: es ++ [.uncount] := by
        rw [events, hrun, heq]
        rfl
      refine ⟨by rw [hrun, heq], ?_, ?_, ?_, ?_, fun u hu _ => ?_⟩
      · rw [hevents]
        simpa [List.countP_append, List.countP_cons, Event.isHead] using hes.oneHead
      · rw [hevents]
        exact hes.closed.imp (by simp +contextual) (by simp +contextual)
      · simp [hevents, List.countP_append, List.countP_cons, Event.isCount, Event.isUncount,
          hes.uncounted.1, hes.uncounted.2]
      · simp [hevents, List.countP_append, List.countP_cons, Event.isCount, hes.uncounted.1]
      · obtain ⟨blocked, hfilter⟩ := hes.recorded u hu
        exact ⟨blocked, by simp [hevents, List.filter_append,
          Event.isStreamRecord, hfilter]⟩

end Settled

/-- Inspected streams are on. -/
def inspecting : Config := { remote with requestMode := .inspect, enforceForwardedProto := false }

/-- The upstream body fails after one chunk. -/
def broken : Env ℕ where
  ready := true
  classify := .ok ⟨true, true, true, true⟩
  authentication := none
  allowed := none
  modelAllowlist := none
  body := .ok []
  audit := fun _ => .ok ()
  protectRequest := .ok false
  upstreamUrl := .ok ()
  fetched := .response ⟨200, none, false, false, some [], valid_ok⟩
  createProtector := .ok ()
  inspected := [.frame [5] [1] .written, .sourceFailed (.error none none)]
  streamAudit := .ok ()
  client := []
  validJson := true
  protectResponse := .ok false
  detokenize := .ok ()

/-- The body of an inspected stream fails after a frame is sent: the head is written
again, and the handler rejects. -/
theorem broken_rejected : ¬∀ (c : Config) (env : Env ℕ) (r : Request) (inFlight : ℕ),
    Settled c env r NumberToken inFlight := by
  intro h
  have hrun : (requestHandler inspecting broken ⟨js "POST", js "/api/chat", none⟩ NumberToken 0
      []).1 = .error (.error none (some (js "ERR_HTTP_HEADERS_SENT"))) := by rfl
  have hresolves := (h inspecting broken ⟨js "POST", js "/api/chat", none⟩ 0).resolves
  rw [hrun] at hresolves
  cases hresolves

end Haechi.Proxy
