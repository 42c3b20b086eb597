import Haechi.Proxy.Handler

/-! The routes under `/__haechi/` are exempt from the ceiling on requests in flight
and from the forwarded-proto gate, because the gateway answers them itself. The
exemption looks at a prefix, the local routes at the whole target. Proved: an exempt
request is answered without reading its body and without an upstream call, and every
forwarded request has passed the gate and is counted, exactly when the target is one
of the four routes or the request is stopped before its body. -/

namespace Haechi.Proxy

open Text Act

variable {τ : Type}

/-- The event reads no body and calls no upstream. -/
def Local : Event τ → Prop
  | .readBody | .forward => False
  | _ => True

theorem only_writeHead {P : Event τ → Prop} (status : ℤ) (h : P (.head status)) :
    Only P (writeHead status : M τ Unit) := by
  intro s
  rw [writeHead]
  split_ifs
  · exact ⟨[], by simp, by simp⟩
  · exact ⟨[.head status], by simpa using h, rfl⟩
  · exact ⟨[], by simp, by simp⟩

theorem only_writeJson {P : Event τ → Prop} (status : ℤ) (h : P (.head status))
    (hf : P .finish) : Only P (writeJson status : M τ Unit) :=
  (only_writeHead status h).bind fun _ => only_emit hf

theorem only_recovery {P : Event τ → Prop} (h : ∀ status, P (.head status)) (hf : P .finish)
    (e : Thrown) : Only P (recovery e : M τ Unit) := by
  cases e with
  | nullish => exact only_raise _
  | error statusCode errorCode => exact only_writeJson _ (h _) hf

section Stages

variable (c : Config) (env : Env τ)

theorem only_record {P : Event τ → Prop} (decision : JsString) (h : P (.record decision)) :
    Only P (record env decision) :=
  (only_await _).bind fun _ => only_emit h

theorem only_assertRelativeProxyTarget {P : Event τ → Prop} (r : Request) :
    Only P (assertRelativeProxyTarget r : M τ Unit) := by
  rw [assertRelativeProxyTarget]
  split
  · exact only_pure _
  · exact only_raise _

theorem only_authorizeRequest {P : Event τ → Prop} (h : ∀ decision, P (.record decision)) :
    Only P (authorizeRequest env) := by
  refine Only.bind ?_ fun denied => ?_
  · rw [authenticate]
    split
    · exact only_pure _
    · exact only_pure _
    · exact (only_record env _ (h _)).bind fun _ => only_pure _
    · exact (only_record env _ (h _)).bind fun _ => only_pure _
  · split
    · exact only_pure _
    · rw [checkRate]
      split
      · exact only_pure _
      · refine (only_await _).bind fun ok => ?_
        split
        · exact only_pure _
        · exact (only_record env _ (h _)).bind fun _ => only_pure _

/-- Everything that is left is left after what was there. -/
abbrev Grows {α : Type} (m : M τ α) : Prop := Only (fun _ => True) m

theorem grows_forward : Grows (forward env) := by
  refine (only_await _).bind fun _ => (only_emit trivial).bind fun _ => ?_
  split
  · exact only_pure _
  · exact only_raise _
  · exact only_raise _

theorem grows_unprotectedResponse (u : Upstream) (hardDeny : Bool) :
    Grows (unprotectedResponse c env u hardDeny) :=
  (only_record env _ trivial).bind fun _ => only_pure _

theorem grows_protectBody (u : Upstream) : Grows (protectBody c env u) := by
  rw [protectBody]
  split
  · exact grows_unprotectedResponse c env u false
  split
  · exact grows_unprotectedResponse c env u false
  refine (only_await _).bind fun blocked => ?_
  split
  · exact only_pure _
  · exact (only_await _).bind fun _ => only_pure _

theorem grows_maybeProtectResponse (route : RouteContext) (u : Upstream) :
    Grows (maybeProtectResponse c env route u) := by
  rw [maybeProtectResponse]
  split
  · exact (only_await _).bind fun _ => only_pure _
  · refine (only_await _).bind fun tooLarge => ?_
    split
    · exact grows_unprotectedResponse c env u true
    · exact grows_protectBody c env u

theorem grows_unlessGone (client : List Client) {m : M τ Unit} (h : Grows m) :
    Grows (unlessGone client m) := by
  rw [unlessGone]
  split
  · exact (only_emit trivial).bind fun _ => only_emit trivial
  · exact h

theorem grows_pipeChunks (maxBytes : ℕ) (reads : List Read) (received : ℕ)
    (client : List Client) : Grows (pipeChunks maxBytes reads received client : M τ Unit) := by
  induction reads generalizing received client with
  | nil => exact grows_unlessGone client (only_emit trivial)
  | cons read reads ih =>
    cases read with
    | failed e => exact grows_unlessGone client (only_emit trivial)
    | chunk n =>
      refine grows_unlessGone client ?_
      split
      · exact only_emit trivial
      · refine (only_emit trivial).bind fun _ => ?_
        split
        · exact only_emit trivial
        · exact ih _ _

theorem grows_writeAll (ns : List ℕ) : Grows (writeAll ns : M τ Unit) := by
  induction ns with
  | nil => exact only_pure _
  | cons n ns ih => exact (only_emit trivial).bind fun _ => ih

theorem grows_inspectResponseStream (seen : List τ) (steps : List (InspectStep τ)) :
    Grows (inspectResponseStream seen steps) := by
  induction steps generalizing seen with
  | nil => exact only_pure _
  | cons step steps ih =>
    cases step with
    | sourceFailed e => exact only_raise e
    | frame writes tallies result =>
      refine (grows_writeAll writes).bind fun _ => ?_
      cases result with
      | written => exact ih _
      | blocked => exact only_pure _
      | failed e => exact only_raise e

theorem grows_handleInspectedStream (route : RouteContext) :
    Grows (handleInspectedStream env route) := by
  rw [handleInspectedStream]
  split
  · exact only_writeJson _ trivial trivial
  refine (only_await _).bind fun blocked => ?_
  split
  · exact only_writeJson _ trivial trivial
  refine (grows_forward env).bind fun u => (only_await _).bind fun _ =>
    (only_writeHead _ trivial).bind fun _ => ?_
  exact (grows_inspectResponseStream _ _).bind fun _ => (only_await _).bind fun _ =>
    (only_emit trivial).bind fun _ => only_emit trivial

theorem grows_serveStreaming (route : RouteContext) : Grows (serveStreaming c env route) := by
  rw [serveStreaming]
  split
  · exact grows_handleInspectedStream env route
  · refine (only_record env _ trivial).bind fun _ => (grows_forward env).bind fun u =>
      (only_writeHead _ trivial).bind fun _ => ?_
    rw [pipeUpstreamBody]
    split
    · exact only_emit trivial
    · exact grows_pipeChunks _ _ _ _
  · exact only_writeJson _ trivial trivial

theorem grows_serveBuffered (route : RouteContext) : Grows (serveBuffered c env route) := by
  refine (only_await _).bind fun blocked => ?_
  split
  · exact only_writeJson _ trivial trivial
  · exact (grows_forward env).bind fun u => (grows_maybeProtectResponse c env route u).bind fun _ =>
      (only_writeHead _ trivial).bind fun _ => only_emit trivial

variable (r : Request) (ν : Type) [JsNumber ν]

theorem grows_serveBody (route : RouteContext) : Grows (serveBody c env ν route) := by
  refine (only_await _).bind fun body => (only_await _).bind fun json => ?_
  split
  · exact (only_record env _ trivial).bind fun _ => only_writeJson _ trivial trivial
  split
  · exact grows_serveStreaming c env route
  · exact grows_serveBuffered c env route

theorem grows_serve : Grows (serve c env r ν) := by
  have hjson : ∀ status, Grows (writeJson status : M τ Unit) := fun status =>
    only_writeJson status trivial trivial
  rw [serve]
  split
  · exact hjson _
  split
  · exact hjson _
  split
  · exact hjson _
  split
  · exact hjson _
  split
  · split
    · exact (only_writeHead _ trivial).bind fun _ => only_emit trivial
    · exact hjson _
  refine (only_assertRelativeProxyTarget r).bind fun _ => (only_await _).bind fun route =>
    (only_authorizeRequest env fun _ => trivial).bind fun denied => ?_
  split
  · exact hjson _
  · exact (only_emit trivial).bind fun _ => grows_serveBody c env ν route

/-! ### Before the body -/

/-- The target is one of the four local routes. -/
def LocalRoute (r : Request) : Prop :=
  r.method = js "GET" ∧ r.url ∈ [js "/__haechi/live", js "/__haechi/ready", js "/__haechi/health",
    js "/__haechi/metrics"]

/-- Authentication and the rate limit let the request through. -/
def Admitted : Prop :=
  (env.authentication = none ∨ env.authentication = some .identity) ∧
    (env.allowed = none ∨ env.allowed = some (.ok true))

theorem authorizeRequest_admitted (h : Admitted env) :
    authorizeRequest env = (Pure.pure none : M τ (Option ℤ)) := by
  obtain ⟨hauth, hrate⟩ := h
  have hdenied : authenticate env = (Pure.pure false : M τ Bool) := by
    rcases hauth with hauth | hauth <;> rw [authenticate, hauth]
  rw [authorizeRequest, hdenied, pure_bind, checkRate]
  rcases hrate with hrate | hrate <;> rw [hrate] <;> rfl

theorem authorizeRequest_denied (h : ¬Admitted env) : ∃ m : M τ ℤ, Only Local m ∧
    authorizeRequest env = m >>= fun status => Pure.pure (some status) := by
  have hrecord : ∀ decision, Only Local (record env decision) := fun decision =>
    only_record env decision trivial
  by_cases hauth : env.authentication = none ∨ env.authentication = some .identity
  · have hdenied : authenticate env = (Pure.pure false : M τ Bool) := by
      rcases hauth with hauth | hauth <;> rw [authenticate, hauth]
    have hrate : authorizeRequest env = checkRate env := by
      rw [authorizeRequest, hdenied, pure_bind]
      rfl
    rcases ha : env.allowed with _ | e | ok
    · exact absurd ⟨hauth, .inl ha⟩ h
    · exact ⟨raise e, only_raise e, by rw [hrate, checkRate, ha]; rfl⟩
    · cases ok
      · refine ⟨record env (js "rate_limited") >>= fun _ => Pure.pure 429,
          (hrecord _).bind fun _ => only_pure _, ?_⟩
        rw [hrate, checkRate, ha, bind_assoc]
        rfl
      · exact absurd ⟨hauth, .inr ha⟩ h
  · refine ⟨record env (js "auth_denied") >>= fun _ => Pure.pure 401,
      (hrecord _).bind fun _ => only_pure _, ?_⟩
    have hdenied : authenticate env = record env (js "auth_denied") >>= fun _ =>
        Pure.pure true := by
      rw [authenticate]
      rcases ha : env.authentication with _ | _ | _ | _
      · exact absurd (.inl ha) hauth
      · exact absurd (.inr ha) hauth
      · rfl
      · rfl
    rw [authorizeRequest, hdenied, bind_assoc, bind_assoc]
    rfl

/-- A request that is stopped before its body. -/
theorem serveUpstream_stopped (h : ∀ route, env.classify = .ok route → ¬Admitted env) :
    Only Local (serveUpstream c env r ν) := by
  refine (only_assertRelativeProxyTarget r).bind fun _ => ?_
  rcases hc : env.classify with e | route
  · exact only_raise e
  obtain ⟨m, hm, heq⟩ := authorizeRequest_denied env (h route hc)
  rw [await_ok, pure_bind, heq, bind_assoc]
  exact hm.bind fun status => only_writeJson status trivial trivial

/-- A request that is not stopped is served from its body on. -/
theorem serveUpstream_admitted (hr : isRelativeTarget r.url = true) {route : RouteContext}
    (hc : env.classify = .ok route) (h : Admitted env) :
    serveUpstream c env r ν = serveAuthorized c env ν route := by
  rw [serveUpstream, assertRelativeProxyTarget, if_pos hr, pure_bind, hc, await_ok, pure_bind,
    authorizeRequest_admitted env h, pure_bind]

end Stages

/-! ### The exemption -/

theorem isRelativeTarget_of_exempt {r : Request} (h : isObservabilityRoute r = true) :
    isRelativeTarget r.url = true := by
  simp only [isObservabilityRoute, Bool.and_eq_true, List.isPrefixOf_iff_prefix] at h
  obtain ⟨-, rest, hurl⟩ := h
  have htrim : ∃ rest', trim r.url = 47 :: 95 :: rest' := by
    have hdrop : r.url.dropWhile isSpace = r.url := by
      rw [← hurl]
      rfl
    rw [trim, hdrop]
    have hcons : r.url = 47 :: 95 :: ((js "/__haechi/").drop 2 ++ rest) := by
      rw [← hurl]
      rfl
    rw [hcons]
    generalize (js "/__haechi/").drop 2 ++ rest = tail
    induction tail using List.reverseRecOn with
    | nil => exact ⟨[], by decide +kernel⟩
    | append_singleton tail x ih =>
      have happ : 47 :: 95 :: (tail ++ [x]) = (47 :: 95 :: tail) ++ [x] := rfl
      rw [happ, List.rdropWhile_concat]
      split
      · exact ih
      · exact ⟨tail ++ [x], rfl⟩
  obtain ⟨rest', htrim⟩ := htrim
  simp [isRelativeTarget, htrim, hasScheme, isAlpha, js, List.isPrefixOf]

theorem isLocal_iff {r : Request} : LocalRoute r ↔
    isLocal r "/__haechi/live" = true ∨ isLocal r "/__haechi/ready" = true ∨
      isLocal r "/__haechi/health" = true ∨ isLocal r "/__haechi/metrics" = true := by
  simp only [LocalRoute, isLocal, Bool.and_eq_true, beq_iff_eq, List.mem_cons, List.not_mem_nil,
    or_false, and_or_left]

section Requests

variable (c : Config) (env : Env τ) (r : Request) (ν : Type) [JsNumber ν]

theorem serve_local (h : LocalRoute r) : Only Local (serve c env r ν) := by
  have hjson : ∀ status, Only Local (writeJson status : M τ Unit) := fun status =>
    only_writeJson status trivial trivial
  rw [serve]
  split
  · exact hjson _
  split
  · exact hjson _
  split
  · exact hjson _
  split
  · exact hjson _
  split
  · split
    · exact (only_writeHead _ trivial).bind fun _ => only_emit trivial
    · exact hjson _
  · rcases isLocal_iff.mp h with h | h | h | h <;> exact absurd h ‹_›

theorem serve_upstream (h : ¬LocalRoute r)
    (hgate : (c.enforceForwardedProto && !isObservabilityRoute r && !isForwardedHttps r) = false) :
    serve c env r ν = serveUpstream c env r ν := by
  rw [isLocal_iff] at h
  push Not at h
  simp only [serve, hgate, Bool.false_eq_true, if_false, h.1, h.2.1, h.2.2.1, h.2.2.2]

/-- The events of a request that arrives while some number of others are in flight. -/
def events (inFlight : ℕ) : List (Event τ) := (requestHandler c env r ν inFlight []).2

/-- An exempt request reads no body and calls no upstream, and a forwarded one has passed
the gate and is counted, exactly when an exempt request has a local route or is stopped
before its body. -/
theorem exempt_local_iff (inFlight : ℕ) :
    ((isObservabilityRoute r = true → Event.readBody ∉ events c env r ν inFlight ∧
          Event.forward ∉ events c env r ν inFlight) ∧
        (Event.forward ∈ events c env r ν inFlight →
          (c.enforceForwardedProto = true → isForwardedHttps r = true) ∧
            ∃ served, events c env r ν inFlight = Event.count :: served ++ [Event.uncount])) ↔
      (isObservabilityRoute r = true → LocalRoute r ∨
        ∀ route, env.classify = .ok route → ¬Admitted env) := by
  have hhandler : ∀ e, Only Local (recovery e : M τ Unit) :=
    only_recovery (fun _ => trivial) trivial
  have hgrows : ∀ e, Grows (recovery e : M τ Unit) := only_recovery (fun _ => trivial) trivial
  have hlocal : ∀ m : M τ Unit, Only Local m → ∀ s : List (Event τ), (∀ e ∈ s, Local e) →
      Event.readBody ∉ (m s).2 ∧ Event.forward ∉ (m s).2 := fun m hm s hs =>
    ⟨fun h => hm.forall_mem hs _ h, fun h => hm.forall_mem hs _ h⟩
  by_cases hexempt : isObservabilityRoute r = true
  · have hrun : requestHandler c env r ν inFlight = (serve c env r ν).recover recovery := by
      simp [requestHandler, hexempt]
    simp only [hexempt, forall_const]
    constructor
    · rintro ⟨⟨hread, -⟩, -⟩
      by_contra hnot
      push Not at hnot
      obtain ⟨hroute, route, hc, hadmitted⟩ := hnot
      refine hread ?_
      have hserve : serve c env r ν = serveAuthorized c env ν route := by
        rw [serve_upstream c env r ν hroute (by simp [hexempt]),
          serveUpstream_admitted c env r ν (isRelativeTarget_of_exempt hexempt) hc hadmitted]
      rw [events, hrun]
      refine Only.mem_recover hgrows ?_
      rw [hserve, serveAuthorized, emit_bind_apply]
      exact (grows_serveBody c env ν route).mem (by simp)
    · intro h
      have honly : Only Local (serve c env r ν) := by
        by_cases hroute : LocalRoute r
        · exact serve_local c env r ν hroute
        · rw [serve_upstream c env r ν hroute (by simp [hexempt])]
          exact serveUpstream_stopped c env r ν (h.resolve_left hroute)
      have hevents := hlocal _ (honly.recover hhandler) [] (by simp)
      rw [← hrun] at hevents
      exact ⟨hevents, fun hf => absurd hf hevents.2⟩
  · have hexempt : isObservabilityRoute r = false := by simpa using hexempt
    simp only [hexempt, Bool.false_eq_true, false_imp_iff, true_and, iff_true]
    intro hforward
    by_cases hover : (0 < c.maxInFlight && c.maxInFlight ≤ inFlight) = true
    · have hrun : requestHandler c env r ν inFlight = writeJson 503 := by
        simp only [requestHandler, hexempt, Bool.not_false, Bool.true_and, hover, if_true]
      rw [events, hrun] at hforward
      exact absurd hforward (hlocal _ (only_writeJson _ trivial trivial) [] (by simp)).2
    have hrun : requestHandler c env r ν inFlight =
        emit .count >>= fun _ => ((serve c env r ν).recover recovery).ensure .uncount := by
      simp only [requestHandler, hexempt, Bool.not_false, Bool.true_and, hover,
        Bool.false_eq_true, if_false]
    have hevents : events c env r ν inFlight =
        ((serve c env r ν).recover recovery [.count]).2 ++ [.uncount] := by
      rw [events, hrun]
      rfl
    constructor
    · intro henforce
      by_contra hhttps
      have hserve : serve c env r ν = writeJson 403 := by
        simp [serve, henforce, hexempt, hhttps]
      have honly : Only Local (serve c env r ν) := by
        rw [hserve]
        exact only_writeJson _ trivial trivial
      rw [hevents, List.mem_append] at hforward
      refine hforward.elim ?_ (by simp)
      exact (hlocal _ (honly.recover hhandler) [.count] (by simp [Local])).2
    · obtain ⟨served, -, hserved⟩ := (grows_serve c env r ν).recover hgrows [.count]
      exact ⟨served, by rw [hevents, hserved]; rfl⟩

end Requests

/-- A gateway on a remote bind behind a TLS hop, with a ceiling of one request. -/
def remote : Config where
  enforceForwardedProto := true
  maxInFlight := 1
  metricsEnabled := true
  requestMode := .block
  responseProtection := ⟨true, 1048576, false, false⟩
  passThroughMaxBytes := 1048576
  detokenizeResponses := false

/-- Nobody is authenticated and nothing fails. -/
def calm : Env ℕ where
  ready := true
  classify := .ok ⟨true, true, false, false⟩
  authentication := none
  allowed := none
  modelAllowlist := none
  body := .ok []
  audit := fun _ => .ok ()
  protectRequest := .ok false
  upstreamUrl := .ok ()
  fetched := .response ⟨200, none, false, true, none, valid_ok⟩
  createProtector := .ok ()
  inspected := []
  streamAudit := .ok ()
  client := []
  validJson := true
  protectResponse := .ok false
  detokenize := .ok ()

/-- `GET /__haechi/other` over plain HTTP, with the ceiling reached, goes upstream. -/
theorem exempt_forwarded : ¬∀ (c : Config) (env : Env ℕ) (r : Request) (inFlight : ℕ),
    (isObservabilityRoute r = true → Event.readBody ∉ events c env r NumberToken inFlight ∧
        Event.forward ∉ events c env r NumberToken inFlight) ∧
      (Event.forward ∈ events c env r NumberToken inFlight →
        (c.enforceForwardedProto = true → isForwardedHttps r = true) ∧
          ∃ served, events c env r NumberToken inFlight =
            Event.count :: served ++ [Event.uncount]) := by
  intro h
  have hevents : events remote calm ⟨js "GET", js "/__haechi/other", none⟩ NumberToken 1 =
      [.readBody, .forward, .head 200, .finish] := by rfl
  obtain ⟨hread, -⟩ := (h remote calm ⟨js "GET", js "/__haechi/other", none⟩ 1).1
    (by decide +kernel)
  exact hread (by rw [hevents]; simp)

end Haechi.Proxy
