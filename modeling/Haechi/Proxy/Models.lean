import Haechi.Proxy.Adapters
import Haechi.Proxy.Exempt

/-! The model list of a profile. The check looks at the `model` of the body and lets a
body pass in which it is missing or no string, and it does not look at the path, where
the protocols of one adapter put the model. Proved: a request is forwarded only with a
model on the list exactly when the check sees the model. -/

namespace Haechi.Proxy

open Text Act

variable {τ ν : Type} [JsNumber ν]

/-- What the handler takes from a classified request. -/
def Classified.routeContext (r : Classified) : RouteContext :=
  ⟨r.protectRequest, r.protectResponse, r.streamingByDefault, r.streaming.isSome⟩

/-- The model of a path: its last segment, up to the method. -/
def pathModel (methodSuffix pathname : JsString) : JsString :=
  (pathname.take (pathname.length - (methodSuffix.length + 1))).rtakeWhile (· != 47)

def bodyModel (v : JsValue ν) : Option JsString :=
  match v.get (js "model") with
  | .str model => some model
  | _ => none

/-- The method of the path, on a route that is known by it. -/
def pathMethod (a : Adapter) (pathname : JsString) : Option JsString :=
  (matchRoute a.routes pathname).bind (·.methodSuffix)

/-- The model that a request is for. -/
def addressedModel (a : Adapter) (pathname : JsString) (v : JsValue ν) : Option JsString :=
  match pathMethod a pathname with
  | some methodSuffix => some (pathModel methodSuffix pathname)
  | none => bodyModel v

/-- The request is answered before its body is looked at, whatever the configuration. -/
def AnsweredFirst (r : Request) : Prop := isRelativeTarget r.url = false ∨ LocalRoute r

/-- The body says a model; or the path does, and that model is on the list or the body
says one that is not. -/
def ModelSeen (models : List JsString) (a : Adapter) (pathname : JsString) (v : JsValue ν) : Prop :=
  match pathMethod a pathname with
  | some methodSuffix =>
    pathModel methodSuffix pathname ∈ models ∨ ∃ m, bodyModel v = some m ∧ m ∉ models
  | none => ∃ m, bodyModel v = some m

omit [JsNumber ν] in
theorem modelDenied_iff (models : List JsString) (v : JsValue ν) :
    modelDenied (some models) v = true ↔ ∃ m, bodyModel v = some m ∧ m ∉ models := by
  unfold modelDenied bodyModel
  cases v.get (js "model") <;> simp

/-! ### A denied request -/

section Denied

variable {c : Config} {env : Env τ} {r : Request} {inFlight : ℕ}

/-- The event is no upstream call. -/
def Unsent : Event τ → Prop
  | .forward => False
  | _ => True

theorem unsent_of_local {e : Event τ} (h : Local e) : Unsent e := by
  cases e <;> trivial

theorem only_requestHandler (h : Only Unsent (serve c env r ν)) :
    Only Unsent (requestHandler c env r ν inFlight) := by
  have hrecovered : Only Unsent ((serve c env r ν).recover recovery) :=
    h.recover (only_recovery (fun _ => trivial) trivial)
  rw [requestHandler]
  split
  · exact only_writeJson _ trivial trivial
  split
  · exact hrecovered
  · exact (only_emit trivial).bind fun _ => hrecovered.ensure trivial

theorem forward_notMem_events (h : Only Unsent (serve c env r ν)) :
    Event.forward ∉ events c env r ν inFlight :=
  fun hforward => (only_requestHandler h).forall_mem (s := []) (by simp) _ hforward

/-- A request that is answered first goes nowhere. -/
theorem only_serve_of_answeredFirst (h : AnsweredFirst r) : Only Unsent (serve c env r ν) := by
  by_cases hroute : LocalRoute r
  · exact (serve_local c env r ν hroute).mono fun _ => unsent_of_local
  have hrelative := h.resolve_right hroute
  rcases hgate : c.enforceForwardedProto && !isObservabilityRoute r && !isForwardedHttps r with _ | _
  · rw [serve_upstream c env r ν hroute hgate, serveUpstream, assertRelativeProxyTarget, hrelative]
    exact only_raise _
  · rw [serve, if_pos hgate]
    exact only_writeJson _ trivial trivial

theorem only_serve_of_denied {body : JsString} {v : JsValue ν} (hbody : env.body = .ok body)
    (hv : parseJsonBody body = .ok v) (hdenied : modelDenied env.modelAllowlist v = true) :
    Only Unsent (serve c env r ν) := by
  by_cases hroute : LocalRoute r
  · exact (serve_local c env r ν hroute).mono fun _ => unsent_of_local
  rcases hgate : c.enforceForwardedProto && !isObservabilityRoute r && !isForwardedHttps r with _ | _
  · rw [serve_upstream c env r ν hroute hgate, serveUpstream]
    refine (only_assertRelativeProxyTarget r).bind fun _ => (only_await _).bind fun route =>
      (only_authorizeRequest env fun _ => trivial).bind fun denied => ?_
    split
    · exact only_writeJson _ trivial trivial
    · rw [serveAuthorized, serveBody, hbody, await_ok, pure_bind, hv, await_ok, pure_bind,
        if_pos hdenied]
      exact (only_emit trivial).bind fun _ =>
        (only_record env _ trivial).bind fun _ => only_writeJson _ trivial trivial
  · rw [serve, if_pos hgate]
    exact only_writeJson _ trivial trivial

end Denied

/-! ### A forwarded request -/

/-- No gate, no ceiling, and a streaming request passes. -/
def ungated : Config where
  enforceForwardedProto := false
  maxInFlight := 0
  metricsEnabled := false
  requestMode := .passThrough
  responseProtection := ⟨false, 0, false, false⟩
  passThroughMaxBytes := 0
  detokenizeResponses := false

/-- Nothing fails and nothing is blocked. -/
def unhindered (route : RouteContext) (models : List JsString) (body : JsString) : Env τ where
  ready := true
  classify := .ok route
  authentication := none
  allowed := none
  modelAllowlist := some models
  body := .ok body
  audit := fun _ => .ok ()
  protectRequest := .ok false
  upstreamUrl := .ok ()
  fetched := .response ⟨200, none, false, true, none, valid_ok⟩
  createProtector := .ok ()
  inspected := []
  streamAudit := .ok ()
  client := []
  validJson := true
  protectResponse := .ok false
  detokenize := .ok ()

section Forwarded

variable {r : Request} {route : RouteContext} {models : List JsString} {body : JsString}
  {v : JsValue ν}

theorem forward_bind_mem {env : Env τ} (hurl : env.upstreamUrl = .ok ()) {f : Upstream → M τ Unit}
    (hf : ∀ u, Grows (f u)) (s : List (Event τ)) : Event.forward ∈ ((forward env >>= f) s).2 := by
  rw [forward, hurl, await_ok, pure_bind, bind_assoc, emit_bind_apply]
  refine Only.mem (Only.bind ?_ hf) (by simp)
  split
  · exact only_pure _
  · exact only_raise _
  · exact only_raise _

theorem forward_mem_serveStreaming (s : List (Event τ)) :
    Event.forward ∈ (serveStreaming ungated (unhindered route models body) route s).2 := by
  have hrecord : (record (unhindered route models body) (js "streaming_request_pass_through") :
      M τ Unit) = emit (.record (js "streaming_request_pass_through")) := rfl
  simp only [serveStreaming, ungated]
  rw [hrecord, emit_bind_apply]
  refine forward_bind_mem rfl (fun u => (only_writeHead _ trivial).bind fun _ => ?_) _
  rw [pipeUpstreamBody]
  split
  · exact only_emit trivial
  · exact grows_pipeChunks _ _ _ _

theorem forward_mem_serveBuffered (s : List (Event τ)) :
    Event.forward ∈ (serveBuffered ungated (unhindered route models body) route s).2 := by
  have hprotect : (await (if route.protectRequest then .ok false else .ok false) : M τ Bool) =
      Pure.pure false := by rw [ite_self, await_ok]
  simp only [serveBuffered, unhindered]
  rw [hprotect, pure_bind, if_neg Bool.false_ne_true]
  exact forward_bind_mem rfl (fun u => (grows_maybeProtectResponse _ _ route u).bind fun _ =>
    (only_writeHead _ trivial).bind fun _ => only_emit trivial) _

/-- Where nothing hinders a request that passes the check, it is forwarded. -/
theorem forward_mem_events (hr : ¬AnsweredFirst r) (hv : parseJsonBody body = .ok v)
    (hpass : modelDenied (some models) v = false) :
    Event.forward ∈ events ungated (unhindered route models body : Env τ) r ν 0 := by
  rw [AnsweredFirst, not_or, Bool.not_eq_false] at hr
  have hserve : ∀ s, Event.forward ∈ (serve ungated (unhindered route models body : Env τ) r ν s).2 := by
    intro s
    rw [serve_upstream _ _ r ν hr.2 rfl,
      serveUpstream_admitted _ _ r ν hr.1 rfl ⟨.inl rfl, .inl rfl⟩, serveAuthorized, emit_bind_apply,
      serveBody]
    show Event.forward ∈ ((await (.ok body) >>= fun body => _) _).2
    rw [await_ok, pure_bind, hv, await_ok, pure_bind, if_neg]
    rotate_left
    · show ¬modelDenied (some models) v = true
      rw [hpass]
      exact Bool.false_ne_true
    split
    · exact forward_mem_serveStreaming _
    · exact forward_mem_serveBuffered _
  have hrecovered : ∀ s, Event.forward ∈
      ((serve ungated (unhindered route models body : Env τ) r ν).recover recovery s).2 := fun s =>
    Only.mem_recover (only_recovery (P := fun _ => True) (fun _ => trivial) trivial) (hserve s)
  rw [events, requestHandler, if_neg (by simp [ungated])]
  split
  · exact hrecovered _
  · exact List.mem_append_left _ (hrecovered _)

end Forwarded

/-- In every configuration and environment with this list and this body, the request is
forwarded only with a model on the list, exactly when the check sees the model or the
request is answered before. -/
theorem forwarded_listed_iff (a : Adapter) (r : Request) (pathname : JsString)
    (models : List JsString) (body : JsString) (v : JsValue ν) (hv : parseJsonBody body = .ok v) :
    (∀ (c : Config) (env : Env τ) (inFlight : ℕ),
        env.classify = .ok (a.classifyRequest r.method pathname).routeContext →
        env.modelAllowlist = some models → env.body = .ok body →
        Event.forward ∈ events c env r ν inFlight →
          ∃ m ∈ models, addressedModel a pathname v = some m) ↔
      AnsweredFirst r ∨ ModelSeen models a pathname v := by
  constructor
  · intro h
    by_contra hnot
    rw [not_or] at hnot
    obtain ⟨hr, hseen⟩ := hnot
    have hforward := fun hpass => h ungated (unhindered _ models body) 0 rfl rfl rfl
      (forward_mem_events hr hv hpass)
    rw [← Bool.not_eq_true, modelDenied_iff] at hforward
    cases hmethod : pathMethod a pathname with
    | none =>
      simp only [ModelSeen, addressedModel, hmethod] at hseen hforward
      obtain ⟨m, -, hm⟩ := hforward fun hdenied => hseen ⟨_, hdenied.choose_spec.1⟩
      exact hseen ⟨m, hm⟩
    | some methodSuffix =>
      simp only [ModelSeen, addressedModel, hmethod, not_or] at hseen hforward
      obtain ⟨m, hm, haddressed⟩ := hforward hseen.2
      rw [Option.some.inj haddressed] at hseen
      exact hseen.1 hm
  · rintro (hanswered | hseen) c env inFlight - hmodels hbody hforward
    · exact absurd hforward (forward_notMem_events (only_serve_of_answeredFirst hanswered))
    have hpass : ¬∃ m, bodyModel v = some m ∧ m ∉ models := by
      rw [← modelDenied_iff, ← hmodels]
      exact fun hdenied => forward_notMem_events (only_serve_of_denied hbody hv hdenied) hforward
    cases hmethod : pathMethod a pathname with
    | none =>
      simp only [ModelSeen, addressedModel, hmethod] at hseen ⊢
      obtain ⟨m, hm⟩ := hseen
      exact ⟨m, by_contra fun hnotMem => hpass ⟨m, hm, hnotMem⟩, hm⟩
    | some methodSuffix =>
      simp only [ModelSeen, addressedModel, hmethod] at hseen ⊢
      exact ⟨_, hseen.resolve_right hpass, rfl⟩

def openaiAdapter : Adapter := ⟨js "openai-compatible", js "llm-http", openaiRoutes⟩

def geminiAdapter : Adapter := ⟨js "gemini", js "gemini", geminiRoutes⟩

def chatBody : JsString := js "\x7b\"model\":\"llama3\"\x7d"

def chatValue : JsValue NumberToken := .obj [(js "model", .str (js "llama3"))]

theorem parseJsonBody_chatBody : parseJsonBody chatBody = .ok chatValue := by
  have htext : Json.stringify chatValue = some chatBody := by decide +kernel
  have hparse := Json.parse_stringify htext (JsValue.distinct_obj.mpr ⟨by decide, by
    simp [JsValue.Distinct]⟩)
  have hprune : chatValue.prune = chatValue := JsValue.prune_of_isJson _ rfl
  rw [parseJsonBody, if_neg (by decide), hparse, hprune]

theorem chat_forwarded_listed :
    createProtocolAdapter none none = .ok openaiAdapter ∧
      ∀ (c : Config) (env : Env ℕ) (inFlight : ℕ),
        env.classify = .ok (openaiAdapter.classifyRequest (js "POST")
          (js "/v1/chat/completions")).routeContext →
        env.modelAllowlist = some [js "llama3"] → env.body = .ok chatBody →
        Event.forward ∈ events c env ⟨js "POST", js "/v1/chat/completions", none⟩ NumberToken
          inFlight →
          ∃ m ∈ [js "llama3"], addressedModel openaiAdapter (js "/v1/chat/completions") chatValue =
            some m :=
  ⟨rfl, (forwarded_listed_iff openaiAdapter ⟨js "POST", js "/v1/chat/completions", none⟩
    (js "/v1/chat/completions") [js "llama3"] chatBody chatValue parseJsonBody_chatBody).mpr
      (.inr ⟨js "llama3", rfl⟩)⟩

/-- A request for a model that is not on the list is forwarded: the path says the model. -/
theorem path_model_forwarded :
    createProtocolAdapter (some (js "gemini")) none = .ok geminiAdapter ∧
      Event.forward ∈ events ungated
        (unhindered (geminiAdapter.classifyRequest (js "POST")
          (js "/v1beta/models/gemini-2.5-pro:generateContent")).routeContext
          [js "gemini-2.0-flash"] (js "\x7b\x7d") : Env ℕ)
        ⟨js "POST", js "/v1beta/models/gemini-2.5-pro:generateContent", none⟩ NumberToken 0 ∧
      addressedModel geminiAdapter (js "/v1beta/models/gemini-2.5-pro:generateContent")
        (.obj [] : JsValue NumberToken) = some (js "gemini-2.5-pro") ∧
      js "gemini-2.5-pro" ∉ [js "gemini-2.0-flash"] := by
  have hbody : parseJsonBody (js "\x7b\x7d") = .ok (.obj [] : JsValue NumberToken) := rfl
  have hr : ¬AnsweredFirst
      ⟨js "POST", js "/v1beta/models/gemini-2.5-pro:generateContent", none⟩ := by
    simp only [AnsweredFirst, LocalRoute]
    decide
  have hpass : modelDenied (some [js "gemini-2.0-flash"]) (.obj [] : JsValue NumberToken) = false := rfl
  exact ⟨rfl, forward_mem_events hr hbody hpass, rfl, by decide⟩

end Haechi.Proxy
