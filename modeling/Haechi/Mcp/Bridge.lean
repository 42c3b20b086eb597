import Haechi.Runs
import Haechi.Text.Lines
import Haechi.Text.Plain

/-! The MCP bridge between a client and the server it wraps. Each side's lines are
taken one at a time; a message is forwarded to the other side, rejected with an error
to the client, or dropped. The bridge keeps no record of ids: an error bears the id
of the message it rejects, whichever side that came from. -/

namespace Haechi.Mcp

open Text JsValue

variable {ν : Type} [JsNumber ν]

/-! ### One message -/

/-- The settings under `mcp`. -/
structure McpPolicy where
  requireJsonRpc : Bool
  allowedMethods : List JsString
  protectParams : Bool
  protectResults : Bool

/-- What `protectJson` comes to. -/
inductive Protected (ν : Type) where
  | threw (reason : JsString)
  | blocked (auditId summary : JsValue ν)
  | passed (payload : JsValue ν)

/-- `protectJson`, given the operation and the direction. -/
abbrev ProtectJson (ν : Type) := JsValue ν → JsString → JsValue ν → Protected ν

inductive Tagged (ν : Type) where
  | forward (message : JsValue ν)
  | reject (message : JsValue ν)
  | drop

def number (s : String) : JsValue ν := .num (JsNumber.ofText (js s))

/-- `errorJsonRpc`. -/
def errorJsonRpc (id : JsValue ν) (code message : String) (data : JsValue ν) : JsValue ν :=
  .obj [(js "jsonrpc", .str (js "2.0")),
    (js "error", .obj [(js "code", number code), (js "message", .str (js message)),
      (js "data", data)]),
    (js "id", id.orElse .null)]

/-- `stdioError`. -/
def stdioError (reason : JsString) : JsValue ν :=
  .obj [(js "jsonrpc", .str (js "2.0")),
    (js "error", .obj [(js "code", number "-32000"), (js "message", .str (js "haechi_mcp_stdio_error")),
      (js "data", .obj [(js "reason", .str reason)])]),
    (js "id", .null)]

/-- `blockedJsonRpc`. -/
def blockedJsonRpc (id auditId summary : JsValue ν) : JsValue ν :=
  errorJsonRpc id "-32001" "haechi_policy_block"
    (.obj [(js "auditId", auditId), (js "summary", summary)])

/-- `value === text`. -/
def isText (text : JsString) : JsValue ν → Bool
  | .str s => s == text
  | _ => false

def isUndef : JsValue ν → Bool
  | .undef => true
  | _ => false

/-- `methodAllowed`. -/
def methodAllowed (method : JsValue ν) (allowedMethods : List JsString) : Bool :=
  js "*" ∈ allowedMethods || allowedMethods.any fun m => isText m method

/-- `isNotification`, of an object. -/
def isNotification (fields : List (JsString × JsValue ν)) : Bool :=
  !isUndef ((JsValue.obj fields).get (js "method")) && (field? (js "id") fields).isNone

/-- A rejection, which is not sent for a notification. -/
def rejected (fields : List (JsString × JsValue ν)) (error : JsValue ν) : Tagged ν :=
  if isNotification fields then .drop else .reject error

/-- One member put through `protectJson`: the members after it, or the block. -/
def protectMember (on : Bool) (k : JsString) (protectJson : JsValue ν → Protected ν)
    (fields : List (JsString × JsValue ν)) :
    Except JsString ((JsValue ν × JsValue ν) ⊕ List (JsString × JsValue ν)) :=
  match on, field? k fields with
  | true, some v =>
    match protectJson v with
    | .threw reason => .error reason
    | .blocked auditId summary => .ok (.inl (auditId, summary))
    | .passed payload => .ok (.inr (setField k payload fields))
  | _, _ => .ok (.inr fields)

/-- `protectTagged`. -/
def protectTagged (policy : McpPolicy) (enforceMethodAllowlist : Bool) (protectJson : ProtectJson ν)
    (message : JsValue ν) : Except JsString (Tagged ν) :=
  match message with
  | .obj fields =>
    let method := message.get (js "method")
    let id := message.get (js "id")
    if policy.requireJsonRpc && !isText (js "2.0") (message.get (js "jsonrpc")) then
      .ok (rejected fields (errorJsonRpc id "-32002" "haechi_mcp_invalid_jsonrpc"
        (.obj [(js "reason", .str (js "MCP messages must use JSON-RPC 2.0"))])))
    else if enforceMethodAllowlist && method.truthy &&
        !methodAllowed method policy.allowedMethods then
      .ok (rejected fields (errorJsonRpc id "-32003" "haechi_mcp_method_not_allowed"
        (.obj [(js "method", method)])))
    else
      match protectMember policy.protectParams (js "params")
          (protectJson (method.orElse (.str (js "params"))) (js "request")) fields with
      | .error reason => .error reason
      | .ok (.inl block) => .ok (rejected fields (blockedJsonRpc id block.1 block.2))
      | .ok (.inr next) =>
        match protectMember policy.protectResults (js "result")
            (protectJson (.str (js "result")) (js "response")) next with
        | .error reason => .error reason
        | .ok (.inl block) => .ok (.reject (blockedJsonRpc id block.1 block.2))
        | .ok (.inr next) => .ok (.forward (.obj next))
  | .arr _ => .error (js "JSON-RPC batch messages are not supported by the MCP stdio filter")
  | _ => .error (js "MCP message must be a JSON object")

/-! ### One line -/

/-- A line of either side, with what happens while it is processed: the runtime's
protection, the text of a syntax error, and whether the child's input is open. -/
structure Input (ν : Type) where
  line : JsString
  protectJson : ProtectJson ν
  syntaxError : JsString
  writable : Bool

/-- The outcome for a line that is not blank. -/
def Input.tagged (x : Input ν) (policy : McpPolicy) (enforceMethodAllowlist : Bool) :
    Except JsString (Tagged ν) :=
  match Json.parse x.line with
  | none => .error x.syntaxError
  | some message => protectTagged policy enforceMethodAllowlist x.protectJson message

/-- What a line makes the bridge write, to the child and to the client. -/
structure Written (ν : Type) where
  toChild : Option (JsValue ν)
  toClient : Option (JsValue ν)

/-- The body of `clientPump`. -/
def clientLine (policy : McpPolicy) (x : Input ν) : Written ν :=
  if trim x.line = [] then ⟨none, none⟩
  else
    match x.tagged policy true with
    | .error reason => ⟨none, some (stdioError reason)⟩
    | .ok (.forward message) => ⟨if x.writable then some message else none, none⟩
    | .ok (.reject message) => ⟨none, some message⟩
    | .ok .drop => ⟨none, none⟩

/-- The body of `serverPump`. -/
def serverLine (policy : McpPolicy) (x : Input ν) : Written ν :=
  if trim x.line = [] then ⟨none, none⟩
  else
    match x.tagged policy false with
    | .error reason => ⟨none, some (stdioError reason)⟩
    | .ok (.forward message) => ⟨none, some message⟩
    | .ok (.reject message) => ⟨none, some message⟩
    | .ok .drop => ⟨none, none⟩

/-! ### The two pumps -/

inductive Side where
  | client
  | server
deriving DecidableEq

/-- The body of a side's pump. -/
def written (policy : McpPolicy) : Side → Input ν → Written ν
  | .client => clientLine policy
  | .server => serverLine policy

/-- A message on its way, with the line that led to it. -/
structure Delivery (ν : Type) where
  side : Side
  line : ℕ
  message : JsValue ν

/-- The lines each pump has taken, and what the bridge has written. -/
structure Bridge (ν : Type) where
  lines : Side → List (Input ν)
  toChild : List (Delivery ν)
  toClient : List (Delivery ν)

/-- The pump of one side takes its next line. -/
structure Action (ν : Type) where
  side : Side
  input : Input ν

def step (policy : McpPolicy) (s : Bridge ν) (a : Action ν) : Bridge ν :=
  let w := written policy a.side a.input
  let line := (s.lines a.side).length
  { lines := Function.update s.lines a.side (s.lines a.side ++ [a.input])
    toChild := s.toChild ++ (w.toChild.map (Delivery.mk a.side line)).toList
    toClient := s.toClient ++ (w.toClient.map (Delivery.mk a.side line)).toList }

def start : Bridge ν := ⟨fun _ => [], [], []⟩

/-! ### What a message comes to -/

omit [JsNumber ν] in
theorem protectMember_ok {on : Bool} {k : JsString} {p : JsValue ν → Protected ν}
    {fields : List (JsString × JsValue ν)}
    {t : (JsValue ν × JsValue ν) ⊕ List (JsString × JsValue ν)}
    (h : protectMember on k p fields = .ok t) :
    (∀ next, t = .inr next → ∀ k', k' ≠ k → field? k' next = field? k' fields) ∧
      (∀ block, t = .inl block → (field? k fields).isSome) := by
  unfold protectMember at h
  split at h
  · next v hv =>
    split at h
    · cases h
    · obtain rfl := Except.ok.inj h
      exact ⟨fun next ht => (by cases ht), fun _ _ => by rw [hv]; rfl⟩
    · obtain rfl := Except.ok.inj h
      refine ⟨fun next ht k' hk' => ?_, fun block ht => by cases ht⟩
      obtain rfl := Sum.inr.inj ht
      exact field?_setField_of_ne hk' _ _
  · obtain rfl := Except.ok.inj h
    refine ⟨fun next ht k' _ => ?_, fun block ht => by cases ht⟩
    rw [Sum.inr.inj ht]

/-- A forwarded message keeps method and id; a rejection is a response under the id
of the message; and of a notification only a blocked result is rejected. -/
def Outcome (fields : List (JsString × JsValue ν)) : Tagged ν → Prop
  | .forward m => m.get (js "method") = (JsValue.obj fields).get (js "method") ∧
      m.get (js "id") = (JsValue.obj fields).get (js "id")
  | .reject e => e.get (js "method") = .undef ∧
      e.get (js "id") = ((JsValue.obj fields).get (js "id")).orElse .null ∧
      (isNotification fields = true → (field? (js "result") fields).isSome)
  | .drop => isNotification fields = true

omit [JsNumber ν] in
theorem outcome_rejected {fields : List (JsString × JsValue ν)} {e : JsValue ν}
    (hm : e.get (js "method") = .undef)
    (hid : e.get (js "id") = ((JsValue.obj fields).get (js "id")).orElse .null) :
    Outcome fields (rejected fields e) := by
  unfold rejected
  split_ifs with h
  · exact h
  · exact ⟨hm, hid, fun hn => absurd hn h⟩

theorem protectTagged_ok {policy : McpPolicy} {enforce : Bool} {p : ProtectJson ν}
    {message : JsValue ν} {t : Tagged ν} (h : protectTagged policy enforce p message = .ok t) :
    ∃ fields, message = .obj fields ∧ Outcome fields t := by
  unfold protectTagged at h
  split at h
  · next fields =>
    refine ⟨fields, rfl, ?_⟩
    simp only at h
    split_ifs at h
    · obtain rfl := Except.ok.inj h
      exact outcome_rejected rfl rfl
    · obtain rfl := Except.ok.inj h
      exact outcome_rejected rfl rfl
    · split at h
      · cases h
      · obtain rfl := Except.ok.inj h
        exact outcome_rejected rfl rfl
      · next next hparams =>
        have hnext := (protectMember_ok hparams).1 _ rfl
        split at h
        · cases h
        · next block hresult =>
          obtain rfl := Except.ok.inj h
          have hsome := (protectMember_ok hresult).2 _ rfl
          exact ⟨rfl, rfl, fun _ => hnext (js "result") (by decide) ▸ hsome⟩
        · next last hresult =>
          obtain rfl := Except.ok.inj h
          have hlast := (protectMember_ok hresult).1 _ rfl
          have hget : ∀ k, k ≠ js "params" → k ≠ js "result" →
              (JsValue.obj last).get k = (JsValue.obj fields).get k := by
            intro k hp hr
            rw [JsValue.get, JsValue.get, hlast k hr, hnext k hp]
          exact ⟨hget _ (by decide) (by decide), hget _ (by decide) (by decide)⟩
  · cases h
  · cases h

/-! ### What a line comes to -/

/-- The parsed id of the line's message. -/
def Input.id (x : Input ν) : JsValue ν :=
  (((Json.parse x.line).map fun m : JsValue ν => m.get (js "id")).getD .undef)

/-- The line's message calls no method. -/
def Input.isResponse (x : Input ν) : Bool :=
  ((Json.parse x.line).map fun m : JsValue ν => isUndef (m.get (js "method"))).getD false

/-- The line's message is a notification that bears no result. -/
def Input.isPlainNotification (x : Input ν) : Bool :=
  match (Json.parse x.line : Option (JsValue ν)) with
  | some (.obj fields) => isNotification fields && (field? (js "result") fields).isNone
  | _ => false

/-- The line's message is rejected, or its processing throws. -/
def Input.isRejected (x : Input ν) (policy : McpPolicy) (enforceMethodAllowlist : Bool) : Bool :=
  match x.tagged policy enforceMethodAllowlist with
  | .ok (.reject _) => true
  | _ => false

/-- Equality of ids: a text or a number. -/
def sameId : JsValue ν → JsValue ν → Bool
  | .str s, .str t => s == t
  | .num x, .num y => x == y
  | _, _ => false

/-- A response to the id. -/
def isResponseTo (k m : JsValue ν) : Bool :=
  isUndef (m.get (js "method")) && sameId k (m.get (js "id"))

theorem sameId_orElse {k v : JsValue ν} (h : sameId k (v.orElse .null) = true) :
    sameId k v = true := by
  cases v with
  | undef => cases k <;> cases h
  | _ => exact h

theorem tagged_ok {x : Input ν} {policy : McpPolicy} {enforce : Bool} {t : Tagged ν}
    (h : x.tagged policy enforce = .ok t) :
    ∃ fields, (Json.parse x.line : Option (JsValue ν)) = some (.obj fields) ∧ Outcome fields t := by
  unfold Input.tagged at h
  split at h
  · cases h
  · next message hm =>
    obtain ⟨fields, rfl, ht⟩ := protectTagged_ok h
    exact ⟨fields, hm, ht⟩

/-- What is written to the client for a line: the error of an exception, a message the
server sent, or the rejection of the line's message. -/
theorem written_toClient {policy : McpPolicy} {side : Side} {x : Input ν} {m : JsValue ν}
    (h : (written policy side x).toClient = some m) :
    (∃ reason, x.tagged policy (side = .client) = .error reason ∧ m = stdioError reason) ∨
      (side = .server ∧ x.tagged policy false = .ok (.forward m)) ∨
      x.tagged policy (side = .client) = .ok (.reject m) := by
  cases side with
  | client =>
    simp only [written, clientLine] at h
    by_cases hblank : trim x.line = []
    · rw [if_pos hblank] at h
      cases h
    rw [if_neg hblank] at h
    split at h
    · next reason ht => exact .inl ⟨reason, ht, (Option.some.inj h).symm⟩
    · cases h
    · next m' ht => exact .inr (.inr (Option.some.inj h ▸ ht))
    · cases h
  | server =>
    simp only [written, serverLine] at h
    split_ifs at h
    split at h
    · next reason ht => exact .inl ⟨reason, ht, (Option.some.inj h).symm⟩
    · next m' ht => exact .inr (.inl ⟨rfl, Option.some.inj h ▸ ht⟩)
    · next m' ht => exact .inr (.inr (Option.some.inj h ▸ ht))
    · cases h

/-- Only a message that is forwarded is written to the child, and nothing else then. -/
theorem written_toChild {policy : McpPolicy} {side : Side} {x : Input ν} {m : JsValue ν}
    (h : (written policy side x).toChild = some m) :
    side = .client ∧ x.tagged policy true = .ok (.forward m) ∧
      (written policy side x).toClient = none := by
  cases side with
  | client =>
    simp only [written, clientLine] at h ⊢
    by_cases hblank : trim x.line = []
    · rw [if_pos hblank] at h
      cases h
    rw [if_neg hblank] at h ⊢
    split at h
    · cases h
    · next m' ht =>
      rw [Option.ite_none_right_eq_some] at h
      rw [ht, ← Option.some.inj h.2]
      exact ⟨trivial, rfl, rfl⟩
    · cases h
    · cases h
  | server =>
    simp only [written, serverLine] at h
    split_ifs at h
    split at h <;> cases h

/-- A notification without a result leads to no response, unless its processing throws. -/
theorem not_response_of_notification {policy : McpPolicy} {side : Side} {x : Input ν}
    {m : JsValue ν} (h : (written policy side x).toClient = some m)
    (hn : x.isPlainNotification = true)
    (hok : ∀ reason, x.tagged policy (side = .client) ≠ .error reason) :
    isUndef (m.get (js "method")) = false := by
  have hparse : ∀ fields, (Json.parse x.line : Option (JsValue ν)) = some (.obj fields) →
      isNotification fields = true ∧ field? (js "result") fields = none := by
    intro fields hf
    simpa [Input.isPlainNotification, hf] using hn
  rcases written_toClient h with ⟨reason, ht, -⟩ | ⟨-, ht⟩ | ht
  · exact absurd ht (hok reason)
  · obtain ⟨fields, hf, hmethod, -⟩ := tagged_ok ht
    have := (hparse fields hf).1
    simp only [isNotification, Bool.and_eq_true, Bool.not_eq_true'] at this
    rw [hmethod, this.1]
  · obtain ⟨fields, hf, -, -, hresult⟩ := tagged_ok ht
    obtain ⟨hn, hnone⟩ := hparse fields hf
    rw [hnone] at hresult
    cases hresult hn

/-- A response to an id leads back to a message with that id: one that was rejected,
or a response of the server. -/
theorem answers_of_isResponseTo {policy : McpPolicy} {side : Side} {x : Input ν} {m k : JsValue ν}
    (h : (written policy side x).toClient = some m) (hk : isResponseTo k m = true) :
    sameId k x.id = true ∧
      (x.isRejected policy (side = .client) = true ∨ side = .server ∧ x.isResponse = true) := by
  obtain ⟨hmethod, hid⟩ := Bool.and_eq_true_iff.mp hk
  have hxid : ∀ {fields}, (Json.parse x.line : Option (JsValue ν)) = some (.obj fields) →
      x.id = (JsValue.obj fields).get (js "id") := fun hf => by
    rw [Input.id, hf, Option.map_some, Option.getD_some]
  rcases written_toClient h with ⟨reason, -, rfl⟩ | ⟨hside, ht⟩ | ht
  · have hnull : sameId k .null = true := hid
    cases k <;> cases hnull
  · obtain ⟨fields, hf, hm, hi⟩ := tagged_ok ht
    rw [hm] at hmethod
    refine ⟨by rw [hxid hf, ← hi]; exact hid, .inr ⟨hside, ?_⟩⟩
    rw [Input.isResponse, hf, Option.map_some, Option.getD_some]
    exact hmethod
  · obtain ⟨fields, hf, -, hi, -⟩ := tagged_ok ht
    rw [hi] at hid
    exact ⟨by rw [hxid hf]; exact sameId_orElse hid, .inl (by rw [Input.isRejected, ht])⟩

/-! ### Runs -/

/-- How many responses to an id the client has been sent. -/
def Bridge.responses (s : Bridge ν) (k : JsValue ν) : ℕ :=
  s.toClient.countP fun d => isResponseTo k d.message

/-- The client's messages with the id that are rejected. -/
def Bridge.rejections (s : Bridge ν) (policy : McpPolicy) (k : JsValue ν) : ℕ :=
  (s.lines .client).countP fun x => sameId k x.id && x.isRejected policy true

/-- The server's messages with the id that are responses or are rejected. -/
def Bridge.answers (s : Bridge ν) (policy : McpPolicy) (k : JsValue ν) : ℕ :=
  (s.lines .server).countP fun x => sameId k x.id && (x.isRejected policy false || x.isResponse)

/-- Where everything that has been written comes from. -/
structure Traced (policy : McpPolicy) (s : Bridge ν) : Prop where
  toClient : ∀ d ∈ s.toClient, ∃ x, (s.lines d.side)[d.line]? = some x ∧
    (written policy d.side x).toClient = some d.message
  toChild : ∀ d ∈ s.toChild, ∃ x, (s.lines d.side)[d.line]? = some x ∧
    (written policy d.side x).toChild = some d.message
  once : s.toClient.Pairwise fun d e => ¬(d.side = e.side ∧ d.line = e.line)
  counted : ∀ k, s.responses k ≤ s.rejections policy k + s.answers policy k

variable {policy : McpPolicy} {s : Bridge ν}

/-- What was written before stays traced to its line. -/
theorem getElem?_step (a : Action ν) {side : Side} {i : ℕ} {x : Input ν}
    (h : (s.lines side)[i]? = some x) : ((step policy s a).lines side)[i]? = some x := by
  by_cases hside : side = a.side
  · subst hside
    have hlt := (List.getElem?_eq_some_iff.mp h).1
    simpa [step, List.getElem?_append_left hlt] using h
  · simpa [step, Function.update_of_ne hside] using h

theorem getElem?_step_new (a : Action ν) :
    ((step policy s a).lines a.side)[(s.lines a.side).length]? = some a.input := by
  simp [step]

/-- A line adds one response to an id only if it counts as one. -/
theorem Traced.counted_step (h : Traced policy s) (a : Action ν) (k : JsValue ν) :
    (step policy s a).responses k ≤
      (step policy s a).rejections policy k + (step policy s a).answers policy k := by
  have hk := h.counted k
  have hnew : (((written policy a.side a.input).toClient.map
      (Delivery.mk a.side (s.lines a.side).length)).toList.countP fun d =>
        isResponseTo k d.message) ≤
      if sameId k a.input.id && (a.input.isRejected policy (a.side = .client) ||
        (a.side = .server && a.input.isResponse)) then 1 else 0 := by
    cases hm : (written policy a.side a.input).toClient with
    | none => exact Nat.zero_le _
    | some m =>
      by_cases hr : isResponseTo k m = true
      · obtain ⟨hid, hcause⟩ := answers_of_isResponseTo hm hr
        rw [if_pos]
        · simp [hr]
        · rw [hid]
          rcases hcause with hcause | ⟨hside, hcause⟩ <;> simp [*]
      · simp [hr]
  obtain ⟨side, x⟩ := a
  cases side with
  | client =>
    simp only [Bridge.responses, Bridge.rejections, Bridge.answers, step, List.countP_append,
      Function.update_self, Function.update_of_ne (show Side.server ≠ .client by decide),
      List.countP_singleton] at hk hnew ⊢
    simp only [decide_true, reduceCtorEq, decide_false, Bool.false_and, Bool.or_false] at hnew
    omega
  | server =>
    simp only [Bridge.responses, Bridge.rejections, Bridge.answers, step, List.countP_append,
      Function.update_self, Function.update_of_ne (show Side.client ≠ .server by decide),
      List.countP_singleton] at hk hnew ⊢
    simp only [decide_true, reduceCtorEq, decide_false, Bool.true_and] at hnew
    omega

theorem Traced.step (h : Traced policy s) (a : Action ν) : Traced policy (step policy s a) := by
  refine ⟨fun d hd => ?_, fun d hd => ?_, ?_, h.counted_step a⟩
  · rcases List.mem_append.mp hd with hd | hd
    · obtain ⟨x, hx, hm⟩ := h.toClient d hd
      exact ⟨x, getElem?_step a hx, hm⟩
    · obtain ⟨m, hm, rfl⟩ := Option.map_eq_some_iff.mp (Option.mem_toList.mp hd)
      exact ⟨a.input, getElem?_step_new a, hm⟩
  · rcases List.mem_append.mp hd with hd | hd
    · obtain ⟨x, hx, hm⟩ := h.toChild d hd
      exact ⟨x, getElem?_step a hx, hm⟩
    · obtain ⟨m, hm, rfl⟩ := Option.map_eq_some_iff.mp (Option.mem_toList.mp hd)
      exact ⟨a.input, getElem?_step_new a, hm⟩
  · refine List.pairwise_append.mpr ⟨h.once, ?_, fun d hd e he => ?_⟩
    · cases (written policy a.side a.input).toClient <;> simp
    · obtain ⟨m, -, rfl⟩ := Option.map_eq_some_iff.mp (Option.mem_toList.mp he)
      rintro ⟨hside, hline⟩
      obtain ⟨x, hx, -⟩ := h.toClient d hd
      have hlt := (List.getElem?_eq_some_iff.mp hx).1
      simp only at hside hline
      rw [hside, hline] at hlt
      exact absurd hlt (lt_irrefl _)

theorem traced_run (policy : McpPolicy) (as : List (Action ν)) :
    Traced policy (as.foldl (Mcp.step policy) start) := by
  have hall : Allowed (Mcp.step policy) (fun _ _ => True) start as :=
    Allowed.of_forall (fun _ _ => trivial) _ _
  refine @Allowed.invariant _ _ _ _ (Traced policy) (fun _ a h _ => h.step a) _ _ ?_ hall
  exact ⟨fun d hd => (by cases hd), fun d hd => (by cases hd), List.Pairwise.nil,
    fun k => Nat.zero_le _⟩

/-- A request under the id 1. -/
def ask : Input NumberToken where
  line := js "\x7b\"jsonrpc\":\"2.0\",\"id\":1,\"method\":\"tools/call\"\x7d"
  protectJson := fun _ _ v => .passed v
  syntaxError := []
  writable := true

/-- A request of the server under the id 1, which is rejected. -/
def sample : Input NumberToken where
  line := js "\x7b\"id\":1,\"method\":\"sampling/createMessage\"\x7d"
  protectJson := fun _ _ v => .passed v
  syntaxError := []
  writable := true

end Haechi.Mcp
