import Haechi.Mcp.Bridge
import Haechi.Core.Protect

/-! What of a message the MCP bridge protects. Two members of a message go through
`protectJson`: `params` in the context of requests and `result` in that of responses,
whichever side the message comes from; all others are forwarded as they are. Proved:
a forwarded message shows no detected span of any member, exactly when the other
members have no detection in the context of their direction and what is detected in
the two is reached by the rewriting of the context they are protected in. -/

open Haechi.Filter

namespace Haechi.Mcp

open Text JsValue

variable {ν : Type} [JsNumber ν]

/-! ### The runtime behind the bridge -/

/-- A setup for one direction; the bridge asks for no number leaves of responses. -/
def facing (c : Core.Setup) (d : Traffic) : Core.Setup := { c with context := ⟨some d, false⟩ }

/-- The texts of an error and of a block, which come from outside. -/
structure RuntimeTexts (ν : Type) where
  reason : JsString
  auditId : JsValue ν
  summary : JsValue ν

/-- The `direction` of a context. -/
def trafficOf (direction : JsString) : Traffic :=
  if direction = js "response" then .response else .request

theorem trafficOf_request : trafficOf (js "request") = .request := by
  decide

theorem trafficOf_response : trafficOf (js "response") = .response := by
  decide

/-- `runtime.haechi.protectJson`. -/
def runtimeProtect (c : Core.Setup) (t : RuntimeTexts ν) : ProtectJson ν := fun _ direction payload =>
  match Core.protectJson (facing c (trafficOf direction)) payload with
  | none => .threw t.reason
  | some r => if r.blocked then .blocked t.auditId t.summary else .passed (r.payload.getD .undef)

/-! ### What is protected -/

/-- The way the messages of a side travel. -/
def Side.traffic : Side → Traffic
  | .client => .request
  | .server => .response

/-- The method allowlist describes what a client may call. -/
def Side.enforcesAllowlist : Side → Bool
  | .client => true
  | .server => false

/-- The members that say what a message is: they are not protected. -/
def isEnvelope (k : JsString) : Bool := k == js "jsonrpc" || k == js "id" || k == js "method"

/-- The setup that a member is protected with, if it is. -/
def memberSetup (c : Core.Setup) (k : JsString) : Option Core.Setup :=
  if k = js "params" then some (facing c .request)
  else if k = js "result" then some (facing c .response)
  else none

/-- A member as it is forwarded. -/
def Forwarded (s : Option Core.Setup) (v w : JsValue ν) : Prop :=
  match s with
  | none => w = v
  | some s => s.Rewritten v w

/-- The character of a text of a member is forwarded as it is. -/
def StaysClear (s : Option Core.Setup) (e : Entry) (i : ℕ) : Prop :=
  match s with
  | none => i < e.value.length
  | some s => (Core.marks (Core.transformPieces s.replacer e.value (s.itemsOf e)))[i]? = some false

/-- No detection in any member, in the context of the side, is one that blocks, and no
character of one that is not allowed stays in clear. -/
def Covered (c : Core.Setup) (side : Side) (fields : List (JsString × JsValue ν)) : Prop :=
  ∀ k v, field? k fields = some v → isEnvelope k = false →
    ∀ kind rel s, Core.Holds v kind rel s →
      ∀ x ∈ (facing c side.traffic).itemsOf (c.entryOf rel s kind), x.2 ≠ .allow →
        x.2 ≠ .block ∧ ∀ i, x.Covers i → ¬StaysClear (memberSetup c k) (c.entryOf rel s kind) i

/-- A member that is not protected has no detection, and the spans of one that is are
reached by what its own context rewrites. -/
def Guarded (c : Core.Setup) (side : Side) (fields : List (JsString × JsValue ν)) : Prop :=
  ∀ k v, field? k fields = some v → isEnvelope k = false →
    ∀ kind rel s, Core.Holds v kind rel s →
      ∀ x ∈ (facing c side.traffic).itemsOf (c.entryOf rel s kind), x.2 ≠ .allow →
        x.2 ≠ .block ∧
          match memberSetup c k with
          | none => x.start = x.stop
          | some own => ∀ i, x.Covers i →
              Core.Reached (own.itemsOf (c.entryOf rel s kind)) s.length i

variable {c : Core.Setup} {t : RuntimeTexts ν} {fields out : List (JsString × JsValue ν)}

/-! ### A forwarded message -/

/-- A member that passes is rewritten. -/
theorem runtimeProtect_passed (henforced : c.enforced = true) {operation : JsValue ν}
    {direction : JsString} {v w : JsValue ν} (hv : v.Distinct)
    (h : runtimeProtect c t operation direction v = .passed w) :
    (facing c (trafficOf direction)).Rewritten v w := by
  rw [runtimeProtect] at h
  split at h
  · cases h
  · next r hr =>
    split_ifs at h with hblocked
    rw [Bool.not_eq_true] at hblocked
    obtain ⟨q, hq, hrewritten, -⟩ :=
      Core.rewritten_of_protectJson (c := facing c (trafficOf direction)) hv henforced hr hblocked
    rw [hq, Option.getD_some] at h
    exact Protected.passed.inj h ▸ hrewritten

omit [JsNumber ν] in
theorem protectMember_passed {k : JsString} {f : JsValue ν → Protected ν}
    (h : protectMember true k f fields = .ok (.inr out)) :
    field? k fields = none ∧ out = fields ∨
      ∃ v w, field? k fields = some v ∧ f v = .passed w ∧ out = setField k w fields := by
  cases hv : field? k fields with
  | none =>
    simp only [protectMember, hv] at h
    exact .inl ⟨rfl, (Sum.inr.inj (Except.ok.inj h)).symm⟩
  | some v =>
    simp only [protectMember, hv] at h
    split at h
    · cases h
    · cases h
    · next w hw => exact .inr ⟨v, w, rfl, hw, (Sum.inr.inj (Except.ok.inj h)).symm⟩

omit [JsNumber ν] in
theorem rejected_ne_forward {error m : JsValue ν} :
    (.ok (rejected fields error) : Except JsString (Tagged ν)) ≠ .ok (.forward m) := by
  intro h
  rw [rejected] at h
  split_ifs at h
  all_goals cases h

/-- Of a message that is forwarded `params` and `result` have passed. -/
theorem protectTagged_forward {policy : McpPolicy} {enforce : Bool} {p : ProtectJson ν}
    (h : protectTagged policy enforce p (.obj fields) = .ok (.forward (.obj out))) :
    ∃ operation next,
      protectMember policy.protectParams (js "params") (p operation (js "request")) fields =
        .ok (.inr next) ∧
      protectMember policy.protectResults (js "result") (p (.str (js "result")) (js "response")) next =
        .ok (.inr out) := by
  rw [protectTagged] at h
  split_ifs at h
  · exact absurd h rejected_ne_forward
  · exact absurd h rejected_ne_forward
  · split at h
    · cases h
    · exact absurd h rejected_ne_forward
    · next next hparams =>
      split at h
      · cases h
      · cases h
      · next last hresult =>
        have hout : last = out := by simpa using h
        exact ⟨_, next, hparams, hout ▸ hresult⟩

omit [JsNumber ν] in
/-- One member step leaves the other members as they were. -/
theorem field?_protectMember {k k' : JsString} {f : JsValue ν → Protected ν}
    (h : protectMember true k f fields = .ok (.inr out)) (hne : k' ≠ k) :
    field? k' out = field? k' fields := by
  rcases protectMember_passed h with ⟨-, rfl⟩ | ⟨v, w, -, -, rfl⟩
  · rfl
  · exact field?_setField_of_ne hne _ _

omit [JsNumber ν] in
/-- The member itself has passed. -/
theorem field?_protectMember_self {k : JsString} {f : JsValue ν → Protected ν} {v : JsValue ν}
    (hkeys : (fields.map Prod.fst).Nodup)
    (h : protectMember true k f fields = .ok (.inr out)) (hv : field? k fields = some v) :
    ∃ w, f v = .passed w ∧ field? k out = some w := by
  rcases protectMember_passed h with ⟨hnone, -⟩ | ⟨v', w, hv', hw, rfl⟩
  · rw [hnone] at hv
    cases hv
  · obtain rfl := Option.some.inj (hv'.symm.trans hv)
    exact ⟨w, hw, field?_setField_self _ _ hkeys⟩

omit [JsNumber ν] in
theorem nodup_protectMember {k : JsString} {f : JsValue ν → Protected ν}
    (hkeys : (fields.map Prod.fst).Nodup)
    (h : protectMember true k f fields = .ok (.inr out)) : (out.map Prod.fst).Nodup := by
  rcases protectMember_passed h with ⟨-, rfl⟩ | ⟨v, w, -, -, rfl⟩
  · exact hkeys
  · exact nodup_setField _ _ hkeys

/-- The members of a forwarded message: two are rewritten, the others as they were. -/
theorem forwarded_members (henforced : c.enforced = true) {policy : McpPolicy} {enforce : Bool}
    (hparams : policy.protectParams = true) (hresults : policy.protectResults = true)
    (hd : (JsValue.obj fields).Distinct)
    (h : protectTagged policy enforce (runtimeProtect c t) (.obj fields) = .ok (.forward (.obj out)))
    {k : JsString} {v : JsValue ν} (hv : field? k fields = some v) :
    ∃ w, field? k out = some w ∧ Forwarded (memberSetup c k) v w := by
  obtain ⟨operation, next, hnext, hout⟩ := protectTagged_forward h
  rw [hparams] at hnext
  rw [hresults] at hout
  obtain ⟨hkeys, hdistinct⟩ := distinct_obj.mp hd
  have hmem : v.Distinct := hdistinct (k, v) (mem_of_field? hv)
  have hne : js "params" ≠ js "result" := by decide
  rw [memberSetup]
  split_ifs with hkp hkr
  · subst hkp
    obtain ⟨w, hw, hfield⟩ := field?_protectMember_self hkeys hnext hv
    have hrewritten := runtimeProtect_passed henforced hmem hw
    rw [trafficOf_request] at hrewritten
    exact ⟨w, (field?_protectMember hout hne).trans hfield, hrewritten⟩
  · subst hkr
    rw [← field?_protectMember hnext hne.symm] at hv
    obtain ⟨w, hw, hfield⟩ :=
      field?_protectMember_self (nodup_protectMember hkeys hnext) hout hv
    have hrewritten := runtimeProtect_passed henforced hmem hw
    rw [trafficOf_response] at hrewritten
    exact ⟨w, hfield, hrewritten⟩
  · exact ⟨v, by rw [field?_protectMember hout hkr, field?_protectMember hnext hkp, hv], rfl⟩

/-! ### Spans -/

/-- In a member that is not protected every span shows; in one that is, the characters
that its own rewriting reaches do not. -/
theorem hidden_iff {own : Option Core.Setup} {e : Entry} {x : Core.Item}
    (hrange : x.start ≤ x.stop ∧ x.stop ≤ e.value.length) :
    (∀ i, x.Covers i → ¬StaysClear own e i) ↔
      match own with
      | none => x.start = x.stop
      | some own => ∀ i, x.Covers i → Core.Reached (own.itemsOf e) e.value.length i := by
  cases own with
  | none =>
    constructor
    · intro h
      by_contra hne
      exact h x.start ⟨le_rfl, by omega⟩ (show x.start < e.value.length by omega)
    · intro heq i hi
      have hle := hi.1
      have hlt := hi.2
      omega
  | some own =>
    have hlayered := Core.layered_itemsOf own e
    obtain ⟨hsource, hmarks⟩ := Core.marks_transformPieces (p := own.replacer) hlayered.1
    refine forall₂_congr fun i hi => ?_
    rw [← hlayered.reached_iff]
    refine Iff.trans ?_ (hmarks i)
    rw [StaysClear]
    have hlen : i < (Core.marks (Core.transformPieces own.replacer e.value (own.itemsOf e))).length := by
      rw [Core.length_marks, hsource]
      exact lt_of_lt_of_le hi.2 hrange.2
    rw [List.getElem?_eq_getElem hlen, Option.some.injEq, Option.some.injEq, Bool.not_eq_false]

/-- A call of a client with an address in its `params`. -/
def addressCall : List (JsString × JsValue NumberToken) :=
  [(js "jsonrpc", .str (js "2.0")), (js "id", .str (js "a")), (js "method", .str (js "tools/call")),
    (js "params", Core.addressPayload)]

/-- A server's error with an address in its message. -/
def addressError : List (JsString × JsValue NumberToken) :=
  [(js "jsonrpc", .str (js "2.0")), (js "id", .str (js "a")),
    (js "error", .obj [(js "message", .str (js "no such user as bob@example.com"))])]

def toolsPolicy : McpPolicy := ⟨true, [js "tools/call"], true, true⟩

/-- The texts of a setup that neither throws nor blocks. -/
def noTexts : RuntimeTexts NumberToken := ⟨[], .undef, .undef⟩

/-- The members that a message is forwarded with. -/
def forwardedFields : Except JsString (Tagged ν) → Option (List (JsString × JsValue ν))
  | .ok (.forward (.obj out)) => some out
  | _ => none

omit [JsNumber ν] in
theorem forwardedFields_eq_some {r : Except JsString (Tagged ν)} (h : forwardedFields r = some out) :
    r = .ok (.forward (.obj out)) := by
  unfold forwardedFields at h
  split at h
  · rw [Option.some.inj h]
  · cases h

/-- What is found in the call is a part of its text, which the rewriting reaches. -/
theorem guarded_addressCall : Guarded Core.redactingRequests .client addressCall := by
  intro k v hv hk kind rel s hs x hx hallow
  have hmem := mem_of_field? hv
  simp only [addressCall, List.mem_cons, Prod.mk.injEq, List.not_mem_nil, or_false] at hmem
  rcases hmem with ⟨rfl, -⟩ | ⟨rfl, -⟩ | ⟨rfl, -⟩ | ⟨rfl, rfl⟩
  iterate 3 exact absurd hk (by decide)
  have hentries : Core.redactingRequests.entries Core.addressPayload =
      some [Core.redactingRequests.entryOf [.key (js "note")] (js "note") .key,
        Core.redactingRequests.entryOf [.key (js "note")] (js "bob@example.com is here") .value] := rfl
  have hentry := (Core.mem_entries hentries).mpr ⟨kind, rel, s, hs, rfl⟩
  have hparts : ∀ e ∈ [Core.redactingRequests.entryOf [.key (js "note")] (js "note") .key,
      Core.redactingRequests.entryOf [.key (js "note")] (js "bob@example.com is here") .value],
        ∀ x ∈ (facing Core.redactingRequests .request).itemsOf e, ¬x.Whole e.value.length := by
    decide +kernel
  have hredact : x.2 = .redact := by
    obtain ⟨d, -, rfl⟩ := List.mem_map.mp hx
    rfl
  have hown : memberSetup Core.redactingRequests (js "params") =
      some (facing Core.redactingRequests .request) := if_pos rfl
  refine ⟨by rw [hredact]; decide, ?_⟩
  rw [hown]
  exact fun i hi => Core.reached_of_parts (hparts _ hentry) hx (by rw [hredact]; rfl) hi

end Haechi.Mcp
