import Haechi.Text.Value

/-! The headers that cross from the gateway to the model provider. A header passes
only if its name is on the built-in or the operator's list, never if it is on the
denylist, and `authorization` passes unless the forward policy says that the gateway
consumed it. The policy reads the configured provider, and the runtime may
authenticate with an injected one. Proved: denied headers are never sent, and the
client's credential is dropped whenever the gateway authenticates it exactly when no
provider is injected over the setting `none`, or the client sends none. -/

namespace Haechi.Proxy

open Text JsValue

/-! ### Names and values -/

/-- `String.prototype.toLowerCase`, of which only ASCII texts are used. -/
structure CaseFolding where
  toLowerCase : JsString → JsString
  ascii : ∀ s, (∀ c ∈ s, c < 128) → toLowerCase s = lowerAscii s

/-- The characters of a header name. -/
def isTokenUnit (c : UInt16) : Bool :=
  (48 ≤ c && c ≤ 57) || (65 ≤ c && c ≤ 90) || (97 ≤ c && c ≤ 122) ||
    c ∈ [33, 35, 36, 37, 38, 39, 42, 43, 45, 46, 94, 95, 96, 124, 126]

def isToken (s : JsString) : Bool := !s.isEmpty && s.all isTokenUnit

/-- The characters of a header value: bytes, and no line breaks or zeros. -/
def isFieldValue (s : JsString) : Bool :=
  s.all fun c => c ≤ 255 && c != 0 && c != 10 && c != 13

/-- The value of an inbound header: Node gives a list for a repeated one. -/
inductive HeaderValue where
  | one (value : JsString)
  | many (values : List JsString)

namespace HeaderValue

def items : HeaderValue → List JsString
  | one v => [v]
  | many vs => vs

/-- A list is truthy, a text unless it is empty. -/
def truthy : HeaderValue → Bool
  | one v => !v.isEmpty
  | many _ => true

/-- The header carries something. -/
def carries : HeaderValue → Prop
  | one v => v ≠ []
  | many vs => vs ≠ []

end HeaderValue

/-- The headers of a request, as the HTTP parser delivers them. -/
structure HeaderMap where
  entries : List (JsString × HeaderValue)
  tokens : ∀ e ∈ entries, isToken e.1 = true
  fieldValues : ∀ e ∈ entries, ∀ v ∈ e.2.items, isFieldValue v = true

/-! ### The outgoing headers -/

/-- The blanks stripped from a header value. -/
def isFieldBlank (c : UInt16) : Bool := c == 9 || c == 10 || c == 13 || c == 32

def normalizeValue (s : JsString) : JsString := (s.dropWhile isFieldBlank).rdropWhile isFieldBlank

/-- A `Headers` object; names are in lower case. -/
structure Headers where
  fields : List (JsString × JsString)

namespace Headers

def names (h : Headers) : List JsString := h.fields.map Prod.fst

/-- `append`, which throws on an invalid name or value. -/
def append (h : Headers) (name value : JsString) : Option Headers :=
  if isToken name && isFieldValue (normalizeValue value) then
    some ⟨h.fields ++ [(lowerAscii name, normalizeValue value)]⟩
  else none

/-- `set`: the value replaces all there are. -/
def set (h : Headers) (name value : JsString) : Option Headers :=
  if isToken name && isFieldValue (normalizeValue value) then
    some ⟨h.fields.filter (fun f => f.1 ≠ lowerAscii name) ++
      [(lowerAscii name, normalizeValue value)]⟩
  else none

end Headers

/-- `FORWARD_HEADER_ALLOWLIST`. -/
def forwardHeaderAllowlist : List JsString :=
  [js "x-api-key", js "anthropic-version", js "anthropic-beta", js "x-goog-api-key",
    js "openai-organization", js "openai-beta", js "accept", js "user-agent",
    js "accept-language"]

/-- `FORWARD_HEADER_DENYLIST`. -/
def forwardHeaderDenylist : List JsString :=
  [js "host", js "content-length", js "cookie", js "set-cookie", js "proxy-authorization",
    js "connection", js "keep-alive", js "te", js "trailer", js "transfer-encoding",
    js "upgrade"]

structure ForwardPolicy where
  gatewayConsumedAuthorization : Bool
  extraHeaders : List JsString

def appendHeader (target : Headers) (key : JsString) : HeaderValue → Option Headers
  | .many values => values.foldlM (fun t v => t.append key v) target
  | .one value => target.set key value

variable (cf : CaseFolding)

/-- What one inbound header adds. -/
def forwardHeader (p : ForwardPolicy) (next : Headers) (e : JsString × HeaderValue) :
    Option Headers :=
  if !e.2.truthy then some next
  else
    let name := cf.toLowerCase e.1
    if name ∈ forwardHeaderDenylist then some next
    else if name = js "authorization" then
      if p.gatewayConsumedAuthorization then some next else appendHeader next e.1 e.2
    else if name = js "content-type" then some next
    else if name ∈ forwardHeaderAllowlist ∨ name ∈ p.extraHeaders then appendHeader next e.1 e.2
    else some next

def filteredHeaders (headers : HeaderMap) (p : ForwardPolicy) : Option Headers := do
  let next ← headers.entries.foldlM (forwardHeader cf p) ⟨[]⟩
  next.set (js "content-type") (js "application/json")

/-! ### The runtime -/

/-- The configuration that decides about credentials. -/
structure AuthConfig (ν : Type) where
  /-- `auth.provider`. -/
  provider : JsString
  /-- `target.forwardHeaders`. -/
  forwardHeaders : JsValue ν

/-- `FORWARD_HEADERS_FORBIDDEN`. -/
def forwardHeadersForbidden : List JsString :=
  [js "host", js "content-length", js "content-type", js "authorization", js "cookie",
    js "set-cookie", js "proxy-authorization", js "connection", js "keep-alive", js "te",
    js "trailer", js "transfer-encoding", js "upgrade"]

variable {ν : Type}

/-- The name an entry of `target.forwardHeaders` gives, if it is an accepted one. -/
def forwardHeaderName : JsValue ν → Option JsString
  | .str name =>
    let lower := cf.toLowerCase (trim name)
    if trim name = [] ∨ lower ≠ name ∨ lower ∈ forwardHeadersForbidden then none
    else some lower
  | _ => none

/-- `validateForwardHeaders`: the accepted names, each once. -/
def validateForwardHeaders : JsValue ν → Option (List JsString)
  | .undef | .null => some []
  | .arr items => (items.mapM (forwardHeaderName cf)).map List.eraseDups
  | _ => none

/-- `auth.provider` is one of these. -/
def authProviders : List JsString := [js "none", js "bearer", js "external", js "plugin"]

/-- What `createRuntime` is given besides the configuration: an injected provider, the
test that it has `authenticate`, and the built-in ones, if they can be constructed. -/
structure Providers (P : Type) where
  injected : Option P
  authenticates : P → Bool
  bearer : Option P
  plugin : Option P

/-- `resolveAuthProvider`. It may throw, and otherwise return no provider. -/
def resolveAuthProvider {P : Type} (c : AuthConfig ν) (providers : Providers P) :
    Option (Option P) :=
  if c.provider = js "external" then
    match providers.injected with
    | some p => if providers.authenticates p then some (some p) else none
    | none => none
  else
    match providers.injected with
    | some p => some (some p)
    | none =>
      if c.provider = js "bearer" then providers.bearer.map some
      else if c.provider = js "plugin" then providers.plugin.map some
      else some none

structure Runtime (P : Type) where
  authProvider : Option P
  provider : JsString
  forwardHeaders : List JsString

/-- The part of `createRuntime` that deals with authentication and headers. -/
def createRuntime {P : Type} (c : AuthConfig ν) (providers : Providers P) :
    Option (Runtime P) :=
  if c.provider ∈ authProviders then do
    let forwardHeaders ← validateForwardHeaders cf c.forwardHeaders
    let authProvider ← resolveAuthProvider c providers
    return ⟨authProvider, c.provider, forwardHeaders⟩
  else none

/-- `forwardPolicy` of the proxy. -/
def forwardPolicy {P : Type} (r : Runtime P) : ForwardPolicy :=
  ⟨r.provider != js "none", r.forwardHeaders⟩

/-! ### Which headers are sent -/

theorem lt_of_isTokenUnit {c : UInt16} (h : isTokenUnit c = true) : c < 128 := by
  simp only [isTokenUnit, Bool.or_eq_true, Bool.and_eq_true, decide_eq_true_eq] at h
  rcases h with ((h | h) | h) | h
  · exact UInt16.lt_of_le_of_lt h.2 (by decide)
  · exact UInt16.lt_of_le_of_lt h.2 (by decide)
  · exact UInt16.lt_of_le_of_lt h.2 (by decide)
  · simp only [List.mem_cons, List.not_mem_nil, or_false] at h
    rcases h with rfl | rfl | rfl | rfl | rfl | rfl | rfl | rfl | rfl | rfl | rfl | rfl | rfl |
      rfl | rfl <;> decide

theorem toLowerCase_token {s : JsString} (h : isToken s = true) :
    cf.toLowerCase s = lowerAscii s := by
  simp only [isToken, Bool.and_eq_true, List.all_eq_true] at h
  exact cf.ascii s fun c hc => lt_of_isTokenUnit (h.2 c hc)

theorem isFieldValue_normalizeValue {s : JsString} (h : isFieldValue s = true) :
    isFieldValue (normalizeValue s) = true := by
  rw [isFieldValue, List.all_eq_true] at h ⊢
  have hsub : (normalizeValue s).Sublist s :=
    (List.rdropWhile_prefix _ _).sublist.trans (List.dropWhile_sublist _)
  exact fun c hc => h c (hsub.mem hc)

theorem append_names {h : Headers} {name value : JsString} (hname : isToken name = true)
    (hvalue : isFieldValue value = true) : ∃ h', h.append name value = some h' ∧
      ∀ n, n ∈ h'.names ↔ n ∈ h.names ∨ n = lowerAscii name := by
  refine ⟨_, if_pos (by rw [hname, isFieldValue_normalizeValue hvalue]; rfl), fun n => ?_⟩
  simp [Headers.names]

theorem set_names {h : Headers} {name value : JsString} (hname : isToken name = true)
    (hvalue : isFieldValue value = true) : ∃ h', h.set name value = some h' ∧
      ∀ n, n ∈ h'.names ↔ n ∈ h.names ∨ n = lowerAscii name := by
  refine ⟨_, if_pos (by rw [hname, isFieldValue_normalizeValue hvalue]; rfl), fun n => ?_⟩
  by_cases hn : n = lowerAscii name <;> simp [Headers.names, hn]

theorem foldlM_append_names {h : Headers} {name : JsString} {values : List JsString}
    (hname : isToken name = true) (hvalues : ∀ v ∈ values, isFieldValue v = true) :
    ∃ h', values.foldlM (fun t v => Headers.append t name v) h = some h' ∧
      ∀ n, n ∈ h'.names ↔ n ∈ h.names ∨ values ≠ [] ∧ n = lowerAscii name := by
  induction values generalizing h with
  | nil => exact ⟨h, rfl, by simp⟩
  | cons v values ih =>
    obtain ⟨h₁, hv, h₁names⟩ := append_names (h := h) hname (hvalues v (by simp))
    obtain ⟨h', hrest, hnames⟩ := ih (h := h₁) fun w hw => hvalues w (by simp [hw])
    refine ⟨h', by rw [List.foldlM_cons, hv]; exact hrest, fun n => ?_⟩
    rw [hnames, h₁names]
    constructor
    · rintro ((hn | hn) | ⟨-, hn⟩)
      · exact .inl hn
      · exact .inr ⟨by simp, hn⟩
      · exact .inr ⟨by simp, hn⟩
    · rintro (hn | ⟨-, hn⟩)
      · exact .inl (.inl hn)
      · exact .inl (.inr hn)

/-- The policy lets the header pass, and there is a value to send. -/
def Passes (p : ForwardPolicy) (e : JsString × HeaderValue) : Prop :=
  e.2.carries ∧ lowerAscii e.1 ∉ forwardHeaderDenylist ∧
    if lowerAscii e.1 = js "authorization" then p.gatewayConsumedAuthorization = false
    else lowerAscii e.1 ≠ js "content-type" ∧
      (lowerAscii e.1 ∈ forwardHeaderAllowlist ∨ lowerAscii e.1 ∈ p.extraHeaders)

/-- One header more. -/
theorem forwardHeader_names (p : ForwardPolicy) (next : Headers) {e : JsString × HeaderValue}
    (hname : isToken e.1 = true) (hvalues : ∀ v ∈ e.2.items, isFieldValue v = true) :
    ∃ next', forwardHeader cf p next e = some next' ∧
      ∀ n, n ∈ next'.names ↔ n ∈ next.names ∨ Passes p e ∧ n = lowerAscii e.1 := by
  have happend : e.2.truthy = true → ∃ next', appendHeader next e.1 e.2 = some next' ∧
      ∀ n, n ∈ next'.names ↔ n ∈ next.names ∨ e.2.carries ∧ n = lowerAscii e.1 := by
    intro htruthy
    rcases he : e.2 with v | vs
    · rw [he] at hvalues htruthy
      obtain ⟨h', hset, hnames⟩ := set_names (h := next) hname (hvalues v (by simp [HeaderValue.items]))
      refine ⟨h', hset, fun n => ?_⟩
      have hv : v ≠ [] := by simpa [HeaderValue.truthy] using htruthy
      rw [hnames]
      simp [HeaderValue.carries, hv]
    · rw [he] at hvalues
      exact foldlM_append_names hname hvalues
  have hskip : ¬Passes p e → ∀ n, n ∈ next.names ↔ n ∈ next.names ∨ Passes p e ∧
      n = lowerAscii e.1 := fun hp n => by simp [hp]
  rw [forwardHeader, toLowerCase_token cf hname]
  by_cases htruthy : e.2.truthy = true
  swap
  · refine ⟨next, by simp [htruthy], hskip fun hp => ?_⟩
    have hcarries := hp.1
    cases he : e.2 <;> simp_all [HeaderValue.truthy, HeaderValue.carries]
  simp only [htruthy, Bool.not_true, Bool.false_eq_true, if_false]
  by_cases hdeny : lowerAscii e.1 ∈ forwardHeaderDenylist
  · exact ⟨next, by simp [hdeny], hskip fun hp => hp.2.1 hdeny⟩
  simp only [hdeny, if_false]
  obtain ⟨next', hnext, hnames⟩ := happend htruthy
  by_cases hauth : lowerAscii e.1 = js "authorization"
  · by_cases hconsumed : p.gatewayConsumedAuthorization = true
    · refine ⟨next, by simp [hauth, hconsumed], hskip fun hp => ?_⟩
      have := hp.2.2
      rw [if_pos hauth, hconsumed] at this
      cases this
    · refine ⟨next', by simp [hauth, hconsumed, hnext], fun n => ?_⟩
      have hpass : Passes p e ↔ e.2.carries := by
        simp only [Passes, hdeny, if_pos hauth, hconsumed, not_false_eq_true, and_true]
      rw [hnames, hpass]
  simp only [hauth, if_false]
  by_cases htype : lowerAscii e.1 = js "content-type"
  · refine ⟨next, by simp [htype], hskip fun hp => ?_⟩
    have := hp.2.2
    rw [if_neg hauth] at this
    exact this.1 htype
  simp only [htype, if_false]
  by_cases hlist : lowerAscii e.1 ∈ forwardHeaderAllowlist ∨ lowerAscii e.1 ∈ p.extraHeaders
  · refine ⟨next', by simp only [hlist, if_true]; exact hnext, fun n => ?_⟩
    rw [hnames]
    simp only [Passes, hdeny, hauth, htype, hlist, if_false, not_false_eq_true, ne_eq, and_self,
      and_true]
  · refine ⟨next, by simp only [hlist, if_false], hskip fun hp => ?_⟩
    have := hp.2.2
    rw [if_neg hauth] at this
    exact hlist this.2

/-- The names sent are `content-type` and those of the headers that pass. -/
theorem filteredHeaders_names (headers : HeaderMap) (p : ForwardPolicy) :
    ∃ next, filteredHeaders cf headers p = some next ∧ ∀ n, n ∈ next.names ↔
      n = js "content-type" ∨ ∃ e ∈ headers.entries, Passes p e ∧ n = lowerAscii e.1 := by
  have hfold : ∀ (es : List (JsString × HeaderValue)) (next : Headers),
      (∀ e ∈ es, e ∈ headers.entries) →
        ∃ next', es.foldlM (forwardHeader cf p) next = some next' ∧ ∀ n, n ∈ next'.names ↔
          n ∈ next.names ∨ ∃ e ∈ es, Passes p e ∧ n = lowerAscii e.1 := by
    intro es
    induction es with
    | nil => exact fun next _ => ⟨next, rfl, by simp⟩
    | cons e es ih =>
      intro next hes
      have he := hes e (by simp)
      obtain ⟨mid, hmid, hmidnames⟩ := forwardHeader_names cf p next (headers.tokens e he)
        (headers.fieldValues e he)
      obtain ⟨next', hrest, hnames⟩ := ih mid fun e' he' => hes e' (by simp [he'])
      refine ⟨next', by rw [List.foldlM_cons, hmid]; exact hrest, fun n => ?_⟩
      rw [hnames, hmidnames, List.exists_mem_cons_iff, or_assoc]
  obtain ⟨mid, hmid, hmidnames⟩ := hfold headers.entries ⟨[]⟩ fun e he => he
  have htoken : isToken (js "content-type") = true := by decide +kernel
  have hvalue : isFieldValue (js "application/json") = true := by decide +kernel
  have hlower : lowerAscii (js "content-type") = js "content-type" := by decide +kernel
  obtain ⟨next, hset, hnames⟩ := set_names (h := mid) htoken hvalue
  refine ⟨next, by rw [filteredHeaders, hmid]; exact hset, fun n => ?_⟩
  rw [hnames, hmidnames, hlower]
  simp [Headers.names, or_comm]

/-- The credential is sent exactly when the gateway has not consumed it. -/
theorem authorization_mem {headers : HeaderMap} {p : ForwardPolicy} {next : Headers}
    (hnames : ∀ n, n ∈ next.names ↔
      n = js "content-type" ∨ ∃ e ∈ headers.entries, Passes p e ∧ n = lowerAscii e.1) :
    js "authorization" ∈ next.names ↔ p.gatewayConsumedAuthorization = false ∧
      ∃ e ∈ headers.entries, lowerAscii e.1 = js "authorization" ∧ e.2.carries := by
  have htype : js "authorization" ≠ js "content-type" := by decide +kernel
  have hdeny : js "authorization" ∉ forwardHeaderDenylist := by decide +kernel
  rw [hnames]
  constructor
  · rintro (h | ⟨e, he, hpass, hname⟩)
    · exact absurd h htype
    · have hconsumed := hpass.2.2
      rw [if_pos hname.symm] at hconsumed
      exact ⟨hconsumed, e, he, hname.symm, hpass.1⟩
  · rintro ⟨hconsumed, e, he, hname, hcarries⟩
    refine .inr ⟨e, he, ⟨hcarries, hname ▸ hdeny, ?_⟩, hname.symm⟩
    rwa [if_pos hname]

/-- What the runtime keeps of its configuration, and when it has a provider. -/
theorem createRuntime_eq {P : Type} {c : AuthConfig ν} {providers : Providers P} {r : Runtime P}
    (h : createRuntime cf c providers = some r) :
    r.provider = c.provider ∧
      (c.provider = js "none" → r.authProvider = providers.injected) := by
  rw [createRuntime] at h
  split_ifs at h
  obtain ⟨forwardHeaders, -, h⟩ := Option.bind_eq_some_iff.mp h
  obtain ⟨authProvider, hauth, h⟩ := Option.bind_eq_some_iff.mp h
  obtain rfl := Option.some.inj h
  refine ⟨rfl, fun hnone => ?_⟩
  have hexternal : js "none" ≠ js "external" := by decide +kernel
  have hbearer : js "none" ≠ js "bearer" := by decide +kernel
  have hplugin : js "none" ≠ js "plugin" := by decide +kernel
  rw [resolveAuthProvider, hnone, if_neg hexternal] at hauth
  rcases hi : providers.injected with _ | p
  · simp only [hi, if_neg hbearer, if_neg hplugin] at hauth
    exact (Option.some.inj hauth).symm
  · simp only [hi] at hauth
    exact (Option.some.inj hauth).symm

/-- Nothing on the denylist is sent, and the client's `Authorization` is not whenever the
runtime authenticates the client, exactly when the configured provider is not `none`, or
no provider is injected, or the client sends no credential. -/
theorem filteredHeaders_strips_iff {P : Type} (c : AuthConfig ν) (providers : Providers P)
    (r : Runtime P) (h : createRuntime cf c providers = some r) (headers : HeaderMap) :
    (∃ next, filteredHeaders cf headers (forwardPolicy r) = some next ∧
        (r.authProvider.isSome → js "authorization" ∉ next.names) ∧
          ∀ name ∈ forwardHeaderDenylist, name ∉ next.names) ↔
      c.provider ≠ js "none" ∨ providers.injected = none ∨
        ∀ e ∈ headers.entries, lowerAscii e.1 = js "authorization" → ¬e.2.carries := by
  obtain ⟨hprovider, hresolved⟩ := createRuntime_eq cf h
  obtain ⟨next, hnext, hnames⟩ := filteredHeaders_names cf headers (forwardPolicy r)
  have hdenied : ∀ name ∈ forwardHeaderDenylist, name ∉ next.names := by
    have htype : js "content-type" ∉ forwardHeaderDenylist := by decide +kernel
    intro name hname hmem
    rcases (hnames name).mp hmem with rfl | ⟨e, -, hpass, rfl⟩
    · exact htype hname
    · exact hpass.2.1 hname
  have hconsumed : (forwardPolicy r).gatewayConsumedAuthorization = false ↔
      c.provider = js "none" := by simp [forwardPolicy, hprovider]
  constructor
  · rintro ⟨next', hnext', hstripped, -⟩
    obtain rfl := Option.some.inj (hnext.symm.trans hnext')
    by_contra hleak
    push Not at hleak
    obtain ⟨hnone, hinjected, e, he, hname, hcarries⟩ := hleak
    refine hstripped ?_ ((authorization_mem hnames).mpr ⟨hconsumed.mpr hnone, e, he, hname, hcarries⟩)
    rwa [hresolved hnone, Option.isSome_iff_ne_none]
  · intro hsafe
    refine ⟨next, hnext, fun hauth hmem => ?_, hdenied⟩
    obtain ⟨hpolicy, e, he, hname, hcarries⟩ := (authorization_mem hnames).mp hmem
    have hnone := hconsumed.mp hpolicy
    rw [hresolved hnone] at hauth
    rcases hsafe with hne | hinjected | hnocred
    · exact hne hnone
    · rw [hinjected] at hauth
      cases hauth
    · exact hnocred e he hname hcarries

/-- Case folding of texts that are all ASCII. -/
def asciiFolding : CaseFolding := ⟨lowerAscii, fun _ _ => rfl⟩

/-- One credential, in mixed case. -/
def credential : HeaderMap where
  entries := [(js "Authorization", .one (js "Bearer secret"))]
  tokens := by decide +kernel
  fieldValues := by decide +kernel

/-- With the bearer provider the credential stays in the gateway. -/
theorem filteredHeaders_strips_bearer : ∃ next,
    filteredHeaders asciiFolding credential ⟨true, []⟩ = some next ∧
      js "authorization" ∉ next.names := by
  have hruntime : createRuntime asciiFolding (⟨js "bearer", .undef⟩ : AuthConfig NumberToken)
      ⟨none, fun _ => true, some (), none⟩ = some ⟨some (), js "bearer", []⟩ := by rfl
  obtain ⟨next, hnext, hstripped, -⟩ :=
    (filteredHeaders_strips_iff asciiFolding _ _ _ hruntime credential).mpr
      (.inl (by decide +kernel))
  exact ⟨next, hnext, hstripped rfl⟩

/-- A provider injected over the setting `none` authenticates the client, and the
client's credential is sent to the model provider. -/
theorem filteredHeaders_leaks : ¬∀ (c : AuthConfig NumberToken) (providers : Providers Unit)
    (r : Runtime Unit), createRuntime asciiFolding c providers = some r →
      ∀ headers : HeaderMap, ∃ next,
        filteredHeaders asciiFolding headers (forwardPolicy r) = some next ∧
          (r.authProvider.isSome → js "authorization" ∉ next.names) ∧
            ∀ name ∈ forwardHeaderDenylist, name ∉ next.names := by
  intro h
  have hruntime : createRuntime asciiFolding (⟨js "none", .undef⟩ : AuthConfig NumberToken)
      ⟨some (), fun _ => true, none, none⟩ = some ⟨some (), js "none", []⟩ := by rfl
  obtain ⟨next, hnext, hstripped, -⟩ := h _ _ _ hruntime credential
  have hsent : filteredHeaders asciiFolding credential (forwardPolicy ⟨some (), js "none", []⟩) =
      some ⟨[(js "authorization", js "Bearer secret"),
        (js "content-type", js "application/json")]⟩ := by rfl
  obtain rfl := Option.some.inj (hsent.symm.trans hnext)
  exact hstripped rfl (by decide +kernel)

end Haechi.Proxy
