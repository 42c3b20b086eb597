import Haechi.Cli.Checks
import Haechi.Dashboard.Hosts
import Haechi.Dashboard.RateLimiter
import Haechi.Runs

/-! The dashboard server: the options it is created with, and the gates that a request passes
before a route answers it. A request for audit data is held while the session guard is asked,
and others come in meanwhile. Proved: in every run a request is answered with audit data
exactly when it names the server, reads, is for one of the three routes, is let in by the rate
limiter and, where there is a guard, has a session; a handler of the guard runs for its own
path only; and the limiter has let in as many requests of a source as got past it. -/

namespace Haechi.Dashboard

open Text Cli Proxy

variable {ν : Type} [JsNumber ν]

/-! ### Options -/

/-- `BROKER_PATHS`. -/
def brokerPaths : List JsString := ["/auth/login", "/auth/callback", "/auth/logout"].map js

/-- `KNOWN_KEYS`. -/
def knownKeys : List JsString :=
  ["auditPath", "anchorPath", "host", "port", "allowRemoteBind", "sessionGuard", "window",
    "tlsContext", "trustProxy"].map js

/-- The handlers of a session guard, as the options have them. -/
inductive HandlersOption where
  | absent
  /-- No object, or an array. -/
  | malformed
  | paths (keys : List JsString)

/-- The session guard, as the options have it. -/
inductive GuardOption where
  | absent
  /-- No object with a function `authenticate`. -/
  | malformed
  | guard (handlers : HandlersOption)

/-- The options; the session guard is apart from the others, since it has functions. -/
structure Options (ν : Type) where
  values : JsValue ν
  sessionGuard : GuardOption

/-- A session guard whose handlers are at broker paths. -/
structure Guard where
  handlers : List JsString
  brokers : ∀ path ∈ handlers, path ∈ brokerPaths

structure Config (ν : Type) where
  auditPath : JsString
  anchorPath : Option JsString
  host : JsString
  port : ℕ
  allowRemoteBind : Bool
  sessionGuard : Option Guard
  window : ℕ
  tlsContext : Option (JsValue ν)
  trustProxy : Option JsString

/-- A message about a member of the options. -/
def configError (field problem : String) : JsString :=
  js "dashboard config '" ++ js field ++ js "' " ++ js problem

def checkKnown (options : JsValue ν) : Checked Unit :=
  match options with
  | .undef => .ok ()
  | .obj fields =>
    match fields.find? fun field => field.1 ∉ knownKeys with
    | none => .ok ()
    | some field => .error (js "Unknown dashboard config option: " ++ field.1)
  | _ => .error (js "dashboard config must be an object")

/-- A text that is not empty; nothing stands for nothing, and so does `null` where it may. -/
def textOption (options : JsValue ν) (field : String) (nullable : Bool) (problem : String) :
    Checked (Option JsString) :=
  match options.get (js field) with
  | .undef => .ok none
  | .null => if nullable then .ok none else .error (configError field problem)
  | .str s => if s = [] then .error (configError field problem) else .ok (some s)
  | _ => .error (configError field problem)

/-- A count in a range. -/
def countOption (options : JsValue ν) (field : String) (least most default : ℕ)
    (problem : String) : Checked ℕ :=
  match options.get (js field) with
  | .undef => .ok default
  | .num x =>
    match JsNumber.toNat? x with
    | some n => if least ≤ n ∧ n ≤ most then .ok n else .error (configError field problem)
    | none => .error (configError field problem)
  | _ => .error (configError field problem)

def remoteBindOption (options : JsValue ν) : Checked Bool :=
  match options.get (js "allowRemoteBind") with
  | .undef => .ok false
  | .bool b => .ok b
  | _ => .error (configError "allowRemoteBind" "must be a boolean")

def handlersOption : HandlersOption → Checked Guard
  | .absent => .ok ⟨[], by simp⟩
  | .malformed =>
    .error (configError "sessionGuard.handlers" "must be an object mapping paths to handlers")
  | .paths keys =>
    if h : ∀ path ∈ keys, path ∈ brokerPaths then .ok ⟨keys, h⟩
    else
      .error (js "dashboard config 'sessionGuard.handlers' key '" ++
        ((keys.find? (· ∉ brokerPaths)).getD []) ++ js "' is not an allowed broker path " ++
        js ("(only /auth/login, /auth/callback, /auth/logout may be exempt from the auth gate)"))

def guardOption : GuardOption → Checked (Option Guard)
  | .absent => .ok none
  | .malformed =>
    .error (configError "sessionGuard" "must be an object with an authenticate() function")
  | .guard handlers => (handlersOption handlers).map some

def tlsOption (options : JsValue ν) : Checked (Option (JsValue ν)) :=
  match options.get (js "tlsContext") with
  | .undef | .null => .ok none
  | tlsContext =>
    if isObject tlsContext then
      if hasUsableTlsMaterial tlsContext then .ok (some tlsContext)
      else
        .error (configError "tlsContext"
          "must contain usable TLS material ((key && cert) or pfx)")
    else .error (configError "tlsContext" "must be an object or null")

section Create

variable (fold : CaseFolding)

def trustOption (options : JsValue ν) : Checked (Option JsString) :=
  let problem := configError "trustProxy"
    "must be a non-empty string (a trusted-proxy address/CIDR) or null"
  match options.get (js "trustProxy") with
  | .undef | .null => .ok none
  | .str s =>
    if fold.toLowerCase (trim s) ∈ ["", "false", "0"].map js then .error problem else .ok (some s)
  | _ => .error problem

/-- `normalizeDashboardConfig`. -/
def normalizeDashboardConfig (options : Options ν) : Checked (Config ν) := do
  checkKnown options.values
  let auditPath ← nonBlank (options.values.get (js "auditPath"))
    (configError "auditPath" "must be a non-empty string")
  let anchorPath ← textOption options.values "anchorPath" true "must be a non-empty string or null"
  let host ← textOption options.values "host" false "must be a non-empty string"
  let port ← countOption options.values "port" 0 65535 1018 "must be an integer in [0,65535]"
  let allowRemoteBind ← remoteBindOption options.values
  let sessionGuard ← guardOption options.sessionGuard
  let window ← countOption options.values "window" 4096 67108864 1048576
    "must be an integer in [4096,67108864]"
  let tlsContext ← tlsOption options.values
  let trustProxy ← trustOption fold options.values
  return {
    auditPath := auditPath, anchorPath := anchorPath, host := host.getD (js "127.0.0.1"),
    port := port, allowRemoteBind := allowRemoteBind, sessionGuard := sessionGuard,
    window := window, tlsContext := tlsContext, trustProxy := trustProxy }

/-- The server terminates TLS: it serves https, with HSTS. -/
def Config.servesHttps (config : Config ν) : Bool :=
  config.tlsContext.any hasUsableTlsMaterial

/-- A server, which is on the loopback or guarded and served over https. -/
structure Server (ν : Type) [JsNumber ν] where
  config : Config ν
  guarded : isLoopbackHost fold config.host = false →
    config.sessionGuard.isSome = true ∧ config.servesHttps = true

variable {fold} in
theorem Config.guarded_of_checks {config : Config ν}
    (hbind : ¬(config.allowRemoteBind = false ∧ isProxyLoopback fold config.host = false))
    (hguard : ¬(isLoopbackHost fold config.host = false ∧ config.allowRemoteBind = true ∧
      config.sessionGuard = none))
    (htls : ¬(isLoopbackHost fold config.host = false ∧ config.servesHttps = false))
    (h : isLoopbackHost fold config.host = false) :
    config.sessionGuard.isSome = true ∧ config.servesHttps = true := by
  have hproxy : isProxyLoopback fold config.host = false := by
    by_contra hloop
    have := isLoopbackHost_of_proxy (Bool.eq_true_of_not_eq_false hloop)
    rw [h] at this
    cases this
  have hremote : config.allowRemoteBind = true :=
    Bool.eq_true_of_not_eq_false fun hlocal => hbind ⟨hlocal, hproxy⟩
  exact ⟨Option.isSome_iff_ne_none.mpr fun hnone => hguard ⟨h, hremote, hnone⟩,
    Bool.eq_true_of_not_eq_false fun hplain => htls ⟨h, hplain⟩⟩

/-- `createDashboardServer`. -/
def createDashboardServer (options : Options ν) : Checked (Server fold ν) := do
  let config ← normalizeDashboardConfig fold options
  -- `assertSafeProxyBind` has its own, narrower list of loopback names
  if hbind : config.allowRemoteBind = false ∧ isProxyLoopback fold config.host = false then
    .error (js "Refusing to bind Haechi dashboard to non-loopback host " ++ config.host ++
      js ". Set the allowRemoteBind option only for an explicitly secured, TLS-terminated, " ++
      js "session-guarded environment.")
  else if hguard : isLoopbackHost fold config.host = false ∧ config.allowRemoteBind = true ∧
      config.sessionGuard = none then
    .error (js "remote bind requires a sessionGuard")
  else if htls : isLoopbackHost fold config.host = false ∧ config.servesHttps = false then
    .error (js "remote bind requires the dashboard to terminate TLS (a valid tlsContext with " ++
      js "(key && cert) or pfx); trustProxy alone does not authorize a non-loopback plaintext " ++
      js "listener, and a Secure/__Host- session cookie is never sent over plaintext http")
  else .ok ⟨config, config.guarded_of_checks hbind hguard htls⟩

end Create

/-! ### Requests -/

/-- The routes of audit data. -/
inductive Api where
  | events
  | chain
  | summary
deriving DecidableEq

/-- What answers a request. -/
inductive Reply where
  | refused (status : ℕ) (error : JsString)
  /-- `/healthz`. -/
  | health
  /-- The handler of the session guard at the path. -/
  | handler (path : JsString)
  /-- `HTML_SHELL`. -/
  | shell
  /-- A script or a style sheet of `ASSETS`. -/
  | asset (path : JsString)
  | audit (api : Api)
deriving DecidableEq

structure HttpRequest where
  host : Option JsString
  method : JsString
  url : JsString
  remoteAddress : Option JsString
deriving DecidableEq

namespace HttpRequest

variable (r : HttpRequest)

/-- `req.method || "GET"`. -/
def verb : JsString := if r.method = [] then js "GET" else r.method

/-- `req.url || "/"`. -/
def address : JsString := if r.url = [] then js "/" else r.url

/-- The key of the rate limiter. -/
def rateKey : JsString :=
  match r.remoteAddress with
  | none | some [] => js "unknown"
  | some address => address

end HttpRequest

/-- A request that is answered, with what the rate limiter and the session guard said of it
where they were asked. -/
structure Handled where
  request : HttpRequest
  allowed : Option Bool
  session : Option Bool
  reply : Reply

/-- A request that waits for the session guard. -/
structure Held where
  request : HttpRequest
  path : JsString
deriving DecidableEq

/-- The buckets of the rate limiter with the calls of it so far, and the requests. -/
structure Serving where
  buckets : Buckets JsString
  calls : List (Arrival JsString)
  held : List Held
  handled : List Handled

/-- A request comes in, or the session guard answers for a held one: with a session, or with
none, as where it throws. -/
inductive Event where
  | request (now : ℤ) (r : HttpRequest)
  | authenticated (i : ℕ) (session : Bool)

def apiOf (path : JsString) : Option Api :=
  if path = js "/api/events" then some .events
  else if path = js "/api/chain" then some .chain
  else if path = js "/api/summary" then some .summary
  else none

/-- The keys of `ASSETS`. -/
def assets : List JsString := ["/assets/app.js", "/assets/app.css"].map js

def route (path : JsString) : Reply :=
  if path = js "/" ∨ path = js "/index.html" then .shell
  else if path ∈ assets then .asset path
  else
    match apiOf path with
    | some api => .audit api
    | none => .refused 404 (js "not_found")

namespace Server

variable {fold : CaseFolding} (server : Server fold ν)

/-- `exemptHandlerPaths`. -/
def exemptHandlerPaths : List JsString :=
  match server.config.sessionGuard with
  | none => []
  | some guard => brokerPaths.filter (· ∈ guard.handlers)

/-- The gates in front of the routes: the path of the request, or what refuses it. The path of
an address is given by `pathOf`, unless the address cannot be parsed. -/
def gate (pathOf : JsString → Option JsString) (r : HttpRequest) : Except Reply JsString :=
  match parseHostHeader fold r.host with
  | none => .error (.refused 403 (js "forbidden"))
  | some host =>
    if host ∉ buildHostAllowlist fold server.config.host then
      .error (.refused 403 (js "forbidden"))
    else if r.verb ≠ js "GET" ∧ r.verb ≠ js "HEAD" then
      .error (.refused 405 (js "method_not_allowed"))
    else
      match pathOf r.address with
      | none => .error (.refused 400 (js "bad_request"))
      | some path => .ok path

end Server

namespace Serving

variable (s : Serving)

def init : Serving := ⟨.empty, [], [], []⟩

def answer (a : Handled) : Serving := { s with handled := s.handled ++ [a] }

def hold (w : Held) : Serving := { s with held := s.held ++ [w] }

/-- The rate limiter is asked. -/
def limit (now : ℤ) (r : HttpRequest) : Bool × Serving :=
  let call : Arrival JsString := ⟨now, r.rateKey⟩
  let allowed := ({} : RateOptions).allow call s.buckets
  (allowed.1, { s with buckets := allowed.2, calls := s.calls ++ [call] })

variable {fold : CaseFolding} (server : Server fold ν) (pathOf : JsString → Option JsString)

/-- `handleRequest` behind the rate limiter, up to the session guard. -/
def proceed (r : HttpRequest) (path : JsString) (allowed : Option Bool) : Serving :=
  if path ∈ server.exemptHandlerPaths then s.answer ⟨r, allowed, none, .handler path⟩
  else
    match apiOf path with
    | none => s.answer ⟨r, allowed, none, route path⟩
    | some _ =>
      if server.config.sessionGuard.isSome then s.hold ⟨r, path⟩
      else s.answer ⟨r, allowed, none, route path⟩

/-- `handleRequest`, up to the session guard. -/
def handleRequest (now : ℤ) (r : HttpRequest) : Serving :=
  match server.gate pathOf r with
  | .error reply => s.answer ⟨r, none, none, reply⟩
  | .ok path =>
    if path = js "/healthz" then s.answer ⟨r, none, none, .health⟩
    else if (apiOf path).isSome then
      if (s.limit now r).1 then (s.limit now r).2.proceed server r path (some true)
      else (s.limit now r).2.answer ⟨r, some false, none, .refused 429 (js "rate_limited")⟩
    else s.proceed server r path none

/-- The session guard answers. -/
def authenticated (i : ℕ) (session : Bool) : Serving :=
  match s.held[i]? with
  | none => s
  | some w =>
    { s with held := s.held.eraseIdx i }.answer ⟨w.request, some true, some session,
      if session then route w.path else .refused 401 (js "unauthorized")⟩

def step : Event → Serving
  | .request now r => s.handleRequest server pathOf now r
  | .authenticated i session => s.authenticated i session

/-- The requests that came in from the start on. -/
def run (events : List Event) : Serving :=
  events.foldl (fun s event => s.step server pathOf event) init

/-- How many requests of the source the rate limiter let in. -/
def letIn (k : JsString) : ℕ :=
  (s.handled.countP fun a => a.allowed == some true && decide (a.request.rateKey = k)) +
    s.held.countP fun w => decide (w.request.rateKey = k)

end Serving

/-! ### Which requests pass -/

section Passing

variable {fold : CaseFolding} (server : Server fold ν) (pathOf : JsString → Option JsString)

/-- The `Host` header spells a name that is allowed, up to case and a trailing dot. -/
def NamesServer (r : HttpRequest) : Prop :=
  ∃ raw, r.host = some raw ∧ 44 ∉ raw ∧ ∃ name, Spells name (trim raw) ∧
    dropDot (fold.toLowerCase name) ≠ [] ∧
      dropDot (fold.toLowerCase name) ∈ buildHostAllowlist fold server.config.host

/-- The request names the server, reads, and is for the path. -/
structure Passes (r : HttpRequest) (path : JsString) : Prop where
  names : NamesServer server r
  reads : r.method ∈ ["", "GET", "HEAD"].map js
  path : pathOf r.address = some path

/-- What a request is answered with, exactly. -/
structure Exact (a : Handled) : Prop where
  forbidden : ¬NamesServer server a.request → a.reply = .refused 403 (js "forbidden")
  handler : ∀ path, a.reply = .handler path ↔
    Passes server pathOf a.request path ∧ path ∈ server.exemptHandlerPaths
  audit : ∀ api, a.reply = .audit api ↔
    (∃ path, Passes server pathOf a.request path ∧ apiOf path = some api) ∧
      a.allowed = some true ∧ (server.config.sessionGuard.isSome = true → a.session = some true)

variable {server pathOf} {r : HttpRequest} {path : JsString}

theorem namesServer_iff :
    NamesServer server r ↔ ∃ host ∈ buildHostAllowlist fold server.config.host,
      parseHostHeader fold r.host = some host := by
  constructor
  · rintro ⟨raw, hraw, hcomma, name, hspells, hne, hmem⟩
    refine ⟨_, hmem, ?_⟩
    rw [hraw]
    exact parseHostHeader_eq_some.mpr ⟨hcomma, hne, name, hspells, rfl⟩
  · rintro ⟨host, hmem, hparse⟩
    cases hraw : r.host with
    | none =>
      rw [hraw] at hparse
      cases hparse
    | some raw =>
      rw [hraw] at hparse
      obtain ⟨hcomma, hne, name, hspells, rfl⟩ := parseHostHeader_eq_some.mp hparse
      exact ⟨raw, hraw, hcomma, name, hspells, hne, hmem⟩

theorem reads_iff : r.method ∈ ["", "GET", "HEAD"].map js ↔
    ¬(r.verb ≠ js "GET" ∧ r.verb ≠ js "HEAD") := by
  have hempty : js "" = [] := rfl
  rw [HttpRequest.verb]
  by_cases h : r.method = []
  · simp [h, hempty]
  · simp [h, hempty, or_iff_not_imp_left]

theorem gate_of_not_names (h : ¬NamesServer server r) :
    server.gate pathOf r = .error (.refused 403 (js "forbidden")) := by
  rw [namesServer_iff] at h
  rw [Server.gate]
  split
  · rfl
  · next host hhost => rw [if_pos fun hmem => h ⟨host, hmem, hhost⟩]

theorem gate_eq_ok : server.gate pathOf r = .ok path ↔ Passes server pathOf r path := by
  constructor
  · intro h
    have hnames : NamesServer server r := by
      by_contra hno
      rw [gate_of_not_names hno] at h
      cases h
    rw [Server.gate] at h
    split at h
    · cases h
    · split_ifs at h with hhost hmethod
      split at h
      · cases h
      · next heq =>
        cases h
        exact ⟨hnames, reads_iff.mpr hmethod, heq⟩
  · rintro ⟨hnames, hreads, hpath⟩
    obtain ⟨host, hmem, hhost⟩ := namesServer_iff.mp hnames
    rw [Server.gate, hhost]
    simp only [hmem, not_true_eq_false, if_false, if_neg (reads_iff.mp hreads), hpath]

theorem Passes.unique {path' : JsString} (h : Passes server pathOf r path)
    (h' : Passes server pathOf r path') : path = path' :=
  Option.some.inj (h.path.symm.trans h'.path)

/-- What the gates refuse with is neither data nor a handler. -/
theorem gate_eq_error {reply : Reply} (h : server.gate pathOf r = .error reply) :
    ∃ status error, reply = .refused status error := by
  rw [Server.gate] at h
  split at h
  · exact ⟨_, _, (Except.error.inj h).symm⟩
  · split_ifs at h
    · exact ⟨_, _, (Except.error.inj h).symm⟩
    · split at h
      · exact ⟨_, _, (Except.error.inj h).symm⟩
      · cases h
    · exact ⟨_, _, (Except.error.inj h).symm⟩

theorem mem_brokerPaths_of_exempt (h : path ∈ server.exemptHandlerPaths) : path ∈ brokerPaths := by
  rw [Server.exemptHandlerPaths] at h
  split at h
  · cases h
  · exact (List.mem_filter.mp h).1

/-- No handler is in the way of a route. -/
theorem apiOf_of_exempt (h : path ∈ server.exemptHandlerPaths) :
    apiOf path = none ∧ path ≠ js "/healthz" := by
  have hall : ∀ p ∈ brokerPaths, apiOf p = none ∧ p ≠ js "/healthz" := by decide +kernel
  exact hall path (mem_brokerPaths_of_exempt h)

theorem route_eq_audit {api : Api} : route path = .audit api ↔ apiOf path = some api := by
  have hroutes : ∀ p ∈ js "/" :: js "/index.html" :: assets, apiOf p = none := by decide +kernel
  rw [route]
  split_ifs with hshell hasset
  · rw [hroutes path (by rcases hshell with rfl | rfl <;> simp)]
    simp
  · rw [hroutes path (List.mem_cons_of_mem _ (List.mem_cons_of_mem _ hasset))]
    simp
  · cases apiOf path <;> simp

theorem route_ne_handler (p : JsString) : route path ≠ .handler p := by
  rw [route]
  split_ifs
  · simp
  · simp
  · cases apiOf path <;> simp

theorem exact_of_refused {reply : Reply} (h : server.gate pathOf r = .error reply) :
    Exact server pathOf ⟨r, none, none, reply⟩ where
  forbidden hno := by
    rw [gate_of_not_names hno] at h
    exact (Except.error.inj h).symm
  handler p := by
    obtain ⟨status, error, rfl⟩ := gate_eq_error h
    refine ⟨fun heq => (by cases heq), fun hpass => ?_⟩
    rw [gate_eq_ok.mpr hpass.1] at h
    cases h
  audit api := by
    obtain ⟨status, error, rfl⟩ := gate_eq_error h
    simp

/-- A request that has passed is answered by its path. -/
theorem Passes.exact (h : Passes server pathOf r path) {allowed session : Option Bool}
    {reply : Reply}
    (hhandler : ∀ p, reply = .handler p ↔ path = p ∧ path ∈ server.exemptHandlerPaths)
    (haudit : ∀ api, reply = .audit api ↔ apiOf path = some api ∧ allowed = some true ∧
      (server.config.sessionGuard.isSome = true → session = some true)) :
    Exact server pathOf ⟨r, allowed, session, reply⟩ where
  forbidden hno := absurd h.names hno
  handler p := by
    rw [hhandler]
    constructor
    · rintro ⟨rfl, hexempt⟩
      exact ⟨h, hexempt⟩
    · rintro ⟨hpass, hexempt⟩
      obtain rfl := h.unique hpass
      exact ⟨rfl, hexempt⟩
  audit api := by
    rw [haudit]
    apply and_congr_left'
    constructor
    · exact fun hapi => ⟨path, h, hapi⟩
    · rintro ⟨p, hpass, hapi⟩
      obtain rfl := h.unique hpass
      exact hapi

end Passing

/-! ### Runs -/

namespace Serving

section Sound

variable {fold : CaseFolding} {server : Server fold ν} {pathOf : JsString → Option JsString}

variable (server pathOf) in
/-- What is answered is answered exactly, and what is held is a request for audit data that
has passed. -/
structure Sound (s : Serving) : Prop where
  handled : ∀ a ∈ s.handled, Exact server pathOf a
  held : ∀ w ∈ s.held, Passes server pathOf w.request w.path ∧
    w.path ∉ server.exemptHandlerPaths ∧ server.config.sessionGuard.isSome = true

variable {s : Serving} {r : HttpRequest} {path : JsString}

theorem Sound.answer (h : Sound server pathOf s) {a : Handled} (ha : Exact server pathOf a) :
    Sound server pathOf (s.answer a) where
  handled b hb := by
    rcases List.mem_append.mp hb with hb | hb
    · exact h.handled b hb
    · rwa [List.mem_singleton.mp hb]
  held := h.held

theorem Sound.limit (h : Sound server pathOf s) (now : ℤ) (r : HttpRequest) :
    Sound server pathOf (s.limit now r).2 := ⟨h.handled, h.held⟩

theorem Sound.release (h : Sound server pathOf s) (i : ℕ) :
    Sound server pathOf { s with held := s.held.eraseIdx i } :=
  ⟨h.handled, fun w hw => h.held w (List.mem_of_mem_eraseIdx hw)⟩

theorem Sound.proceed (h : Sound server pathOf s) (hpass : Passes server pathOf r path)
    {allowed : Option Bool} (hallowed : (apiOf path).isSome = true → allowed = some true) :
    Sound server pathOf (s.proceed server r path allowed) := by
  rw [Serving.proceed]
  by_cases hexempt : path ∈ server.exemptHandlerPaths
  · rw [if_pos hexempt]
    apply h.answer
    apply hpass.exact
    · intro p
      simp [hexempt]
    · intro api
      simp [(apiOf_of_exempt hexempt).1]
  · rw [if_neg hexempt]
    cases hapi : apiOf path with
    | none =>
      apply h.answer
      apply hpass.exact
      · intro p
        simp [route_ne_handler, hexempt]
      · intro api
        simp [route_eq_audit, hapi]
    | some api =>
      simp only
      split_ifs with hguard
      · refine ⟨h.handled, fun w hw => ?_⟩
        rcases List.mem_append.mp hw with hw | hw
        · exact h.held w hw
        · rw [List.mem_singleton.mp hw]
          exact ⟨hpass, hexempt, hguard⟩
      · apply h.answer
        apply hpass.exact
        · intro p
          simp [route_ne_handler, hexempt]
        · intro api
          simp [route_eq_audit, hallowed (by rw [hapi]; rfl), hguard]

theorem Sound.handleRequest (h : Sound server pathOf s) (now : ℤ) (r : HttpRequest) :
    Sound server pathOf (s.handleRequest server pathOf now r) := by
  rw [Serving.handleRequest]
  split
  · next hgate => exact h.answer (exact_of_refused hgate)
  · next path hgate =>
    have hpass := gate_eq_ok.mp hgate
    split_ifs with hhealth hapi hlet
    · apply h.answer
      apply hpass.exact
      · intro p
        simp only [reduceCtorEq, false_iff, not_and]
        exact fun _ hexempt => (apiOf_of_exempt hexempt).2 hhealth
      · intro api
        have hnone : apiOf (js "/healthz") = none := by decide +kernel
        simp [hhealth, hnone]
    · exact (h.limit now r).proceed hpass fun _ => rfl
    · apply (h.limit now r).answer
      apply hpass.exact
      · intro p
        simp only [reduceCtorEq, false_iff, not_and]
        intro _ hexempt
        rw [(apiOf_of_exempt hexempt).1] at hapi
        cases hapi
      · intro api
        simp
    · exact h.proceed hpass fun hsome => absurd hsome hapi

theorem Sound.authenticated (h : Sound server pathOf s) (i : ℕ) (session : Bool) :
    Sound server pathOf (s.authenticated i session) := by
  rw [Serving.authenticated]
  split
  · exact h
  · next w hw =>
    obtain ⟨hpass, hexempt, hguard⟩ := h.held w (List.mem_of_getElem? hw)
    apply (h.release i).answer
    apply hpass.exact
    · intro p
      cases session <;> simp [route_ne_handler, hexempt]
    · intro api
      cases session <;> simp [route_eq_audit, hguard]

theorem Sound.step (h : Sound server pathOf s) (event : Event) :
    Sound server pathOf (s.step server pathOf event) := by
  cases event with
  | request now r => exact h.handleRequest now r
  | authenticated i session => exact h.authenticated i session

theorem sound_run (events : List Event) : Sound server pathOf (run server pathOf events) := by
  rw [run]
  apply invariant_run
  · exact fun _ event h => h.step event
  · exact ⟨fun _ h => (by cases h), fun _ h => (by cases h)⟩

end Sound

/-! ### What the rate limiter let in -/

section Counting

variable {fold : CaseFolding} {server : Server fold ν} {pathOf : JsString → Option JsString}
  {s : Serving} {r : HttpRequest} {path k : JsString}

/-- The limiter has answered the calls, and as many as it allowed were let in. -/
structure Counted (s : Serving) : Prop where
  buckets : s.buckets = ({} : RateOptions).after .empty s.calls
  letIn : ∀ k, s.letIn k = allowed k (({} : RateOptions).answers .empty s.calls)

theorem letIn_answer (a : Handled) : (s.answer a).letIn k =
    s.letIn k + (a.allowed == some true && decide (a.request.rateKey = k)).toNat := by
  rw [letIn, letIn, answer, List.countP_append, List.countP_singleton, Nat.add_right_comm]
  cases (a.allowed == some true && decide (a.request.rateKey = k)) <;> rfl

theorem letIn_hold (w : Held) :
    (s.hold w).letIn k = s.letIn k + (decide (w.request.rateKey = k)).toNat := by
  rw [letIn, letIn, hold, List.countP_append, List.countP_singleton, Nat.add_assoc]
  cases decide (w.request.rateKey = k) <;> rfl

theorem letIn_proceed {allowed : Option Bool}
    (hallowed : (apiOf path).isSome = true → allowed = some true) :
    (s.proceed server r path allowed).letIn k =
      s.letIn k + (allowed == some true && decide (r.rateKey = k)).toNat := by
  rw [proceed]
  by_cases hexempt : path ∈ server.exemptHandlerPaths
  · rw [if_pos hexempt, letIn_answer]
  · rw [if_neg hexempt]
    cases hapi : apiOf path with
    | none => exact letIn_answer _
    | some api =>
      simp only
      split_ifs
      · rw [letIn_hold, hallowed (by rw [hapi]; rfl)]
        rfl
      · exact letIn_answer _

theorem letIn_authenticated (i : ℕ) (session : Bool) :
    (s.authenticated i session).letIn k = s.letIn k := by
  rw [authenticated]
  cases hw : s.held[i]? with
  | none => rfl
  | some w =>
    obtain ⟨hi, rfl⟩ := List.getElem?_eq_some_iff.mp hw
    have hheld := (List.getElem_cons_eraseIdx_perm hi).countP_eq
      fun w => decide (w.request.rateKey = k)
    rw [List.countP_cons] at hheld
    simp only
    rw [letIn_answer, letIn, letIn, ← hheld, Nat.add_assoc]
    simp only [BEq.rfl, Bool.true_and]
    cases decide (s.held[i].request.rateKey = k) <;> rfl

theorem proceed_calls (allowed : Option Bool) :
    (s.proceed server r path allowed).buckets = s.buckets ∧
      (s.proceed server r path allowed).calls = s.calls := by
  rw [proceed]
  by_cases hexempt : path ∈ server.exemptHandlerPaths
  · rw [if_pos hexempt]
    exact ⟨rfl, rfl⟩
  · rw [if_neg hexempt]
    cases apiOf path with
    | none => exact ⟨rfl, rfl⟩
    | some api =>
      simp only
      split_ifs <;> exact ⟨rfl, rfl⟩

theorem authenticated_calls (i : ℕ) (session : Bool) :
    (s.authenticated i session).buckets = s.buckets ∧
      (s.authenticated i session).calls = s.calls := by
  rw [authenticated]
  split <;> exact ⟨rfl, rfl⟩

theorem Counted.keep (h : Counted s) {s' : Serving}
    (hcalls : s'.buckets = s.buckets ∧ s'.calls = s.calls) (hlet : ∀ k, s'.letIn k = s.letIn k) :
    Counted s' where
  buckets := by rw [hcalls.1, hcalls.2, h.buckets]
  letIn k := by rw [hlet, hcalls.2, h.letIn]

/-- The limiter is asked, and the request is let in if it says so. -/
theorem Counted.limit (h : Counted s) (now : ℤ) (r : HttpRequest) {s' : Serving}
    (hcalls : s'.buckets = (s.limit now r).2.buckets ∧ s'.calls = (s.limit now r).2.calls)
    (hlet : ∀ k, s'.letIn k = s.letIn k + ((s.limit now r).1 && decide (r.rateKey = k)).toNat) :
    Counted s' where
  buckets := by
    rw [hcalls.1, hcalls.2, Serving.limit]
    simp only
    rw [RateOptions.after_append, ← h.buckets]
    rfl
  letIn k := by
    rw [hlet, hcalls.2, h.letIn, Serving.limit]
    simp only
    rw [RateOptions.answers_append, RateOptions.allowed_append, ← h.buckets,
      RateOptions.allowed_cons]
    rfl

theorem Counted.handleRequest (h : Counted s) (now : ℤ) (r : HttpRequest) :
    Counted (s.handleRequest server pathOf now r) := by
  rw [Serving.handleRequest]
  split
  · exact h.keep ⟨rfl, rfl⟩ fun k => letIn_answer _
  · next path hgate =>
    split_ifs with hhealth hapi hlet
    · exact h.keep ⟨rfl, rfl⟩ fun k => letIn_answer _
    · apply h.limit now r (proceed_calls _)
      intro k
      rw [letIn_proceed fun _ => rfl, hlet]
      rfl
    · refine h.limit now r ⟨?_, ?_⟩ fun k => ?_
      · rfl
      · rfl
      · rw [letIn_answer, Bool.eq_false_of_not_eq_true hlet]
        rfl
    · apply h.keep (proceed_calls _)
      intro k
      rw [letIn_proceed fun hsome => absurd hsome hapi]
      rfl

theorem Counted.step (h : Counted s) (event : Event) : Counted (s.step server pathOf event) := by
  cases event with
  | request now r => exact h.handleRequest now r
  | authenticated i session =>
    exact h.keep (authenticated_calls i session) fun k => letIn_authenticated i session

theorem counted_run (events : List Event) : Counted (run server pathOf events) := by
  rw [run]
  apply invariant_run
  · exact fun _ event h => h.step event
  · exact ⟨rfl, fun _ => rfl⟩

end Counting

end Serving

/-- The options that only have a path make a server on the loopback. -/
example : (createDashboardServer Proxy.asciiFolding
    (⟨.obj [(js "auditPath", .str (js "audit.jsonl"))], .absent⟩ : Options NumberToken)).map
      (fun server => (server.config.host, server.config.port, server.config.servesHttps)) =
        .ok (js "127.0.0.1", 1018, false) := by decide +kernel

end Haechi.Dashboard
