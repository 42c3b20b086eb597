import Haechi.Cli.Layers
import Haechi.Proxy.Adapters
import Haechi.Proxy.Headers
import Haechi.Policy.Privacy

/-! The configuration of the gateway: its defaults, and the few members that the
environment may set over the file. The overlay is applied to the file's own members,
before any default is merged in. -/

namespace Haechi.Cli

open JsValue Policy Text

variable {ν : Type}

/-! ### Defaults -/

section Defaults

variable [JsNumber ν]

def text (s : String) : JsValue ν := .str (js s)

def count (n : ℕ) : JsValue ν := .num (JsNumber.ofNat n)

def texts (items : List String) : JsValue ν := .arr (items.map text)

/-- Members under plain names. -/
def record (members : List (String × JsValue ν)) : Fields ν :=
  members.map fun member => (js member.1, member.2)

/-- `CONFIG_VERSION`. -/
def configVersion : ℕ := 1

def defaultTarget : Fields ν :=
  record [("type", text "llm-http"), ("adapter", text "openai-compatible"),
    ("upstream", text "http://127.0.0.1:9999")]

def defaultProxy : Fields ν :=
  record [("host", text "127.0.0.1"), ("port", count 11016), ("tls", .null),
    ("trustForwardedProto", .bool false)]

def defaultResponseProtection : Fields ν :=
  record [("enabled", .bool false), ("mode", text "enforce"), ("failureMode", text "fail-closed"),
    ("allowNonJson", .bool false), ("allowCompressed", .bool false), ("maxBytes", count 1048576),
    ("scanNumbers", .bool false)]

def defaultStreaming : Fields ν :=
  record [("requestMode", text "block"), ("responseMode", text "enforce"),
    ("maxMatchBytes", count 256)]

def defaultLimits : Fields ν :=
  record [("maxRequestBytes", count 1048576), ("maxNestingDepth", count 256),
    ("upstreamTimeoutMs", count 120000), ("maxInFlight", count 0),
    ("shutdownGraceMs", count 10000), ("requestTimeoutMs", .null), ("headersTimeoutMs", .null)]

def defaultActions : Fields ν := record [("card", text "block")]

def defaultPolicy : Fields ν :=
  record [("mode", text "dry-run"), ("presets", texts ["korean-pii", "secrets-only", "llm-redact"]),
    ("defaultAction", text "redact"), ("actions", .obj defaultActions)]

def defaultFilters : Fields ν :=
  record [("customRules", .arr []), ("minConfidence", count 0), ("allowlist", .arr []),
    ("decodeAndRescan", .bool false)]

def defaultKeys : Fields ν :=
  record [("provider", text "local"), ("keyFile", text ".haechi/dev.keys.json")]

def defaultAnchor : Fields ν :=
  record [("mode", text "none"), ("path", text ".haechi/audit.anchor.jsonl"),
    ("everyRecords", count 1)]

def defaultAudit : Fields ν :=
  record [("sink", text "jsonl"), ("path", text ".haechi/audit.jsonl"),
    ("anchor", .obj defaultAnchor)]

def defaultTokenVault : Fields ν :=
  record [("provider", text "local"), ("path", text ".haechi/token-vault.json"),
    ("revealPolicy", text "disabled"), ("retentionDays", count 30), ("deterministic", .bool false),
    ("deterministicTypes", .null), ("detokenizeResponses", .bool false)]

def defaultPrivacy : Fields ν := record [("profile", .null)]

def defaultLogging : Fields ν := record [("format", text "text")]

def defaultMetrics : Fields ν := record [("enabled", .bool true)]

def defaultLabelKeys : JsValue ν := texts ["team", "env", "tier", "role"]

def defaultAuth : Fields ν :=
  record [("provider", text "none"), ("store", text ".haechi/auth.json"),
    ("allowedLabelKeys", defaultLabelKeys)]

def defaultPlugins : Fields ν := record [("enabled", .bool true)]

def defaultMethods : JsValue ν :=
  texts ["initialize", "tools/call", "resources/read", "prompts/get"]

def defaultMcp : Fields ν :=
  record [("allowedMethods", defaultMethods), ("protectParams", .bool true),
    ("protectResults", .bool true), ("requireJsonRpc", .bool true)]

def defaultConfig : Fields ν :=
  record [("configVersion", count configVersion), ("mode", text "dry-run"),
    ("target", .obj defaultTarget), ("proxy", .obj defaultProxy),
    ("responseProtection", .obj defaultResponseProtection), ("streaming", .obj defaultStreaming),
    ("limits", .obj defaultLimits), ("policy", .obj defaultPolicy),
    ("filters", .obj defaultFilters), ("keys", .obj defaultKeys), ("audit", .obj defaultAudit),
    ("tokenVault", .obj defaultTokenVault), ("privacy", .obj defaultPrivacy),
    ("logging", .obj defaultLogging), ("metrics", .obj defaultMetrics), ("auth", .obj defaultAuth),
    ("plugins", .obj defaultPlugins), ("mcp", .obj defaultMcp)]

end Defaults

/-! ### The environment -/

/-- What the platform does: numbers of texts, URLs and files. -/
structure Host extends Proxy.CaseFolding where
  /-- `Number(text)`, where that is an integer. -/
  toInteger : JsString → Option ℤ
  /-- The `protocol` of `new URL(text)`, which may throw. -/
  protocolOf : JsString → Option JsString
  /-- `readFileSync`, or the code of its error. -/
  readFile : JsString → Except JsString (List ℕ)
  /-- What `structuredClone` says of an inherited function. -/
  cannotClone : JsString → JsString

abbrev Env := JsString → Option JsString

abbrev Checked (α : Type) := Except JsString α

/-- `config[name] = { ...(config[name] ?? {}), [key]: value }`. -/
def withMember (name key : String) (value : JsValue ν) (config : Fields ν) : Fields ν :=
  setField (js name)
    (.obj (setField (js key) value (spread [] (members ((obj config).get (js name)))))) config

structure Overlay (ν : Type) where
  env : JsString
  apply : Fields ν → JsString → Checked (Fields ν)

section Overlays

variable [JsNumber ν] (host : Host)

def overlayPort : Overlay ν where
  env := js "HAECHI_PROXY_PORT"
  apply config value :=
    match (host.toInteger value).filter fun port => 0 ≤ port ∧ port ≤ 65535 with
    | some port => .ok (withMember "proxy" "port" (count port.toNat) config)
    | none => .error (js "HAECHI_PROXY_PORT must be an integer from 0 to 65535 (got: " ++
        Json.quote value ++ js ")")

def overlayHost : Overlay ν where
  env := js "HAECHI_PROXY_HOST"
  apply config value :=
    if trim value = [] then .error (js "HAECHI_PROXY_HOST must be a non-empty string")
    else .ok (withMember "proxy" "host" (.str value) config)

def overlayUpstream : Overlay ν where
  env := js "HAECHI_UPSTREAM"
  apply config value :=
    if trim value = [] then .error (js "HAECHI_UPSTREAM must be a non-empty URL string")
    else if (host.protocolOf value).isNone then
      .error (js "HAECHI_UPSTREAM must be a valid URL (got: " ++ Json.quote value ++ js ")")
    else .ok (withMember "target" "upstream" (.str value) config)

def modes : List JsString := [js "dry-run", js "report-only", js "enforce"]

def overlayMode : Overlay ν where
  env := js "HAECHI_MODE"
  apply config value :=
    if value ∈ modes then .ok (setField (js "mode") (.str value) config)
    else .error (js "HAECHI_MODE must be one of dry-run|report-only|enforce (got: " ++
      Json.quote value ++ js ")")

def overlayLogFormat : Overlay ν where
  env := js "HAECHI_LOG_FORMAT"
  apply config value :=
    if value = js "text" ∨ value = js "json" then
      .ok (withMember "logging" "format" (.str value) config)
    else .error (js "HAECHI_LOG_FORMAT must be \"text\" or \"json\" (got: " ++
      Json.quote value ++ js ")")

/-- `ENV_OVERLAY`. -/
def envOverlay : List (Overlay ν) :=
  [overlayPort host, overlayHost, overlayUpstream host, overlayMode, overlayLogFormat]

/-- One variable, if it is set. -/
def Overlay.run (env : Env) (config : Fields ν) (overlay : Overlay ν) : Checked (Fields ν) :=
  match env overlay.env with
  | none => .ok config
  | some value => overlay.apply config value

def applyEnvOverlay (env : Env) (rawConfig : JsValue ν) : Checked (Fields ν) :=
  (envOverlay host).foldlM (Overlay.run env) (spread [] (members rawConfig))

end Overlays

end Haechi.Cli
