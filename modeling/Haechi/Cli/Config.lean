import Haechi.Cli.Checks

/-! Loading a configuration: the file's members over the defaults, section by section,
and then every section is checked, in this order. -/

namespace Haechi.Cli

open JsValue Policy Text

variable {ν : Type} [JsNumber ν]

/-! ### TLS material -/

section Tls

variable (host : Host)

/-- A buffer, by its bytes. -/
def buffer (bytes : List ℕ) : JsValue ν := .arr (bytes.map count)

def readTlsFile (path : JsString) (label : String) : Checked (JsValue ν) :=
  match host.readFile path with
  | .ok bytes => .ok (buffer bytes)
  | .error code => .error (js label ++ js " could not be read: " ++ code)

def readPfx (tls : JsValue ν) : Checked (JsValue ν) := do
  let pfxFile ← nonBlank (tls.get (js "pfxFile"))
    (js "proxy.tls.pfxFile must be a non-empty string path")
  let passphrase := tls.get (js "passphrase")
  ensure (!isDefined passphrase || isText passphrase)
    (js "proxy.tls.passphrase must be a string when set")
  let pfx ← readTlsFile host pfxFile "proxy.tls.pfxFile"
  return .obj ((js "pfx", pfx) ::
    if isDefined passphrase then [(js "passphrase", passphrase)] else [])

def readKeyCert (tls : JsValue ν) : Checked (JsValue ν) := do
  let keyFile ← nonBlank (tls.get (js "keyFile"))
    (js "proxy.tls.keyFile must be a non-empty string path")
  let certFile ← nonBlank (tls.get (js "certFile"))
    (js "proxy.tls.certFile must be a non-empty string path")
  let key ← readTlsFile host keyFile "proxy.tls.keyFile"
  let cert ← readTlsFile host certFile "proxy.tls.certFile"
  return .obj [(js "key", key), (js "cert", cert)]

def usingPfx (tls : JsValue ν) : Bool := isDefined (tls.get (js "pfxFile"))

def usingKeyCert (tls : JsValue ν) : Bool :=
  isDefined (tls.get (js "keyFile")) || isDefined (tls.get (js "certFile"))

def hasFilePaths (tls : JsValue ν) : Bool := usingKeyCert tls || usingPfx tls

def hasInlineMaterial (tls : JsValue ν) : Bool :=
  isDefined (tls.get (js "key")) || isDefined (tls.get (js "cert")) ||
    isDefined (tls.get (js "pfx"))

/-- `proxy.tls` is loaded from the files it names, unless it is loaded already. -/
def resolveProxyTls (tls : JsValue ν) : Checked (JsValue ν) :=
  match tls with
  | .undef | .null => .ok .null
  | .obj _ =>
    if hasInlineMaterial tls && !hasFilePaths tls then .ok tls
    else if usingPfx tls && usingKeyCert tls then
      .error (js "proxy.tls must use either \x7b keyFile, certFile \x7d or " ++
        js "\x7b pfxFile \x7d, not both")
    else if usingPfx tls then readPfx host tls
    else if usingKeyCert tls then readKeyCert host tls
    else .error (js "proxy.tls must set \x7b keyFile, certFile \x7d or \x7b pfxFile \x7d")
  | _ => .error (js "proxy.tls must be null or an object (\x7b keyFile, certFile \x7d or " ++
      js "\x7b pfxFile, passphrase? \x7d)")

/-- The members with `tls` resolved. -/
def normalizeProxy (proxy : JsValue ν) : Checked (JsValue ν) := do
  let merged := layered defaultProxy proxy
  let tls ← resolveProxyTls host ((obj merged).get (js "tls"))
  return .obj (setField (js "tls") tls merged)

end Tls

/-! ### Merging -/

/-- A section over its defaults. -/
def merge (defaults : Fields ν) (value : JsValue ν) : JsValue ν :=
  .obj (layered defaults value)

/-- A section over its defaults, with one member merged over the defaults it has. -/
def mergeInner (defaults : Fields ν) (name : String) (inner : Fields ν) (value : JsValue ν) :
    JsValue ν :=
  .obj (setField (js name) (merge inner (value.get (js name))) (layered defaults value))

/-- A section over its defaults, with one member that may not be nullish. -/
def mergeGiven (defaults : Fields ν) (name : String) (fallback value : JsValue ν) :
    JsValue ν :=
  .obj (setField (js name) ((value.get (js name)).orElse fallback) (layered defaults value))

/-- How each section is merged, by itself. -/
def sections (proxy : JsValue ν) : List (String × (JsValue ν → JsValue ν)) :=
  [("configVersion", fun version => version.orElse (count configVersion)),
    ("target", merge defaultTarget), ("proxy", fun _ => proxy),
    ("responseProtection", merge defaultResponseProtection), ("streaming", merge defaultStreaming),
    ("limits", merge defaultLimits), ("policy", mergeInner defaultPolicy "actions" defaultActions),
    ("filters", merge defaultFilters), ("keys", merge defaultKeys),
    ("audit", mergeInner defaultAudit "anchor" defaultAnchor),
    ("tokenVault", merge defaultTokenVault), ("privacy", merge defaultPrivacy),
    ("logging", merge defaultLogging), ("metrics", merge defaultMetrics),
    ("auth", mergeGiven defaultAuth "allowedLabelKeys" defaultLabelKeys),
    ("plugins", merge defaultPlugins),
    ("mcp", mergeGiven defaultMcp "allowedMethods" defaultMethods)]

def mergedConfig (config : Fields ν) (proxy : JsValue ν) : Fields ν :=
  spread (spread defaultConfig config) ((sections proxy).map fun part =>
    (js part.1, part.2 ((obj config).get (js part.1))))

/-! ### Normalizing -/

variable (host : Host)

def normalizeConfig (config : Fields ν) : Checked (Fields ν) := do
  let proxy ← normalizeProxy host ((obj config).get (js "proxy"))
  let merged := mergedConfig config proxy
  checkSections host (.obj merged)
  let target ← validateForwardHeaders host ((obj merged).get (js "target"))
  let _ ← createProtocolAdapter target
  return setField (js "target") target merged

/-- `loadConfig`, of the value that the file's text denotes. -/
def loadConfig (env : Env) (raw : JsValue ν) : Checked (Fields ν) := do
  normalizeConfig host (← applyEnvOverlay host env raw)

end Haechi.Cli
