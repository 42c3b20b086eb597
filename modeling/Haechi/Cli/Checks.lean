import Haechi.Cli.Defaults

/-! The checks of a merged configuration, section by section. Each names the member it
refuses; the first that fails is the one reported. -/

namespace Haechi.Cli

open JsValue Policy Text

variable {ν : Type} [JsNumber ν]

/-! ### Kinds of values -/

def ensure (ok : Bool) (error : JsString) : Checked Unit := if ok then .ok () else .error error

def isDefined : JsValue ν → Bool
  | .undef => false
  | _ => true

/-- `value !== undefined && value !== null`. -/
def isGiven : JsValue ν → Bool
  | .undef | .null => false
  | _ => true

def isBoolean : JsValue ν → Bool
  | .bool _ => true
  | _ => false

/-- An object that is no array. -/
def isObject : JsValue ν → Bool
  | .obj _ => true
  | _ => false

def isOneOf (names : List String) : JsValue ν → Bool
  | .str s => s ∈ names.map js
  | _ => false

def isText : JsValue ν → Bool
  | .str _ => true
  | _ => false

def isNonBlank : JsValue ν → Bool
  | .str s => !(trim s).isEmpty
  | _ => false

/-- The text, unless it is blank. -/
def nonBlank (v : JsValue ν) (error : JsString) : Checked JsString :=
  match v with
  | .str s => if trim s = [] then .error error else .ok s
  | _ => .error error

def isListOf (p : JsValue ν → Bool) : JsValue ν → Bool
  | .arr items => items.all p
  | _ => false

def isNonEmptyList : JsValue ν → Bool
  | .arr items => !items.isEmpty
  | _ => false

/-- An integer that is at least this. -/
def isIntegerFrom (least : ℕ) : JsValue ν → Bool
  | .num x => (JsNumber.toNat? x).any (least ≤ ·)
  | _ => false

/-- A number that is not below this. -/
def isNumberFrom (least : ℕ) : JsValue ν → Bool
  | .num x => !JsNumber.lt x (JsNumber.ofNat least)
  | _ => false

/-! ### Sections -/

def checkKeys (keys : JsValue ν) : Checked Unit :=
  ensure (isOneOf ["local", "external"] (keys.get (js "provider")))
    (message "Unsupported key provider: " (keys.get (js "provider")) "")

def hasUsableTlsMaterial (ctx : JsValue ν) : Bool :=
  isObject ctx && (((ctx.get (js "key")).truthy && (ctx.get (js "cert")).truthy) ||
    (ctx.get (js "pfx")).truthy)

def isValidPort (port : JsValue ν) : Bool :=
  match port with
  | .num x => (JsNumber.toNat? x).any (· ≤ 65535)
  | _ => false

def isNull : JsValue ν → Bool
  | .null => true
  | _ => false

def checkProxy (proxy : JsValue ν) : Checked Unit := do
  ensure (isNonBlank (proxy.get (js "host"))) (js "proxy.host must be a non-empty string")
  ensure (isValidPort (proxy.get (js "port")))
    (js "proxy.port must be an integer from 0 to 65535")
  ensure (isBoolean (proxy.get (js "trustForwardedProto")))
    (js "proxy.trustForwardedProto must be boolean")
  let tls := proxy.get (js "tls")
  ensure (isNull tls || hasUsableTlsMaterial tls)
    (js "proxy.tls must resolve to usable TLS material ((key && cert) or pfx)")

def checkAudit (audit : JsValue ν) : Checked Unit := do
  ensure (isOneOf ["jsonl"] (audit.get (js "sink")))
    (js "Current implementation only supports jsonl audit sink")
  let anchor := audit.get (js "anchor")
  ensure (isOneOf ["none", "file", "stdout"] (anchor.get (js "mode")))
    (message "Invalid audit.anchor.mode: " (anchor.get (js "mode")) "")
  ensure (!isOneOf ["file"] (anchor.get (js "mode")) || isNonBlank (anchor.get (js "path")))
    (js "audit.anchor.mode 'file' requires audit.anchor.path")
  ensure (isIntegerFrom 1 (anchor.get (js "everyRecords")))
    (js "audit.anchor.everyRecords must be a positive integer")

def checkTokenVault (vault : JsValue ν) : Checked Unit := do
  ensure (isOneOf ["local"] (vault.get (js "provider")))
    (js "Only the local token vault provider is supported")
  ensure (isOneOf ["disabled", "local-dev"] (vault.get (js "revealPolicy")))
    (message "Invalid tokenVault.revealPolicy: " (vault.get (js "revealPolicy")) "")
  ensure (isNumberFrom 1 (vault.get (js "retentionDays")))
    (js "tokenVault.retentionDays must be a positive number")
  ensure (isBoolean (vault.get (js "deterministic")))
    (js "tokenVault.deterministic must be boolean")
  let types := vault.get (js "deterministicTypes")
  ensure (isNull types || (isNonEmptyList types && isListOf isNonBlank types))
    (js "tokenVault.deterministicTypes must be null or a non-empty array of type strings")
  ensure (isBoolean (vault.get (js "detokenizeResponses")))
    (js "tokenVault.detokenizeResponses must be boolean")

def checkMcp (mcp : JsValue ν) : Checked Unit := do
  let methods := mcp.get (js "allowedMethods")
  ensure (isNonEmptyList methods) (js "mcp.allowedMethods must be a non-empty array")
  ensure (isListOf isNonBlank methods)
    (js "mcp.allowedMethods must contain only non-empty strings")
  ensure (isBoolean (mcp.get (js "protectParams")) && isBoolean (mcp.get (js "protectResults")))
    (js "mcp.protectParams and mcp.protectResults must be boolean")
  ensure (isBoolean (mcp.get (js "requireJsonRpc"))) (js "mcp.requireJsonRpc must be boolean")

/-- `getPrivacyProfile`. An inherited function cannot be cloned; `Object.prototype` can, and
is no profile. -/
def getPrivacyProfile (host : Host) (id : JsValue ν) : Checked (Option PrivacyProfile) :=
  match toText? id with
  | none => .error noText
  | some key =>
    match Policy.getPrivacyProfile key with
    | some profile => .ok (some profile)
    | none =>
      if key = js "__proto__" then .ok none
      else if key ∈ prototypeMembers then .error (host.cannotClone key)
      else .error (message "Unknown privacy profile: " id "")

def checkPrivacy (host : Host) (privacy : JsValue ν) : Checked Unit := do
  if (privacy.get (js "profile")).truthy then
    let _ ← getPrivacyProfile host (privacy.get (js "profile"))

def checkLogging (logging : JsValue ν) : Checked Unit :=
  ensure (isOneOf ["text", "json"] (logging.get (js "format")))
    (message "Invalid logging.format: " (logging.get (js "format"))
      " (expected \"text\" or \"json\")")

def checkMetrics (metrics : JsValue ν) : Checked Unit :=
  ensure (isBoolean (metrics.get (js "enabled"))) (js "metrics.enabled must be boolean")

def checkResponseProtection (protection : JsValue ν) : Checked Unit := do
  ensure (isOneOf ["fail-closed", "allow"] (protection.get (js "failureMode")))
    (message "Invalid responseProtection.failureMode: " (protection.get (js "failureMode")) "")
  ensure (isNumberFrom 1 (protection.get (js "maxBytes")))
    (js "responseProtection.maxBytes must be a positive number")
  ensure (isBoolean (protection.get (js "scanNumbers")))
    (js "responseProtection.scanNumbers must be boolean")

def checkStreaming (streaming : JsValue ν) : Checked Unit := do
  ensure (isOneOf ["block", "pass-through", "inspect"] (streaming.get (js "requestMode")))
    (message "Invalid streaming.requestMode: " (streaming.get (js "requestMode")) "")
  ensure (isOneOf ["dry-run", "report-only", "enforce"] (streaming.get (js "responseMode")))
    (message "Invalid streaming.responseMode: " (streaming.get (js "responseMode")) "")
  ensure (isNumberFrom 1 (streaming.get (js "maxMatchBytes")))
    (js "streaming.maxMatchBytes must be a positive number")

/-- One of the two timeouts that may stay unset. -/
def checkTimeout (limits : JsValue ν) (field : String) : Checked Unit :=
  let value := limits.get (js field)
  ensure (!isGiven value || isIntegerFrom 0 value)
    (js "limits." ++ js field ++
      js " must be null or a non-negative integer (milliseconds; 0 disables the timeout)")

def checkLimits (limits : JsValue ν) : Checked Unit := do
  ensure (isNumberFrom 1 (limits.get (js "maxRequestBytes")))
    (js "limits.maxRequestBytes must be a positive number")
  ensure (isIntegerFrom 1 (limits.get (js "maxNestingDepth")))
    (js "limits.maxNestingDepth must be a positive integer")
  ensure (isNumberFrom 1 (limits.get (js "upstreamTimeoutMs")))
    (js "limits.upstreamTimeoutMs must be a positive number")
  ensure (isIntegerFrom 0 (limits.get (js "maxInFlight")))
    (js "limits.maxInFlight must be a non-negative integer (0 disables the in-flight ceiling)")
  ensure (isIntegerFrom 0 (limits.get (js "shutdownGraceMs")))
    (js "limits.shutdownGraceMs must be a non-negative integer (milliseconds)")
  ["requestTimeoutMs", "headersTimeoutMs"].forM (checkTimeout limits)

def checkConfigVersion (version : JsValue ν) : Checked Unit := do
  ensure (isIntegerFrom 1 version) (js "configVersion must be a positive integer")
  ensure (!isIntegerFrom (configVersion + 1) version)
    (message "Unsupported configVersion " version
      (": this Haechi build understands configVersion <= 1. Upgrade Haechi or lower " ++
        "configVersion (see docs/current/config-version.md)."))

/-! ### Policy and filters -/

def assertModelAllowlist (value : JsValue ν) (label : JsString) : Checked Unit :=
  ensure (isListOf isNonBlank value) (label ++ js " must be an array of non-empty strings")

def assertRate (value : JsValue ν) (label : JsString) : Checked Unit :=
  ensure (isNumberFrom 1 (value.get (js "requestsPerMinute")))
    (label ++ js ".requestsPerMinute must be a positive number")

/-- The two members that a policy and its profiles share. -/
def checkGates (policy : JsValue ν) (label : JsString) : Checked Unit := do
  if isDefined (policy.get (js "modelAllowlist")) then
    assertModelAllowlist (policy.get (js "modelAllowlist")) (label ++ js ".modelAllowlist")
  if isDefined (policy.get (js "rate")) then
    assertRate (policy.get (js "rate")) (label ++ js ".rate")

def checkProfile (profile : JsString × JsValue ν) : Checked Unit := do
  let label := js "policy.profiles." ++ profile.1
  ensure (isObject profile.2) (label ++ js " must be an object")
  checkGates profile.2 label

def checkBindingMap (binding : JsValue ν) (field : String) : Checked Unit :=
  ensure (!isDefined (binding.get (js field)) || isObject (binding.get (js field)))
    (js "policy.profileBinding." ++ js field ++ js " must be an object")

def checkProfileBinding (binding : JsValue ν) : Checked Unit := do
  ensure (isObject binding) (js "policy.profileBinding must be an object")
  ensure (isNonBlank (binding.get (js "default")))
    (js "policy.profileBinding.default must be a profile name")
  ["byScope", "byLabel"].forM (checkBindingMap binding)

def validatePolicyExtras (policy : JsValue ν) : Checked Unit := do
  checkGates policy (js "policy")
  let profiles := policy.get (js "profiles")
  if isDefined profiles then
    ensure (isObject profiles) (js "policy.profiles must be an object of named profiles")
    (members profiles).forM checkProfile
  if isDefined (policy.get (js "profileBinding")) then
    checkProfileBinding (policy.get (js "profileBinding"))

def isNonEmpty : JsValue ν → Bool
  | .str s => !s.isEmpty
  | _ => false

/-- One entry of `filters.allowlist`. -/
def checkAllowed (entry : JsValue ν) : Checked Unit :=
  match entry with
  | .str s => ensure (!s.isEmpty) (js "filters.allowlist string entries must be non-empty")
  | .obj _ => do
    let value := entry.get (js "value")
    let path := entry.get (js "path")
    ensure (isDefined value || isDefined path)
      (js "filters.allowlist object entries must set value and/or path")
    ensure (!isDefined value || isNonEmpty value)
      (js "filters.allowlist entry.value must be a non-empty string")
    ensure (!isDefined path || isNonEmpty path)
      (js "filters.allowlist entry.path must be a non-empty string")
  | _ => .error
      (js "filters.allowlist entries must be a string or a \x7b value?, path? \x7d object")

/-- A number in the unit interval. -/
def isConfidence : JsValue ν → Bool
  | .num x => !JsNumber.lt x (JsNumber.ofNat 0) && !JsNumber.lt (JsNumber.ofNat 1) x
  | _ => false

def checkAllowlist (allowlist : JsValue ν) : Checked Unit :=
  match allowlist with
  | .undef => .ok ()
  | .arr entries => entries.forM checkAllowed
  | _ => .error (js "filters.allowlist must be an array")

def validateFilters (filters : JsValue ν) : Checked Unit := do
  let minConfidence := filters.get (js "minConfidence")
  ensure (!isDefined minConfidence || isConfidence minConfidence)
    (js "filters.minConfidence must be a number in [0, 1]")
  checkAllowlist (filters.get (js "allowlist"))
  let decodeAndRescan := filters.get (js "decodeAndRescan")
  ensure (!isDefined decodeAndRescan || isBoolean decodeAndRescan)
    (js "filters.decodeAndRescan must be a boolean")

/-! ### Authentication -/

def checkAuth (auth : JsValue ν) : Checked Unit := do
  ensure (isOneOf ["none", "bearer", "external", "plugin"] (auth.get (js "provider")))
    (message "Invalid auth.provider: " (auth.get (js "provider")) "")
  ensure (isNonBlank (auth.get (js "store"))) (js "auth.store must be a non-empty string")
  ensure (isListOf isNonBlank (auth.get (js "allowedLabelKeys")))
    (js "auth.allowedLabelKeys must be an array of non-empty strings")

/-- An entry of the array form of `trustAnchors`. -/
def checkAnchor (anchor : JsValue ν) : Checked Unit :=
  ensure (isNonBlank (anchor.get (js "keyId")) && isGiven (anchor.get (js "publicKey")))
    (js "each auth.plugin.trustAnchors entry must be \x7b keyId, publicKey \x7d")

/-- A member of the object form. -/
def checkAnchorKey (anchor : JsString × JsValue ν) : Checked Unit :=
  ensure (isGiven anchor.2)
    (js "auth.plugin.trustAnchors." ++ anchor.1 ++ js " must be a public key")

def checkTrustAnchors (anchors : JsValue ν) : Checked Unit :=
  match anchors with
  | .arr [] => .error (js "auth.plugin.trustAnchors must be a non-empty array")
  | .arr items => items.forM checkAnchor
  | .obj [] => .error (js "auth.plugin.trustAnchors must be a non-empty object")
  | .obj fields => fields.forM checkAnchorKey
  | _ => .error (js "auth.plugin.trustAnchors must be a non-empty array or object of " ++
      js "\x7b keyId, publicKey \x7d")

/-- `KNOWN_PLUGIN_CAPABILITIES`. -/
def knownPluginCapabilities : List String :=
  ["readsPlaintext", "writesPlaintext", "networkEgress", "fileWrite", "auditWrite",
    "externalSecrets", "readsCredentials"]

def checkCapability (capability : JsValue ν) : Checked Unit :=
  ensure (isOneOf knownPluginCapabilities capability)
    (message "auth.plugin.allowCapabilities contains an unknown capability: " capability "")

def checkCapabilities (capabilities : JsValue ν) : Checked Unit :=
  match capabilities with
  | .arr (first :: rest) => do
    (first :: rest).forM checkCapability
    ensure ((first :: rest).any (isOneOf ["readsCredentials"]))
      (js "auth.plugin.allowCapabilities must include readsCredentials for an authProvider")
  | _ => .error
      (js "auth.plugin.allowCapabilities must be a non-empty array of capability keys")

def checkKeyMaterialField (keyMaterial : JsValue ν) (field : String) : Checked Unit :=
  ensure (!isDefined (keyMaterial.get (js field)) || isNumberFrom 0 (keyMaterial.get (js field)))
    (js "auth.plugin.keyMaterial." ++ js field ++ js " must be a non-negative number")

def checkKeyMaterial (host : Host) (keyMaterial : JsValue ν) : Checked Unit := do
  let url ← nonBlank (keyMaterial.get (js "url"))
    (js "auth.plugin.keyMaterial must be an object with an operator-declared url string")
  match host.protocolOf url with
  | none => .error (js "auth.plugin.keyMaterial.url must be a valid URL")
  | some protocol =>
    ensure (protocol = js "https:") (js "auth.plugin.keyMaterial.url must be https")
    ["ttlMs", "cooldownMs", "timeoutMs", "maxBytes"].forM (checkKeyMaterialField keyMaterial)

/-- A worker needs a bound on its heap. -/
def checkWorker (plugin : JsValue ν) : Checked Unit :=
  ensure (isIntegerFrom 1 ((plugin.get (js "resourceLimits")).get (js "maxOldGenerationSizeMb")))
    (js "auth.plugin.resourceLimits.maxOldGenerationSizeMb must be a positive integer")

def checkProcess (host : Host) (plugin : JsValue ν) : Checked Unit := do
  ensure (isOneOf ["require-permission"]
      ((plugin.get (js "netEnforcement")).orElse (text "require-permission")))
    (quoted "auth.plugin.netEnforcement must be \"require-permission\" (got: "
      (plugin.get (js "netEnforcement")) ")")
  if isGiven (plugin.get (js "keyMaterial")) then
    checkKeyMaterial host (plugin.get (js "keyMaterial"))

def checkPluginCount (plugin : JsValue ν) (field : String) : Checked Unit :=
  ensure (!isDefined (plugin.get (js field)) || isIntegerFrom 1 (plugin.get (js field)))
    (js "auth.plugin." ++ js field ++ js " must be a positive integer")

def checkPinField (pin : JsValue ν) (field : String) : Checked Unit :=
  ensure (!isGiven (pin.get (js field)) || isNonBlank (pin.get (js field)))
    (js "auth.plugin.pin." ++ js field ++ js " must be a non-empty string")

def checkRevokedField (revoked : JsValue ν) (field : String) : Checked Unit :=
  ensure (!isDefined (revoked.get (js field)) || isListOf isNonBlank (revoked.get (js field)))
    (js "auth.plugin.revoked." ++ js field ++ js " must be an array of non-empty strings")

def checkFloor (floor : JsString × JsValue ν) : Checked Unit :=
  ensure (isNonBlank floor.2)
    (js "auth.plugin.versionFloor." ++ floor.1 ++ js " must be a non-empty version string")

/-- One of the optional parts of a plugin: an object with these checks. -/
def checkPart (plugin : JsValue ν) (field error : String) (check : JsValue ν → Checked Unit) :
    Checked Unit := do
  let part := plugin.get (js field)
  if isGiven part then
    ensure (isObject part) (js error)
    check part

def checkPlugin (host : Host) (plugin : JsValue ν) : Checked Unit := do
  ensure (isObject plugin) (js "auth.provider 'plugin' requires an auth.plugin object")
  ensure (isNonBlank (plugin.get (js "manifestPath")))
    (js "auth.plugin.manifestPath must be a non-empty string")
  checkTrustAnchors (plugin.get (js "trustAnchors"))
  checkCapabilities (plugin.get (js "allowCapabilities"))
  let isolation := (plugin.get (js "isolation")).orElse (text "worker")
  ensure (isOneOf ["worker", "process"] isolation)
    (quoted "auth.plugin.isolation must be \"worker\" or \"process\" (got: "
      (plugin.get (js "isolation")) ")")
  ensure (isIntegerFrom 1 (plugin.get (js "timeoutMs")))
    (js "auth.plugin.timeoutMs must be a positive integer")
  if isOneOf ["worker"] isolation then checkWorker plugin else checkProcess host plugin
  ["maxPendingCalls", "maxMessageBytes"].forM (checkPluginCount plugin)
  checkPart plugin "pin" "auth.plugin.pin must be an object" fun pin =>
    ["version", "entrySha256", "manifestSha256"].forM (checkPinField pin)
  checkPart plugin "revoked" "auth.plugin.revoked must be an object" fun revoked =>
    ["signerKeyIds", "entrySha256"].forM (checkRevokedField revoked)
  checkPart plugin "versionFloor"
    "auth.plugin.versionFloor must be an object mapping pluginId -> version" fun floors =>
    (members floors).forM checkFloor

def validatePluginAuthConfig (host : Host) (auth plugins : JsValue ν) : Checked Unit := do
  ensure (isBoolean (plugins.get (js "enabled"))) (js "plugins.enabled must be boolean")
  ensure (plugins.get (js "enabled")).truthy
    (js "plugins are disabled (plugins.enabled: false); " ++
      js "refusing to construct a plugin authProvider")
  checkPlugin host (auth.get (js "plugin"))

/-! ### The target -/

/-- The name an entry of `target.forwardHeaders` gives. -/
def forwardHeaderName (host : Host) (entry : JsValue ν) : Checked JsString := do
  let name ← nonBlank entry (js "target.forwardHeaders entries must be non-empty strings")
  let lower := host.toLowerCase (trim name)
  ensure (lower = name) (js "target.forwardHeaders entries must be lowercase header names (got: " ++
    Json.quote name ++ js ")")
  ensure (lower ∉ Proxy.forwardHeadersForbidden)
    (js "target.forwardHeaders may not include the always-dropped header " ++ Json.quote lower ++
      js " (ambient credentials and hop-by-hop headers are never forwarded)")
  return lower

/-- The target with its extra headers checked, each kept once. -/
def validateForwardHeaders (host : Host) (target : JsValue ν) : Checked (JsValue ν) :=
  match target.get (js "forwardHeaders") with
  | .undef | .null => .ok target
  | .arr items => do
    let names ← items.mapM (forwardHeaderName host)
    return .obj (setField (js "forwardHeaders") (.arr (names.eraseDups.map .str)) (members target))
  | _ => .error (js "target.forwardHeaders must be an array of lowercase header names")

/-- `ADAPTERS[key]` is there; an inherited name passes for one. -/
def isAdapter (key : JsString) : Bool := (Proxy.adapterOf key).isSome || key ∈ prototypeMembers

def adapterFromTargetType (type : JsValue ν) : Checked JsString :=
  match toText? type with
  | none => .error noText
  | some key =>
    if !isDefined type || key = js "llm-http" then .ok (js "openai-compatible")
    else if isAdapter key then .ok key
    else .error (js "Unknown target.type: " ++ key ++ js ". Known types: " ++
      (js ", ").intercalate (js "llm-http" :: Proxy.adapters.map (·.id)))

def adapterId (target : JsValue ν) : Checked JsString :=
  match toText? (target.get (js "type")) with
  | none => .error noText
  | some key =>
    if isAdapter key then .ok key
    else if isGiven (target.get (js "adapter")) then
      (toText? (target.get (js "adapter"))).elim (.error noText) .ok
    else adapterFromTargetType (target.get (js "type"))

/-- `createProtocolAdapter`; an inherited name gives what has no routes. -/
def createProtocolAdapter (target : JsValue ν) : Checked (Option Proxy.Adapter) := do
  let id ← adapterId target
  ensure (isAdapter id) (js "Unknown protocol adapter: " ++ id)
  return Proxy.adapterOf id

/-! ### All sections -/

def checkAuthPlugin (host : Host) (auth plugins : JsValue ν) : Checked Unit :=
  if isOneOf ["plugin"] (auth.get (js "provider")) then validatePluginAuthConfig host auth plugins
  else .ok ()

def checkSections (host : Host) (merged : JsValue ν) : Checked Unit := do
  checkKeys (merged.get (js "keys"))
  checkProxy (merged.get (js "proxy"))
  checkAudit (merged.get (js "audit"))
  checkTokenVault (merged.get (js "tokenVault"))
  checkMcp (merged.get (js "mcp"))
  checkPrivacy host (merged.get (js "privacy"))
  checkLogging (merged.get (js "logging"))
  checkMetrics (merged.get (js "metrics"))
  checkResponseProtection (merged.get (js "responseProtection"))
  checkStreaming (merged.get (js "streaming"))
  checkLimits (merged.get (js "limits"))
  checkConfigVersion (merged.get (js "configVersion"))
  validatePolicyExtras (merged.get (js "policy"))
  validateFilters (merged.get (js "filters"))
  checkAuth (merged.get (js "auth"))
  checkAuthPlugin host (merged.get (js "auth")) (merged.get (js "plugins"))

end Haechi.Cli
