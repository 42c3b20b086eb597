import Haechi.Plugin.Signing
import Haechi.Text.Decoder

/-! The manifest of a plugin and the gate before its code runs. A manifest for one of the
runtimes that load code is checked by its flat members and carries a signed envelope,
whose payload is checked on its own. Proved: what a loaded plugin's payload states, and
that it states the kind, the capability and the window of an authentication provider
exactly when its kind and one of its bounds do. -/

namespace Haechi.Plugin

open Text Json JsValue

variable {Key ν : Type} [JsNumber ν]

/-! ### The manifest -/

def validKinds : List JsString :=
  [js "crypto-provider", js "key-provider", js "policy-engine", js "filter-engine",
    js "token-vault", js "audit-sink", js "protocol-adapter", js "classifier-plugin",
    js "authProvider"]

def capabilityKeys : List JsString :=
  [js "readsPlaintext", js "writesPlaintext", js "networkEgress", js "fileWrite", js "auditWrite",
    js "externalSecrets"]

def validRuntimes : List JsString := [js "manifest-only", js "worker-isolated", js "process-isolated"]

def signedDynamicRuntimes : List JsString := [js "worker-isolated", js "process-isolated"]

/-- A text of an error, where the check fails. -/
def expect (ok : Bool) (message : JsString) : List JsString := if ok then [] else [message]

def requireString (plugin : JsValue ν) (key : String) : List JsString :=
  expect (isText (plugin.get (js key))) (js "missing " ++ js key)

/-- The value is neither `undefined` nor `null`. -/
def isSet : JsValue ν → Bool
  | .undef | .null => false
  | _ => true

def isBase64Unit (c : UInt16) : Bool :=
  isDigit c || (65 ≤ c && c ≤ 90) || (97 ≤ c && c ≤ 122) || c == 43 || c == 47 || c == 61

def isLowerHex (c : UInt16) : Bool := isDigit c || (97 ≤ c && c ≤ 102)

/-- `validateSignedDynamicManifest`. -/
def validateSignedDynamicManifest (plugin : JsValue ν) : List JsString :=
  let runtime := textOf (plugin.get (js "runtime"))
  let signature := plugin.get (js "signature")
  let entrySha256 := plugin.get (js "entrySha256")
  let capabilities := plugin.get (js "capabilities")
  expect (textOf (plugin.get (js "kind")) == js "authProvider")
      (runtime ++ js " runtime is only supported for kind authProvider") ++
    (if !isText signature then [js "missing signature"]
      else expect ((textOf signature).all isBase64Unit)
        (js "signature must be a non-empty base64 string")) ++
    requireString plugin "signerKeyId" ++
    (if !isText entrySha256 then [js "missing entrySha256"]
      else expect ((textOf entrySha256).all isLowerHex && (textOf entrySha256).length == 64)
        (js "entrySha256 must be a 64-character lowercase hex string")) ++
    expect (isSet (plugin.get (js "notBefore")) || isSet (plugin.get (js "notAfter")))
      (runtime ++ js " manifest requires a validity window (notBefore and/or notAfter)") ++
    (if !isRecord capabilities then [js "missing capabilities"]
      else expect (isTrue (capabilities.get (js "readsCredentials")))
        (runtime ++ js " authProvider must declare capabilities.readsCredentials = true"))

/-- The checks of a manifest that loads no code. -/
def validateManifestOnly (plugin : JsValue ν) : List JsString :=
  let capabilities := plugin.get (js "capabilities")
  let dataHandling := plugin.get (js "dataHandling")
  expect ((plugin.get (js "compatibility")).get (js "haechiCore")).truthy
      (js "missing compatibility.haechiCore") ++
    (if !isObject capabilities then [js "missing capabilities"]
      else capabilityKeys.flatMap fun key =>
        expect (isBool (capabilities.get key)) (js "capabilities." ++ key ++ js " must be boolean")) ++
    expect (!((capabilities.get (js "networkEgress")).truthy &&
        (capabilities.get (js "readsPlaintext")).truthy) || (dataHandling.get (js "retention")).truthy)
      (js "plaintext-reading network plugins must declare dataHandling.retention") ++
    expect (!isTrue (dataHandling.get (js "logsRawPayload")))
      (js "dataHandling.logsRawPayload must not be true")

/-- `validatePluginManifest`: its errors. -/
def validatePluginManifest (p : Platform Key ν) (manifest : JsValue ν) : List JsString :=
  let plugin := manifest.get (js "haechiPlugin")
  let kind := plugin.get (js "kind")
  let runtime := plugin.get (js "runtime")
  if !plugin.truthy then [js "missing haechiPlugin root"]
  else
    requireString plugin "id" ++ requireString plugin "version" ++ requireString plugin "kind" ++
      requireString plugin "runtime" ++ requireString plugin "entrypoint" ++
      expect (!kind.truthy || textOf kind ∈ validKinds) (js "invalid kind: " ++ p.text kind) ++
      expect (!runtime.truthy || textOf runtime ∈ validRuntimes)
        (js "dynamic plugin execution is not supported; set runtime to manifest-only") ++
      (if textOf runtime ∈ signedDynamicRuntimes then validateSignedDynamicManifest plugin
        else validateManifestOnly plugin)

/-! ### The gate -/

/-- What is at the end of an entry path: each read may end in an error. -/
structure EntryFile where
  symlink : Except JsString Bool
  size : Except JsString ℕ
  bytes : Except JsString (List ℕ)

/-- The files of a plugin. -/
structure Files where
  manifest : Except JsString JsString
  /-- The text of the error of a manifest that does not parse. -/
  syntaxError : JsString
  /-- The path leads out of the manifest's directory. -/
  escapes : JsString → Bool
  entry : JsString → EntryFile

/-- `MAX_ENTRY_BYTES`. -/
def maxEntryBytes : ℕ := 4 * 1024 * 1024

/-- `envelopeFromManifest`. -/
def envelopeFromManifest (plugin : JsValue ν) : JsValue ν :=
  let signed := plugin.get (js "signed")
  if isObject signed then signed
  else .obj [(js "payload", plugin.get (js "signedPayload")),
    (js "signerKeyId", plugin.get (js "signerKeyId")),
    (js "alg", if isSet (plugin.get (js "alg")) then plugin.get (js "alg") else .str (js "ed25519")),
    (js "signature", plugin.get (js "signature"))]

def refuse {α : Type} (message : JsString) : Except LoadError α := .error ⟨.manifestInvalid, message⟩

/-- A read, whose error refuses the manifest. -/
def reading {α : Type} : Except JsString α → Except LoadError α
  | .ok a => .ok a
  | .error e => refuse (js "manifest load failed: " ++ e)

def readManifest (files : Files) : Except LoadError (JsValue ν) := do
  let text ← reading files.manifest
  match Json.parse text with
  | some manifest => return manifest
  | none => refuse (js "manifest load failed: " ++ files.syntaxError)

/-- The bytes of the entry, read once. -/
def readEntry (files : Files) (entrypoint : JsString) : Except LoadError (List ℕ) := do
  let file := files.entry entrypoint
  require (!files.escapes entrypoint) .manifestInvalid
    (js "entry path escapes the manifest directory: " ++ entrypoint)
  let symlink ← reading file.symlink
  require (!symlink) .tamperedEntry (js "entry path is a symlink (refused)")
  let size ← reading file.size
  require (size ≤ maxEntryBytes) .manifestInvalid (js "entry file exceeds maximum size (" ++
    natText size ++ js " > " ++ natText maxEntryBytes ++ js " bytes)")
  reading file.bytes

structure Loaded (ν : Type) where
  verified : JsValue ν
  entrySource : JsString
  entrySha256 : JsString
  pluginId : JsValue ν
  signerKeyId : JsValue ν

/-- `loadAndVerifyPlugin`. The source that is verified is the text that will run. -/
def loadAndVerifyPlugin (p : Platform Key ν) (trust : Trust Key) (files : Files)
    (expectedRuntime : JsString) (now : ν) : Except LoadError (Loaded ν) := do
  let manifest ← readManifest files
  let plugin := manifest.get (js "haechiPlugin")
  let errors := validatePluginManifest p manifest
  require errors.isEmpty .manifestInvalid (js "manifest invalid: " ++ (js "; ").intercalate errors)
  require (textOf (plugin.get (js "runtime")) == expectedRuntime) .manifestInvalid
    (js "sandbox requires runtime " ++ expectedRuntime)
  require (textOf (plugin.get (js "kind")) == js "authProvider") .manifestInvalid
    (js "sandbox requires kind authProvider")
  let entryBytes ← readEntry files (textOf (plugin.get (js "entrypoint")))
  let entrySource := decodeLossy entryBytes
  let verified ← verifySignedPlugin p trust (envelopeFromManifest plugin) (encodeUtf8 entrySource) now
  return ⟨verified, entrySource, p.sha256Hex entryBytes, verified.get (js "pluginId"),
    (envelopeFromManifest plugin).get (js "signerKeyId")⟩

/-! ### What the payload states -/

variable (p : Platform Key ν) (trust : Trust Key)

/-- The payload states the facts that let an authentication provider run. -/
structure States (payload : JsValue ν) (source : JsString) (now : ν) : Prop where
  kind : payload.get (js "kind") = .str (js "authProvider")
  readsCredentials : (payload.get (js "capabilities")).get (js "readsCredentials") = .bool true
  bounded : isSet (payload.get (js "notBefore")) = true ∨ isSet (payload.get (js "notAfter")) = true
  window : InWindow p payload now
  entry : payload.get (js "entrySha256") = .str (p.sha256Hex (encodeUtf8 source))

/-- The signed payload of a manifest. -/
def signedPayload (manifest : JsValue ν) : JsValue ν :=
  (envelopeFromManifest (manifest.get (js "haechiPlugin"))).get (js "payload")

/-- The payload that a plugin is loaded with is the signed one, with the signature of a
trusted signer, and it states all the facts exactly when it states the kind and a bound. -/
theorem loaded_states_iff (files : Files) (manifest : JsValue ν)
    (hmanifest : readManifest files = .ok manifest) (expectedRuntime : JsString) (now : ν)
    (r : Loaded ν) (h : loadAndVerifyPlugin p trust files expectedRuntime now = .ok r) :
    r.verified = signedPayload manifest ∧
      Signed p trust (envelopeFromManifest (manifest.get (js "haechiPlugin"))) r.verified ∧
      (States p r.verified r.entrySource now ↔
        (signedPayload manifest).get (js "kind") = .str (js "authProvider") ∧
          (isSet ((signedPayload manifest).get (js "notBefore")) = true ∨
            isSet ((signedPayload manifest).get (js "notAfter")) = true)) := by
  obtain ⟨manifest', hmanifest', h⟩ := bind_ok.mp h
  obtain rfl : manifest = manifest' := Except.ok.inj (hmanifest.symm.trans hmanifest')
  obtain ⟨-, -, h⟩ := bind_ok.mp h
  obtain ⟨-, -, h⟩ := bind_ok.mp h
  obtain ⟨-, -, h⟩ := bind_ok.mp h
  obtain ⟨entryBytes, -, h⟩ := bind_ok.mp h
  obtain ⟨payload, hverified, h⟩ := bind_ok.mp h
  obtain rfl := Except.ok.inj h
  have hadmitted := admitted_of_verify hverified
  have hpayload : payload = signedPayload manifest := hadmitted.payload_eq
  refine ⟨hpayload, hadmitted.signature, ?_⟩
  rw [← hpayload]
  constructor
  · intro hstates
    exact ⟨hstates.kind, hstates.bounded⟩
  · rintro ⟨hkind, hbounded⟩
    exact ⟨hkind, hadmitted.readsCredentials hkind, hbounded, hadmitted.window, hadmitted.entry⟩

/-! ### Two manifests -/

/-- What the gate looks at in a manifest: the signed kind, and whether a bound is set. -/
def signedFacts (files : Files) : Option (JsString × Bool) :=
  match (readManifest files : Except LoadError (JsValue NumberToken)) with
  | .error _ => none
  | .ok manifest => some (textOf ((signedPayload manifest).get (js "kind")),
      isSet ((signedPayload manifest).get (js "notBefore")) ||
        isSet ((signedPayload manifest).get (js "notAfter")))

theorem manifest_of_signedFacts {files : Files} {facts : JsString × Bool}
    (h : signedFacts files = some facts) :
    ∃ manifest : JsValue NumberToken, readManifest files = .ok manifest ∧
      textOf ((signedPayload manifest).get (js "kind")) = facts.1 ∧
        (isSet ((signedPayload manifest).get (js "notBefore")) ||
          isSet ((signedPayload manifest).get (js "notAfter"))) = facts.2 := by
  rw [signedFacts] at h
  split at h
  · cases h
  · next manifest hmanifest =>
    obtain rfl := Option.some.inj h
    exact ⟨manifest, hmanifest, rfl, rfl⟩

omit [JsNumber ν] in
theorem eq_str_of_textOf {v : JsValue ν} {s : JsString} (h : textOf v = s) (hs : s ≠ []) :
    v = .str s := by
  cases v with
  | str t => exact congrArg JsValue.str h
  | _ => exact absurd h.symm hs

theorem loaded_of_isOk {α : Type} {x : Except LoadError α} (h : x.isOk = true) : ∃ r, x = .ok r := by
  cases x with
  | error e => cases h
  | ok r => exact ⟨r, rfl⟩

/-- The digest of no bytes. -/
def emptyDigest : JsString :=
  js "e3b0c44298fc1c149afbf4c8996fb92427ae41e4649b934ca495991b7852b855"

theorem ascii_emptyDigest : ∀ c ∈ emptyDigest, c < 128 := by
  decide +kernel

/-- A platform for an empty entry with a valid signature. -/
def emptyEntryPlatform : Platform Unit NumberToken where
  sha256Hex _ := emptyDigest
  ascii _ := ascii_emptyDigest
  edVerify _ _ _ := true
  dateParse _ := none
  text := textOf
  toInteger _ := none

def oneAnchor : Trust Unit where
  trustAnchors := [(js "k", .ok ())]
  revokedSigners := []
  revokedEntries := []
  pin := none
  versionFloor := []
  allowCapabilities := [js "readsCredentials"]
  coreVersion := none

/-- A manifest with this signed kind, these signed capabilities and this signed bound;
its flat members are those of an authentication provider. -/
def manifestOf (kind : String) (capabilities : List (JsString × JsValue NumberToken))
    (notBefore : JsValue NumberToken) : JsValue NumberToken :=
  .obj [(js "haechiPlugin", .obj [(js "id", .str (js "p")), (js "version", .str (js "1.0.0")),
    (js "kind", .str (js "authProvider")), (js "runtime", .str (js "worker-isolated")),
    (js "entrypoint", .str (js "p.mjs")), (js "signature", .str (js "AA==")),
    (js "signerKeyId", .str (js "k")), (js "entrySha256", .str emptyDigest),
    (js "notBefore", .num (JsNumber.ofNat 0)),
    (js "capabilities", .obj [(js "readsCredentials", .bool true)]),
    (js "signed", .obj [(js "payload", .obj [(js "pluginId", .str (js "p")),
      (js "kind", .str (js kind)), (js "version", .str (js "1.0.0")),
      (js "capabilities", .obj capabilities), (js "coreVersionRange", .str (js ">=1.0.0 <2.0.0")),
      (js "entrySha256", .str emptyDigest), (js "notBefore", notBefore), (js "notAfter", .null)]),
      (js "signerKeyId", .str (js "k")), (js "alg", .str (js "ed25519")),
      (js "signature", .str (js "AA=="))])])]

/-- The files of such a plugin; the entry is empty. -/
def filesOf (manifest : JsValue NumberToken) : Files where
  manifest := .ok ((stringify manifest).getD [])
  syntaxError := []
  escapes _ := false
  entry _ := ⟨.ok false, .ok 0, .ok []⟩

def providerManifest : JsValue NumberToken :=
  manifestOf "authProvider" [(js "readsCredentials", .bool true)] (.num (JsNumber.ofNat 0))

/-- The signed payload is that of an audit sink, without a capability and without a bound. -/
def sinkManifest : JsValue NumberToken := manifestOf "audit-sink" [] .null

theorem provider_states :
    ∃ r, loadAndVerifyPlugin emptyEntryPlatform oneAnchor (filesOf providerManifest)
        (js "worker-isolated") (JsNumber.ofNat 5) = .ok r ∧
      States emptyEntryPlatform r.verified r.entrySource (JsNumber.ofNat 5) := by
  have hok : (loadAndVerifyPlugin emptyEntryPlatform oneAnchor (filesOf providerManifest)
      (js "worker-isolated") (JsNumber.ofNat 5)).isOk = true := by decide +kernel
  have hfacts : signedFacts (filesOf providerManifest) = some (js "authProvider", true) := by
    decide +kernel
  obtain ⟨r, hr⟩ := loaded_of_isOk hok
  obtain ⟨manifest, hmanifest, hkind, hbounds⟩ := manifest_of_signedFacts hfacts
  obtain ⟨-, -, hstates⟩ := loaded_states_iff emptyEntryPlatform oneAnchor (filesOf providerManifest)
    manifest hmanifest (js "worker-isolated") (JsNumber.ofNat 5) r hr
  exact ⟨r, hr, hstates.mpr ⟨eq_str_of_textOf hkind (by decide), by simpa using hbounds⟩⟩

/-- The audit sink is loaded as an authentication provider. -/
theorem sink_loaded :
    ∃ r, loadAndVerifyPlugin emptyEntryPlatform oneAnchor (filesOf sinkManifest)
        (js "worker-isolated") (JsNumber.ofNat 5) = .ok r ∧
      r.verified.get (js "kind") = .str (js "audit-sink") ∧
      ¬States emptyEntryPlatform r.verified r.entrySource (JsNumber.ofNat 5) := by
  have hkind : (match loadAndVerifyPlugin emptyEntryPlatform oneAnchor (filesOf sinkManifest)
      (js "worker-isolated") (JsNumber.ofNat 5) with
        | .ok r => some (textOf (r.verified.get (js "kind")))
        | .error _ => none) = some (js "audit-sink") := by decide +kernel
  split at hkind
  · next r hr =>
    have hsink : r.verified.get (js "kind") = .str (js "audit-sink") :=
      eq_str_of_textOf (Option.some.inj hkind) (by decide)
    refine ⟨r, hr, hsink, fun hstates => ?_⟩
    have heq := hsink.symm.trans hstates.kind
    exact absurd (JsValue.str.inj heq) (by decide)
  · cases hkind

end Haechi.Plugin
