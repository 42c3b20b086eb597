import Haechi.Text.Canonical
import Haechi.Text.Utf8

/-! The check of a signed plugin: the envelope and its payload, the algorithm, the trust
anchor, revocations, the entry's digest, the signature, the validity window, the version
floor, the pin, the capabilities and the range of core versions, in this order. Proved:
what a payload has that passes all of them. -/

namespace Haechi.Plugin

open Text Json JsValue

/-! ### Refusals -/

/-- `PLUGIN_LOAD_REASONS`. -/
inductive Reason where
  | manifestInvalid
  | algNotEd25519
  | unknownSigner
  | revoked
  | tamperedEntry
  | invalidSignature
  | expiredWindow
  | belowVersionFloor
  | pinMismatch
  | capabilityNotAllowlisted
deriving DecidableEq

/-- `PluginLoadError`. -/
structure LoadError where
  reason : Reason
  message : JsString
deriving DecidableEq

/-- A check, and the refusal where it fails. -/
def require (ok : Bool) (reason : Reason) (message : JsString) : Except LoadError Unit :=
  if ok then .ok () else .error ⟨reason, message⟩

theorem require_ok {ok : Bool} {reason : Reason} {message : JsString} {u : Unit} :
    require ok reason message = .ok u ↔ ok = true := by
  cases ok <;> simp [require]

theorem bind_ok {α β : Type} {x : Except LoadError α} {f : α → Except LoadError β} {b : β} :
    x >>= f = .ok b ↔ ∃ a, x = .ok a ∧ f a = .ok b := by
  cases x with
  | error e => simp [bind, Except.bind]
  | ok a => simp [bind, Except.bind]

/-! ### The operator's trust, and the platform -/

structure Pin where
  version : Option JsString
  entrySha256 : Option JsString
  manifestSha256 : Option JsString

/-- The trust state of an operator. An anchor is a key, or the text of the error that
making one of it ends in. -/
structure Trust (Key : Type) where
  trustAnchors : List (JsString × Except JsString Key)
  revokedSigners : List JsString
  revokedEntries : List JsString
  pin : Option Pin
  versionFloor : List (JsString × JsString)
  allowCapabilities : List JsString
  coreVersion : Option JsString

/-- What the platform computes. -/
structure Platform (Key ν : Type) where
  /-- The SHA-256 digest of bytes, in hexadecimal. -/
  sha256Hex : List ℕ → JsString
  ascii : ∀ bytes, ∀ c ∈ sha256Hex bytes, c < 128
  /-- `crypto.verify`, of a message and a signature in base64. -/
  edVerify : Key → List ℕ → JsString → Bool
  /-- `Date.parse`, which may give no number. -/
  dateParse : JsString → Option ν
  /-- `String(value)`. -/
  text : JsValue ν → JsString
  /-- `Number(text)`, where that is an integer. -/
  toInteger : JsString → Option ℤ

/-! ### Versions -/

def compareSegments {Key ν : Type} (p : Platform Key ν) : List (JsString × JsString) → ℤ
  | [] => 0
  | (sa, sb) :: rest =>
    match p.toInteger sa, p.toInteger sb with
    | some na, some nb => if na = nb then compareSegments p rest else if na < nb then -1 else 1
    | _, _ => if sa = sb then compareSegments p rest else if sa < sb then -1 else 1

/-- `compareVersions`; a segment that is missing is `0`. -/
def compareVersions {Key ν : Type} (p : Platform Key ν) (a b : JsString) : ℤ :=
  let pa := a.splitOn 46
  let pb := b.splitOn 46
  compareSegments p ((List.range (max pa.length pb.length)).map fun i =>
    (pa.getD i (js "0"), pb.getD i (js "0")))

/-- `parseSemver`, of a text without blanks around it. -/
def semver (s : JsString) : Option (ℕ × ℕ × ℕ) :=
  match s.splitOn 46 with
  | [a, b, c] => if isDigits a && isDigits b && isDigits c then some (natValue a, natValue b, natValue c) else none
  | _ => none

/-- The two versions of a range `>=A.B.C <D.E.F`. -/
def semverRange (range : JsString) : Option ((ℕ × ℕ × ℕ) × (ℕ × ℕ × ℕ)) :=
  match trim range with
  | 62 :: 61 :: rest =>
    let isVersionUnit := fun c : UInt16 => isDigit c || c == 46
    match (rest.dropWhile isVersionUnit).dropWhile isSpace with
    | 60 :: upper =>
      if (rest.dropWhile isVersionUnit).head?.any isSpace then do
        return (← semver (rest.takeWhile isVersionUnit), ← semver upper)
      else none
    | _ => none
  | _ => none

def versionLt (a b : ℕ × ℕ × ℕ) : Bool :=
  a.1 < b.1 || (a.1 == b.1 && (a.2.1 < b.2.1 || (a.2.1 == b.2.1 && a.2.2 < b.2.2)))

/-- `semverSatisfies`, or the text of its error. -/
def semverSatisfies (version range : JsString) : Except JsString Bool :=
  match semverRange range, semver (trim version) with
  | none, _ => .error (js "unsupported range shape (expected \">=A.B.C <D.E.F\"): " ++ quote range)
  | some _, none => .error (js "unsupported version: " ++ quote version)
  | some (lower, upper), some version => .ok (!versionLt version lower && versionLt version upper)

/-! ### The envelope and the payload -/

variable {Key ν : Type} [JsNumber ν]

def isText : JsValue ν → Bool
  | .str s => !s.isEmpty
  | _ => false

/-- A value of type `object` that is not null. -/
def isObject : JsValue ν → Bool
  | .obj _ | .arr _ => true
  | _ => false

def isRecord : JsValue ν → Bool
  | .obj _ => true
  | _ => false

def textOf : JsValue ν → JsString
  | .str s => s
  | _ => []

def typeOf : JsValue ν → JsString
  | .undef => js "undefined"
  | .bool _ => js "boolean"
  | .num _ => js "number"
  | .str _ => js "string"
  | .null | .arr _ | .obj _ => js "object"

/-- The members of a payload that are texts. -/
def payloadTexts : List JsString :=
  [js "pluginId", js "kind", js "version", js "coreVersionRange", js "entrySha256"]

def checkTexts (payload : JsValue ν) : List JsString → Except LoadError Unit
  | [] => .ok ()
  | field :: rest => do
    require (isText (payload.get field)) .manifestInvalid
      (js "signed.payload." ++ field ++ js " must be a non-empty string")
    checkTexts payload rest

/-- The structure of the envelope. -/
def checkEnvelope (signed : JsValue ν) : Except LoadError Unit := do
  let payload := signed.get (js "payload")
  require (isObject signed) .manifestInvalid (js "signed envelope must be an object")
  require (isRecord payload) .manifestInvalid (js "signed.payload must be an object")
  require (isText (signed.get (js "signerKeyId"))) .manifestInvalid
    (js "signed.signerKeyId must be a non-empty string")
  require (isText (signed.get (js "signature"))) .manifestInvalid
    (js "signed.signature must be a non-empty base64 string")
  checkTexts payload payloadTexts
  require (isRecord (payload.get (js "capabilities"))) .manifestInvalid
    (js "signed.payload.capabilities must be an object")

variable (p : Platform Key ν) (trust : Trust Key)

def checkAlg (signed : JsValue ν) : Except LoadError Unit :=
  require (textOf (signed.get (js "alg")) == js "ed25519") .algNotEd25519
    (js "unsupported signature alg: " ++ p.text (signed.get (js "alg")))

/-- The key of the signer, from the trust anchors only. -/
def anchorKey (signerKeyId : JsString) : Except LoadError Key :=
  match trust.trustAnchors.lookup signerKeyId with
  | none => .error ⟨.unknownSigner, js "signerKeyId not in trust anchors: " ++ signerKeyId⟩
  | some (.error e) =>
    .error ⟨.unknownSigner, js "trust anchor unusable for " ++ signerKeyId ++ js ": " ++ e⟩
  | some (.ok key) => .ok key

/-- The bytes of the entry are the signed ones; texts are compared by their bytes. -/
def checkEntry (payload : JsValue ν) (entrySha256 : JsString) : Except LoadError Unit := do
  require (encodeUtf8 (textOf (payload.get (js "entrySha256"))) == encodeUtf8 entrySha256)
    .tamperedEntry (js "entry bytes do not match the signed entrySha256")
  require (entrySha256 ∉ trust.revokedEntries) .revoked (js "entrySha256 is revoked: " ++ entrySha256)

/-- The bytes that are signed. -/
def signedBytes (payload : JsValue ν) : List ℕ := encodeUtf8 ((canonicalize payload).getD [])

def checkSignature (key : Key) (payload : JsValue ν) (signature : JsString) : Except LoadError Unit :=
  require (p.edVerify key (signedBytes payload) signature) .invalidSignature
    (js "ed25519 signature verification failed")

/-- `normalizeWindowBound`. -/
def normalizeWindowBound (bound : JsValue ν) : Except LoadError (Option ν) :=
  match bound with
  | .null | .undef => .ok none
  | .num x => .ok (some x)
  | .str s =>
    if s.isEmpty then
      .error ⟨.manifestInvalid, js "validity window bound has an unacceptable type/value: \"\""⟩
    else
      match p.dateParse s with
      | some x => .ok (some x)
      | none => .error ⟨.manifestInvalid,
          js "validity window bound is not a parseable date: " ++ quote s⟩
  | v => .error ⟨.manifestInvalid,
      js "validity window bound has an unacceptable type/value: " ++ (stringify v).getD []⟩

def checkWindow (payload : JsValue ν) (now : ν) : Except LoadError Unit := do
  let notBefore ← normalizeWindowBound p (payload.get (js "notBefore"))
  let notAfter ← normalizeWindowBound p (payload.get (js "notAfter"))
  require (notBefore.all fun b => !JsNumber.lt now b) .expiredWindow
    (js "current time is before notBefore")
  require (notAfter.all fun b => !JsNumber.lt b now) .expiredWindow
    (js "current time is after notAfter")

def checkFloor (payload : JsValue ν) : Except LoadError Unit :=
  let version := textOf (payload.get (js "version"))
  match trust.versionFloor.lookup (textOf (payload.get (js "pluginId"))) with
  | none => .ok ()
  | some floor => require (0 ≤ compareVersions p version floor) .belowVersionFloor
      (js "version " ++ version ++ js " below floor " ++ floor)

def checkPin (payload : JsValue ν) (entrySha256 : JsString) : Except LoadError Unit := do
  let pin := trust.pin.getD ⟨none, none, none⟩
  require (pin.version.all fun version => version == textOf (payload.get (js "version")))
    .pinMismatch (js "version does not match pin")
  require (pin.entrySha256.all fun hex => encodeUtf8 hex == encodeUtf8 entrySha256)
    .pinMismatch (js "entrySha256 does not match pin")
  require (pin.manifestSha256.all fun hex =>
      encodeUtf8 hex == encodeUtf8 (p.sha256Hex (signedBytes payload)))
    .pinMismatch (js "manifestSha256 does not match pin")

def isBool : JsValue ν → Bool
  | .bool _ => true
  | _ => false

def isTrue : JsValue ν → Bool
  | .bool b => b
  | _ => false

def checkCapabilities : List (JsString × JsValue ν) → Except LoadError Unit
  | [] => .ok ()
  | (capability, requested) :: rest => do
    require (isBool requested) .manifestInvalid (js "capability value must be a boolean, got " ++
      typeOf requested ++ js " for: " ++ capability)
    require (!isTrue requested || capability ∈ trust.allowCapabilities) .capabilityNotAllowlisted
      (js "capability not allowlisted: " ++ capability)
    checkCapabilities rest

def fieldsOf : JsValue ν → List (JsString × JsValue ν)
  | .obj fields => fields
  | _ => []

def checkReadsCredentials (payload : JsValue ν) : Except LoadError Unit :=
  require (textOf (payload.get (js "kind")) != js "authProvider" ||
      isTrue ((payload.get (js "capabilities")).get (js "readsCredentials")))
    .capabilityNotAllowlisted (js "authProvider must declare readsCredentials")

def checkCore (payload : JsValue ν) : Except LoadError Unit :=
  match trust.coreVersion with
  | none => .ok ()
  | some version =>
    let range := textOf (payload.get (js "coreVersionRange"))
    match semverSatisfies version range with
    | .error e => .error ⟨.manifestInvalid, js "coreVersionRange is not a valid range: " ++ e⟩
    | .ok inRange => require inRange .manifestInvalid (js "coreVersion " ++ version ++
        js " does not satisfy signed coreVersionRange " ++ range)

/-- `verifySignedPlugin`: the payload that passes. -/
def verifySignedPlugin (signed : JsValue ν) (entryBytes : List ℕ) (now : ν) :
    Except LoadError (JsValue ν) := do
  let payload := signed.get (js "payload")
  let signerKeyId := textOf (signed.get (js "signerKeyId"))
  let entrySha256 := p.sha256Hex entryBytes
  checkEnvelope signed
  checkAlg p signed
  let key ← anchorKey trust signerKeyId
  require (signerKeyId ∉ trust.revokedSigners) .revoked (js "signerKeyId is revoked: " ++ signerKeyId)
  checkEntry trust payload entrySha256
  checkSignature p key payload (textOf (signed.get (js "signature")))
  checkWindow p payload now
  checkFloor p trust payload
  checkPin p trust payload entrySha256
  checkCapabilities trust (fieldsOf (payload.get (js "capabilities")))
  checkReadsCredentials payload
  checkCore trust payload
  return payload

/-! ### What passes -/

/-- The time is inside the window of the payload. -/
def InWindow (payload : JsValue ν) (now : ν) : Prop :=
  ∃ notBefore notAfter, normalizeWindowBound p (payload.get (js "notBefore")) = .ok notBefore ∧
    normalizeWindowBound p (payload.get (js "notAfter")) = .ok notAfter ∧
      (∀ b ∈ notBefore, JsNumber.lt now b = false) ∧ ∀ b ∈ notAfter, JsNumber.lt b now = false

/-- The payload has the signature of a trusted signer. -/
def Signed (signed payload : JsValue ν) : Prop :=
  ∃ key, trust.trustAnchors.lookup (textOf (signed.get (js "signerKeyId"))) = some (.ok key) ∧
    p.edVerify key (signedBytes payload) (textOf (signed.get (js "signature"))) = true

/-- What is known of a payload that passes. -/
structure Admitted (signed payload : JsValue ν) (entryBytes : List ℕ) (now : ν) : Prop where
  payload_eq : payload = signed.get (js "payload")
  signature : Signed p trust signed payload
  entry : payload.get (js "entrySha256") = .str (p.sha256Hex entryBytes)
  window : InWindow p payload now
  readsCredentials : payload.get (js "kind") = .str (js "authProvider") →
    (payload.get (js "capabilities")).get (js "readsCredentials") = .bool true

variable {p trust}

omit [JsNumber ν] in
theorem isText_iff {v : JsValue ν} : isText v = true ↔ ∃ s, v = .str s ∧ s ≠ [] := by
  cases v <;> simp [isText]

omit [JsNumber ν] in
theorem isTrue_iff {v : JsValue ν} : isTrue v = true ↔ v = .bool true := by
  cases v <;> simp [isTrue]

omit [JsNumber ν] in
theorem isText_of_checkTexts {payload : JsValue ν} {fields : List JsString} {u : Unit}
    (h : checkTexts payload fields = .ok u) : ∀ field ∈ fields, isText (payload.get field) = true := by
  induction fields with
  | nil => simp
  | cons field rest ih =>
    obtain ⟨_, hfield, hrest⟩ := bind_ok.mp h
    exact List.forall_mem_cons.mpr ⟨require_ok.mp hfield, ih hrest⟩

omit [JsNumber ν] in
theorem texts_of_checkEnvelope {signed : JsValue ν} {u : Unit} (h : checkEnvelope signed = .ok u) :
    ∀ field ∈ payloadTexts, isText ((signed.get (js "payload")).get field) = true := by
  obtain ⟨-, -, h⟩ := bind_ok.mp h
  obtain ⟨-, -, h⟩ := bind_ok.mp h
  obtain ⟨-, -, h⟩ := bind_ok.mp h
  obtain ⟨-, -, h⟩ := bind_ok.mp h
  obtain ⟨_, htexts, -⟩ := bind_ok.mp h
  exact isText_of_checkTexts htexts

theorem inWindow_of_checkWindow {payload : JsValue ν} {now : ν} {u : Unit}
    (h : checkWindow p payload now = .ok u) : InWindow p payload now := by
  obtain ⟨notBefore, hbefore, h⟩ := bind_ok.mp h
  obtain ⟨notAfter, hafter, h⟩ := bind_ok.mp h
  obtain ⟨_, hlower, hupper⟩ := bind_ok.mp h
  refine ⟨notBefore, notAfter, hbefore, hafter, fun b hb => ?_, fun b hb => ?_⟩
  · have hall := require_ok.mp hlower
    rw [Option.mem_def.mp hb, Option.all_some, Bool.not_eq_true'] at hall
    exact hall
  · have hall := require_ok.mp hupper
    rw [Option.mem_def.mp hb, Option.all_some, Bool.not_eq_true'] at hall
    exact hall

theorem anchorKey_ok {signerKeyId : JsString} {key : Key}
    (h : anchorKey trust signerKeyId = .ok key) :
    trust.trustAnchors.lookup signerKeyId = some (.ok key) := by
  rw [anchorKey] at h
  split at h
  · cases h
  · cases h
  · next key' hkey => rw [hkey, Except.ok.inj h]

omit [JsNumber ν] in
theorem entry_of_checkEntry {payload : JsValue ν} {entryBytes : List ℕ} {u : Unit}
    (htext : isText (payload.get (js "entrySha256")) = true)
    (h : checkEntry trust payload (p.sha256Hex entryBytes) = .ok u) :
    payload.get (js "entrySha256") = .str (p.sha256Hex entryBytes) := by
  obtain ⟨_, hbytes, -⟩ := bind_ok.mp h
  obtain ⟨hex, hhex, -⟩ := isText_iff.mp htext
  rw [require_ok, hhex, beq_iff_eq] at hbytes
  exact hhex.trans (congrArg JsValue.str (eq_of_encodeUtf8_eq (p.ascii entryBytes) hbytes))

theorem admitted_of_verify {signed payload : JsValue ν} {entryBytes : List ℕ} {now : ν}
    (h : verifySignedPlugin p trust signed entryBytes now = .ok payload) :
    Admitted p trust signed payload entryBytes now := by
  obtain ⟨_, henvelope, h⟩ := bind_ok.mp h
  obtain ⟨-, -, h⟩ := bind_ok.mp h
  obtain ⟨key, hkey, h⟩ := bind_ok.mp h
  obtain ⟨-, -, h⟩ := bind_ok.mp h
  obtain ⟨_, hentry, h⟩ := bind_ok.mp h
  obtain ⟨_, hsignature, h⟩ := bind_ok.mp h
  obtain ⟨_, hwindow, h⟩ := bind_ok.mp h
  obtain ⟨-, -, h⟩ := bind_ok.mp h
  obtain ⟨-, -, h⟩ := bind_ok.mp h
  obtain ⟨-, -, h⟩ := bind_ok.mp h
  obtain ⟨_, hreads, h⟩ := bind_ok.mp h
  obtain ⟨-, -, h⟩ := bind_ok.mp h
  obtain rfl : signed.get (js "payload") = payload := Except.ok.inj h
  refine ⟨rfl, ⟨key, anchorKey_ok hkey, require_ok.mp hsignature⟩,
    entry_of_checkEntry (texts_of_checkEnvelope henvelope _ (by simp [payloadTexts])) hentry,
    inWindow_of_checkWindow hwindow, fun hkind => ?_⟩
  rw [checkReadsCredentials, require_ok, hkind] at hreads
  exact isTrue_iff.mp (by simpa [textOf] using hreads)

end Haechi.Plugin
