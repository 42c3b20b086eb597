import Haechi.Crypto.Envelope
import Haechi.Effects
import Haechi.Text.Plain
import Mathlib.Data.List.AList

/-! The token vault over a file store: tokens, their records, retention, reveal and
detokenization. A record holds the sealed plaintext and an expiry of its own; the
envelope holds the expiry it was sealed with. Expired records are removed before every
mutation. Times are in milliseconds, which is what an ISO timestamp keeps. -/

namespace Haechi.Vault

open Text Crypto

variable {ν : Type} [JsNumber ν]

/-! ### Records -/

structure Record (ν : Type) where
  type : JsString
  createdAt : ℕ
  expiresAt : ℕ
  metadata : List (JsString × JsValue ν)
  envelope : Envelope
  aad : JsValue ν

/-- The records by token. The order of the entries is not looked at. -/
abbrev Tokens (ν : Type) := AList fun _ : JsString => Record ν

/-- What `tokens[token]` evaluates to, where it is not `undefined`. -/
inductive Found (ν : Type) where
  | record (r : Record ν)
  | inherited

/-- `view.get`. -/
def get (tokens : Tokens ν) (token : JsString) : Option (Found ν) :=
  match tokens.lookup token with
  | some r => some (.record r)
  | none => if token ∈ prototypeMembers then some .inherited else none

/-- `sanitizeMetadata`. -/
def sanitizeMetadata (metadata : List (JsString × JsValue ν)) : List (JsString × JsValue ν) :=
  metadata.filter fun kv => kv.1 ∉ [js "value", js "plaintext", js "payload"]

/-- The record as the vault file gives it back. -/
def Record.persisted (r : Record ν) : Record ν :=
  { r with aad := r.aad.prune, metadata := JsValue.pruneFields r.metadata }

/-- One record of the loop of `pruneExpiredView`. -/
def pruneOne (now : ℕ) (state : Tokens ν × ℕ) (e : (_ : JsString) × Record ν) : Tokens ν × ℕ :=
  if e.2.expiresAt < now then (state.1.erase e.1, state.2 + 1) else state

/-- `pruneExpiredView`: what is left, and how many are removed. -/
def pruneExpired (tokens : Tokens ν) (now : ℕ) : Tokens ν × ℕ :=
  tokens.entries.foldl (pruneOne now) (tokens, 0)

/-! ### Settings -/

structure Settings where
  /-- `retentionDays`. -/
  retention : ℕ
  deterministic : Bool
  deterministicTypes : Option (List JsString)
  /-- `revealPolicy` is not `disabled`. -/
  revealEnabled : Bool

/-- `isDeterministicType`. -/
def Settings.isDeterministicType (c : Settings) (type : JsString) : Bool :=
  c.deterministic && c.deterministicTypes.all fun types => type ∈ types

/-- The last time a `Date` holds. -/
def maxTime : ℕ := 8640000000000000

/-- `addDays(now, retentionDays).toISOString()`, which throws past the last time. -/
def Settings.expiry (c : Settings) (now : ℕ) : Option ℕ :=
  if now + c.retention ≤ maxTime then some (now + c.retention) else none

/-- What the vault is built from. -/
structure Platform where
  node : NodeCrypto
  nfkc : JsString → JsString
  ring : KeyRing

/-! ### Tokens -/

/-- A call of `tokenize`, with what is drawn at random in it. -/
structure Draw (ν : Type) where
  plaintext : JsString
  type : JsString
  context : JsValue ν
  metadata : List (JsString × JsValue ν)
  random : List ℕ
  iv : List ℕ
  /-- The nonce budget has an invocation left. -/
  granted : Bool

/-- `DETERMINISTIC_DOMAIN`. -/
def deterministicDomain : JsString := js "haechi:token-vault:deterministic:v1"

/-- `shortHash`. -/
def shortHash (node : NodeCrypto) (value : JsString) : JsString :=
  (hex (node.sha256 (encodeUtf8 value))).take 16

/-- `tok_<type>_<digits>`. -/
def tokenId (type digits : JsString) : JsString := js "tok_" ++ type ++ js "_" ++ digits

/-- The token of a call. -/
def tokenOf (env : Platform) (c : Settings) (d : Draw ν) : JsString :=
  tokenId d.type <|
    if c.isDeterministicType d.type then
      (hmac env.node env.ring (d.type ++ js ":" ++ d.plaintext) deterministicDomain).take 32
    else shortHash env.node (d.plaintext ++ js ":" ++ hex d.random)

/-- What binds an envelope of the vault. -/
def aadOf (token : JsString) (d : Draw ν) : JsValue ν :=
  .obj [(js "purpose", .str (js "token-vault")), (js "token", .str token),
    (js "type", .str d.type), (js "context", d.context)]

structure State (ν : Type) where
  now : ℕ
  tokens : Tokens ν

section Operations

variable (env : Platform) (c : Settings)

/-- A record for a token that has none. -/
def newRecord (now : ℕ) (token : JsString) (d : Draw ν) : Option (Record ν) := do
  let expiresAt ← c.expiry now
  let aad := aadOf token d
  let envelope ←
    (if d.granted then encrypt env.node env.nfkc env.ring d.iv d.plaintext aad (some expiresAt)
      else none)
  return Record.persisted ⟨d.type, now, expiresAt, sanitizeMetadata d.metadata, envelope, aad⟩

/-- `tokenize`: the token and the records it leaves, or nothing where it throws. The
record of a token that has one is extended. No token is a name of `Object.prototype`. -/
def tokenize (s : State ν) (d : Draw ν) : Option (JsString × Tokens ν) :=
  let token := tokenOf env c d
  let view := (pruneExpired s.tokens s.now).1
  match view.lookup token with
  | some existing => do
    let expiresAt ← c.expiry s.now
    return (token, view.insert token { existing with expiresAt })
  | none => do
    let record ← newRecord env c s.now token d
    return (token, view.insert token record)

/-- The records that `purge` leaves, and whether the token was there. -/
def purge (s : State ν) (token : JsString) : Tokens ν × Bool :=
  let view := (pruneExpired s.tokens s.now).1
  (view.erase token, (get view token).isSome)

/-- The records that `purgeExpired` leaves, and how many it removed. -/
def purgeExpired (s : State ν) : Tokens ν × ℕ := pruneExpired s.tokens s.now

/-! ### Audit events -/

/-- `AUDIT_ID_DOMAIN`. -/
def auditIdDomain : JsString := js "haechi:token-vault:audit-id:v1"

/-- The class `[a-f0-9]`. -/
def isHexUnit (c : UInt16) : Bool := (48 ≤ c && c ≤ 57) || (97 ≤ c && c ≤ 102)

/-- The class `[a-z0-9_]`. -/
def isTypeUnit (c : UInt16) : Bool := (97 ≤ c && c ≤ 122) || (48 ≤ c && c ≤ 57) || c == 95

/-- `VAULT_TOKEN_SHAPE`: what stands behind the last underscore is the digits. -/
def hasTokenShape (token : JsString) : Bool :=
  let digits := token.rtakeWhile isHexUnit
  let rest := token.rdropWhile isHexUnit
  16 ≤ digits.length && (js "tok_").isPrefixOf rest && rest.getLast? == some 95 &&
    6 ≤ rest.length && rest.all isTypeUnit

/-- `safeAuditToken`. -/
def safeAuditToken (token : JsString) : JsString :=
  if hasTokenShape token then token
  else js "nontoken_" ++ (hmac env.node env.ring token auditIdDomain).take 32

/-- A governance event of the vault. -/
structure VaultEvent where
  operation : JsString
  decision : JsString
  token : Option JsString
  tokenType : Option JsString
  reason : Option JsString
  count : Option ℕ
deriving DecidableEq

/-- What an operation of the vault throws. -/
inductive Failure where
  | revealDisabled
  | unknownToken
  | expired
  | decryptFailed
  | audit
deriving DecidableEq

/-- The audit sink takes an event, or fails. -/
abbrev Sink := VaultEvent → Except Failure Unit

abbrev M (α : Type) := Act Failure VaultEvent α

/-- `recordVaultEvent`. -/
def recordVaultEvent (sink : Sink) (e : VaultEvent) : M Unit := do
  Act.await (sink e)
  Act.emit e

/-! ### Reading -/

/-- The record has not expired. -/
def Record.live (now : ℕ) (r : Record ν) : Bool := now ≤ r.expiresAt

/-- `decrypt` of the envelope of a record. -/
def Record.opened (now : ℕ) (r : Record ν) (aad : JsValue ν) : Option JsString :=
  decrypt env.node env.nfkc env.ring now r.envelope aad

/-- `{ ...record.aad, context }` where a context is given. -/
def revealAad (r : Record ν) (context : JsValue ν) : JsValue ν :=
  if context.truthy then
    match r.aad with
    | .obj fields => .obj (JsValue.setField (js "context") context fields)
    | aad => aad
  else r.aad

/-- The reason code of a failed reveal. -/
def Failure.reasonCode : Failure → JsString
  | .unknownToken => js "unknown_token"
  | .expired => js "token_expired"
  | .decryptFailed => js "decrypt_failed"
  | .revealDisabled | .audit => js "reveal_error"

def revealEvent (decision : String) (token : JsString) (tokenType reason : Option JsString) :
    VaultEvent :=
  ⟨js "token-vault:reveal", js decision, some (safeAuditToken env token), tokenType, reason, none⟩

/-- What `reveal` reads: the type and the plaintext of a live record that opens. -/
def revealed (s : State ν) (token : JsString) (context : JsValue ν) :
    Except Failure (JsString × JsString) :=
  match get s.tokens token with
  | none => .error .unknownToken
  | some .inherited => .error .decryptFailed
  | some (.record r) =>
    if !r.live s.now then .error .expired
    else
      match r.opened env s.now (revealAad r context) with
      | none => .error .decryptFailed
      | some plaintext => .ok (r.type, plaintext)

/-- The `try` block of `reveal`. -/
def revealAllowed (sink : Sink) (s : State ν) (token : JsString) (context : JsValue ν) :
    M (JsString × JsString) := do
  let found ← Act.await (revealed env s token context)
  recordVaultEvent sink (revealEvent env "reveal_allowed" token (some found.1) none)
  return found

/-- `reveal`: the type and the plaintext of the token. -/
def reveal (sink : Sink) (s : State ν) (token : JsString) (context : JsValue ν) :
    M (JsString × JsString) :=
  if c.revealEnabled then
    (revealAllowed env sink s token context).recover fun e => do
      recordVaultEvent sink (revealEvent env "reveal_failed" token none (some e.reasonCode))
      Act.raise e
  else do
    recordVaultEvent sink
      (revealEvent env "reveal_denied" token none (some (js "reveal_policy_disabled")))
    Act.raise .revealDisabled

/-- What a token is restored to. -/
def restored (s : State ν) (token : JsString) : Option JsString :=
  match get s.tokens token with
  | some (.record r) => if r.live s.now then r.opened env s.now r.aad else none
  | _ => none

/-- The map that `detokenize` builds. -/
def restoredValues (s : State ν) (tokens : List JsString) : List (JsString × JsString) :=
  tokens.eraseDups.filterMap fun token => (restored env s token).map fun plaintext => (token, plaintext)

/-- `${skipped} tokens not restored`, where any is skipped. -/
def skippedReason (skipped : ℕ) : Option JsString :=
  if 0 < skipped then some (js (toString skipped) ++ js " tokens not restored") else none

/-- `detokenize`. -/
def detokenize (sink : Sink) (s : State ν) (tokens : List JsString) :
    M (List (JsString × JsString)) := do
  let values := restoredValues env s tokens
  let skipped := (tokens.filter fun token => (restored env s token).isNone).length
  recordVaultEvent sink
    ⟨js "token-vault:detokenize", js "detokenize", none, none, skippedReason skipped,
      some values.length⟩
  return values

end Operations

/-! ### Steps -/

inductive Action (ν : Type) where
  | tokenize (d : Draw ν)
  | detokenize (tokens : List JsString)
  | reveal (token : JsString) (context : JsValue ν)
  | purge (token : JsString)
  | purgeExpired
  | tick (ms : ℕ)

/-- One operation, or some time. -/
def step (env : Platform) (c : Settings) (s : State ν) : Action ν → State ν
  | .tokenize d =>
    match tokenize env c s d with
    | none => s
    | some (_, tokens) => { s with tokens }
  | .detokenize _ | .reveal _ _ => s
  | .purge token => { s with tokens := (purge s token).1 }
  | .purgeExpired => { s with tokens := (purgeExpired s).1 }
  | .tick ms => { s with now := s.now + ms }

end Haechi.Vault
