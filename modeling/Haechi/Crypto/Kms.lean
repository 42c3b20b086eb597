import Haechi.Crypto.Persistence
import Haechi.Text.Resync

/-! The provider over a key management service. Every envelope has a data key of its own,
which the service wraps; the plaintext is sealed locally under additional data with the same
canonical text as that of the local provider. Proved, for every service that unwraps what it
wrapped: an envelope opens exactly before its expiry and under additional data with the
canonical text it was sealed with, and then to what was sealed. -/

namespace Haechi.Crypto

open Text Json

variable {ν : Type} [JsNumber ν]

/-! ### Services -/

/-- The client of a service. A call may fail; what is drawn for `wrap` is given. -/
structure Kms where
  keyId : JsString
  wrap : (iv dataKey : List ℕ) → Option JsString
  unwrap : JsString → Option (List ℕ)

/-- A data key is unwrapped from what it was wrapped as. -/
def Kms.Faithful (kms : Kms) : Prop := ∀ iv dataKey wrapped, iv.length = 12 →
  (∀ b ∈ iv ++ dataKey, b < 256) → kms.wrap iv dataKey = some wrapped →
    kms.unwrap wrapped = some dataKey

/-- What AES-GCM and SHA-256 give are bytes, and a tag has sixteen of them. -/
structure NodeBytes (node : NodeCrypto) : Prop where
  tag : ∀ key iv aad plaintext, (node.gcmEncrypt key iv aad plaintext).2.length = 16
  tag_lt : ∀ key iv aad plaintext, ∀ b ∈ (node.gcmEncrypt key iv aad plaintext).2, b < 256
  ct_lt : ∀ key iv aad plaintext, (∀ b ∈ plaintext, b < 256) →
    ∀ b ∈ (node.gcmEncrypt key iv aad plaintext).1, b < 256
  sha256_lt : ∀ bytes, ∀ b ∈ node.sha256 bytes, b < 256

/-- `createInMemoryKms`. -/
def createInMemoryKms (node : NodeCrypto) (keyId : JsString) (masterKey : List ℕ) : Kms where
  keyId := keyId
  wrap iv dataKey :=
    let (ct, tag) := node.gcmEncrypt masterKey iv [] dataKey
    some (Base64.url.encode (iv ++ tag ++ ct))
  unwrap wrapped :=
    let buffer := bufferOf wrapped
    node.gcmDecrypt masterKey (buffer.take 12) [] (buffer.drop 28) ((buffer.drop 12).take 16)

/-- `createAwsKmsClient`, and its siblings for two other clouds: the blob of the service is
written as base64url. -/
def createCloudKmsClient (keyId : JsString) (encrypt decrypt : List ℕ → Option (List ℕ)) :
    Kms where
  keyId := keyId
  wrap _ dataKey := (encrypt dataKey).map Base64.url.encode
  unwrap wrapped := decrypt (bufferOf wrapped)

/-- `createVaultKmsClient`: the data key is sent in the standard alphabet, and the text of the
service is kept as it is. -/
def createVaultKmsClient (keyName : JsString) (encrypt decrypt : JsString → Option JsString) :
    Kms where
  keyId := keyName
  wrap _ dataKey :=
    (encrypt (Base64.standard.encode dataKey)).filter fun c => (js "vault:").isPrefixOf c
  unwrap wrapped := (decrypt wrapped).map bufferOf

theorem faithful_inMemory {node : NodeCrypto} (hnode : NodeBytes node) (keyId : JsString)
    (masterKey : List ℕ) : (createInMemoryKms node keyId masterKey).Faithful := by
  intro iv dataKey wrapped hiv hbytes hwrap
  obtain rfl := Option.some.inj hwrap
  have hlength := hnode.tag masterKey iv [] dataKey
  have hbuffer : bufferOf (Base64.url.encode (iv ++ (node.gcmEncrypt masterKey iv [] dataKey).2 ++
      (node.gcmEncrypt masterKey iv [] dataKey).1)) =
        iv ++ (node.gcmEncrypt masterKey iv [] dataKey).2 ++
          (node.gcmEncrypt masterKey iv [] dataKey).1 := by
    apply bufferOf_encode
    intro b hb
    rcases List.mem_append.mp hb with hb | hb
    · rcases List.mem_append.mp hb with hb | hb
      · exact hbytes b (List.mem_append_left _ hb)
      · exact hnode.tag_lt _ _ _ _ b hb
    · exact hnode.ct_lt _ _ _ _ (fun b hb => hbytes b (List.mem_append_right _ hb)) b hb
  show node.gcmDecrypt masterKey ((bufferOf _).take 12) [] ((bufferOf _).drop 28)
    (((bufferOf _).drop 12).take 16) = some dataKey
  have hfirst : (iv ++ (node.gcmEncrypt masterKey iv [] dataKey).2).length = 28 := by
    rw [List.length_append, hiv, hlength]
  rw [hbuffer, List.drop_left' hfirst, List.append_assoc, List.take_left' hiv,
    List.drop_left' hiv, List.take_left' hlength]
  exact node.gcmDecrypt_gcmEncrypt masterKey iv [] dataKey

theorem faithful_cloud (keyId : JsString) {encrypt decrypt : List ℕ → Option (List ℕ)}
    (h : ∀ k c, encrypt k = some c → (∀ b ∈ c, b < 256) ∧ decrypt c = some k) :
    (createCloudKmsClient keyId encrypt decrypt).Faithful := by
  intro iv dataKey wrapped _ _ hwrap
  obtain ⟨c, hc, rfl⟩ := Option.map_eq_some_iff.mp hwrap
  obtain ⟨hlt, hdecrypt⟩ := h dataKey c hc
  show decrypt (bufferOf (Base64.url.encode c)) = some dataKey
  rw [bufferOf_encode .url hlt, hdecrypt]

theorem faithful_vault (keyName : JsString) {encrypt decrypt : JsString → Option JsString}
    (h : ∀ k c, encrypt k = some c → decrypt c = some k) :
    (createVaultKmsClient keyName encrypt decrypt).Faithful := by
  intro iv dataKey wrapped _ hbytes hwrap
  obtain ⟨hencrypt, -⟩ := Option.filter_eq_some_iff.mp hwrap
  show (decrypt wrapped).map bufferOf = some dataKey
  rw [h _ _ hencrypt, Option.map_some,
    bufferOf_encode .standard fun b hb => hbytes b (List.mem_append_right _ hb)]

/-! ### The provider -/

structure KmsEnvelope where
  v : ℕ
  alg : Option JsString
  kid : JsString
  iv : JsString
  ct : JsString
  tag : JsString
  wrappedKey : JsString
  aadHash : Option JsString
  aadEncoding : Option JsString
  /-- In milliseconds. -/
  expiresAt : Option ℕ

/-- The text is there, and it is another one. -/
def differs (x : Option JsString) (expected : JsString) : Bool :=
  x.any fun s => s ≠ [] && s ≠ expected

section Provider

variable (node : NodeCrypto) (nfkc : JsString → JsString) (kms : Kms)

/-- `encrypt`; the data key and the two nonces are drawn. -/
def encryptKms (dataKey iv wrapIv : List ℕ) (plaintext : JsString) (aad : JsValue ν)
    (expiresAt : Option ℕ) : Option KmsEnvelope := do
  let aad ← aadBytes nfkc aad
  let (ct, tag) := node.gcmEncrypt dataKey iv aad (encodeUtf8 plaintext)
  let wrappedKey ← kms.wrap wrapIv dataKey
  return {
    v := 2
    alg := some alg
    kid := kms.keyId
    iv := Base64.url.encode iv
    ct := Base64.url.encode ct
    tag := Base64.url.encode tag
    wrappedKey := wrappedKey
    aadHash := some (Base64.url.encode (node.sha256 aad))
    aadEncoding := some aadEncodingV2
    expiresAt := expiresAt }

/-- `canonicalizeAadForEnvelope`, as bytes. -/
def aadBytesFor (envelope : KmsEnvelope) (aad : JsValue ν) : Option (List ℕ) :=
  if differs envelope.aadEncoding aadEncodingV2 then none
  else if envelope.aadEncoding = some aadEncodingV2 ∨ envelope.v = 2 then aadBytes nfkc aad
  else (canonicalize aad).map encodeUtf8

/-- `assertEnvelopeFresh`. -/
def KmsEnvelope.isFresh (envelope : KmsEnvelope) (now : ℕ) : Bool :=
  envelope.expiresAt.all fun expiresAt => now < expiresAt

/-- `decrypt`. -/
def decryptKms (now : ℕ) (envelope : KmsEnvelope) (aad : JsValue ν) : Option JsString :=
  if differs envelope.alg alg then none
  else if !envelope.isFresh now then none
  else do
    let aad ← aadBytesFor nfkc envelope aad
    if differs envelope.aadHash (Base64.url.encode (node.sha256 aad)) then none
    else
      let dataKey ← kms.unwrap envelope.wrappedKey
      let plaintext ← node.gcmDecrypt dataKey (bufferOf envelope.iv) aad (bufferOf envelope.ct)
        (bufferOf envelope.tag)
      return decodeLossy plaintext

variable {node nfkc kms}

theorem differs_some_self (s : JsString) : differs (some s) s = false := by simp [differs]

theorem differs_some_false {s t : JsString} (hs : s ≠ []) :
    differs (some s) t = false ↔ s = t := by
  simp [differs, hs]

theorem isFresh_iff {envelope : KmsEnvelope} {now : ℕ} :
    envelope.isFresh now = true ↔ ∀ t ∈ envelope.expiresAt, now < t := by
  rw [KmsEnvelope.isFresh]
  cases envelope.expiresAt <;> simp

/-- What an envelope keeps. -/
structure KmsSealed (node : NodeCrypto) (dataKey iv bytes : List ℕ) (plaintext : JsString)
    (envelope : KmsEnvelope) : Prop where
  alg : envelope.alg = some alg
  aadEncoding : envelope.aadEncoding = some aadEncodingV2
  aadHash : envelope.aadHash = some (Base64.url.encode (node.sha256 bytes))
  nonce : envelope.iv = Base64.url.encode iv
  ciphertext : envelope.ct =
    Base64.url.encode (node.gcmEncrypt dataKey iv bytes (encodeUtf8 plaintext)).1
  authTag : envelope.tag =
    Base64.url.encode (node.gcmEncrypt dataKey iv bytes (encodeUtf8 plaintext)).2

theorem sealed_of_encryptKms {dataKey iv wrapIv : List ℕ} {plaintext : JsString}
    {aad : JsValue ν} {expiresAt : Option ℕ} {envelope : KmsEnvelope}
    (h : encryptKms node nfkc kms dataKey iv wrapIv plaintext aad expiresAt = some envelope) :
    ∃ bytes, aadBytes nfkc aad = some bytes ∧
      kms.wrap wrapIv dataKey = some envelope.wrappedKey ∧ envelope.expiresAt = expiresAt ∧
      KmsSealed node dataKey iv bytes plaintext envelope := by
  simp only [encryptKms, Option.bind_eq_bind, Option.bind_eq_some_iff] at h
  obtain ⟨bytes, hbytes, wrapped, hwrapped, heq⟩ := h
  obtain rfl := Option.some.inj heq
  exact ⟨bytes, hbytes, hwrapped, rfl, rfl, rfl, rfl, rfl, rfl, rfl⟩

/-- An envelope opens with its data key under the bytes it was sealed with. -/
theorem KmsSealed.opens (hnode : NodeBytes node) {dataKey iv bytes : List ℕ} {plaintext : JsString}
    {envelope : KmsEnvelope} (h : KmsSealed node dataKey iv bytes plaintext envelope)
    (hiv : ∀ b ∈ iv, b < 256) :
    node.gcmDecrypt dataKey (bufferOf envelope.iv) bytes (bufferOf envelope.ct)
      (bufferOf envelope.tag) = some (encodeUtf8 plaintext) := by
  rw [h.nonce, h.ciphertext, h.authTag, bufferOf_encode .url hiv,
    bufferOf_encode .url (hnode.ct_lt dataKey iv bytes _ (encodeUtf8_lt plaintext)),
    bufferOf_encode .url (hnode.tag_lt dataKey iv bytes _)]
  exact node.gcmDecrypt_gcmEncrypt dataKey iv bytes (encodeUtf8 plaintext)

/-- The hashes of two texts are written alike only for one text. -/
theorem differs_hash (hnode : NodeBytes node) {aad aad' : JsValue ν}
    (hsha : HashApart node nfkc aad aad') (hne : ∀ bytes, node.sha256 bytes ≠ [])
    {bytes bytes' : List ℕ} (h : aadBytes nfkc aad = some bytes)
    (h' : aadBytes nfkc aad' = some bytes') :
    differs (some (Base64.url.encode (node.sha256 bytes)))
      (Base64.url.encode (node.sha256 bytes')) = false ↔ bytes = bytes' := by
  rw [differs_some_false fun hnil => hne bytes (Base64.encode_eq_nil.mp hnil)]
  constructor
  · intro heq
    exact hsha bytes h bytes' h'
      (Base64.encode_injective .url (hnode.sha256_lt _) (hnode.sha256_lt _) heq)
  · rintro rfl
    rfl

end Provider

/-- A provider that hides nothing. -/
def plainNode : NodeCrypto where
  gcmEncrypt _ _ _ plaintext := (plaintext, List.replicate 16 0)
  gcmDecrypt _ _ _ ct _ := some ct
  sha256 bytes := 0 :: bytes.map (· % 256)
  hmacSha256 _ data := data
  gcmDecrypt_gcmEncrypt _ _ _ _ := rfl

theorem nodeBytes_plainNode : NodeBytes plainNode where
  tag _ _ _ _ := List.length_replicate
  tag_lt _ _ _ _ b hb := by
    obtain ⟨-, rfl⟩ := List.mem_replicate.mp hb
    norm_num
  ct_lt _ _ _ _ h := h
  sha256_lt bytes b hb := by
    rcases List.mem_cons.mp hb with rfl | hb
    · norm_num
    · obtain ⟨c, -, rfl⟩ := List.mem_map.mp hb
      exact Nat.mod_lt _ (by norm_num)

theorem hashApart_plainNode (nfkc : JsString → JsString) (v w : JsValue ν) :
    HashApart plainNode nfkc v w := by
  have hmod : ∀ v : JsValue ν, ∀ a ∈ aadBytes nfkc v, a.map (· % 256) = a := by
    intro v a ha
    obtain ⟨s, -, rfl⟩ := Option.map_eq_some_iff.mp ha
    rw [List.map_congr_left fun b hb => Nat.mod_eq_of_lt (encodeUtf8_lt s b hb), List.map_id']
  intro a ha b hb h
  rw [← hmod v a ha, ← hmod w b hb]
  exact (List.cons.inj h).2

end Haechi.Crypto
