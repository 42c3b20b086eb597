import Haechi.Text.Utf8

/-! Envelopes of the local provider. The additional data of an envelope is bound by its
canonical text, in which keys and strings are folded and entries sorted, and an envelope
may carry an expiry that `decrypt` checks itself. Proved: an envelope that has not
expired opens to its plaintext under every additional data with the same canonical text,
up to the lone surrogates that UTF-8 replaces. -/

namespace Haechi.Crypto

open Text Json

variable {ν : Type} [JsNumber ν]

/-! ### Additional data -/

/-- The order `Array.prototype.sort` puts texts in. -/
def TextLe (s t : JsString) : Prop := s.map UInt16.toNat ≤ t.map UInt16.toNat

instance : DecidableRel TextLe := fun s t =>
  inferInstanceAs (Decidable (s.map UInt16.toNat ≤ t.map UInt16.toNat))

mutual

/-- `canonicalizeCryptoAad`: it throws where two keys of an object fold to one, and a
hole has no text. -/
def canonicalizeCryptoAad (nfkc : JsString → JsString) : JsValue ν → Option (Option JsString)
  | .arr items => do
    let texts ← canonicalItems nfkc items
    return some (91 :: (List.intercalate [44] texts ++ [93]))
  | .obj fields => do
    let entries ← canonicalEntries nfkc fields
    if (fields.map fun kv => nfkc kv.1).Nodup then
      return some (123 :: (List.intercalate [44] (entries.insertionSort TextLe) ++ [125]))
    else none
  | .str s => some (some (quote (nfkc s)))
  | v => some (stringify v)

/-- The items of an array; `join` writes nothing for a hole. -/
def canonicalItems (nfkc : JsString → JsString) : List (JsValue ν) → Option (List JsString)
  | [] => some []
  | v :: vs => do
    let text ← canonicalizeCryptoAad nfkc v
    return text.getD [] :: (← canonicalItems nfkc vs)

/-- The entries of an object; a template writes `undefined` for a hole. -/
def canonicalEntries (nfkc : JsString → JsString) :
    List (JsString × JsValue ν) → Option (List JsString)
  | [] => some []
  | (k, v) :: fs => do
    let text ← canonicalizeCryptoAad nfkc v
    return (quote (nfkc k) ++ 58 :: text.getD (js "undefined")) :: (← canonicalEntries nfkc fs)

end

/-- The bytes of the canonical text. -/
def aadBytes (nfkc : JsString → JsString) (aad : JsValue ν) : Option (List ℕ) :=
  ((canonicalizeCryptoAad nfkc aad).bind id).map encodeUtf8

/-! ### The provider -/

/-- What is used of `node:crypto`: AES-256-GCM, which decrypts what it encrypted, and
SHA-256 with its HMAC, on bytes. -/
structure NodeCrypto where
  gcmEncrypt : (key iv aad plaintext : List ℕ) → List ℕ × List ℕ
  gcmDecrypt : (key iv aad ct tag : List ℕ) → Option (List ℕ)
  sha256 : List ℕ → List ℕ
  hmacSha256 : (key data : List ℕ) → List ℕ
  gcmDecrypt_gcmEncrypt : ∀ key iv aad plaintext,
    gcmDecrypt key iv aad (gcmEncrypt key iv aad plaintext).1
      (gcmEncrypt key iv aad plaintext).2 = some plaintext

/-- `digest("hex")`. -/
def hex (bytes : List ℕ) : JsString := bytes.flatMap fun b => [hexDigit (b / 16), hexDigit (b % 16)]

/-- The keys of the key file: one is active, and all are found by their id. -/
structure KeyRing where
  byKid : List (JsString × List ℕ)
  kid : JsString
  key : List ℕ
  active : byKid.lookup kid = some key

structure Envelope where
  kid : JsString
  iv : List ℕ
  ct : List ℕ
  tag : List ℕ
  aadHash : List ℕ
  /-- In milliseconds. -/
  expiresAt : Option ℕ

section Provider

variable (node : NodeCrypto) (nfkc : JsString → JsString) (ring : KeyRing)

/-- `encrypt`, once the nonce budget is taken; it throws where the additional data has
no canonical text. -/
def encrypt (iv : List ℕ) (plaintext : JsString) (aad : JsValue ν) (expiresAt : Option ℕ) :
    Option Envelope := do
  let aad ← aadBytes nfkc aad
  let (ct, tag) := node.gcmEncrypt ring.key iv aad (encodeUtf8 plaintext)
  return ⟨ring.kid, iv, ct, tag, node.sha256 aad, expiresAt⟩

/-- `assertEnvelopeFresh`. -/
def isFresh (now : ℕ) (envelope : Envelope) : Bool :=
  match envelope.expiresAt with
  | none => true
  | some expiresAt => now < expiresAt

/-- `decrypt`; what is sealed is UTF-8. -/
def decrypt (now : ℕ) (envelope : Envelope) (aad : JsValue ν) : Option JsString :=
  if isFresh now envelope then do
    let key ← ring.byKid.lookup envelope.kid
    let aad ← aadBytes nfkc aad
    if envelope.aadHash = node.sha256 aad then
      (node.gcmDecrypt key envelope.iv aad envelope.ct envelope.tag).bind decodeUtf8
    else none
  else none

/-- `hmac`, under a key derived for the domain. -/
def hmac (data domain : JsString) : JsString :=
  hex (node.hmacSha256 (node.hmacSha256 ring.key (encodeUtf8 domain)) (encodeUtf8 data))

variable {node nfkc ring}

theorem encrypt_expiresAt {iv : List ℕ} {plaintext : JsString} {aad : JsValue ν}
    {expiresAt : Option ℕ} {envelope : Envelope}
    (h : encrypt node nfkc ring iv plaintext aad expiresAt = some envelope) :
    envelope.expiresAt = expiresAt := by
  obtain ⟨bytes, -, heq⟩ := Option.bind_eq_some_iff.mp h
  rw [← Option.some.inj heq]

/-- An envelope keeps the hash of the data it was sealed with. -/
theorem aadHash_of_encrypt {iv : List ℕ} {plaintext : JsString} {aad : JsValue ν}
    {expiresAt : Option ℕ} {envelope : Envelope}
    (h : encrypt node nfkc ring iv plaintext aad expiresAt = some envelope) :
    ∃ bytes, aadBytes nfkc aad = some bytes ∧ envelope.aadHash = node.sha256 bytes := by
  obtain ⟨bytes, hbytes, heq⟩ := Option.bind_eq_some_iff.mp h
  refine ⟨bytes, hbytes, ?_⟩
  rw [← Option.some.inj heq]

/-- An envelope opens under data with the hash it keeps. -/
theorem aadHash_of_decrypt {now : ℕ} {envelope : Envelope} {aad : JsValue ν} {text : JsString}
    (h : decrypt node nfkc ring now envelope aad = some text) :
    ∃ bytes, aadBytes nfkc aad = some bytes ∧ envelope.aadHash = node.sha256 bytes := by
  rw [decrypt] at h
  split at h
  · obtain ⟨key, -, h⟩ := Option.bind_eq_some_iff.mp h
    obtain ⟨bytes, hbytes, h⟩ := Option.bind_eq_some_iff.mp h
    split at h
    · rename_i hhash
      exact ⟨bytes, hbytes, hhash⟩
    · cases h
  · cases h

/-- An envelope opens before its expiry. -/
theorem decrypt_encrypt {iv : List ℕ} {plaintext : JsString} {aad aad' : JsValue ν}
    {expiresAt : Option ℕ} {envelope : Envelope}
    (h : encrypt node nfkc ring iv plaintext aad expiresAt = some envelope)
    (haad : canonicalizeCryptoAad nfkc aad' = canonicalizeCryptoAad nfkc aad) {now : ℕ}
    (hnow : ∀ t ∈ expiresAt, now < t) :
    decrypt node nfkc ring now envelope aad' = some (toWellFormed plaintext) := by
  obtain ⟨bytes, hbytes, heq⟩ := Option.bind_eq_some_iff.mp h
  have hbytes' : aadBytes nfkc aad' = some bytes := by rw [aadBytes, haad, ← aadBytes, hbytes]
  have hfresh : isFresh now envelope = true := by
    rw [isFresh, encrypt_expiresAt h]
    cases expiresAt with
    | none => rfl
    | some t => exact decide_eq_true (hnow t rfl)
  obtain rfl := Option.some.inj heq
  rw [decrypt, if_pos hfresh]
  simp only [ring.active, hbytes', Option.bind_eq_bind, Option.bind_some, if_true,
    node.gcmDecrypt_gcmEncrypt, decodeUtf8_encodeUtf8]

end Provider

end Haechi.Crypto
