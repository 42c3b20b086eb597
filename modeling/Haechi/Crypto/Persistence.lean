import Haechi.Crypto.Canonical
import Haechi.Text.Base64

/-! Envelopes and contexts on their way through JSON. `JSON.stringify` drops the holes of a
context, so the text that is recomputed when an envelope is opened is the one it was sealed
with exactly where there were none. Proved: an envelope that was written as JSON opens, under
the context that was written with it, to what was sealed, exactly when the context has no
hole and the plaintext no lone surrogate. -/

namespace Haechi.Crypto

open Text Json

variable {ν : Type} [JsNumber ν]

/-! ### Holes -/

mutual

/-- The value with every array whose only item is a hole emptied, which has the same text. -/
def emptied : JsValue ν → JsValue ν
  | .arr items => if isLone items then .arr [] else .arr (emptiedItems items)
  | .obj fields => .obj (emptiedFields fields)
  | v => v

def emptiedItems : List (JsValue ν) → List (JsValue ν)
  | [] => []
  | v :: vs => emptied v :: emptiedItems vs

def emptiedFields : List (JsString × JsValue ν) → List (JsString × JsValue ν)
  | [] => []
  | (k, v) :: fs => (k, emptied v) :: emptiedFields fs

end

omit [JsNumber ν] in
theorem emptiedItems_eq_map (items : List (JsValue ν)) :
    emptiedItems items = items.map emptied := by
  induction items with
  | nil => rfl
  | cons v vs ih => rw [emptiedItems, ih, List.map_cons]

omit [JsNumber ν] in
theorem emptiedFields_eq_map (fields : List (JsString × JsValue ν)) :
    emptiedFields fields = fields.map fun kv => (kv.1, emptied kv.2) := by
  induction fields with
  | nil => rfl
  | cons kv fs ih => rw [emptiedFields, ih, List.map_cons]

omit [JsNumber ν] in
theorem emptied_eq_undef {v : JsValue ν} : emptied v = .undef ↔ v = .undef := by
  cases v with
  | arr items =>
    rw [emptied]
    split <;> simp
  | _ => simp [emptied]

omit [JsNumber ν] in
theorem isLone_map_emptied (items : List (JsValue ν)) :
    isLone (items.map emptied) = isLone items := by
  match items with
  | [] => rfl
  | [v] =>
    by_cases hv : v = .undef
    · rw [hv]
      rfl
    · have hne : emptied v ≠ .undef := mt emptied_eq_undef.mp hv
      have hlone : ∀ {w : JsValue ν}, w ≠ .undef → isLone [w] = false := fun {w} hw => by
        cases w <;> first | rfl | exact absurd rfl hw
      rw [List.map_singleton, hlone hne, hlone hv]
  | _ :: _ :: _ => simp [isLone]

omit [JsNumber ν] in
theorem hasLone_emptied (v : JsValue ν) : hasLone (emptied v) = false := by
  induction v using JsValue.induct with
  | arr items ih =>
    rw [emptied]
    split
    · rfl
    · rename_i hlone
      rw [emptiedItems_eq_map, hasLone, isLone_map_emptied, Bool.or_eq_false_iff,
        hasLoneItems_eq_false, List.forall_mem_map]
      exact ⟨Bool.not_eq_true _ ▸ hlone, ih⟩
  | obj fields ih =>
    rw [emptied, hasLone, hasLoneFields_eq_false, emptiedFields_eq_map, List.forall_mem_map]
    exact ih
  | _ => rfl

omit [JsNumber ν] in
theorem distinct_emptied {v : JsValue ν} (hv : v.Distinct) : (emptied v).Distinct := by
  induction v using JsValue.induct with
  | arr items ih =>
    rw [emptied]
    split
    · trivial
    · rw [emptiedItems_eq_map, JsValue.distinct_arr, List.forall_mem_map]
      exact fun v hmem => ih v hmem (JsValue.distinct_arr.mp hv v hmem)
  | obj fields ih =>
    obtain ⟨hn, hd⟩ := JsValue.distinct_obj.mp hv
    rw [emptied, JsValue.distinct_obj, emptiedFields_eq_map, List.map_map, List.forall_mem_map]
    exact ⟨hn, fun kv hmem => ih kv hmem (hd kv hmem)⟩
  | _ => trivial

/-- Emptying does not change the text. -/
theorem render_arrange_emptied (v : JsValue ν) :
    render (arrange (emptied v)) = render (arrange v) := by
  induction v using JsValue.induct with
  | arr items ih =>
    rw [emptied]
    split
    · rename_i hlone
      match items, hlone with
      | [.undef], _ => rfl
    · rw [arrange, arrange, emptiedItems_eq_map, arrangeItems_eq_map, arrangeItems_eq_map, render,
        render, renderItems_eq_map, renderItems_eq_map, List.map_map, List.map_map, List.map_map]
      have htexts : items.map (((fun v => (render v).getD []) ∘ arrange) ∘ emptied) =
          items.map ((fun v => (render v).getD []) ∘ arrange) :=
        List.map_congr_left fun v hmem => congrArg (Option.getD · []) (ih v hmem)
      rw [htexts]
  | obj fields ih =>
    have htexts : renderFields (arrangeFields (emptiedFields fields)) =
        renderFields (arrangeFields fields) := by
      rw [renderFields_eq_map, renderFields_eq_map, arrangeFields_eq_map, arrangeFields_eq_map,
        emptiedFields_eq_map, List.map_map, List.map_map, List.map_map]
      refine List.map_congr_left fun kv hmem => ?_
      exact congrArg (fun text => quote kv.1 ++ 58 :: text.getD (js "undefined")) (ih kv hmem)
    rw [emptied, arrange, arrange, render, render, renderFields_insertionSort,
      renderFields_insertionSort, htexts]
  | _ => rfl

omit [JsNumber ν] in
/-- A member that is a hole is dropped. -/
theorem field?_pruneFields_of_undef {fields : List (JsString × JsValue ν)}
    (hn : (fields.map Prod.fst).Nodup) {k : JsString} (h : (k, .undef) ∈ fields) :
    JsValue.field? k (JsValue.pruneFields fields) = none := by
  rw [JsValue.field?_eq_none]
  intro hk
  obtain ⟨kv, hkv, rfl⟩ := List.mem_map.mp hk
  obtain ⟨v, hmem, hne, -⟩ := JsValue.mem_pruneFields hkv
  exact hne (congrArg Prod.snd (List.inj_on_of_nodup_map hn hmem h rfl))

omit [JsNumber ν] in
/-- Only a value without holes is the same emptied and pruned. -/
theorem isJson_of_sameJson_prune {v : JsValue ν} (hne : v ≠ .undef) (hv : v.Distinct)
    (h : SameJson (emptied v) v.prune) : v.isJson = true := by
  induction v using JsValue.induct with
  | undef => exact absurd rfl hne
  | arr items ih =>
    have hd := JsValue.distinct_arr.mp hv
    rw [emptied] at h
    split at h
    · rename_i hlone
      match items, hlone with
      | [.undef], _ => cases h
    · rw [SameJson, JsValue.prune, sortKeys, sortKeys, sortItems_eq_map, sortItems_eq_map,
        emptiedItems_eq_map, JsValue.pruneItems_eq_map, List.map_map, List.map_map,
        JsValue.arr.injEq, List.map_inj_left] at h
      refine JsValue.isJson_arr.mpr fun v hmem => ?_
      have hsame := h v hmem
      cases v with
      | undef => cases hsame
      | _ => exact ih _ hmem (by simp) (hd _ hmem) hsame
  | obj fields ih =>
    obtain ⟨hn, hd⟩ := JsValue.distinct_obj.mp hv
    have hemptied : ((emptiedFields fields).map Prod.fst).Nodup := by
      rw [emptiedFields_eq_map, List.map_map]
      exact hn
    have hpruned : ((JsValue.pruneFields fields).map Prod.fst).Nodup :=
      hn.sublist (JsValue.keys_pruneFields fields)
    have hfields := (sameJson_obj hemptied hpruned).mp h
    refine JsValue.isJson_obj.mpr fun kv hmem => ?_
    obtain ⟨k, v⟩ := kv
    have hleft : JsValue.field? k (emptiedFields fields) = some (emptied v) := by
      refine JsValue.field?_of_mem hemptied ?_
      rw [emptiedFields_eq_map]
      exact List.mem_map.mpr ⟨(k, v), hmem, rfl⟩
    have hsame := hfields k
    rw [hleft] at hsame
    by_cases hundef : v = .undef
    · rw [hundef] at hmem
      rw [field?_pruneFields_of_undef hn hmem] at hsame
      cases hsame
    · rw [JsValue.field?_of_mem hpruned (JsValue.mem_pruneFields_of_mem hmem hundef)] at hsame
      exact ih (k, v) hmem hundef (hd _ hmem) (Option.some.inj hsame)
  | _ => rfl

section Canonical

variable {nfkc : JsString → JsString}

omit [JsNumber ν] in
theorem foldTexts_prune (v : JsValue ν) : foldTexts nfkc v.prune = (foldTexts nfkc v).prune := by
  induction v using JsValue.induct with
  | arr items ih =>
    rw [JsValue.prune, foldTexts, foldTexts, JsValue.prune, foldItems_eq_map, foldItems_eq_map,
      JsValue.pruneItems_eq_map, JsValue.pruneItems_eq_map, List.map_map, List.map_map]
    refine congrArg JsValue.arr (List.map_congr_left fun v hmem => ?_)
    cases v with
    | undef => rfl
    | _ => exact ih _ hmem
  | obj fields ih =>
    rw [JsValue.prune, foldTexts, foldTexts, JsValue.prune]
    refine congrArg JsValue.obj ?_
    induction fields with
    | nil => rfl
    | cons kv fs ihf =>
      obtain ⟨k, v⟩ := kv
      obtain ⟨hv, hfs⟩ := List.forall_mem_cons.mp ih
      have hrest := ihf hfs
      cases v with
      | undef => exact hrest
      | _ => exact congrArg₂ List.cons (congrArg (nfkc k, ·) hv) hrest
  | _ => rfl

/-- What JSON keeps of additional data has the same canonical text exactly where the data
has no hole. -/
theorem canonicalizeCryptoAad_prune_iff {v : JsValue ν} (hne : v ≠ .undef) (hv : v.Distinct)
    (hc : ¬Collides nfkc v) :
    canonicalizeCryptoAad nfkc v.prune = canonicalizeCryptoAad nfkc v ↔ v.isJson = true := by
  refine ⟨fun h => ?_, fun h => by rw [JsValue.prune_of_isJson v h]⟩
  have hd := (distinct_foldTexts hv).mpr hc
  have hpd : (foldTexts nfkc v).prune.Distinct := JsValue.distinct_prune _ hd
  have hfolded : foldTexts nfkc v ≠ .undef := by
    intro hundef
    cases v with
    | undef => exact hne rfl
    | _ => cases hundef
  rw [canonicalizeCryptoAad_eq hd, canonicalizeCryptoAad_eq (by rwa [foldTexts_prune]),
    Option.some_inj, canonicalText, canonicalText, foldTexts_prune,
    ← render_arrange_emptied (foldTexts nfkc v)] at h
  have hsame := sameJson_of_render_arrange ⟨JsValue.isJson_prune _ hfolded, hpd⟩
    (distinct_emptied hd) (hasLone_emptied _) h.symm
  exact (isJson_foldTexts v).symm.trans (isJson_of_sameJson_prune hfolded hd hsame)

end Canonical

/-! ### The members of an envelope -/

/-- The last time a `Date` holds, in milliseconds. -/
def lastTime : ℕ := 8640000000000000

/-- What the members of an envelope are read and written with: `Buffer.from(value,
"base64url")`, `Date.parse` and `toISOString`. -/
structure Codec (ν : Type) where
  fromBase64url : JsValue ν → Option (List ℕ)
  toISOString : ℕ → JsString
  dateParse : JsValue ν → Option ℕ
  fromBase64url_encode : ∀ bytes, (∀ b ∈ bytes, b < 256) →
    fromBase64url (.str (Base64.url.encode bytes)) = some bytes
  dateParse_toISOString : ∀ t ≤ lastTime, dateParse (.str (toISOString t)) = some t
  toISOString_ne_nil : ∀ t, toISOString t ≠ []

/-- The cipher and the hash give bytes for bytes, and no digest is empty. -/
structure NodeCrypto.GivesBytes (node : NodeCrypto) : Prop where
  gcmEncrypt : ∀ key iv aad plaintext, (∀ b ∈ aad, b < 256) → (∀ b ∈ plaintext, b < 256) →
    (∀ b ∈ (node.gcmEncrypt key iv aad plaintext).1, b < 256) ∧
      ∀ b ∈ (node.gcmEncrypt key iv aad plaintext).2, b < 256
  sha256 : ∀ bytes, (∀ b ∈ bytes, b < 256) → ∀ b ∈ node.sha256 bytes, b < 256
  sha256_ne_nil : ∀ bytes, node.sha256 bytes ≠ []

/-- `ALG`. -/
def alg : JsString := js "AES-256-GCM"

/-- `CRYPTO_AAD_ENCODING_V2`. -/
def aadEncodingV2 : JsString := js "nfkc-json-v2"

/-- The object that `encrypt` returns for an envelope. -/
def envelopeValue (codec : Codec ν) (createdAt : ℕ) (e : Envelope) : JsValue ν :=
  .obj ([(js "v", .num (JsNumber.ofNat 2)), (js "alg", .str alg), (js "kid", .str e.kid),
    (js "iv", .str (Base64.url.encode e.iv)), (js "ct", .str (Base64.url.encode e.ct)),
    (js "tag", .str (Base64.url.encode e.tag)),
    (js "aadHash", .str (Base64.url.encode e.aadHash)), (js "aadEncoding", .str aadEncodingV2),
    (js "createdAt", .str (codec.toISOString createdAt))] ++
      (e.expiresAt.map fun t => (js "expiresAt", .str (codec.toISOString t))).toList)

/-- `value === text`. -/
def isText (v : JsValue ν) (text : JsString) : Bool :=
  match v with
  | .str s => s == text
  | _ => false

/-- `value === 2`. -/
def isTwo : JsValue ν → Bool
  | .num x => JsNumber.toNat? x == some 2
  | _ => false

/-- `canonicalizeAadForEnvelope`: the older envelopes have the stable text of the data. -/
def canonicalizeAadForEnvelope (nfkc : JsString → JsString) (envelope aad : JsValue ν) :
    Option (Option JsString) :=
  let encoding := envelope.get (js "aadEncoding")
  if encoding.truthy && !isText encoding aadEncodingV2 then none
  else if isText encoding aadEncodingV2 || isTwo (envelope.get (js "v")) then
    canonicalizeCryptoAad nfkc aad
  else some (canonicalize aad)

section Provider

variable (codec : Codec ν) (node : NodeCrypto) (nfkc : JsString → JsString) (ring : KeyRing)

/-- `assertEnvelopeFresh`, on the envelope as it is read. -/
def isFreshValue (now : ℕ) (envelope : JsValue ν) : Bool :=
  let expiresAt := envelope.get (js "expiresAt")
  if expiresAt.truthy then (codec.dateParse expiresAt).any fun t => now < t else true

/-- `byKid.get(envelope.kid)`, or the active key where the envelope names none. -/
def selectedKey (envelope : JsValue ν) : Option (List ℕ) :=
  let kid := envelope.get (js "kid")
  if kid.truthy then
    match kid with
    | .str kid => ring.byKid.lookup kid
    | _ => none
  else some ring.key

/-- `decrypt`, on the envelope as it is read. -/
def decryptValue (now : ℕ) (envelope aad : JsValue ν) : Option JsString :=
  let hash := envelope.get (js "aadHash")
  if (envelope.get (js "alg")).truthy && !isText (envelope.get (js "alg")) alg then none
  else if !isFreshValue codec now envelope then none
  else do
    let key ← selectedKey ring envelope
    let aad ← (← canonicalizeAadForEnvelope nfkc envelope aad)
    let bytes := encodeUtf8 aad
    if hash.truthy && !isText hash (Base64.url.encode (node.sha256 bytes)) then none
    else
      let iv ← codec.fromBase64url (envelope.get (js "iv"))
      let tag ← codec.fromBase64url (envelope.get (js "tag"))
      let ct ← codec.fromBase64url (envelope.get (js "ct"))
      (node.gcmDecrypt key iv bytes ct tag).bind decodeUtf8

/-- A value as a JSON file gives it back. -/
def reread (v : JsValue ν) : Option (JsValue ν) := (stringify v).bind parse

variable {codec node nfkc ring}

theorem reread_eq {v : JsValue ν} (hne : v ≠ .undef) (hv : v.Distinct) :
    reread v = some v.prune := by
  obtain ⟨t, ht⟩ := Option.isSome_iff_exists.mp (stringify_isSome hne)
  rw [reread, ht]
  exact parse_stringify ht hv

theorem reread_wellFormed {v : JsValue ν} (hv : WellFormed v) (hne : v ≠ .undef) :
    reread v = some v := by
  rw [reread_eq hne hv.2, JsValue.prune_of_isJson v hv.1]

/-- What is sealed with a context, as it is read back and opened with what is read back of
the context. -/
def decryptPersisted (codec : Codec ν) (node : NodeCrypto) (nfkc : JsString → JsString)
    (ring : KeyRing) (now createdAt : ℕ) (e : Envelope) (aad : JsValue ν) : Option JsString := do
  let envelope ← reread (envelopeValue codec createdAt e)
  let aad ← reread aad
  decryptValue codec node nfkc ring now envelope aad

theorem envelopeValue_wellFormed (createdAt : ℕ) (e : Envelope) :
    WellFormed (envelopeValue codec createdAt e) := by
  refine wellFormed_obj ?_ ?_
  · cases e.expiresAt with
    | none =>
      show [js "v", js "alg", js "kid", js "iv", js "ct", js "tag", js "aadHash",
        js "aadEncoding", js "createdAt"].Nodup
      decide
    | some t =>
      show [js "v", js "alg", js "kid", js "iv", js "ct", js "tag", js "aadHash",
        js "aadEncoding", js "createdAt", js "expiresAt"].Nodup
      decide
  · cases e.expiresAt <;> simp [WellFormed, JsValue.isJson, JsValue.Distinct]

/-- What an envelope is made of can be written in base64, and its hash is not empty. -/
structure Envelope.Bytes (e : Envelope) : Prop where
  iv : ∀ b ∈ e.iv, b < 256
  ct : ∀ b ∈ e.ct, b < 256
  tag : ∀ b ∈ e.tag, b < 256
  aadHash : ∀ b ∈ e.aadHash, b < 256
  aadHash_ne_nil : e.aadHash ≠ []

theorem truthy_str (s : JsString) : (.str s : JsValue ν).truthy = !s.isEmpty := rfl

omit [JsNumber ν] in
theorem isText_str (s text : JsString) : isText (.str s : JsValue ν) text = (s == text) := rfl

theorem isFreshValue_envelopeValue {e : Envelope} (hexpiry : ∀ t ∈ e.expiresAt, t ≤ lastTime)
    (now createdAt : ℕ) :
    isFreshValue codec now (envelopeValue codec createdAt e) = isFresh now e := by
  rw [isFresh]
  cases hexpires : e.expiresAt with
  | none =>
    have hget : (envelopeValue codec createdAt e).get (js "expiresAt") = .undef := by
      rw [envelopeValue, hexpires]
      rfl
    rw [isFreshValue, hget]
    rfl
  | some t =>
    have hget : (envelopeValue codec createdAt e).get (js "expiresAt") =
        .str (codec.toISOString t) := by
      rw [envelopeValue, hexpires]
      rfl
    have htruthy : (.str (codec.toISOString t) : JsValue ν).truthy = true := by
      rw [truthy_str, Bool.not_eq_true', List.isEmpty_eq_false_iff]
      exact codec.toISOString_ne_nil t
    rw [isFreshValue, hget, if_pos htruthy, codec.dateParse_toISOString t (hexpiry t hexpires)]
    rfl

theorem selectedKey_envelopeValue {e : Envelope} (hkid : e.kid = ring.kid) (createdAt : ℕ) :
    selectedKey ring (envelopeValue codec createdAt e) = ring.byKid.lookup e.kid := by
  have hget : (envelopeValue codec createdAt e).get (js "kid") = .str e.kid := rfl
  rw [selectedKey, hget, truthy_str]
  cases hempty : e.kid.isEmpty with
  | true => rw [hkid, ring.active, Bool.not_true, if_neg Bool.false_ne_true]
  | false => rw [Bool.not_false, if_pos rfl]

/-- Comparing what is written of two hashes is comparing them. -/
theorem refusesHash_eq {hash digest : List ℕ} (hhash : ∀ b ∈ hash, b < 256) (hne : hash ≠ [])
    (hdigest : ∀ b ∈ digest, b < 256) :
    ((.str (Base64.url.encode hash) : JsValue ν).truthy &&
      !isText (.str (Base64.url.encode hash) : JsValue ν) (Base64.url.encode digest)) =
    !decide (hash = digest) := by
  have htruthy : (Base64.url.encode hash).isEmpty = false := by
    rw [List.isEmpty_eq_false_iff]
    exact fun hnil => hne (Base64.encode_injective .url hhash nofun (hnil.trans rfl))
  rw [truthy_str, isText_str, htruthy, Bool.not_false, Bool.true_and]
  congr 1
  rw [Bool.eq_iff_iff, beq_iff_eq, decide_eq_true_eq]
  exact ⟨fun h => Base64.encode_injective .url hhash hdigest h, congrArg _⟩

/-- `decrypt` of an envelope as it is read is `decrypt` of the envelope. -/
theorem decryptValue_envelopeValue {e : Envelope} (hnode : node.GivesBytes) (he : e.Bytes)
    (hkid : e.kid = ring.kid) (hexpiry : ∀ t ∈ e.expiresAt, t ≤ lastTime) (now createdAt : ℕ)
    (aad : JsValue ν) :
    decryptValue codec node nfkc ring now (envelopeValue codec createdAt e) aad =
      decrypt node nfkc ring now e aad := by
  have halg : (envelopeValue codec createdAt e).get (js "alg") = .str alg := rfl
  have hhash : (envelopeValue codec createdAt e).get (js "aadHash") =
      .str (Base64.url.encode e.aadHash) := rfl
  have hiv : codec.fromBase64url ((envelopeValue codec createdAt e).get (js "iv")) = some e.iv :=
    codec.fromBase64url_encode e.iv he.iv
  have htag : codec.fromBase64url ((envelopeValue codec createdAt e).get (js "tag")) =
      some e.tag := codec.fromBase64url_encode e.tag he.tag
  have hct : codec.fromBase64url ((envelopeValue codec createdAt e).get (js "ct")) = some e.ct :=
    codec.fromBase64url_encode e.ct he.ct
  have hcanonical : canonicalizeAadForEnvelope nfkc (envelopeValue codec createdAt e) aad =
      canonicalizeCryptoAad nfkc aad := rfl
  have halgOk : ((.str alg : JsValue ν).truthy && !isText (.str alg : JsValue ν) alg) = false := rfl
  rw [decryptValue, decrypt, halg, halgOk, if_neg Bool.false_ne_true,
    isFreshValue_envelopeValue hexpiry, selectedKey_envelopeValue hkid, hhash, hiv, htag, hct,
    hcanonical, aadBytes]
  cases isFresh now e with
  | false => rfl
  | true =>
    cases ring.byKid.lookup e.kid with
    | none => rfl
    | some key =>
      cases hnested : canonicalizeCryptoAad nfkc aad with
      | none => rfl
      | some text =>
        cases text with
        | none => rfl
        | some text =>
          have hrefuses := refusesHash_eq (ν := ν) he.aadHash he.aadHash_ne_nil
            (hnode.sha256 _ (encodeUtf8_lt text))
          simp only [Bool.not_true, Bool.false_eq_true, if_false, if_true, Option.bind_eq_bind,
            Option.bind_some, Option.map_some, id]
          by_cases heq : e.aadHash = node.sha256 (encodeUtf8 text)
          · rw [decide_eq_true heq, Bool.not_true] at hrefuses
            rw [hrefuses, if_neg Bool.false_ne_true, if_pos heq]
          · rw [decide_eq_false heq, Bool.not_false] at hrefuses
            rw [hrefuses, if_pos rfl, if_neg heq]

/-! ### The round trip -/

section RoundTrip

variable {iv : List ℕ} {plaintext : JsString} {aad : JsValue ν} {expiresAt : Option ℕ}
  {e : Envelope}

theorem kid_of_encrypt (h : encrypt node nfkc ring iv plaintext aad expiresAt = some e) :
    e.kid = ring.kid := by
  obtain ⟨bytes, -, heq⟩ := Option.bind_eq_some_iff.mp h
  rw [← Option.some.inj heq]

theorem bytes_of_encrypt (hnode : node.GivesBytes) (hiv : ∀ b ∈ iv, b < 256)
    (h : encrypt node nfkc ring iv plaintext aad expiresAt = some e) : e.Bytes := by
  obtain ⟨bytes, hbytes, heq⟩ := Option.bind_eq_some_iff.mp h
  obtain ⟨text, -, rfl⟩ := Option.map_eq_some_iff.mp hbytes
  have hgcm := hnode.gcmEncrypt ring.key iv (encodeUtf8 text) (encodeUtf8 plaintext)
    (encodeUtf8_lt text) (encodeUtf8_lt plaintext)
  rw [← Option.some.inj heq]
  exact ⟨hiv, hgcm.1, hgcm.2, hnode.sha256 _ (encodeUtf8_lt text),
    hnode.sha256_ne_nil _⟩

/-- Only data with a canonical text is sealed. -/
theorem accepted_of_encrypt (h : encrypt node nfkc ring iv plaintext aad expiresAt = some e) :
    aad ≠ .undef ∧ ¬Collides nfkc aad := by
  obtain ⟨bytes, hbytes, -⟩ := Option.bind_eq_some_iff.mp h
  constructor
  · rintro rfl
    cases hbytes
  · intro hc
    rw [aadBytes, canonicalizeCryptoAad_eq_none hc] at hbytes
    cases hbytes

/-- What an envelope opens to under the data that JSON keeps. -/
theorem decrypt_prune_iff (haad : aad.Distinct) (hsha : HashApart node nfkc aad aad.prune)
    (h : encrypt node nfkc ring iv plaintext aad expiresAt = some e) {now : ℕ}
    (hnow : ∀ t ∈ expiresAt, now < t) {text : JsString} :
    decrypt node nfkc ring now e aad.prune = some text ↔
      aad.isJson = true ∧ toWellFormed plaintext = text := by
  obtain ⟨hne, hc⟩ := accepted_of_encrypt h
  have hiff := canonicalizeCryptoAad_prune_iff hne haad hc
  constructor
  · intro hopen
    have hsame := canonicalizeCryptoAad_eq_of_decrypt haad (JsValue.distinct_prune aad haad) hsha h
      hopen
    refine ⟨hiff.mp hsame.symm, ?_⟩
    rw [decrypt_encrypt h hsame.symm hnow] at hopen
    exact Option.some.inj hopen
  · rintro ⟨hjson, rfl⟩
    exact decrypt_encrypt h (hiff.mpr hjson) hnow

/-- **The round trip of an envelope.** Written as JSON with its context and read back, an
envelope that has not expired opens to what was sealed exactly when the context has no hole
and the plaintext no lone surrogate. -/
theorem decryptPersisted_iff (hnode : node.GivesBytes) (hiv : ∀ b ∈ iv, b < 256)
    (hexpiry : ∀ t ∈ expiresAt, t ≤ lastTime) (haad : aad.Distinct)
    (hsha : HashApart node nfkc aad aad.prune)
    (h : encrypt node nfkc ring iv plaintext aad expiresAt = some e) {now : ℕ}
    (hnow : ∀ t ∈ expiresAt, now < t) (createdAt : ℕ) :
    decryptPersisted codec node nfkc ring now createdAt e aad = some plaintext ↔
      aad.isJson = true ∧ toWellFormed plaintext = plaintext := by
  have hwell : WellFormed (envelopeValue codec createdAt e) := envelopeValue_wellFormed createdAt e
  have hne : envelopeValue codec createdAt e ≠ .undef := by
    rw [envelopeValue]
    nofun
  have hexpiry' : ∀ t ∈ e.expiresAt, t ≤ lastTime := by rwa [encrypt_expiresAt h]
  have hopen : decryptPersisted codec node nfkc ring now createdAt e aad =
      decrypt node nfkc ring now e aad.prune := by
    rw [decryptPersisted, reread_wellFormed hwell hne, reread_eq (accepted_of_encrypt h).1 haad]
    exact decryptValue_envelopeValue hnode (bytes_of_encrypt hnode hiv h)
      (kid_of_encrypt h) hexpiry' now createdAt _
  rw [hopen]
  exact decrypt_prune_iff haad hsha h hnow

end RoundTrip

end Provider

/-! ### A codec and a cipher -/

/-- Times written in digits. -/
def digitCodec : Codec NumberToken where
  fromBase64url
    | .str s => Base64.url.decode s
    | _ => none
  toISOString := natText
  dateParse
    | .str s => some (natValue s)
    | _ => none
  fromBase64url_encode _ h := Base64.decode_encode .url h
  dateParse_toISOString t _ := congrArg some (natValue_natText t)
  toISOString_ne_nil := natText_ne_nil

/-- A cipher that tags the text with the additional data, and a hash that keeps its text. -/
def taggingCipher : NodeCrypto where
  gcmEncrypt _ _ aad plaintext := (plaintext, aad)
  gcmDecrypt _ _ aad ct tag := if tag = aad then some ct else none
  sha256 bytes := 1 :: bytes
  hmacSha256 _ data := data
  gcmDecrypt_gcmEncrypt _ _ _ _ := if_pos rfl

theorem taggingCipher_givesBytes : taggingCipher.GivesBytes where
  gcmEncrypt _ _ _ _ haad hplaintext := ⟨hplaintext, haad⟩
  sha256 bytes h := List.forall_mem_cons.mpr ⟨by decide, h⟩
  sha256_ne_nil _ := List.cons_ne_nil _ _

end Haechi.Crypto
