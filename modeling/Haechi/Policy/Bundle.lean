import Haechi.Text.Base64
import Haechi.Text.Canonical
import Haechi.Text.Paired

/-! Signed policy bundles. A bundle carries a policy with an HMAC over the stable text
of its members, under a key that is derived from the key file. Proved: a signed bundle
verifies after its members were put into any order, unless the policy is one that is
falsy, and a bundle that verifies with the signature of a signed one has its members. -/

namespace Haechi.Policy

open Text Json JsValue

/-! ### Keys -/

structure KeyEntry where
  kid : JsString
  status : JsString
  /-- The bytes of `k`. -/
  k : List ℕ

/-- The key file. A new key gets a kid with random digits. -/
structure KeyFile where
  keys : List KeyEntry
  distinct : (keys.map KeyEntry.kid).Nodup

/-- What `loadActiveKey` returns. -/
structure LoadedKey where
  kid : JsString
  key : List ℕ
deriving DecidableEq

inductive BundleError (ν : Type) where
  /-- `Invalid policy bundle`. -/
  | invalid
  /-- `Signing key not found: `, with the kid or `active`. -/
  | keyNotFound (kid : JsValue ν)
  /-- `Buffer.from` takes no value of this type. -/
  | signatureType
  /-- `Policy bundle signature verification failed`. -/
  | mismatch

section Keys

variable {ν : Type} [JsNumber ν]

def selectKey (file : KeyFile) (kid : JsValue ν) : Option KeyEntry :=
  if kid.truthy then
    match kid with
    | .str kid => file.keys.find? fun key => key.kid == kid
    | _ => none
  else (file.keys.find? fun key => key.status == js "active").or file.keys.head?

def loadActiveKey (file : KeyFile) (kid : JsValue ν) : Except (BundleError ν) LoadedKey :=
  match selectKey file kid with
  | some selected => .ok ⟨selected.kid, selected.k⟩
  | none => .error (.keyNotFound kid)

end Keys

/-! ### Bundles -/

/-- HMAC-SHA256, of a key and a message. -/
structure Hmac where
  digest : List ℕ → List ℕ → List ℕ
  byte : ∀ key message, ∀ b ∈ digest key message, b < 256
  ne_nil : ∀ key message, digest key message ≠ []
  injective : ∀ key xs ys, (∀ b ∈ xs, b < 256) → (∀ b ∈ ys, b < 256) →
    digest key xs = digest key ys → xs = ys

section Bundles

variable {ν : Type} [JsNumber ν]

/-- The members that are signed. -/
structure Payload (ν : Type) where
  version : JsValue ν
  alg : JsValue ν
  kid : JsValue ν
  signedAt : JsValue ν
  policy : JsValue ν

def Payload.fields (p : Payload ν) : List (JsString × JsValue ν) :=
  [(js "version", p.version), (js "alg", p.alg), (js "kid", p.kid), (js "signedAt", p.signedAt),
    (js "policy", p.policy)]

/-- `hmac`: the signing key is apart from the key that encrypts. -/
def hmac (h : Hmac) (key : List ℕ) (p : Payload ν) : JsString :=
  Base64.url.encode (h.digest (h.digest key (encodeUtf8 (js "haechi:policy-bundle:signing:v1")))
    (encodeUtf8 ((canonicalize (.obj p.fields)).getD [])))

/-- The members that a new bundle has. -/
def newPayload (key : LoadedKey) (signedAt : JsString) (policy : JsValue ν) : Payload ν :=
  ⟨.num (JsNumber.ofNat 1), .str (js "HS256"), .str key.kid, .str signedAt, policy⟩

/-- `signPolicyBundle`, at this time. -/
def signPolicyBundle (h : Hmac) (file : KeyFile) (signedAt : JsString) (policy : JsValue ν) :
    Except (BundleError ν) (JsValue ν) :=
  match loadActiveKey file (.null : JsValue ν) with
  | .error e => .error e
  | .ok key =>
    let payload := newPayload key signedAt policy
    .ok (.obj (payload.fields ++ [(js "signature", .str (hmac h key.key payload))]))

/-- `Buffer.from`: the bytes of a text, and what it makes of another value. -/
def bufferFrom (other : JsValue ν → Option (List ℕ)) : JsValue ν → Option (List ℕ)
  | .str s => some (encodeUtf8 s)
  | v => other v

/-- What a bundle shows to be signed. -/
def payloadOf (bundle : JsValue ν) : Payload ν :=
  ⟨bundle.get (js "version"), bundle.get (js "alg"), bundle.get (js "kid"),
    bundle.get (js "signedAt"), bundle.get (js "policy")⟩

structure Verified (ν : Type) where
  kid : JsValue ν
  signedAt : JsValue ν
  policy : JsValue ν

/-- The checks of a bundle before its key is loaded. -/
def wellShaped (bundle : JsValue ν) : Bool :=
  bundle.truthy && (match bundle.get (js "alg") with | .str alg => alg == js "HS256" | _ => false) &&
    (bundle.get (js "policy")).truthy && (bundle.get (js "signature")).truthy

def verifyPolicyBundle (h : Hmac) (other : JsValue ν → Option (List ℕ)) (file : KeyFile)
    (bundle : JsValue ν) : Except (BundleError ν) (Verified ν) :=
  if wellShaped bundle then
    match loadActiveKey file (bundle.get (js "kid")) with
    | .error e => .error e
    | .ok key =>
      match bufferFrom other (bundle.get (js "signature")) with
      | none => .error .signatureType
      | some signature =>
        if encodeUtf8 (hmac h key.key (payloadOf bundle)) = signature then
          .ok ⟨bundle.get (js "kid"), bundle.get (js "signedAt"), bundle.get (js "policy")⟩
        else .error .mismatch
  else .error .invalid

/-! ### The signed text -/

/-- The members are the same JSON values. -/
structure Payload.Same (p q : Payload ν) : Prop where
  version : SameJson p.version q.version
  alg : SameJson p.alg q.alg
  kid : SameJson p.kid q.kid
  signedAt : SameJson p.signedAt q.signedAt
  policy : SameJson p.policy q.policy

omit [JsNumber ν] in
theorem Payload.nodup_fields (p : Payload ν) : (p.fields.map Prod.fst).Nodup :=
  show [js "version", js "alg", js "kid", js "signedAt", js "policy"].Nodup by decide

omit [JsNumber ν] in
theorem Payload.sameJson_fields {p q : Payload ν} :
    SameJson (.obj p.fields) (.obj q.fields) ↔ p.Same q := by
  constructor
  · intro h
    have hmember := (sameJson_obj p.nodup_fields q.nodup_fields).mp h
    exact ⟨Option.some.inj (hmember (js "version")), Option.some.inj (hmember (js "alg")),
      Option.some.inj (hmember (js "kid")), Option.some.inj (hmember (js "signedAt")),
      Option.some.inj (hmember (js "policy"))⟩
  · rintro ⟨hversion, halg, hkid, hsigned, hpolicy⟩
    rw [SameJson] at hversion halg hkid hsigned hpolicy
    simp only [SameJson, sortKeys_obj, sortMembers, Payload.fields, sortFields, hversion, halg, hkid,
      hsigned, hpolicy]

/-- The signature depends on the JSON values only. -/
theorem hmac_congr (h : Hmac) (key : List ℕ) {p q : Payload ν} (hsame : p.Same q) :
    hmac h key p = hmac h key q := by
  have hsort : sortKeys (.obj p.fields) = sortKeys (.obj q.fields) := Payload.sameJson_fields.mpr hsame
  rw [hmac, hmac, canonicalize, canonicalize, hsort]

theorem ascii_hmac (h : Hmac) (key : List ℕ) (p : Payload ν) : ∀ c ∈ hmac h key p, c < 128 :=
  Base64.ascii_encode .url (h.byte _ _)

theorem hmac_ne_nil (h : Hmac) (key : List ℕ) (p : Payload ν) : hmac h key p ≠ [] := by
  intro hnil
  have hback := Base64.decode_encode .url (h.byte (h.digest key
    (encodeUtf8 (js "haechi:policy-bundle:signing:v1")))
      (encodeUtf8 ((canonicalize (.obj p.fields)).getD [])))
  rw [hmac] at hnil
  rw [hnil] at hback
  exact h.ne_nil _ _ (Option.some.inj hback).symm

/-- The same signature is of the same text. -/
theorem canonicalize_eq_of_hmac_eq (h : Hmac) (key : List ℕ) {p q : Payload ν}
    (heq : hmac h key p = hmac h key q) :
    canonicalize (.obj p.fields) = canonicalize (.obj q.fields) := by
  have hdigest := Base64.encode_injective .url (h.byte _ _) (h.byte _ _) heq
  have hbytes := h.injective _ _ _ (encodeUtf8_lt _) (encodeUtf8_lt _) hdigest
  have htext := (paired_render _).eq_of_encodeUtf8_eq (paired_render _) hbytes
  exact congrArg some htext

/-- The same signature is of the same members, if those of one side are JSON values. -/
theorem same_of_hmac_eq (h : Hmac) (key : List ℕ) {p q : Payload ν}
    (hp : WellFormed (.obj p.fields)) (hq : (JsValue.obj q.fields).Distinct)
    (hlone : hasLone (.obj q.fields) = false) (heq : hmac h key q = hmac h key p) : q.Same p :=
  Payload.sameJson_fields.mp
    (sameJson_of_canonicalize hp hq hlone (canonicalize_eq_of_hmac_eq h key heq))

/-! ### Keys and members -/

theorem loadActiveKey_eq {file : KeyFile} {kid : JsValue ν} {key : LoadedKey} :
    loadActiveKey file kid = .ok key ↔ ∃ e, selectKey file kid = some e ∧ key = ⟨e.kid, e.k⟩ := by
  rw [loadActiveKey]
  cases selectKey file kid with
  | none => simp
  | some e => simp [eq_comm]

/-- The active key is found under its kid. -/
theorem loadActiveKey_kid {file : KeyFile} {key : LoadedKey}
    (h : loadActiveKey file (.null : JsValue ν) = .ok key) :
    loadActiveKey file (.str key.kid : JsValue ν) = .ok key := by
  obtain ⟨e, he, rfl⟩ := loadActiveKey_eq.mp h
  have hactive : (file.keys.find? fun key => key.status == js "active").or file.keys.head? = some e := he
  have hmem : e ∈ file.keys := by
    rcases Option.or_eq_some_iff.mp hactive with h | ⟨-, h⟩
    · exact List.mem_of_find?_eq_some h
    · exact List.mem_of_head? h
  refine loadActiveKey_eq.mpr ⟨e, ?_, rfl⟩
  rw [selectKey]
  split_ifs with htruthy
  · have hsome : (file.keys.find? fun key => key.kid == e.kid).isSome := by
      rw [List.find?_isSome]
      exact ⟨e, hmem, beq_self_eq_true _⟩
    obtain ⟨e', he'⟩ := Option.isSome_iff_exists.mp hsome
    have hkid : e'.kid = e.kid := by simpa using List.find?_some he'
    rw [← List.inj_on_of_nodup_map file.distinct (List.mem_of_find?_eq_some he') hmem hkid]
    exact hkid ▸ he'
  · exact hactive

omit [JsNumber ν] in
/-- The members that a bundle shows, of a bundle that is the same JSON value. -/
theorem payloadOf_same {v w : JsValue ν} (h : SameJson v w) (hv : v.Distinct) (hw : w.Distinct) :
    (payloadOf v).Same (payloadOf w) :=
  ⟨h.get hv hw _, h.get hv hw _, h.get hv hw _, h.get hv hw _, h.get hv hw _⟩

omit [JsNumber ν] in
theorem payloadOf_fields (p : Payload ν) (signature : JsValue ν) :
    payloadOf (.obj (p.fields ++ [(js "signature", signature)])) = p := rfl

omit [JsNumber ν] in
/-- A member of a JSON value that is there is one, and a member that is not has no text. -/
theorem get_wellFormed {w : JsValue ν} (hw : WellFormed w) (k : JsString) :
    (w.get k).Distinct ∧ hasLone (w.get k) = false := by
  cases w with
  | obj fields =>
    simp only [JsValue.get]
    cases hf : field? k fields with
    | none => exact ⟨trivial, rfl⟩
    | some v =>
      have hmem := mem_of_field? hf
      exact ⟨(distinct_obj.mp hw.2).2 _ hmem, hasLone_of_isJson _ (isJson_obj.mp hw.1 _ hmem)⟩
  | _ => exact ⟨trivial, rfl⟩

omit [JsNumber ν] in
theorem payloadOf_wellFormed {w : JsValue ν} (hw : WellFormed w) :
    (JsValue.obj (payloadOf w).fields).Distinct ∧
      hasLone (.obj (payloadOf w).fields : JsValue ν) = false := by
  have hmember : ∀ kv ∈ (payloadOf w).fields, kv.2.Distinct ∧ hasLone kv.2 = false := by
    simp only [Payload.fields, payloadOf, List.mem_cons, List.not_mem_nil, or_false,
      forall_eq_or_imp, forall_eq]
    exact ⟨get_wellFormed hw _, get_wellFormed hw _, get_wellFormed hw _, get_wellFormed hw _,
      get_wellFormed hw _⟩
  rw [hasLone]
  exact ⟨distinct_obj.mpr ⟨(payloadOf w).nodup_fields, fun kv hkv => (hmember kv hkv).1⟩,
    hasLoneFields_eq_false.mpr fun kv hkv => (hmember kv hkv).2⟩

/-! ### Signing and verifying -/

section Sign

variable {h : Hmac} {other : JsValue ν → Option (List ℕ)} {file : KeyFile} {key : LoadedKey}
  {signedAt : JsString} {policy b w : JsValue ν} {r : Verified ν}

theorem signPolicyBundle_eq (hb : signPolicyBundle h file signedAt policy = .ok b) :
    ∃ key, loadActiveKey file (.null : JsValue ν) = .ok key ∧
      b = .obj ((newPayload key signedAt policy).fields ++
        [(js "signature", .str (hmac h key.key (newPayload key signedAt policy)))]) := by
  rw [signPolicyBundle] at hb
  split at hb
  · cases hb
  · next key hkey => exact ⟨key, hkey, (Except.ok.inj hb).symm⟩

theorem newPayload_wellFormed (hpolicy : WellFormed policy) :
    WellFormed (.obj (newPayload key signedAt policy).fields) := by
  refine wellFormed_obj (newPayload key signedAt policy).nodup_fields ?_
  simp only [Payload.fields, newPayload, List.mem_cons, List.not_mem_nil, or_false,
    forall_eq_or_imp, forall_eq]
  exact ⟨⟨rfl, trivial⟩, ⟨rfl, trivial⟩, ⟨rfl, trivial⟩, ⟨rfl, trivial⟩, hpolicy⟩

theorem signed_wellFormed (hpolicy : WellFormed policy)
    (hb : signPolicyBundle h file signedAt policy = .ok b) : WellFormed b := by
  obtain ⟨key, -, rfl⟩ := signPolicyBundle_eq hb
  have hmembers : WellFormed (.obj (newPayload key signedAt policy).fields) :=
    newPayload_wellFormed hpolicy
  refine wellFormed_obj ?_ fun kv hkv => ?_
  · show [js "version", js "alg", js "kid", js "signedAt", js "policy", js "signature"].Nodup
    decide
  · rcases List.mem_append.mp hkv with hkv | hkv
    · exact ⟨isJson_obj.mp hmembers.1 kv hkv, (distinct_obj.mp hmembers.2).2 kv hkv⟩
    · rw [List.mem_singleton.mp hkv]
      exact ⟨rfl, trivial⟩

theorem verifyPolicyBundle_eq (hr : verifyPolicyBundle h other file w = .ok r) :
    ∃ key, loadActiveKey file (w.get (js "kid")) = .ok key ∧
      bufferFrom other (w.get (js "signature")) =
        some (encodeUtf8 (hmac h key.key (payloadOf w))) := by
  rw [verifyPolicyBundle] at hr
  split_ifs at hr
  split at hr
  · cases hr
  next key hkey =>
    split at hr
    · cases hr
    next signature hsignature =>
      split_ifs at hr with hsame
      exact ⟨key, hkey, hsame ▸ hsignature⟩

/-- A signed bundle verifies with its members in any order. -/
theorem verify_of_sign (hpolicy : WellFormed policy) (htruthy : policy.truthy = true)
    (hb : signPolicyBundle h file signedAt policy = .ok b) (hw : WellFormed w)
    (hsame : SameJson w b) :
    ∃ r, verifyPolicyBundle h other file w = .ok r ∧ SameJson r.policy policy := by
  have hdistinct := (signed_wellFormed hpolicy hb).2
  obtain ⟨key, hkey, rfl⟩ := signPolicyBundle_eq hb
  have hmembers := payloadOf_same hsame hw.2 hdistinct
  rw [payloadOf_fields] at hmembers
  have hkid : w.get (js "kid") = .str key.kid := hmembers.kid.eq_str
  have halg : w.get (js "alg") = .str (js "HS256") := hmembers.alg.eq_str
  have hsignature := SameJson.eq_str (hsame.get hw.2 hdistinct (js "signature"))
  have hshaped : wellShaped w = true := by
    have hmac_truthy : (JsValue.str (hmac h key.key (newPayload key signedAt policy)) :
        JsValue ν).truthy = true := by
      simpa [JsValue.truthy] using hmac_ne_nil h key.key (newPayload key signedAt policy)
    have hpolicy_truthy : (w.get (js "policy")).truthy = true := hmembers.policy.truthy_eq.trans htruthy
    rw [wellShaped, hsame.truthy_eq, halg, hpolicy_truthy, hsignature, hmac_truthy]
    rfl
  refine ⟨⟨w.get (js "kid"), w.get (js "signedAt"), w.get (js "policy")⟩, ?_, hmembers.policy⟩
  rw [verifyPolicyBundle, if_pos hshaped, hkid, loadActiveKey_kid hkey, hsignature]
  exact if_pos (congrArg encodeUtf8 (hmac_congr h key.key hmembers))

/-- The bundle of a falsy policy is refused. -/
theorem verify_of_falsy (hfalsy : policy.truthy = false)
    (hb : signPolicyBundle h file signedAt policy = .ok b) :
    verifyPolicyBundle h other file b = .error .invalid := by
  obtain ⟨key, -, rfl⟩ := signPolicyBundle_eq hb
  have hpolicy : (JsValue.obj ((newPayload key signedAt policy).fields ++
      [(js "signature", .str (hmac h key.key (newPayload key signedAt policy)))])).get (js "policy") =
        policy := rfl
  rw [verifyPolicyBundle, wellShaped, hpolicy, hfalsy, Bool.and_false, Bool.false_and,
    if_neg Bool.false_ne_true]

/-- A bundle that verifies with the signature of a signed bundle has its members. -/
theorem same_of_verify (hw : WellFormed w) (hr : verifyPolicyBundle h other file w = .ok r)
    (hkey : loadActiveKey file (w.get (js "kid")) = .ok key) {signer : KeyFile}
    (hsigner : loadActiveKey signer (.null : JsValue ν) = .ok key) (hpolicy : WellFormed policy)
    (hb : signPolicyBundle h signer signedAt policy = .ok b)
    (hsignature : bufferFrom other (w.get (js "signature")) =
      bufferFrom other (b.get (js "signature"))) :
    (payloadOf w).Same (payloadOf b) := by
  obtain ⟨key', hkey', rfl⟩ := signPolicyBundle_eq hb
  obtain rfl : key = key' := Except.ok.inj (hsigner.symm.trans hkey')
  obtain ⟨key', hkey', hbytes⟩ := verifyPolicyBundle_eq hr
  obtain rfl : key = key' := Except.ok.inj (hkey.symm.trans hkey')
  have heq : encodeUtf8 (hmac h key.key (payloadOf w)) =
      encodeUtf8 (hmac h key.key (newPayload key signedAt policy)) :=
    Option.some.inj (hbytes.symm.trans hsignature)
  obtain ⟨hdistinct, hlone⟩ := payloadOf_wellFormed hw
  rw [payloadOf_fields]
  exact same_of_hmac_eq h key.key (newPayload_wellFormed hpolicy) hdistinct hlone
    (eq_of_encodeUtf8_eq (ascii_hmac h key.key _) heq)

end Sign

/-- The bundles that were signed with a key, from any key file where it was active. -/
structure Issued (h : Hmac) (key : LoadedKey) (ν : Type) [JsNumber ν] where
  bundles : Set (JsValue ν)
  signed : ∀ b ∈ bundles, ∃ file signedAt policy, WellFormed policy ∧
    loadActiveKey file (.null : JsValue ν) = .ok key ∧ signPolicyBundle h file signedAt policy = .ok b

end Bundles

/-! ### A falsy policy -/

theorem mod_lt_of_mem {m : List ℕ} : ∀ b ∈ 1 :: m.map (· % 256), b < 256 := by
  intro b hb
  rcases List.mem_cons.mp hb with rfl | hb
  · omega
  · obtain ⟨n, -, rfl⟩ := List.mem_map.mp hb
    exact Nat.mod_lt n (by omega)

theorem eq_of_map_mod {xs ys : List ℕ} (hx : ∀ b ∈ xs, b < 256) (hy : ∀ b ∈ ys, b < 256)
    (h : 1 :: xs.map (· % 256) = 1 :: ys.map (· % 256)) : xs = ys := by
  have hid : ∀ {zs : List ℕ}, (∀ b ∈ zs, b < 256) → zs.map (· % 256) = zs := fun hz =>
    (List.map_congr_left fun b hb => Nat.mod_eq_of_lt (hz b hb)).trans (List.map_id _)
  rw [hid hx, hid hy] at h
  exact List.tail_eq_of_cons_eq h

/-- A digest that is the message itself. -/
def plainHmac : Hmac where
  digest _ message := 1 :: message.map (· % 256)
  byte _ _ := mod_lt_of_mem
  ne_nil _ _ := List.cons_ne_nil _ _
  injective _ _ _ := eq_of_map_mod

def oneKey : KeyFile := ⟨[⟨js "local-1", js "active", [1, 2, 3]⟩], List.nodup_singleton _⟩

def modePolicy : JsValue NumberToken := .obj [(js "mode", .str (js "enforce"))]

end Haechi.Policy
