import Haechi.Crypto.NonceWindow
import Haechi.Crypto.Persistence

/-! The local key file with the keys in it: how it is loaded, what a reservation of nonces
and an initialisation write back. A reservation changes a usage and nothing that is loaded;
a rotation puts a new key in front, retires the others and keeps what they open. -/

namespace Haechi.Crypto

open Text Json

variable {ν : Type} [JsNumber ν]

/-- What `randomBytes(32)` gives. -/
structure RawKey where
  bytes : List ℕ
  length_eq : bytes.length = 32
  lt : ∀ b ∈ bytes, b < 256

/-- A key of the file: its entry and the key itself, in base64url. -/
structure StoredKey extends KeyEntry JsString where
  k : JsString
deriving DecidableEq

/-- The entries without the keys. -/
def entries (keys : List StoredKey) : List (KeyEntry JsString) := keys.map StoredKey.toKeyEntry

/-! ### Loading -/

section Load

variable (codec : Codec ν)

/-- The id and the bytes of a key, which have to be 32. -/
def keyOf (e : StoredKey) : Option (JsString × List ℕ) :=
  (codec.fromBase64url (.str e.k)).bind fun key =>
    if key.length = 32 then some (e.kid, key) else none

/-- The map `byKid`: of two keys with one id, the later one of the file is found. -/
def byKid (keys : List StoredKey) : Option (List (JsString × List ℕ)) :=
  (keys.mapM (keyOf codec)).map List.reverse

/-- The first key that is marked active; else the first one, unless an active one is required. -/
def activeEntry (requireActive : Bool) (keys : List StoredKey) : Option StoredKey :=
  (keys.find? fun e => e.active).or (if requireActive then none else keys.head?)

/-- `loadKeyFile`, on the keys of the file; it throws where there is none. -/
def loadKeyFile (requireActive : Bool) (keys : List StoredKey) : Option KeyRing :=
  match byKid codec keys, activeEntry requireActive keys with
  | some found, some e =>
    match h : found.lookup e.kid with
    | some key => some ⟨found, e.kid, key, h⟩
    | none => none
  | _, _ => none

end Load

/-! ### Writing -/

/-- The key that `initLocalKeyFile` makes. -/
def newKey (kid : JsString) (raw : RawKey) : StoredKey :=
  ⟨⟨kid, true, none⟩, Base64.url.encode raw.bytes⟩

/-- A key that was active is retired. -/
def retire (e : StoredKey) : StoredKey := { e with active := false }

/-- `initLocalKeyFile` once the file is read: what it writes, which is nothing where a file
is there and `force` is not set. -/
def initLocalKeyFile (force : Bool) (kid : JsString) (raw : RawKey)
    (existing : Option (List StoredKey)) : Option (List StoredKey) :=
  if existing.isSome && !force then none
  else some (newKey kid raw :: (existing.getD []).map retire)

/-- `entry.usage = u` in the entry that is found. -/
def withUsage (kid : JsString) (u : ℕ) : List StoredKey → List StoredKey
  | [] => []
  | e :: es => if e.kid = kid then { e with usage := some u } :: es else e :: withUsage kid u es

/-- `reserveNonceWindow` once the file is read: the window, and the keys that are written
back. It throws where the key is not in the file or is used up. -/
def reserveNonceWindow (kid : JsString) (keys : List StoredKey) :
    Option (Reservation JsString × List StoredKey) :=
  match entryOf (entries keys) kid with
  | none => none
  | some _ =>
    let window := windowAt kid (usageOf (entries keys) kid)
    if maxEncryptionsPerKey ≤ window.base then none
    else some (window, withUsage kid (window.base + window.granted) keys)

/-- The same update as on the entries alone. -/
theorem entries_withUsage (kid : JsString) (u : ℕ) (keys : List StoredKey) :
    entries (withUsage kid u keys) = setUsage kid u (entries keys) := by
  induction keys with
  | nil => rfl
  | cons e es ih =>
    rw [withUsage, entries, entries, List.map_cons, setUsage]
    split_ifs
    · rfl
    · rw [List.map_cons]
      exact congrArg _ ih

/-- The same rotation as on the entries alone. -/
theorem entries_initLocalKeyFile {force : Bool} {kid : JsString} {raw : RawKey}
    {existing : Option (List StoredKey)} {keys : List StoredKey}
    (h : initLocalKeyFile force kid raw existing = some keys) :
    entries keys = rotated kid (entries (existing.getD [])) := by
  rw [initLocalKeyFile] at h
  split_ifs at h
  rw [← Option.some.inj h, entries, List.map_cons, rotated, entries, List.map_map, List.map_map]
  rfl

theorem initLocalKeyFile_eq_some {force : Bool} {kid : JsString} {raw : RawKey}
    {existing : Option (List StoredKey)} {keys : List StoredKey}
    (h : initLocalKeyFile force kid raw existing = some keys) :
    keys = newKey kid raw :: (existing.getD []).map retire := by
  rw [initLocalKeyFile] at h
  split_ifs at h
  exact (Option.some.inj h).symm

theorem reserveNonceWindow_eq_some {kid : JsString} {keys keys' : List StoredKey}
    {window : Reservation JsString} (h : reserveNonceWindow kid keys = some (window, keys')) :
    window.kid = kid ∧ ∃ u, keys' = withUsage kid u keys := by
  rw [reserveNonceWindow] at h
  split at h
  · cases h
  · simp only at h
    split_ifs at h
    obtain ⟨rfl, rfl⟩ := Prod.mk.inj (Option.some.inj h)
    exact ⟨rfl, _, rfl⟩

/-- The first window of a new key. -/
theorem reserveNonceWindow_newKey (kid : JsString) (raw : RawKey) :
    reserveNonceWindow kid [newKey kid raw] =
      some (⟨kid, 0, nonceReserveWindow, 0⟩, withUsage kid nonceReserveWindow [newKey kid raw]) := by
  have hentry : entryOf (entries [newKey kid raw]) kid = some ⟨kid, true, none⟩ := by
    simp [entryOf, entries, newKey]
  have husage : usageOf (entries [newKey kid raw]) kid = 0 := by
    rw [usageOf, hentry]
    rfl
  have hwindow : windowAt kid 0 = ⟨kid, 0, nonceReserveWindow, 0⟩ := by
    rw [windowAt, Nat.min_eq_left (by decide)]
  rw [reserveNonceWindow, hentry, husage, hwindow]
  simp only
  rw [if_neg (by decide), Nat.zero_add]

/-! ### What is loaded -/

variable {codec : Codec ν} {requireActive : Bool} {keys keys' : List StoredKey} {ring ring' : KeyRing}
  {kid : JsString} {raw : RawKey}

omit [JsNumber ν] in
theorem loadKeyFile_eq_some :
    loadKeyFile codec requireActive keys = some ring ↔
      byKid codec keys = some ring.byKid ∧
        (activeEntry requireActive keys).map (fun e => e.kid) = some ring.kid := by
  obtain ⟨found, kid, key, hactive⟩ := ring
  rw [loadKeyFile]
  cases byKid codec keys with
  | none => simp
  | some found' =>
    cases activeEntry requireActive keys with
    | none => simp
    | some e =>
      simp only [Option.some_inj, Option.map_some]
      constructor
      · intro h
        split at h
        · cases h
          exact ⟨rfl, rfl⟩
        · cases h
      · rintro ⟨rfl, rfl⟩
        split
        · rename_i key' hkey
          rw [hkey] at hactive
          obtain rfl := Option.some.inj hactive
          rfl
        · rename_i hnone
          rw [hnone] at hactive
          cases hactive

omit [JsNumber ν] in
/-- What is loaded depends on the ids, the marks and the keys. -/
theorem loadKeyFile_congr (hkeys : keys.map (fun e => (e.kid, e.k)) = keys'.map fun e => (e.kid, e.k))
    (hactive : keys.map (fun e => (e.kid, e.active)) = keys'.map fun e => (e.kid, e.active)) :
    loadKeyFile codec requireActive keys = loadKeyFile codec requireActive keys' := by
  have hby : byKid codec keys = byKid codec keys' := by
    have hmap : ∀ keys : List StoredKey, keys.mapM (keyOf codec) =
        (keys.map fun e => (e.kid, e.k)).mapM fun e =>
          (codec.fromBase64url (.str e.2)).bind fun key =>
            if key.length = 32 then some (e.1, key) else none := by
      intro keys
      rw [List.mapM_map]
      rfl
    rw [byKid, byKid, hmap, hmap, hkeys]
  have hentry : (activeEntry requireActive keys).map (fun e => e.kid) =
      (activeEntry requireActive keys').map fun e => e.kid := by
    have hmap : ∀ keys : List StoredKey, (activeEntry requireActive keys).map (fun e => e.kid) =
        (((keys.map fun e => (e.kid, e.active)).find? fun e => e.2).or
          (if requireActive then none else (keys.map fun e => (e.kid, e.active)).head?)).map
            fun e => e.1 := by
      intro keys
      rw [activeEntry, List.find?_map, List.head?_map, Option.map_or, Option.map_or, Option.map_map]
      cases requireActive
      · simp only [Bool.false_eq_true, if_false, Option.map_map]
        rfl
      · rfl
    rw [hmap, hmap, hactive]
  ext ring
  rw [loadKeyFile_eq_some, loadKeyFile_eq_some, hby, hentry]

theorem map_withUsage {β : Type} {f : StoredKey → β}
    (hf : ∀ e u, f { e with usage := u } = f e) (kid : JsString) (u : ℕ) (keys : List StoredKey) :
    (withUsage kid u keys).map f = keys.map f := by
  induction keys with
  | nil => rfl
  | cons e es ih =>
    rw [withUsage]
    split_ifs
    · rw [List.map_cons, List.map_cons, hf]
    · rw [List.map_cons, List.map_cons, ih]

omit [JsNumber ν] in
theorem loadKeyFile_withUsage (kid : JsString) (u : ℕ) (keys : List StoredKey) :
    loadKeyFile codec requireActive (withUsage kid u keys) =
      loadKeyFile codec requireActive keys := by
  apply loadKeyFile_congr
  · exact map_withUsage (fun _ _ => rfl) kid u keys
  · exact map_withUsage (fun _ _ => rfl) kid u keys

/-- The other ring finds every key that this one finds. -/
def KeyRing.Extends (ring ring' : KeyRing) : Prop :=
  ∀ kid key, ring.byKid.lookup kid = some key → ring'.byKid.lookup kid = some key

theorem KeyRing.Extends.refl (ring : KeyRing) : ring.Extends ring := fun _ _ => id

theorem KeyRing.Extends.trans {ring'' : KeyRing} (h : ring.Extends ring')
    (h' : ring'.Extends ring'') : ring.Extends ring'' := fun kid key hkey => h' kid key (h kid key hkey)

omit [JsNumber ν] in
theorem fst_of_keyOf {e : StoredKey} {a : JsString × List ℕ} (h : keyOf codec e = some a) :
    a.1 = e.kid := by
  obtain ⟨key, -, hkey⟩ := Option.bind_eq_some_iff.mp h
  split_ifs at hkey
  rw [← Option.some.inj hkey]

omit [JsNumber ν] in
/-- The keys are found under the ids of the entries, in their order. -/
theorem mapM_keyOf {pairs : List (JsString × List ℕ)} (h : keys.mapM (keyOf codec) = some pairs) :
    pairs.map Prod.fst = keys.map (fun e => e.kid) ∧
      ∀ a ∈ pairs, ∃ e ∈ keys, keyOf codec e = some a := by
  induction keys generalizing pairs with
  | nil =>
    obtain rfl := Option.some.inj h
    exact ⟨rfl, by simp⟩
  | cons e es ih =>
    rw [List.mapM_cons] at h
    obtain ⟨a, ha, h⟩ := Option.bind_eq_some_iff.mp h
    obtain ⟨rest, hrest, h⟩ := Option.bind_eq_some_iff.mp h
    obtain rfl := Option.some.inj h
    obtain ⟨hfst, hmem⟩ := ih hrest
    constructor
    · rw [List.map_cons, List.map_cons, fst_of_keyOf ha, hfst]
    · intro b hb
      rcases List.mem_cons.mp hb with rfl | hb
      · exact ⟨e, List.mem_cons_self, ha⟩
      · obtain ⟨e', he', hb'⟩ := hmem b hb
        exact ⟨e', List.mem_cons_of_mem e he', hb'⟩

omit [JsNumber ν] in
theorem byKid_eq_some {found : List (JsString × List ℕ)} (h : byKid codec keys = some found) :
    found.map Prod.fst = (keys.map fun e => e.kid).reverse ∧
      ∀ a ∈ found, ∃ e ∈ keys, keyOf codec e = some a := by
  obtain ⟨pairs, hpairs, rfl⟩ := Option.map_eq_some_iff.mp h
  obtain ⟨hfst, hmem⟩ := mapM_keyOf hpairs
  exact ⟨by rw [List.map_reverse, hfst], fun a ha => hmem a (List.mem_reverse.mp ha)⟩

omit [JsNumber ν] in
/-- An id that no entry has is not found. -/
theorem lookup_byKid_eq_none {found : List (JsString × List ℕ)} (h : byKid codec keys = some found)
    {kid : JsString} (hkid : kid ∉ keys.map fun e => e.kid) : found.lookup kid = none := by
  rw [List.lookup_eq_none_iff]
  intro a ha
  have hmem : a.1 ∈ keys.map fun e => e.kid := by
    rw [← List.mem_reverse, ← (byKid_eq_some h).1]
    exact List.mem_map_of_mem ha
  simp only [bne_iff_ne, ne_eq]
  exact fun heq => hkid (heq ▸ hmem)

/-- What is sealed with one ring opens to the same with a ring that finds its keys. -/
theorem KeyRing.Extends.decrypt_eq (h : ring.Extends ring') {node : NodeCrypto}
    {nfkc : JsString → JsString} {iv : List ℕ} {plaintext : JsString} {aad aad' : JsValue ν}
    {expiresAt : Option ℕ} {e : Envelope} {now : ℕ}
    (hsealed : encrypt node nfkc ring iv plaintext aad expiresAt = some e) :
    decrypt node nfkc ring' now e aad' = decrypt node nfkc ring now e aad' := by
  have hkey : ring.byKid.lookup e.kid = some ring.key := by
    rw [kid_of_encrypt hsealed]
    exact ring.active
  rw [decrypt, decrypt, hkey, h _ _ hkey]

omit [JsNumber ν] in
theorem keyOf_newKey : keyOf codec (newKey kid raw) = some (kid, raw.bytes) := by
  rw [keyOf, newKey, codec.fromBase64url_encode raw.bytes raw.lt, Option.bind_some,
    if_pos raw.length_eq]

omit [JsNumber ν] in
/-- The new key is looked up after all others. -/
theorem byKid_newKey {found : List (JsString × List ℕ)} (h : byKid codec keys = some found) :
    byKid codec (newKey kid raw :: keys.map retire) = some (found ++ [(kid, raw.bytes)]) := by
  obtain ⟨pairs, hpairs, rfl⟩ := Option.map_eq_some_iff.mp h
  have hretired : (keys.map retire).mapM (keyOf codec) = some pairs := by
    rw [List.mapM_map]
    exact hpairs
  rw [byKid, List.mapM_cons, keyOf_newKey, hretired]
  simp

omit [JsNumber ν] in
variable (codec) in
/-- A file that is made for the first time. -/
theorem loadKeyFile_newKey_nil (kid : JsString) (raw : RawKey) :
    ∃ ring, loadKeyFile codec false [newKey kid raw] = some ring ∧
      ring.byKid = [(kid, raw.bytes)] ∧ ring.kid = kid ∧ ring.key = raw.bytes := by
  refine ⟨⟨[(kid, raw.bytes)], kid, raw.bytes, by simp⟩, loadKeyFile_eq_some.mpr ⟨?_, rfl⟩, rfl, rfl,
    rfl⟩
  have hnil : byKid codec [] = some [] := rfl
  exact byKid_newKey hnil

omit [JsNumber ν] in
/-- A rotation keeps what the keys before open. -/
theorem loadKeyFile_newKey (h : loadKeyFile codec requireActive keys = some ring) (kid : JsString)
    (raw : RawKey) :
    ∃ ring', loadKeyFile codec false (newKey kid raw :: keys.map retire) = some ring' ∧
      ring.Extends ring' ∧ ring'.byKid = ring.byKid ++ [(kid, raw.bytes)] ∧ ring'.kid = kid := by
  have hby : byKid codec (newKey kid raw :: keys.map retire) =
      some (ring.byKid ++ [(kid, raw.bytes)]) := byKid_newKey (loadKeyFile_eq_some.mp h).1
  have hextends : ∀ kid' key, ring.byKid.lookup kid' = some key →
      (ring.byKid ++ [(kid, raw.bytes)]).lookup kid' = some key := by
    intro kid' key hkey
    rw [List.lookup_append, hkey]
    rfl
  obtain ⟨key, hkey⟩ : ∃ key, (ring.byKid ++ [(kid, raw.bytes)]).lookup kid = some key := by
    rw [List.lookup_append]
    cases ring.byKid.lookup kid with
    | none => exact ⟨raw.bytes, by simp⟩
    | some key => exact ⟨key, rfl⟩
  exact ⟨⟨_, kid, key, hkey⟩, loadKeyFile_eq_some.mpr ⟨hby, rfl⟩, hextends, rfl, rfl⟩

end Haechi.Crypto
