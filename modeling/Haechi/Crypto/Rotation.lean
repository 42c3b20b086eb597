import Haechi.Crypto.KeyFile
import Haechi.Runs

/-! Rotation of the local key. Providers load the key file once and keep what they loaded, so
one that was opened before a rotation goes on sealing under a retired key, and writes the file
when it reserves nonces. Proved for runs of initialisations, openings and encryptions that do
not overlap: one key is active, every key that ever was is still in the file, and whatever was
sealed under any of them opens with a provider opened after the last rotation, up to the lone
surrogates that UTF-8 replaces. -/

namespace Haechi.Crypto

open Text Json

variable {ν : Type} [JsNumber ν]

/-! ### Providers -/

/-- A local provider: what it has loaded, the window it has reserved, and whether it could
not write the file. -/
structure Provider where
  cached : Option KeyRing
  reservation : Option (Reservation JsString)
  persistDisabled : Bool

namespace Provider

/-- `createLocalCryptoProvider`. -/
def fresh : Provider := ⟨none, none, false⟩

/-- `loadKeys`. -/
def loadKeys (codec : Codec ν) (file : Option (List StoredKey)) (p : Provider) : Option KeyRing :=
  p.cached.or (file.bind (loadKeyFile codec false))

/-- The window in memory cannot be used. -/
def needsWindow (p : Provider) (kid : JsString) : Bool :=
  match p.reservation with
  | none => true
  | some r => r.kid ≠ kid || r.granted ≤ r.used

/-- `reserveNonceWindow` where it reads the file. -/
def reserveFromFile (p : Provider) (kid : JsString) (writable : Bool) (file : Option (List StoredKey)) :
    Option (Provider × Option (List StoredKey)) := do
  let (window, keys) ← reserveNonceWindow kid (← file)
  if p.persistDisabled then return ({ p with reservation := some window }, file)
  else if writable then return ({ p with reservation := some window }, some keys)
  else return ({ p with reservation := some window, persistDisabled := true }, file)

/-- `reserveNonceWindow`; where nothing can be written it counts on in memory. -/
def reserve (p : Provider) (kid : JsString) (writable : Bool) (file : Option (List StoredKey)) :
    Option (Provider × Option (List StoredKey)) :=
  match p.persistDisabled, p.reservation with
  | true, some r =>
    if r.kid = kid then
      if maxEncryptionsPerKey ≤ r.base + r.granted then none
      else some ({ p with reservation := some (windowAt kid (r.base + r.granted)) }, file)
    else p.reserveFromFile kid writable file
  | _, _ => p.reserveFromFile kid writable file

/-- `consumeNonceBudget`: the provider and the file, unless it throws. -/
def consume (p : Provider) (kid : JsString) (writable : Bool) (file : Option (List StoredKey)) :
    Option (Provider × Option (List StoredKey)) :=
  match if p.needsWindow kid then p.reserve kid writable file else some (p, file) with
  | none => none
  | some (p, file) =>
    match p.reservation with
    | none => none
    | some r =>
      if maxEncryptionsPerKey ≤ r.base + r.used then none
      else some ({ p with reservation := some { r with used := r.used + 1 } }, file)

variable {p p' : Provider} {kid : JsString} {writable : Bool} {file file' : Option (List StoredKey)}

/-- The file is as it was, but for a usage. -/
def OnlyUsage (file file' : Option (List StoredKey)) : Prop :=
  file' = file ∨ ∃ keys kid u, file = some keys ∧ file' = some (withUsage kid u keys)

theorem reserveFromFile_eq_some (h : p.reserveFromFile kid writable file = some (p', file')) :
    p'.cached = p.cached ∧ OnlyUsage file file' := by
  obtain ⟨keys, hkeys, h⟩ := Option.bind_eq_some_iff.mp h
  obtain ⟨⟨window, keys'⟩, hreserve, h⟩ := Option.bind_eq_some_iff.mp h
  obtain ⟨-, u, hu⟩ := reserveNonceWindow_eq_some hreserve
  simp only at h
  split_ifs at h
  · cases h
    exact ⟨rfl, .inl rfl⟩
  · cases h
    exact ⟨rfl, .inr ⟨keys, kid, u, hkeys, by rw [hu]⟩⟩
  · cases h
    exact ⟨rfl, .inl rfl⟩

theorem reserve_eq_some (h : p.reserve kid writable file = some (p', file')) :
    p'.cached = p.cached ∧ OnlyUsage file file' := by
  rw [reserve] at h
  split at h
  · split_ifs at h
    · cases h
      exact ⟨rfl, .inl rfl⟩
    · exact reserveFromFile_eq_some h
  · exact reserveFromFile_eq_some h

/-- Taking an invocation changes nothing that is loaded. -/
theorem consume_eq_some (h : p.consume kid writable file = some (p', file')) :
    p'.cached = p.cached ∧ OnlyUsage file file' := by
  rw [consume] at h
  split at h
  · cases h
  · rename_i q written hwindow
    have hq : q.cached = p.cached ∧ OnlyUsage file written := by
      split_ifs at hwindow
      · exact reserve_eq_some hwindow
      · cases hwindow
        exact ⟨rfl, .inl rfl⟩
    split at h
    · cases h
    · split_ifs at h
      cases h
      exact hq

/-- The first invocation under a new key. -/
theorem consume_newKey (cached : Option KeyRing) (kid : JsString) (raw : RawKey) :
    consume ⟨cached, none, false⟩ kid true (some [newKey kid raw]) =
      some (⟨cached, some ⟨kid, 0, nonceReserveWindow, 1⟩, false⟩,
        some (withUsage kid nonceReserveWindow [newKey kid raw])) := by
  rw [consume, needsWindow, if_pos rfl, reserve, reserveFromFile]
  simp only [Option.bind_eq_bind, Option.bind_some, reserveNonceWindow_newKey, if_true,
    Bool.false_eq_true, if_false, Option.pure_def]
  rw [if_neg (by decide)]

end Provider

/-! ### The system -/

/-- What an encryption was given and what it returned. -/
structure Sealed (ν : Type) where
  plaintext : JsString
  aad : JsValue ν
  expiresAt : Option ℕ
  envelope : Envelope

/-- The key file, the providers in the order they were opened, and for the record: what was
sealed, the keys that were ever active, and how many providers the last rotation found. -/
structure KeyState (ν : Type) where
  file : Option (List StoredKey)
  providers : List Provider
  sealed : List (Sealed ν)
  everActive : List (JsString × List ℕ)
  before : ℕ

/-- No key file yet. -/
def KeyState.init : KeyState ν := ⟨none, [], [], [], 0⟩

inductive KeyOp (ν : Type) where
  /-- `init`, or `init --force`, with the time and the digits that make the id. -/
  | init (force : Bool) (stamp : JsString) (raw : RawKey)
  | open
  | encrypt (i : ℕ) (iv : List ℕ) (plaintext : JsString) (aad : JsValue ν) (expiresAt : Option ℕ)
      (writable : Bool)

/-- `local-${Date.now()}-${randomBytes(3).toString("hex")}`. -/
def kidOf (stamp : JsString) : JsString := js "local-" ++ stamp

namespace KeyState

variable (codec : Codec ν) (node : NodeCrypto) (nfkc : JsString → JsString)

/-- One operation. -/
def step (s : KeyState ν) : KeyOp ν → KeyState ν
  | .init force stamp raw =>
    match initLocalKeyFile force (kidOf stamp) raw s.file with
    | none => s
    | some keys =>
      { s with
        file := some keys
        everActive := (kidOf stamp, raw.bytes) :: s.everActive
        before := s.providers.length }
  | .open => { s with providers := s.providers ++ [.fresh] }
  | .encrypt i iv plaintext aad expiresAt writable =>
    match s.providers[i]? with
    | none => s
    | some p =>
      match p.loadKeys codec s.file with
      | none => s
      | some ring =>
        let p := { p with cached := some ring }
        match p.consume ring.kid writable s.file with
        | none => { s with providers := s.providers.set i p }
        | some (p, file) =>
          { s with
            file := file
            providers := s.providers.set i p
            sealed := ((encrypt node nfkc ring iv plaintext aad expiresAt).map
              (⟨plaintext, aad, expiresAt, ·⟩)).toList ++ s.sealed }

/-- The id of a new key is new. -/
def FreshId (s : KeyState ν) : KeyOp ν → Prop
  | .init _ stamp _ => ∀ keys ∈ s.file, kidOf stamp ∉ keys.map fun e => e.kid
  | _ => True

/-- One key is active. -/
def OneActive (keys : List StoredKey) : Prop := (keys.filter fun e => e.active).length = 1

/-- A provider opened after the last rotation opens what was sealed, before its expiry,
exactly where the plaintext has no lone surrogate. -/
def Opens (s : KeyState ν) : Prop :=
  ∀ i p, s.providers[i]? = some p → s.before ≤ i → ∃ ring, p.loadKeys codec s.file = some ring ∧
    ∀ x ∈ s.sealed, ∀ now, (∀ t ∈ x.expiresAt, now < t) →
      (decrypt node nfkc ring now x.envelope x.aad = some x.plaintext ↔
        toWellFormed x.plaintext = x.plaintext)

/-! ### The invariant -/

/-- The ring finds each of the keys. -/
def Finds (ring : KeyRing) (keys : List (JsString × List ℕ)) : Prop :=
  ∀ a ∈ keys, ring.byKid.lookup a.1 = some a.2

/-- The file loads, with one active key, which is among those that ever were active, and all of
these are found. -/
def Holds (s : KeyState ν) (keys : List StoredKey) : Prop :=
  OneActive keys ∧ ∃ ring, loadKeyFile codec false keys = some ring ∧
    (ring.kid, ring.key) ∈ s.everActive ∧ Finds ring s.everActive

/-- What holds between operations. -/
structure Sound (s : KeyState ν) : Prop where
  absent : s.file = none → s.everActive = []
  holds : ∀ keys, s.file = some keys → Holds codec s keys
  cached : ∀ i p, s.providers[i]? = some p → ∀ ring ∈ p.cached,
    (ring.kid, ring.key) ∈ s.everActive ∧ (s.before ≤ i → Finds ring s.everActive)
  sealed : ∀ x ∈ s.sealed, ∃ ring iv, (ring.kid, ring.key) ∈ s.everActive ∧
    encrypt node nfkc ring iv x.plaintext x.aad x.expiresAt = some x.envelope

variable {codec node nfkc} {s : KeyState ν} {keys keys' : List StoredKey}

omit [JsNumber ν] in
theorem Holds.withUsage (h : Holds codec s keys) (kid : JsString) (u : ℕ) :
    Holds codec s (withUsage kid u keys) := by
  obtain ⟨hone, hring⟩ := h
  constructor
  · have hcount : ∀ keys : List StoredKey,
        (keys.filter fun e => e.active).length = ((keys.map fun e => e.active).filter id).length := by
      intro keys
      rw [List.filter_map, List.length_map]
      rfl
    rw [OneActive, hcount, map_withUsage (fun _ _ => rfl), ← hcount]
    exact hone
  · rw [loadKeyFile_withUsage]
    exact hring

omit [JsNumber ν] in
theorem Holds.onlyUsage {file file' : Option (List StoredKey)}
    (h : ∀ keys, file = some keys → Holds codec s keys) (hfile : Provider.OnlyUsage file file') :
    ∀ keys, file' = some keys → Holds codec s keys := by
  rcases hfile with rfl | ⟨keys, kid, u, rfl, rfl⟩
  · exact h
  · rintro _ ⟨⟩
    exact (h keys rfl).withUsage kid u

omit [JsNumber ν] in
theorem oneActive_newKey (kid : JsString) (raw : RawKey) (keys : List StoredKey) :
    OneActive (newKey kid raw :: keys.map retire) := by
  have hretired : (keys.map retire).filter (fun e => e.active) = [] := by
    simp [List.filter_eq_nil_iff, retire]
  rw [OneActive, List.filter_cons_of_pos rfl, hretired]
  rfl

omit [JsNumber ν] in
/-- What an initialisation writes loads to a ring that finds the new key and the old ones. -/
theorem holds_newKey (h : ∀ keys, s.file = some keys → Holds codec s keys)
    (habsent : s.file = none → s.everActive = []) {stamp : JsString} (raw : RawKey)
    (hfresh : ∀ keys ∈ s.file, kidOf stamp ∉ keys.map fun e => e.kid) :
    OneActive (newKey (kidOf stamp) raw :: (s.file.getD []).map retire) ∧
      ∃ ring, loadKeyFile codec false (newKey (kidOf stamp) raw :: (s.file.getD []).map retire) =
          some ring ∧ ring.kid = kidOf stamp ∧ ring.key = raw.bytes ∧
        Finds ring ((kidOf stamp, raw.bytes) :: s.everActive) := by
  refine ⟨oneActive_newKey _ _ _, ?_⟩
  cases hfile : s.file with
  | none =>
    obtain ⟨ring, hload, hby, hkid, hkey⟩ := loadKeyFile_newKey_nil codec (kidOf stamp) raw
    refine ⟨ring, hload, hkid, hkey, ?_⟩
    rw [habsent hfile, Finds, List.forall_mem_singleton, hby]
    simp
  | some keys =>
    obtain ⟨-, ring, hload, -, hfinds⟩ := h keys hfile
    obtain ⟨ring', hload', hextends, hby, hkid⟩ := loadKeyFile_newKey hload (kidOf stamp) raw
    have hnone : ring.byKid.lookup (kidOf stamp) = none :=
      lookup_byKid_eq_none (loadKeyFile_eq_some.mp hload).1 (hfresh keys hfile)
    have hnew : ring'.byKid.lookup (kidOf stamp) = some raw.bytes := by
      rw [hby, List.lookup_append, hnone]
      simp
    have hkey : ring'.key = raw.bytes := by
      have hactive := ring'.active
      rw [hkid, hnew] at hactive
      exact (Option.some.inj hactive).symm
    refine ⟨ring', hload', hkid, hkey, List.forall_mem_cons.mpr ⟨hnew, ?_⟩⟩
    exact fun a ha => hextends a.1 a.2 (hfinds a ha)

/-- A provider loads what finds every key, if it had not loaded or was opened since. -/
theorem Sound.loadKeys (h : Sound codec node nfkc s) {i : ℕ} {p : Provider}
    (hp : s.providers[i]? = some p) {ring : KeyRing} (hring : p.loadKeys codec s.file = some ring) :
    (ring.kid, ring.key) ∈ s.everActive ∧ (s.before ≤ i → Finds ring s.everActive) := by
  rcases Option.or_eq_some_iff.mp hring with hcached | ⟨-, hload⟩
  · exact h.cached i p hp ring hcached
  · obtain ⟨keys, hkeys, hload⟩ := Option.bind_eq_some_iff.mp hload
    obtain ⟨-, ring', hload', hactive, hfinds⟩ := h.holds keys hkeys
    rw [hload] at hload'
    obtain rfl := Option.some.inj hload'
    exact ⟨hactive, fun _ => hfinds⟩

/-- A provider keeps the keys that it has loaded. -/
theorem Sound.setProvider (h : Sound codec node nfkc s) {i : ℕ} {p q : Provider} {ring : KeyRing}
    (hp : s.providers[i]? = some p) (hring : p.loadKeys codec s.file = some ring)
    (hq : q.cached = some ring) :
    ∀ j q', (s.providers.set i q)[j]? = some q' → ∀ ring' ∈ q'.cached,
      (ring'.kid, ring'.key) ∈ s.everActive ∧ (s.before ≤ j → Finds ring' s.everActive) := by
  intro j q' hq' ring' hring'
  rcases getElem?_set_eq_some hq' with ⟨rfl, rfl⟩ | ⟨-, hq'⟩
  · rw [hq] at hring'
    obtain rfl := Option.some.inj hring'
    exact h.loadKeys hp hring
  · exact h.cached j q' hq' ring' hring'

/-- Each operation keeps the invariant. -/
theorem Sound.step {op : KeyOp ν} (h : Sound codec node nfkc s) (hop : FreshId s op) :
    Sound codec node nfkc (s.step codec node nfkc op) := by
  cases op with
  | init force stamp raw =>
    rw [KeyState.step]
    split
    · exact h
    · rename_i keys hkeys
      obtain rfl := initLocalKeyFile_eq_some hkeys
      obtain ⟨hone, ring, hload, hkid, hkey, hfinds⟩ := holds_newKey h.holds h.absent raw hop
      refine ⟨nofun, ?_, ?_, ?_⟩
      · rintro _ ⟨⟩
        exact ⟨hone, ring, hload, by rw [hkid, hkey]; exact List.mem_cons_self, hfinds⟩
      · intro i p hp ring' hring'
        refine ⟨List.mem_cons_of_mem _ (h.cached i p hp ring' hring').1, fun hi => ?_⟩
        rw [List.getElem?_eq_none hi] at hp
        cases hp
      · intro x hx
        obtain ⟨ring', iv, hactive, hsealed⟩ := h.sealed x hx
        exact ⟨ring', iv, List.mem_cons_of_mem _ hactive, hsealed⟩
  | «open» =>
    refine ⟨h.absent, h.holds, fun i p hp ring hring => ?_, h.sealed⟩
    rcases getElem?_concat_eq_some.mp hp with hp | ⟨-, rfl⟩
    · exact h.cached i p hp ring hring
    · cases hring
  | encrypt i iv plaintext aad expiresAt writable =>
    rw [KeyState.step]
    split
    · exact h
    · rename_i p hp
      split
      · exact h
      · rename_i ring hring
        simp only
        split
        · exact ⟨h.absent, h.holds, h.setProvider hp hring rfl, h.sealed⟩
        · rename_i p' file hconsume
          obtain ⟨hp', honly⟩ := Provider.consume_eq_some hconsume
          refine ⟨fun habsent => ?_, Holds.onlyUsage h.holds honly,
            h.setProvider hp hring hp', fun x hx => ?_⟩
          · rcases honly with rfl | ⟨keys, kid, u, -, rfl⟩
            · exact h.absent habsent
            · cases habsent
          · rcases List.mem_append.mp hx with hx | hx
            · obtain ⟨e, he, rfl⟩ := Option.map_eq_some_iff.mp (Option.mem_toList.mp hx)
              exact ⟨ring, iv, (h.loadKeys hp hring).1, he⟩
            · exact h.sealed x hx

theorem sound_init : Sound codec node nfkc (.init : KeyState ν) :=
  ⟨fun _ => rfl, nofun, by simp [KeyState.init], by simp [KeyState.init]⟩

/-- A ring that finds the key opens what was sealed under it. -/
theorem decrypt_of_finds {ring ring' : KeyRing} (hkey : ring'.byKid.lookup ring.kid = some ring.key)
    {iv : List ℕ} {plaintext : JsString} {aad : JsValue ν} {expiresAt : Option ℕ} {e : Envelope}
    (hsealed : encrypt node nfkc ring iv plaintext aad expiresAt = some e) {now : ℕ}
    (hnow : ∀ t ∈ expiresAt, now < t) :
    decrypt node nfkc ring' now e aad = some (toWellFormed plaintext) := by
  have hlookup : ring'.byKid.lookup e.kid = ring.byKid.lookup e.kid := by
    rw [kid_of_encrypt hsealed, hkey, ring.active]
  rw [decrypt, hlookup]
  exact decrypt_encrypt hsealed rfl hnow

/-- **Rotation keeps history.** After any run of initialisations with new ids, openings and
encryptions, one key of the file is active, each key that ever was is in the file, and a
provider opened after the last rotation opens whatever was sealed, to its plaintext exactly
where that has no lone surrogate. -/
theorem rotation_preserves_history (codec : Codec ν) (node : NodeCrypto)
    (nfkc : JsString → JsString) (ops : List (KeyOp ν))
    (hfresh : Allowed (step codec node nfkc) FreshId .init ops) :
    (∀ keys ∈ (ops.foldl (step codec node nfkc) .init).file, OneActive keys ∧
        (∀ a ∈ (ops.foldl (step codec node nfkc) .init).everActive,
          ∃ e ∈ keys, keyOf codec e = some a) ∧
        Opens codec node nfkc (ops.foldl (step codec node nfkc) .init)) ∧
      ((ops.foldl (step codec node nfkc) .init).file = none →
        (ops.foldl (step codec node nfkc) .init).sealed = []) := by
  have h : Sound codec node nfkc (ops.foldl (step codec node nfkc) .init) :=
    hfresh.invariant (fun _ _ => Sound.step) sound_init
  refine ⟨fun keys hkeys => ?_, fun hnone => ?_⟩
  · obtain ⟨hone, ring, hload, -, hfinds⟩ := h.holds keys hkeys
    refine ⟨hone, fun a ha => ?_, fun i p hp hi => ?_⟩
    · obtain ⟨l₁, l₂, hfound, -⟩ := List.lookup_eq_some_iff.mp (hfinds a ha)
      refine (byKid_eq_some (loadKeyFile_eq_some.mp hload).1).2 a ?_
      rw [hfound]
      exact List.mem_append_right _ List.mem_cons_self
    · obtain ⟨ring', hring'⟩ : ∃ ring', p.loadKeys codec
          (ops.foldl (step codec node nfkc) .init).file = some ring' := by
        rw [Provider.loadKeys, hkeys, Option.bind_some, hload]
        cases p.cached with
        | none => exact ⟨ring, rfl⟩
        | some ring' => exact ⟨ring', rfl⟩
      refine ⟨ring', hring', fun x hx now hnow => ?_⟩
      obtain ⟨ring'', iv, hactive, hsealed⟩ := h.sealed x hx
      have hfinds' := (h.loadKeys hp hring').2 hi
      rw [decrypt_of_finds (hfinds' _ hactive) hsealed hnow, Option.some_inj]
  · by_contra hne
    obtain ⟨x, hx⟩ := List.exists_mem_of_ne_nil _ hne
    obtain ⟨ring, iv, hactive, -⟩ := h.sealed x hx
    rw [h.absent hnone] at hactive
    cases hactive

/-- Two keys, whose bytes are all the same. -/
def sameBytes (b : ℕ) (hb : b < 256) : RawKey :=
  ⟨List.replicate 32 b, List.length_replicate, fun c hc => by rwa [List.eq_of_mem_replicate hc]⟩

/-- A provider that was opened before two initialisations seals a text, and another is opened. -/
def sealedAfterRotation : List (KeyOp NumberToken) :=
  [.open, .init false (js "1") (sameBytes 1 (by decide)), .init true (js "2") (sameBytes 2 (by decide)),
    .encrypt 0 [0] (js "secret") .null none true, .open]

theorem rotation_preserves_history_twice :
    let s := sealedAfterRotation.foldl (step digitCodec taggingCipher id) .init
    (∀ keys ∈ s.file, OneActive keys ∧
        (∀ a ∈ s.everActive, ∃ e ∈ keys, keyOf digitCodec e = some a) ∧
        Opens digitCodec taggingCipher id s) ∧
      (s.file = none → s.sealed = []) := by
  refine rotation_preserves_history digitCodec taggingCipher id sealedAfterRotation
    ⟨trivial, nofun, ?_, trivial, trivial, trivial⟩
  rintro _ ⟨⟩
  show kidOf (js "2") ∉ [kidOf (js "1")]
  decide

theorem step_encrypt {i : ℕ} {p p' : Provider} {ring : KeyRing} {iv : List ℕ} {plaintext : JsString}
    {aad : JsValue ν} {expiresAt : Option ℕ} {writable : Bool} {file : Option (List StoredKey)}
    {e : Envelope} (hp : s.providers[i]? = some p) (hring : p.loadKeys codec s.file = some ring)
    (hconsume : Provider.consume { p with cached := some ring } ring.kid writable s.file =
      some (p', file))
    (he : encrypt node nfkc ring iv plaintext aad expiresAt = some e) :
    s.step codec node nfkc (.encrypt i iv plaintext aad expiresAt writable) =
      { s with
        file := file
        providers := s.providers.set i p'
        sealed := ⟨plaintext, aad, expiresAt, e⟩ :: s.sealed } := by
  simp only [KeyState.step, hp, hring, hconsume, he, Option.map_some, Option.toList_some,
    List.singleton_append]

/-- A provider seals a text that is a lone surrogate. -/
def surrogateSealed : List (KeyOp NumberToken) :=
  [.init false (js "1") (sameBytes 1 (by decide)), .open,
    .encrypt 0 [0] [0xd800] .null none true]

/-- The providers opened since the last rotation open all that was sealed to its plaintext,
also where this has a lone surrogate. -/
def RestoresAll (codec : Codec ν) (node : NodeCrypto) (nfkc : JsString → JsString)
    (s : KeyState ν) : Prop :=
  ∀ i p ring, s.providers[i]? = some p → s.before ≤ i → p.loadKeys codec s.file = some ring →
    ∀ x ∈ s.sealed, ∀ now, (∀ t ∈ x.expiresAt, now < t) →
      decrypt node nfkc ring now x.envelope x.aad = some x.plaintext

theorem not_restoresAll_surrogateSealed (codec : Codec NumberToken) (node : NodeCrypto)
    (nfkc : JsString → JsString) :
    ¬RestoresAll codec node nfkc (surrogateSealed.foldl (step codec node nfkc) .init) := by
  intro h
  let key := newKey (kidOf (js "1")) (sameBytes 1 (by decide))
  obtain ⟨ring, hload, -, hkid, -⟩ :=
    loadKeyFile_newKey_nil codec (kidOf (js "1")) (sameBytes 1 (by decide))
  obtain ⟨e, he⟩ : ∃ e, encrypt node nfkc ring [0] [0xd800] (.null : JsValue NumberToken) none =
      some e := ⟨_, rfl⟩
  let p : Provider := ⟨some ring, some ⟨ring.kid, 0, nonceReserveWindow, 1⟩, false⟩
  have hconsume : Provider.consume ⟨some ring, none, false⟩ ring.kid true (some [key]) =
      some (p, some (withUsage (kidOf (js "1")) nonceReserveWindow [key])) := by
    simp only [p, hkid]
    exact Provider.consume_newKey _ _ _
  have hrun : surrogateSealed.foldl (step codec node nfkc) .init =
      ⟨some (withUsage (kidOf (js "1")) nonceReserveWindow [key]), [p],
        [⟨[0xd800], .null, none, e⟩], [(kidOf (js "1"), List.replicate 32 1)], 0⟩ :=
    step_encrypt (s := ⟨some [key], [.fresh], [], [(kidOf (js "1"), List.replicate 32 1)], 0⟩)
      (p := .fresh) (i := 0) rfl hload hconsume he
  rw [hrun] at h
  have hsealed := h 0 p ring rfl le_rfl rfl _ List.mem_cons_self 0 (by simp)
  rw [decrypt_encrypt he rfl (by simp)] at hsealed
  have hsame : toWellFormed [0xd800] = [0xd800] := Option.some.inj hsealed
  revert hsame
  decide

/-- Its UTF-8 is that of another text, which is what the envelope opens to. -/
theorem surrogate_not_restored :
    ¬∀ (codec : Codec NumberToken) (node : NodeCrypto) (nfkc : JsString → JsString)
      (ops : List (KeyOp NumberToken)), Allowed (step codec node nfkc) FreshId .init ops →
        RestoresAll codec node nfkc (ops.foldl (step codec node nfkc) .init) := by
  intro h
  refine not_restoresAll_surrogateSealed digitCodec taggingCipher id ?_
  exact h digitCodec taggingCipher id surrogateSealed ⟨nofun, trivial, trivial, trivial⟩

end KeyState

end Haechi.Crypto
