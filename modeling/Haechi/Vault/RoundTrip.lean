import Haechi.Crypto.Persistence
import Haechi.Vault.Validity

/-! Tokens through the vault file. Every record was made by some call of `tokenize`, and the
file gives back what that call sealed, under what JSON keeps of its context. Proved: what is
read from the file for a token that was given out is the plaintext exactly when the call
that made the record had a context without holes and a plaintext that UTF-8 turns into the
one that was asked for; the same for an envelope on its own; and two plaintexts share a
deterministic token exactly when they have the same bytes or the digits that a token keeps
of their hashes agree. -/

namespace Haechi.Vault

open Text Json Crypto

variable {ν : Type} [JsNumber ν]

/-! ### The vault file -/

/-- A record as the vault file holds it. -/
def recordValue (codec : Codec ν) (r : Record ν) : JsValue ν :=
  .obj [(js "type", .str r.type), (js "createdAt", .str (codec.toISOString r.createdAt)),
    (js "expiresAt", .str (codec.toISOString r.expiresAt)), (js "metadata", .obj r.metadata),
    (js "envelope", envelopeValue codec r.createdAt r.envelope), (js "aad", r.aad)]

/-- The vault as its file holds it. -/
def fileValue (codec : Codec ν) (createdAt : ℕ) (tokens : Tokens ν) : JsValue ν :=
  .obj [(js "version", .num (JsNumber.ofNat 1)), (js "createdAt", .str (codec.toISOString createdAt)),
    (js "tokens", .obj (tokens.entries.map fun e => (e.1, recordValue codec e.2)))]

/-- What `detokenize` gives for a record that it has read. -/
def restoredValue (codec : Codec ν) (env : Platform) (now : ℕ) (record : JsValue ν) :
    Option JsString :=
  let expiresAt := record.get (js "expiresAt")
  if !record.truthy then none
  else if expiresAt.truthy && (codec.dateParse expiresAt).any fun t => t < now then none
  else decryptValue codec env.node env.nfkc env.ring now (record.get (js "envelope"))
    (record.get (js "aad"))

/-- What `detokenize` gives for a token, from the vault file. -/
def restoredFromFile (codec : Codec ν) (env : Platform) (now createdAt : ℕ) (tokens : Tokens ν)
    (token : JsString) : Option JsString := do
  let file ← reread (fileValue codec createdAt tokens)
  restoredValue codec env now ((file.get (js "tokens")).get token)

/-! ### Where records come from -/

section Made

variable (env : Platform) (c : Settings)

/-- The arguments of a call are objects of bytes and of distinct keys. -/
structure Draw.Proper (d : Draw ν) : Prop where
  context : d.context.Distinct
  metadata : (JsValue.obj d.metadata).Distinct
  iv : ∀ b ∈ d.iv, b < 256

/-- A record was made by a call of `tokenize`. -/
structure Made (k : JsString) (d : Draw ν) (r : Record ν) : Prop where
  token : tokenOf env c d = k
  sealed : encrypt env.node env.nfkc env.ring d.iv d.plaintext (aadOf k d) r.envelope.expiresAt =
    some r.envelope
  aad : r.aad = (aadOf k d).prune
  metadata : r.metadata = JsValue.pruneFields (sanitizeMetadata d.metadata)
  expiresAt : r.expiresAt ≤ lastTime
  sealedUntil : ∀ t ∈ r.envelope.expiresAt, t ≤ lastTime

/-- Every record was made by one of the calls. -/
def AllMade (draws : List (Draw ν)) (tokens : Tokens ν) : Prop :=
  ∀ k r, tokens.lookup k = some r → ∃ d ∈ draws, Made env c k d r

variable {env c}

theorem expiry_le {now expiresAt : ℕ} (h : c.expiry now = some expiresAt) :
    expiresAt ≤ lastTime := by
  obtain ⟨hle, rfl⟩ := expiry_eq_some.mp h
  exact hle

theorem made_newRecord {now : ℕ} {d : Draw ν} {r : Record ν}
    (h : newRecord env c now (tokenOf env c d) d = some r) :
    Made env c (tokenOf env c d) d r := by
  obtain ⟨expiresAt, envelope, hexpiry, henvelope, rfl⟩ := newRecord_eq_some h
  have hexpires := encrypt_expiresAt henvelope
  refine ⟨rfl, ?_, rfl, rfl, expiry_le hexpiry, ?_⟩
  · show encrypt _ _ _ _ _ _ envelope.expiresAt = some envelope
    rw [hexpires, henvelope]
  · show ∀ t ∈ envelope.expiresAt, t ≤ lastTime
    rw [hexpires]
    rintro t ⟨⟩
    exact expiry_le hexpiry

/-- What `tokenize` leaves for its token: the record that was there, for longer, or one that
the call made. -/
theorem tokenize_made {draws : List (Draw ν)} {s : State ν} (hs : AllMade env c draws s.tokens)
    {d : Draw ν} {k : JsString} {tokens : Tokens ν}
    (h : tokenize env c s d = some (k, tokens)) :
    ∃ r, tokens = (pruneExpired s.tokens s.now).1.insert k r ∧ k = tokenOf env c d ∧
      ∃ d₀ ∈ d :: draws, Made env c k d₀ r ∧
        ((pruneExpired s.tokens s.now).1.lookup k = none → d₀ = d) := by
  obtain ⟨rfl, r, rfl, ⟨existing, expiresAt, hexisting, hexpiry, rfl⟩ | ⟨-, hr⟩⟩ := tokenize_cases h
  · obtain ⟨d₀, hd₀, hmade⟩ := hs _ existing (lookup_of_pruneExpired hexisting)
    refine ⟨_, rfl, rfl, d₀, List.mem_cons_of_mem d hd₀, ?_, fun hnone => ?_⟩
    · exact { hmade with expiresAt := expiry_le hexpiry }
    · rw [hexisting] at hnone
      cases hnone
  · exact ⟨r, rfl, rfl, d, List.mem_cons_self, made_newRecord hr, fun _ => rfl⟩

theorem AllMade.mono {draws draws' : List (Draw ν)} (h : ∀ d ∈ draws, d ∈ draws')
    {tokens : Tokens ν} (hmade : AllMade env c draws tokens) : AllMade env c draws' tokens := by
  intro k r hr
  obtain ⟨d, hd, hr⟩ := hmade k r hr
  exact ⟨d, h d hd, hr⟩

theorem AllMade.pruneExpired {draws : List (Draw ν)} {tokens : Tokens ν}
    (h : AllMade env c draws tokens) (now : ℕ) :
    AllMade env c draws (pruneExpired tokens now).1 :=
  fun k r hr => h k r (lookup_of_pruneExpired hr)

theorem AllMade.tokenize {draws : List (Draw ν)} {s : State ν} (hs : AllMade env c draws s.tokens)
    {d : Draw ν} {k : JsString} {tokens : Tokens ν}
    (h : tokenize env c s d = some (k, tokens)) : AllMade env c (d :: draws) tokens := by
  obtain ⟨r, rfl, -, d₀, hd₀, hmade, -⟩ := tokenize_made hs h
  intro k' r' hr'
  by_cases hk : k' = k
  · subst hk
    rw [AList.lookup_insert] at hr'
    obtain rfl := Option.some.inj hr'
    exact ⟨d₀, hd₀, hmade⟩
  · rw [AList.lookup_insert_ne hk] at hr'
    exact (hs.pruneExpired s.now).mono (fun _ => List.mem_cons_of_mem d) k' r' hr'

/-- Every operation leaves records that some call made. -/
theorem AllMade.step {draws : List (Draw ν)} {s : State ν} (hs : AllMade env c draws s.tokens)
    {a : Action ν} (ha : ∀ d, a = .tokenize d → d ∈ draws) :
    AllMade env c draws (step env c s a).tokens := by
  cases a with
  | detokenize tokens => exact hs
  | reveal token context => exact hs
  | tick ms => exact hs
  | purgeExpired => exact hs.pruneExpired s.now
  | purge token =>
    intro k r hr
    replace hr : ((Vault.pruneExpired s.tokens s.now).1.erase token).lookup k = some r := hr
    by_cases hk : k = token
    · rw [hk, AList.lookup_erase] at hr
      cases hr
    · rw [AList.lookup_erase_ne hk] at hr
      exact hs.pruneExpired s.now k r hr
  | tokenize d =>
    simp only [Vault.step]
    split
    · exact hs
    · rename_i token tokens htokenize
      refine (hs.tokenize htokenize).mono fun d' hd' => ?_
      rcases List.mem_cons.mp hd' with rfl | hd'
      · exact ha d' rfl
      · exact hd'

theorem AllMade.run {draws : List (Draw ν)} {s : State ν} (hs : AllMade env c draws s.tokens)
    {actions : List (Action ν)} (hactions : ∀ d, .tokenize d ∈ actions → d ∈ draws) :
    AllMade env c draws (actions.foldl (Vault.step env c) s).tokens := by
  induction actions generalizing s with
  | nil => exact hs
  | cons a actions ih =>
    refine ih (hs.step fun d hd => hactions d (by simp [hd])) fun d hd => ?_
    exact hactions d (List.mem_cons_of_mem a hd)

/-- In a run from the empty vault every record was made by one of its calls. -/
theorem allMade_run (start : ℕ) (actions : List (Action ν)) :
    AllMade env c (drawsOf actions) (actions.foldl (step env c) ⟨start, ∅⟩).tokens := by
  refine AllMade.run (fun k r hr => ?_) fun d hd => mem_drawsOf.mpr hd
  rw [AList.lookup_empty] at hr
  cases hr

end Made

/-! ### Reading the file -/

section Read

variable {codec : Codec ν} {env : Platform} {c : Settings} {k : JsString} {d : Draw ν}
  {r : Record ν}

omit [JsNumber ν] in
theorem aadOf_distinct (hd : d.context.Distinct) : (aadOf k d).Distinct := by
  refine JsValue.distinct_obj.mpr ⟨?_, by simpa [JsValue.Distinct] using hd⟩
  show [js "purpose", js "token", js "type", js "context"].Nodup
  decide

omit [JsNumber ν] in
theorem aadOf_isJson : (aadOf k d).isJson = true ↔ d.context.isJson = true := by
  simp [aadOf, JsValue.isJson, JsValue.isJsonFields]

omit [JsNumber ν] in
theorem sanitizeMetadata_distinct {metadata : List (JsString × JsValue ν)}
    (h : (JsValue.obj metadata).Distinct) : (JsValue.obj (sanitizeMetadata metadata)).Distinct := by
  obtain ⟨hn, hd⟩ := JsValue.distinct_obj.mp h
  exact JsValue.distinct_obj.mpr ⟨hn.sublist (List.filter_sublist.map _),
    fun kv hkv => hd kv (List.mem_of_mem_filter hkv)⟩

/-- A record that a call made has a JSON value. -/
theorem recordValue_wellFormed (hmade : Made env c k d r) (hd : d.Proper) :
    WellFormed (recordValue codec r) := by
  have hmetadata : WellFormed (.obj r.metadata) := by
    rw [hmade.metadata]
    exact ⟨JsValue.isJson_prune (.obj (sanitizeMetadata d.metadata)) nofun,
      JsValue.distinct_prune _ (sanitizeMetadata_distinct hd.metadata)⟩
  have haad : WellFormed r.aad := by
    rw [hmade.aad]
    exact ⟨JsValue.isJson_prune _ nofun, JsValue.distinct_prune _ (aadOf_distinct hd.context)⟩
  refine wellFormed_obj ?_ ?_
  · show [js "type", js "createdAt", js "expiresAt", js "metadata", js "envelope", js "aad"].Nodup
    decide
  · simp only [List.mem_cons, List.not_mem_nil, or_false, forall_eq_or_imp, forall_eq]
    exact ⟨⟨rfl, trivial⟩, ⟨rfl, trivial⟩, ⟨rfl, trivial⟩, hmetadata,
      envelopeValue_wellFormed r.createdAt r.envelope, haad⟩

omit [JsNumber ν] in
theorem nodup_entries (tokens : Tokens ν) (f : Record ν → JsValue ν) :
    ((tokens.entries.map fun e => (e.1, f e.2)).map Prod.fst).Nodup := by
  rw [List.map_map]
  exact tokens.nodupKeys

omit [JsNumber ν] in
theorem field?_entries {tokens : Tokens ν} (f : Record ν → JsValue ν)
    (h : tokens.lookup k = some r) :
    JsValue.field? k (tokens.entries.map fun e => (e.1, f e.2)) = some (f r) :=
  JsValue.field?_of_mem (nodup_entries tokens f)
    (List.mem_map.mpr ⟨⟨k, r⟩, AList.mem_lookup_iff.mp h, rfl⟩)

theorem fileValue_wellFormed {draws : List (Draw ν)} {tokens : Tokens ν}
    (hmade : AllMade env c draws tokens) (hdraws : ∀ d ∈ draws, d.Proper) (createdAt : ℕ) :
    WellFormed (fileValue codec createdAt tokens) := by
  have hrecords : ∀ kv ∈ tokens.entries.map fun e => (e.1, recordValue codec e.2),
      WellFormed kv.2 := by
    rintro kv hkv
    obtain ⟨⟨k, r⟩, hmem, rfl⟩ := List.mem_map.mp hkv
    obtain ⟨d, hd, hr⟩ := hmade k r (AList.mem_lookup_iff.mpr hmem)
    exact recordValue_wellFormed hr (hdraws d hd)
  refine wellFormed_obj ?_ ?_
  · show [js "version", js "createdAt", js "tokens"].Nodup
    decide
  · simp only [List.mem_cons, List.not_mem_nil, or_false, forall_eq_or_imp, forall_eq]
    exact ⟨⟨rfl, trivial⟩, ⟨rfl, trivial⟩, wellFormed_obj (nodup_entries tokens _) hrecords⟩

/-- What the file gives for a record is what the vault has for it. -/
theorem restoredValue_recordValue (hnode : env.node.GivesBytes) (hmade : Made env c k d r)
    (hd : d.Proper) (now : ℕ) :
    restoredValue codec env now (recordValue codec r) =
      if r.live now then r.opened env now r.aad else none := by
  have hexpires : (recordValue codec r).get (js "expiresAt") =
      .str (codec.toISOString r.expiresAt) := rfl
  have henvelope : (recordValue codec r).get (js "envelope") =
      envelopeValue codec r.createdAt r.envelope := rfl
  have haad : (recordValue codec r).get (js "aad") = r.aad := rfl
  have htruthy : (recordValue codec r).truthy = true := rfl
  have hnonempty : (.str (codec.toISOString r.expiresAt) : JsValue ν).truthy = true := by
    rw [truthy_str, Bool.not_eq_true', List.isEmpty_eq_false_iff]
    exact codec.toISOString_ne_nil _
  rw [restoredValue, hexpires, henvelope, haad, htruthy, hnonempty,
    codec.dateParse_toISOString _ hmade.expiresAt,
    decryptValue_envelopeValue hnode (bytes_of_encrypt hnode hd.iv hmade.sealed)
      (kid_of_encrypt hmade.sealed) hmade.sealedUntil]
  by_cases hlive : now ≤ r.expiresAt
  · have hexpired : ¬r.expiresAt < now := not_lt.mpr hlive
    simp [Record.live, hlive, hexpired, Record.opened]
  · have hexpired : r.expiresAt < now := not_le.mp hlive
    simp [Record.live, hlive, hexpired]

/-- What is read from the file for a token is what the vault restores for it. -/
theorem restoredFromFile_eq (hnode : env.node.GivesBytes) {draws : List (Draw ν)}
    {tokens : Tokens ν} (hmade : AllMade env c draws tokens) (hdraws : ∀ d ∈ draws, d.Proper)
    (hr : tokens.lookup k = some r) (now createdAt : ℕ) :
    restoredFromFile codec env now createdAt tokens k = restored env ⟨now, tokens⟩ k := by
  have hne : fileValue codec createdAt tokens ≠ .undef := by
    rw [fileValue]
    nofun
  have hget : ((fileValue codec createdAt tokens).get (js "tokens")).get k =
      recordValue codec r :=
    congrArg (fun found => found.getD JsValue.undef) (field?_entries (recordValue codec) hr)
  obtain ⟨d, hd, hrecord⟩ := hmade k r hr
  rw [restoredFromFile, reread_wellFormed (fileValue_wellFormed hmade hdraws createdAt) hne]
  show restoredValue codec env now (((fileValue codec createdAt tokens).get (js "tokens")).get k) = _
  rw [hget, restoredValue_recordValue hnode hrecord (hdraws d hd), restored, get, hr]

/-- What is restored for a record that a call made. -/
theorem restored_made_iff (hmade : Made env c k d r) (hd : d.Proper)
    (hsha : HashApart env.node env.nfkc (aadOf k d) (aadOf k d).prune) {tokens : Tokens ν}
    (hr : tokens.lookup k = some r) {now : ℕ} (hlive : now ≤ r.expiresAt)
    (hnow : ∀ t ∈ r.envelope.expiresAt, now < t) {text : JsString} :
    restored env ⟨now, tokens⟩ k = some text ↔
      d.context.isJson = true ∧ toWellFormed d.plaintext = text := by
  have hopened : restored env ⟨now, tokens⟩ k = r.opened env now r.aad := by
    simp [restored, get, hr, Record.live, hlive]
  rw [hopened, Record.opened, hmade.aad,
    decrypt_prune_iff (aadOf_distinct hd.context) hsha hmade.sealed hnow, aadOf_isJson]

end Read

/-! ### Deterministic tokens -/

section Deterministic

variable (env : Platform)

/-- The bytes that the token of a call is derived from. -/
def tokenBytes (d : Draw ν) : List ℕ := encodeUtf8 (d.type ++ js ":" ++ d.plaintext)

/-- The digits that a deterministic token keeps of the keyed hash of some bytes. -/
def keptDigits (bytes : List ℕ) : JsString :=
  (hex (env.node.hmacSha256
    (env.node.hmacSha256 env.ring.key (encodeUtf8 deterministicDomain)) bytes)).take 32

/-- Two calls hash different bytes, of which a token keeps the same digits. -/
def ShareDigits (d d' : Draw ν) : Prop :=
  encodeUtf8 d.plaintext ≠ encodeUtf8 d'.plaintext ∧
    keptDigits env (tokenBytes d) = keptDigits env (tokenBytes d')

variable {env}

omit [JsNumber ν] in
theorem tokenBytes_eq (d : Draw ν) :
    tokenBytes d = encodeUtf8 d.type ++ 58 :: encodeUtf8 d.plaintext := by
  have hcut : codePoints (d.type ++ js ":" ++ d.plaintext) =
      codePoints d.type ++ [58] :: codePoints d.plaintext := by
    rw [List.append_assoc]
    show codePoints (d.type ++ 58 :: d.plaintext) = _
    rw [codePoints_append rfl, codePoints_cons rfl]
  rw [tokenBytes, encodeUtf8, hcut, List.flatMap_append, List.flatMap_cons]
  rfl

omit [JsNumber ν] in
/-- Two plaintexts of one deterministic type have the same token exactly when they have the
same bytes or share digits. -/
theorem tokenOf_eq_iff {c : Settings} {d d' : Draw ν} (htype : d.type = d'.type)
    (hdeterministic : c.isDeterministicType d.type = true) :
    tokenOf env c d = tokenOf env c d' ↔
      encodeUtf8 d.plaintext = encodeUtf8 d'.plaintext ∨ ShareDigits env d d' := by
  have htoken : ∀ d₁ : Draw ν, d₁.type = d.type →
      tokenOf env c d₁ = tokenId d.type (keptDigits env (tokenBytes d₁)) := by
    intro d₁ h
    rw [tokenOf, h, if_pos hdeterministic, keptDigits, tokenBytes, h]
    rfl
  have hdigits : tokenOf env c d = tokenOf env c d' ↔
      keptDigits env (tokenBytes d) = keptDigits env (tokenBytes d') := by
    rw [htoken d rfl, htoken d' htype.symm, tokenId, tokenId]
    exact List.append_right_inj _
  rw [hdigits, ShareDigits]
  by_cases hbytes : encodeUtf8 d.plaintext = encodeUtf8 d'.plaintext
  · have hsame : tokenBytes d = tokenBytes d' := by
      rw [tokenBytes_eq, tokenBytes_eq, htype, hbytes]
    rw [hsame]
    exact iff_of_true rfl (.inl hbytes)
  · exact ⟨fun h => .inr ⟨hbytes, h⟩, fun h => (h.resolve_left hbytes).2⟩

end Deterministic

/-! ### The round trips -/

/-- **The round trips.** An envelope that went through JSON with its context opens to what
was sealed exactly when the context has no hole and the plaintext no lone surrogate. What
the vault file gives for a token is the plaintext that was asked for exactly when the call
that made its record had a context without holes and a plaintext that UTF-8 turns into it.
Two plaintexts of a type share a deterministic token exactly when they have the same bytes
or the digits that it keeps of their hashes agree. -/
theorem round_trips_iff (ν : Type) [JsNumber ν] (codec : Codec ν) (env : Platform) (c : Settings)
    (hnode : env.node.GivesBytes)
    (hsha : ∀ v : JsValue ν, HashApart env.node env.nfkc v v.prune) :
    (∀ (iv : List ℕ) (plaintext : JsString) (aad : JsValue ν) (expiresAt : Option ℕ)
        (e : Envelope) (now createdAt : ℕ), (∀ b ∈ iv, b < 256) →
        (∀ t ∈ expiresAt, t ≤ lastTime) → aad.Distinct →
        encrypt env.node env.nfkc env.ring iv plaintext aad expiresAt = some e →
        (∀ t ∈ expiresAt, now < t) →
          (decryptPersisted codec env.node env.nfkc env.ring now createdAt e aad =
              some plaintext ↔
            aad.isJson = true ∧ toWellFormed plaintext = plaintext)) ∧
      (∀ (start : ℕ) (actions : List (Action ν)) (d : Draw ν) (k : JsString)
        (tokens : Tokens ν), (∀ d' ∈ d :: drawsOf actions, d'.Proper) →
        let s := actions.foldl (step env c) ⟨start, ∅⟩
        tokenize env c s d = some (k, tokens) →
          ∃ d₀ ∈ d :: drawsOf actions, ∃ r, tokens.lookup k = some r ∧ Made env c k d₀ r ∧
            ((pruneExpired s.tokens s.now).1.lookup k = none → d₀ = d) ∧
            ∀ now createdAt, now ≤ r.expiresAt → (∀ t ∈ r.envelope.expiresAt, now < t) →
              (restoredFromFile codec env now createdAt tokens k = some d.plaintext ↔
                d₀.context.isJson = true ∧ toWellFormed d₀.plaintext = d.plaintext)) ∧
      ∀ d d' : Draw ν, d.type = d'.type → c.isDeterministicType d.type = true →
        (tokenOf env c d = tokenOf env c d' ↔
          encodeUtf8 d.plaintext = encodeUtf8 d'.plaintext ∨ ShareDigits env d d') := by
  refine ⟨?_, ?_, fun d d' => tokenOf_eq_iff⟩
  · intro iv plaintext aad expiresAt e now createdAt hiv hexpiry haad h hnow
    exact decryptPersisted_iff hnode hiv hexpiry haad (hsha aad) h hnow createdAt
  · intro start actions d k tokens hproper s h
    have hs : AllMade env c (drawsOf actions) s.tokens := allMade_run start actions
    have hafter := hs.tokenize h
    obtain ⟨r, htokens, -, d₀, hd₀, hmade, hfresh⟩ := tokenize_made hs h
    have hlookup : tokens.lookup k = some r := by rw [htokens, AList.lookup_insert]
    refine ⟨d₀, hd₀, r, hlookup, hmade, hfresh, fun now createdAt hlive hnow => ?_⟩
    rw [restoredFromFile_eq hnode hafter hproper hlookup]
    exact restored_made_iff hmade (hproper d₀ hd₀) (hsha _) hlookup hlive hnow

/-! ### A member that is not there -/

/-- A platform over this cipher. -/
def tagged : Platform where
  node := taggingCipher
  nfkc := id
  ring := clear.ring

theorem tagged_hashApart (v w : JsValue NumberToken) :
    HashApart tagged.node tagged.nfkc v w := fun _ _ _ _ h => (List.cons.inj h).2

/-- The vault once the token is given out. -/
def bobTokens : Tokens NumberToken :=
  ((tokenize tagged deterministicVault emptyVault bob).map Prod.snd).getD ∅

theorem round_trips_iff_bob :
    restoredFromFile digitCodec tagged 1000 0 bobTokens (tokenOf tagged deterministicVault bob) =
      some (js "bob@example.com") := by
  have htoken : tokenize tagged deterministicVault emptyVault bob =
      some (tokenOf tagged deterministicVault bob, bobTokens) := rfl
  have htimes : (bobTokens.lookup (tokenOf tagged deterministicVault bob)).map
      (fun r => (r.expiresAt, r.envelope.expiresAt)) = some (2592000000, some 2592000000) := rfl
  have hproper : bob.Proper :=
    ⟨JsValue.distinct_obj.mpr ⟨List.nodup_nil, by simp⟩,
      JsValue.distinct_obj.mpr ⟨List.nodup_nil, by simp [bob]⟩, by decide⟩
  obtain ⟨-, hvault, -⟩ := round_trips_iff NumberToken digitCodec tagged deterministicVault
    taggingCipher_givesBytes fun v => tagged_hashApart v v.prune
  obtain ⟨d₀, hd₀, r, hr, -, -, hiff⟩ := hvault 0 [] bob _ bobTokens (by simpa [drawsOf]) htoken
  obtain rfl : d₀ = bob := by simpa [drawsOf] using hd₀
  rw [hr, Option.map_some, Option.some.injEq, Prod.mk.injEq] at htimes
  have hlive : 1000 ≤ r.expiresAt := by rw [htimes.1]; decide
  have hsealed : ∀ t ∈ r.envelope.expiresAt, 1000 < t := by
    rw [htimes.2]
    rintro t ⟨⟩
    decide
  exact (hiff 1000 0 hlive hsealed).mpr ⟨rfl, by decide +kernel⟩

/-- A context with a member that is `undefined`. -/
def notedContext : JsValue NumberToken := .obj [(js "note", .undef)]

/-- JSON drops the member, so the context that is read back is not the one that was bound. -/
theorem round_trip_hole : ¬∀ (codec : Codec NumberToken) (env : Platform) (iv : List ℕ)
    (plaintext : JsString) (aad : JsValue NumberToken) (expiresAt : Option ℕ) (e : Envelope)
    (now createdAt : ℕ), env.node.GivesBytes → (∀ b ∈ iv, b < 256) →
    (∀ t ∈ expiresAt, t ≤ lastTime) → aad.Distinct →
    encrypt env.node env.nfkc env.ring iv plaintext aad expiresAt = some e →
    (∀ t ∈ expiresAt, now < t) →
      decryptPersisted codec env.node env.nfkc env.ring now createdAt e aad = some plaintext := by
  intro h
  obtain ⟨e, he⟩ : ∃ e, encrypt tagged.node tagged.nfkc tagged.ring [0] (js "secret") notedContext
      none = some e := ⟨_, rfl⟩
  have hdistinct : notedContext.Distinct :=
    JsValue.distinct_obj.mpr ⟨List.nodup_singleton _, by simp [JsValue.Distinct]⟩
  have hopen := h digitCodec tagged [0] (js "secret") notedContext none e 0 0 taggingCipher_givesBytes
    (by decide) (by simp) hdistinct he (by simp)
  have hjson := ((decryptPersisted_iff taggingCipher_givesBytes (by decide) (by simp) hdistinct
    (tagged_hashApart _ _) he (by simp) 0).mp hopen).1
  cases hjson

end Haechi.Vault
