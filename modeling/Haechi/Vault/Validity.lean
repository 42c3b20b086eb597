import Haechi.Runs
import Haechi.Vault.TokenVault

/-! How long a token can be restored. A token that `tokenize` gives out is promised for
the retention from that moment on. A new record keeps the promise; a record that is
found is extended, but its envelope is not. Proved: in every run in which no token is
given out beyond the expiry of its envelope, what is sealed comes back from the vault
file, and every promise is kept until its end. -/

namespace Haechi.Vault

open Text Crypto

variable {ν : Type} [JsNumber ν]

/-! ### Pruning -/

section Prune

variable {now : ℕ} {k : JsString} {r : Record ν}

omit [JsNumber ν] in
theorem lookup_foldl_pruneOne (l : List ((_ : JsString) × Record ν)) (state : Tokens ν × ℕ)
    (h : ∀ e ∈ l, e.1 = k → ¬e.2.expiresAt < now) :
    (l.foldl (pruneOne now) state).1.lookup k = state.1.lookup k := by
  induction l generalizing state with
  | nil => rfl
  | cons e l ih =>
    rw [List.forall_mem_cons] at h
    rw [List.foldl_cons, ih _ h.2, pruneOne]
    split
    · rename_i hexpired
      have hne : k ≠ e.1 := fun heq => h.1 heq.symm hexpired
      exact AList.lookup_erase_ne hne
    · rfl

omit [JsNumber ν] in
theorem lookup_of_lookup_foldl (l : List ((_ : JsString) × Record ν)) (state : Tokens ν × ℕ)
    (h : (l.foldl (pruneOne now) state).1.lookup k = some r) : state.1.lookup k = some r := by
  induction l generalizing state with
  | nil => exact h
  | cons e l ih =>
    have hone := ih _ h
    rw [pruneOne] at hone
    split at hone
    · by_cases heq : k = e.1
      · rw [heq, AList.lookup_erase] at hone
        cases hone
      · rwa [AList.lookup_erase_ne heq] at hone
    · exact hone

omit [JsNumber ν] in
/-- A record that has not expired stays. -/
theorem lookup_pruneExpired {tokens : Tokens ν} (h : tokens.lookup k = some r)
    (hlive : now ≤ r.expiresAt) : (pruneExpired tokens now).1.lookup k = some r := by
  rw [pruneExpired, lookup_foldl_pruneOne, h]
  rintro ⟨k', r'⟩ he rfl hexpired
  have hr' : tokens.lookup k' = some r' := AList.mem_lookup_iff.mpr he
  rw [h] at hr'
  obtain rfl := Option.some.inj hr'
  exact absurd hexpired (by simpa using hlive)

omit [JsNumber ν] in
/-- No other record comes in. -/
theorem lookup_of_pruneExpired {tokens : Tokens ν}
    (h : (pruneExpired tokens now).1.lookup k = some r) : tokens.lookup k = some r :=
  lookup_of_lookup_foldl _ _ h

end Prune

/-! ### Promises -/

section Promise

variable (env : Platform) (c : Settings)

/-- The record opens to the plaintext until its envelope expires. -/
def Opens (r : Record ν) (plaintext : JsString) : Prop :=
  ∀ now, (∀ t ∈ r.envelope.expiresAt, now < t) → r.opened env now r.aad = some plaintext

/-- The token is restored to the plaintext up to some time. -/
structure Promised (s : State ν) (token plaintext : JsString) (until' : ℕ) : Prop where
  window : until' ≤ s.now + c.retention
  record : ∃ r, s.tokens.lookup token = some r ∧ until' ≤ r.expiresAt ∧
    (∀ t ∈ r.envelope.expiresAt, until' ≤ t) ∧ Opens env r plaintext

/-- Every record opens to the plaintext of a call that its token is the token of. -/
def Kept (draws : List (Draw ν)) (s : State ν) : Prop :=
  ∀ k r, s.tokens.lookup k = some r → ∃ d ∈ draws, tokenOf env c d = k ∧ Opens env r d.plaintext

/-- A call of `tokenize` promises nothing that the vault does not keep: a record that is
found has an envelope that lasts, the additional data is the same in the vault file, and
the plaintext has no lone surrogate. -/
def Lasting (s : State ν) (d : Draw ν) : Prop :=
  (∀ r ∈ (pruneExpired s.tokens s.now).1.lookup (tokenOf env c d),
      ∀ t ∈ r.envelope.expiresAt, s.now + c.retention ≤ t) ∧
    canonicalizeCryptoAad env.nfkc (aadOf (tokenOf env c d) d).prune =
      canonicalizeCryptoAad env.nfkc (aadOf (tokenOf env c d) d) ∧
    toWellFormed d.plaintext = d.plaintext

/-- Every token that is given out lasts. -/
def StepLasting (s : State ν) : Action ν → Prop
  | .tokenize d => Lasting env c s d
  | _ => True

variable {env c}

theorem expiry_eq_some {now expiresAt : ℕ} :
    c.expiry now = some expiresAt ↔ now + c.retention ≤ maxTime ∧ expiresAt = now + c.retention := by
  rw [Settings.expiry, Option.ite_none_right_eq_some, Option.some.injEq, eq_comm (b := expiresAt)]

/-- What a new record holds. -/
theorem newRecord_eq_some {now : ℕ} {token : JsString} {d : Draw ν} {r : Record ν}
    (h : newRecord env c now token d = some r) :
    ∃ expiresAt envelope, c.expiry now = some expiresAt ∧
      encrypt env.node env.nfkc env.ring d.iv d.plaintext (aadOf token d) (some expiresAt) =
        some envelope ∧
      r = Record.persisted
        ⟨d.type, now, expiresAt, sanitizeMetadata d.metadata, envelope, aadOf token d⟩ := by
  obtain ⟨expiresAt, hexpiry, h⟩ := Option.bind_eq_some_iff.mp h
  obtain ⟨envelope, henvelope, h⟩ := Option.bind_eq_some_iff.mp h
  split at henvelope
  · exact ⟨expiresAt, envelope, hexpiry, henvelope, (Option.some.inj h).symm⟩
  · cases henvelope

/-- What `tokenize` leaves beside the records that have not expired: the record of the token for
longer, or a new one. -/
theorem tokenize_cases {s : State ν} {d : Draw ν} {k : JsString} {tokens : Tokens ν}
    (h : tokenize env c s d = some (k, tokens)) :
    k = tokenOf env c d ∧ ∃ r, tokens = (pruneExpired s.tokens s.now).1.insert k r ∧
      ((∃ existing expiresAt, (pruneExpired s.tokens s.now).1.lookup k = some existing ∧
          c.expiry s.now = some expiresAt ∧ r = { existing with expiresAt }) ∨
        (pruneExpired s.tokens s.now).1.lookup k = none ∧ newRecord env c s.now k d = some r) := by
  simp only [tokenize] at h
  split at h
  · next existing hexisting =>
    obtain ⟨expiresAt, hexpiry, h⟩ := Option.bind_eq_some_iff.mp h
    obtain ⟨rfl, rfl⟩ := Prod.mk.inj (Option.some.inj h)
    exact ⟨rfl, _, rfl, .inl ⟨existing, expiresAt, hexisting, hexpiry, rfl⟩⟩
  · next hnone =>
    obtain ⟨r, hr, h⟩ := Option.bind_eq_some_iff.mp h
    obtain ⟨rfl, rfl⟩ := Prod.mk.inj (Option.some.inj h)
    exact ⟨rfl, r, rfl, .inr ⟨hnone, hr⟩⟩

/-- A record that is made opens. -/
theorem newRecord_opens {now : ℕ} {token : JsString} {d : Draw ν} {r : Record ν}
    (h : newRecord env c now token d = some r)
    (haad : canonicalizeCryptoAad env.nfkc (aadOf token d).prune =
      canonicalizeCryptoAad env.nfkc (aadOf token d))
    (hplain : toWellFormed d.plaintext = d.plaintext) :
    r.expiresAt = now + c.retention ∧ r.envelope.expiresAt = some (now + c.retention) ∧
      Opens env r d.plaintext := by
  obtain ⟨expiresAt, envelope, hexpiry, henvelope, rfl⟩ := newRecord_eq_some h
  obtain ⟨-, rfl⟩ := expiry_eq_some.mp hexpiry
  refine ⟨rfl, encrypt_expiresAt henvelope, fun t ht => ?_⟩
  rw [← hplain]
  refine decrypt_encrypt henvelope haad ?_
  rwa [← encrypt_expiresAt henvelope]

/-- What `tokenize` leaves: the records that have not expired, and a record of the token
that lasts for the retention. -/
theorem tokenize_eq_some {s : State ν} {d : Draw ν} {k : JsString} {tokens : Tokens ν}
    (h : tokenize env c s d = some (k, tokens)) (hlasting : Lasting env c s d) :
    k = tokenOf env c d ∧ ∃ r, tokens = (pruneExpired s.tokens s.now).1.insert k r ∧
      r.expiresAt = s.now + c.retention ∧
      (∀ t ∈ r.envelope.expiresAt, s.now + c.retention ≤ t) ∧
      (((pruneExpired s.tokens s.now).1.lookup k = none ∧ Opens env r d.plaintext) ∨
        ∃ r', (pruneExpired s.tokens s.now).1.lookup k = some r' ∧
          ∀ p, Opens env r' p → Opens env r p) := by
  obtain ⟨hfound, haad, hplain⟩ := hlasting
  obtain ⟨rfl, r, rfl, ⟨existing, expiresAt, hexisting, hexpiry, rfl⟩ | ⟨hnone, hr⟩⟩ := tokenize_cases h
  · obtain ⟨-, rfl⟩ := expiry_eq_some.mp hexpiry
    exact ⟨rfl, _, rfl, rfl, hfound existing hexisting, .inr ⟨existing, hexisting, fun _ hp => hp⟩⟩
  · obtain ⟨hexpires, henvelope, hopens⟩ := newRecord_opens hr haad hplain
    refine ⟨rfl, r, rfl, hexpires, fun t ht => ?_, .inl ⟨hnone, hopens⟩⟩
    rw [henvelope] at ht
    exact (Option.some.inj ht).le

/-! ### Steps -/

/-- Two calls that draw one token have one plaintext. -/
def DrawsDistinct (env : Platform) (c : Settings) (draws : List (Draw ν)) : Prop :=
  ∀ d ∈ draws, ∀ d' ∈ draws, tokenOf env c d = tokenOf env c d' → d.plaintext = d'.plaintext

/-- The calls of a run. -/
def drawsOf (actions : List (Action ν)) : List (Draw ν) :=
  actions.filterMap fun
    | .tokenize d => some d
    | _ => none

omit [JsNumber ν] in
theorem mem_drawsOf {actions : List (Action ν)} {d : Draw ν} :
    d ∈ drawsOf actions ↔ .tokenize d ∈ actions := by
  rw [drawsOf, List.mem_filterMap]
  constructor
  · rintro ⟨a, ha, heq⟩
    cases a with
    | tokenize d' => rwa [← Option.some.inj heq]
    | _ => cases heq
  · exact fun h => ⟨.tokenize d, h, rfl⟩

variable {draws : List (Draw ν)}

/-- A record of the vault was made for the plaintext that its token stands for. -/
theorem Kept.plaintext_eq (hdistinct : DrawsDistinct env c draws) {s : State ν}
    (h : Kept env c draws s) {d : Draw ν} (hd : d ∈ draws) {r : Record ν}
    (hr : s.tokens.lookup (tokenOf env c d) = some r) : Opens env r d.plaintext := by
  obtain ⟨d', hd', htoken, hopens⟩ := h _ r hr
  rwa [hdistinct d hd d' hd' htoken.symm]

/-- The token that `tokenize` gives out is promised. -/
theorem promised_tokenize (hdistinct : DrawsDistinct env c draws) {s : State ν}
    (hkept : Kept env c draws s) {d : Draw ν} (hd : d ∈ draws) {k : JsString}
    {tokens : Tokens ν} (h : tokenize env c s d = some (k, tokens))
    (hlasting : Lasting env c s d) :
    Promised env c { s with tokens } k d.plaintext (s.now + c.retention) := by
  obtain ⟨rfl, r, rfl, hexpires, henvelope, hopens⟩ := tokenize_eq_some h hlasting
  refine ⟨le_rfl, r, AList.lookup_insert _, hexpires.ge, henvelope, ?_⟩
  rcases hopens with ⟨-, hopens⟩ | ⟨r', hr', hsame⟩
  · exact hopens
  · exact hsame _ (hkept.plaintext_eq hdistinct hd (lookup_of_pruneExpired hr'))

theorem Kept.step (hdistinct : DrawsDistinct env c draws) {s : State ν}
    (h : Kept env c draws s) {a : Action ν} (ha : ∀ d, a = .tokenize d → d ∈ draws)
    (hok : StepLasting env c s a) : Kept env c draws (step env c s a) := by
  intro k r hr
  cases a with
  | detokenize tokens => exact h k r hr
  | reveal token context => exact h k r hr
  | tick ms => exact h k r hr
  | purgeExpired => exact h k r (lookup_of_pruneExpired hr)
  | purge token =>
    replace hr : ((pruneExpired s.tokens s.now).1.erase token).lookup k = some r := hr
    by_cases hk : k = token
    · rw [hk, AList.lookup_erase] at hr
      cases hr
    · rw [AList.lookup_erase_ne hk] at hr
      exact h k r (lookup_of_pruneExpired hr)
  | tokenize d =>
    simp only [Vault.step] at hr
    split at hr
    · exact h k r hr
    · rename_i token tokens htokenize
      have hd := ha d rfl
      have hpromised := promised_tokenize hdistinct h hd htokenize hok
      obtain ⟨rfl, r', rfl, -⟩ := tokenize_eq_some htokenize hok
      by_cases hk : k = tokenOf env c d
      · obtain ⟨r'', hr'', -, -, hopens⟩ := hpromised.record
        rw [hk] at hr
        obtain rfl : r'' = r := Option.some.inj (hr''.symm.trans hr)
        exact ⟨d, hd, hk.symm, hopens⟩
      · replace hr : (AList.insert (tokenOf env c d) r'
          (pruneExpired s.tokens s.now).1).lookup k = some r := hr
        rw [AList.lookup_insert_ne hk] at hr
        exact h k r (lookup_of_pruneExpired hr)

theorem now_le_step (s : State ν) (a : Action ν) : s.now ≤ (step env c s a).now := by
  cases a with
  | tokenize d =>
    simp only [Vault.step]
    split <;> exact le_rfl
  | tick ms => exact Nat.le_add_right _ _
  | _ => exact le_rfl

/-- A promise is kept by every step but the purge of its token. -/
theorem Promised.step {s : State ν} {k p : JsString} {until' : ℕ}
    (h : Promised env c s k p until') {a : Action ν} (ha : a ≠ .purge k)
    (hok : StepLasting env c s a) (hnow : s.now < until') :
    Promised env c (step env c s a) k p until' := by
  obtain ⟨hwindow, r, hr, hexpires, henvelope, hopens⟩ := h
  have hlive : (pruneExpired s.tokens s.now).1.lookup k = some r :=
    lookup_pruneExpired hr (hnow.le.trans hexpires)
  have hwindow' : until' ≤ (Vault.step env c s a).now + c.retention :=
    hwindow.trans (Nat.add_le_add_right (now_le_step s a) _)
  refine ⟨hwindow', ?_⟩
  cases a with
  | detokenize tokens => exact ⟨r, hr, hexpires, henvelope, hopens⟩
  | reveal token context => exact ⟨r, hr, hexpires, henvelope, hopens⟩
  | tick ms => exact ⟨r, hr, hexpires, henvelope, hopens⟩
  | purgeExpired => exact ⟨r, hlive, hexpires, henvelope, hopens⟩
  | purge token =>
    have hk : k ≠ token := fun heq => ha (by rw [heq])
    exact ⟨r, (AList.lookup_erase_ne hk).trans hlive, hexpires, henvelope, hopens⟩
  | tokenize d =>
    simp only [Vault.step]
    split
    · exact ⟨r, hr, hexpires, henvelope, hopens⟩
    · rename_i token tokens htokenize
      obtain ⟨rfl, r', rfl, hexpires', henvelope', hopens'⟩ := tokenize_eq_some htokenize hok
      by_cases hk : k = tokenOf env c d
      · subst hk
        rcases hopens' with ⟨hnone, -⟩ | ⟨r'', hr'', hsame⟩
        · rw [hlive] at hnone
          cases hnone
        · obtain rfl : r = r'' := Option.some.inj (hlive.symm.trans hr'')
          exact ⟨r', AList.lookup_insert _, hwindow.trans hexpires'.ge,
            fun t ht => hwindow.trans (henvelope' t ht), hsame _ hopens⟩
      · exact ⟨r, (AList.lookup_insert_ne hk).trans hlive, hexpires, henvelope, hopens⟩

/-! ### Runs -/

theorem now_le_foldl (s : State ν) (actions : List (Action ν)) :
    s.now ≤ (actions.foldl (step env c) s).now := by
  induction actions generalizing s with
  | nil => exact le_rfl
  | cons a actions ih => exact (now_le_step s a).trans (ih _)

theorem Promised.run {s : State ν} {k p : JsString} {until' : ℕ}
    (h : Promised env c s k p until') {actions : List (Action ν)}
    (ha : .purge k ∉ actions) (hok : Allowed (Vault.step env c) (StepLasting env c) s actions)
    (hnow : (actions.foldl (Vault.step env c) s).now < until') :
    Promised env c (actions.foldl (Vault.step env c) s) k p until' := by
  induction actions generalizing s with
  | nil => exact h
  | cons a actions ih =>
    rw [List.mem_cons, not_or] at ha
    have hstart : s.now < until' :=
      ((now_le_step s a).trans (now_le_foldl _ actions)).trans_lt hnow
    exact ih (h.step (Ne.symm ha.1) hok.1 hstart) ha.2 hok.2 hnow

/-- In an allowed run every record opens to what its token stands for. -/
theorem Kept.run (hdistinct : DrawsDistinct env c draws) {s : State ν}
    (h : Kept env c draws s) {actions : List (Action ν)}
    (hdraws : ∀ d, .tokenize d ∈ actions → d ∈ draws)
    (hok : Allowed (Vault.step env c) (StepLasting env c) s actions) :
    Kept env c draws (actions.foldl (Vault.step env c) s) := by
  induction actions generalizing s with
  | nil => exact h
  | cons a actions ih =>
    refine ih (h.step hdistinct (fun d hd => hdraws d (by simp [hd])) hok.1)
      (fun d hd => hdraws d (List.mem_cons_of_mem a hd)) hok.2

/-- A promised token is restored. -/
theorem Promised.restored {s : State ν} {k p : JsString} {until' : ℕ}
    (h : Promised env c s k p until') (hnow : s.now < until') :
    restored env s k = some p ∧ ∃ type, revealed env s k .null = .ok (type, p) := by
  obtain ⟨-, r, hr, hexpires, henvelope, hopens⟩ := h
  have hget : get s.tokens k = some (.record r) := by rw [get, hr]
  have hlive : r.live s.now = true := decide_eq_true (hnow.le.trans hexpires)
  have hopened : r.opened env s.now r.aad = some p :=
    hopens s.now fun t ht => hnow.trans_le (henvelope t ht)
  refine ⟨?_, r.type, ?_⟩
  · rw [Vault.restored, hget]
    simp only [hlive, if_true, hopened]
  · have haad : revealAad r (.null : JsValue ν) = r.aad := rfl
    rw [revealed, hget]
    simp only [hlive, Bool.not_true, Bool.false_eq_true, if_false, haad, hopened]

end Promise

section Results

variable {env : Platform} {c : Settings} {s : State ν} {sink : Sink}

theorem lookup_filterMap_restored {tokens : List JsString} {k p : JsString}
    (hk : k ∈ tokens) (h : restored env s k = some p) :
    (tokens.filterMap fun token => (restored env s token).map fun plaintext =>
      (token, plaintext)).lookup k = some p := by
  induction tokens with
  | nil => cases hk
  | cons token tokens ih =>
    by_cases heq : k = token
    · subst heq
      simp [h]
    · have hmem := ih ((List.mem_cons.mp hk).resolve_left heq)
      rcases hr : restored env s token with _ | p'
      · simpa [List.filterMap_cons, hr] using hmem
      · have hbeq : (k == token) = false := by simpa using heq
        simpa [List.filterMap_cons, hr, List.lookup_cons, hbeq] using hmem

/-- `detokenize` gives the plaintext of a token that is restored. -/
theorem detokenize_eq (hsink : ∀ e, sink e = .ok ()) {tokens : List JsString} {k p : JsString}
    (hk : k ∈ tokens) (h : restored env s k = some p) :
    ∃ values, (detokenize env sink s tokens []).1 = .ok values ∧ values.lookup k = some p := by
  refine ⟨restoredValues env s tokens, ?_,
    lookup_filterMap_restored (List.mem_eraseDups.mpr hk) h⟩
  simp only [detokenize, recordVaultEvent, hsink]
  rfl

/-- `reveal` gives the plaintext that it reads. -/
theorem reveal_eq (hsink : ∀ e, sink e = .ok ()) (henabled : c.revealEnabled = true)
    {k : JsString} {context : JsValue ν} {found : JsString × JsString}
    (h : revealed env s k context = .ok found) :
    (reveal env c sink s k context []).1 = .ok found := by
  rw [reveal, if_pos henabled]
  simp only [revealAllowed, h, recordVaultEvent, hsink]
  rfl

end Results

/-- In every run in which the tokens that are given out last, a token that `tokenize`
gave out is restored and revealed to its plaintext for the retention from then on. -/
theorem tokenize_valid (ν : Type) [JsNumber ν] (env : Platform) (c : Settings) (start : ℕ)
    (before after : List (Action ν)) (d : Draw ν) (k : JsString) (tokens : Tokens ν)
    (sink : Sink) (ks : List JsString)
    (hdistinct : DrawsDistinct env c (drawsOf (before ++ .tokenize d :: after)))
    (hlasting : Allowed (step env c) (StepLasting env c) ⟨start, ∅⟩
      (before ++ .tokenize d :: after))
    (htoken : tokenize env c (before.foldl (step env c) ⟨start, ∅⟩) d = some (k, tokens))
    (hpurge : .purge k ∉ after) (hsink : ∀ e, sink e = .ok ())
    (hk : k ∈ ks) (henabled : c.revealEnabled = true) :
    let issued := before.foldl (step env c) ⟨start, ∅⟩
    let s := (before ++ .tokenize d :: after).foldl (step env c) ⟨start, ∅⟩
    s.now < issued.now + c.retention →
      (∃ values, (detokenize env sink s ks []).1 = .ok values ∧
        values.lookup k = some d.plaintext) ∧
      ∃ type, (reveal env c sink s k .null []).1 = .ok (type, d.plaintext) := by
  intro issued s hnow
  obtain ⟨hbefore, hd, hafter⟩ := Allowed.append.mp hlasting
  have hkept : Kept env c (drawsOf (before ++ .tokenize d :: after)) issued := by
    refine Kept.run hdistinct (fun k r hr => ?_) (fun d' hd' => ?_) hbefore
    · rw [AList.lookup_empty] at hr
      cases hr
    · exact mem_drawsOf.mpr (List.mem_append_left _ hd')
  have hpromised := promised_tokenize hdistinct hkept (mem_drawsOf.mpr (by simp)) htoken hd
  have hstep : step env c issued (.tokenize d) = { issued with tokens } := by
    simp only [step, show tokenize env c issued d = some (k, tokens) from htoken]
  have hs : s = after.foldl (step env c) { issued with tokens } := by
    rw [← hstep]
    exact List.foldl_append
  rw [hstep] at hafter
  rw [hs] at hnow ⊢
  obtain ⟨hrestored, type, hrevealed⟩ :=
    (hpromised.run hpurge hafter hnow).restored hnow
  exact ⟨detokenize_eq hsink hk hrestored, type, reveal_eq hsink henabled hrevealed⟩

/-! ### One token -/

/-- A platform whose cipher tags the text and whose hashes give it back. -/
def clear : Platform where
  node :=
    { gcmEncrypt := fun key iv aad plaintext => (plaintext, key ++ iv ++ aad)
      gcmDecrypt := fun key iv aad ct tag => if tag = key ++ iv ++ aad then some ct else none
      sha256 := id
      hmacSha256 := fun _ data => data
      gcmDecrypt_gcmEncrypt := fun _ _ _ _ => if_pos rfl }
  nfkc := id
  ring := ⟨[(js "local", [1])], js "local", [1], rfl⟩

/-- Deterministic tokens, thirty days of retention, and reveal for development. -/
def deterministicVault : Settings := ⟨2592000000, true, none, true⟩

def bob : Draw NumberToken where
  plaintext := js "bob@example.com"
  type := js "email"
  context := .obj []
  metadata := []
  random := []
  iv := [0]
  granted := true

def emptyVault : State NumberToken := ⟨0, ∅⟩

def bobToken : JsString := tokenOf clear deterministicVault bob

theorem bob_lasting : Lasting clear deterministicVault emptyVault bob := by
  have hjson : (aadOf (tokenOf clear deterministicVault bob) bob).isJson = true := by rfl
  refine ⟨by rintro r ⟨⟩, ?_, by decide +kernel⟩
  rw [JsValue.prune_of_isJson _ hjson]

theorem bob_distinct {before after : List (Action NumberToken)}
    (h : ∀ d ∈ drawsOf (before ++ .tokenize bob :: after), d = bob) :
    DrawsDistinct clear deterministicVault (drawsOf (before ++ .tokenize bob :: after)) := by
  intro d hd d' hd' _
  rw [h d hd, h d' hd']

/-- A token given out once, a day later. -/
def dayLater : List (Action NumberToken) := [.tokenize bob, .tick 86400000]

theorem tokenize_valid_bob :
    let s := dayLater.foldl (step clear deterministicVault) emptyVault
    (∃ values, (detokenize clear (fun _ => .ok ()) s [bobToken] []).1 = .ok values ∧
        values.lookup bobToken = some (js "bob@example.com")) ∧
      ∃ type, (reveal clear deterministicVault (fun _ => .ok ()) s bobToken .null []).1 =
        .ok (type, js "bob@example.com") := by
  have htoken : ∃ tokens, tokenize clear deterministicVault emptyVault bob =
      some (bobToken, tokens) := ⟨_, rfl⟩
  obtain ⟨tokens, htoken⟩ := htoken
  exact tokenize_valid NumberToken clear deterministicVault 0 [] [.tick 86400000] bob bobToken
    tokens (fun _ => .ok ()) [bobToken] (bob_distinct (by simp [drawsOf]))
    ⟨bob_lasting, trivial, trivial⟩ htoken (by simp) (fun _ => rfl) (by simp) rfl
    (by decide +kernel)

/-- A token given out again after twenty days, and read fifteen days later. -/
def reissued : List (Action NumberToken) := [.tokenize bob, .tick 1728000000]

/-- The envelope of the reissued token expires thirty days after its first issue. -/
theorem tokenize_expired : ¬∀ (env : Platform) (c : Settings) (start : ℕ)
    (before after : List (Action NumberToken)) (d : Draw NumberToken) (k : JsString)
    (tokens : Tokens NumberToken) (sink : Sink) (ks : List JsString),
    DrawsDistinct env c (drawsOf (before ++ .tokenize d :: after)) →
    tokenize env c (before.foldl (step env c) ⟨start, ∅⟩) d = some (k, tokens) →
    .purge k ∉ after → (∀ e, sink e = .ok ()) → k ∈ ks → c.revealEnabled = true →
    let issued := before.foldl (step env c) ⟨start, ∅⟩
    let s := (before ++ .tokenize d :: after).foldl (step env c) ⟨start, ∅⟩
    s.now < issued.now + c.retention →
      (∃ values, (detokenize env sink s ks []).1 = .ok values ∧
        values.lookup k = some d.plaintext) ∧
      ∃ type, (reveal env c sink s k .null []).1 = .ok (type, d.plaintext) := by
  intro h
  have htoken : ∃ tokens, tokenize clear deterministicVault
      (reissued.foldl (step clear deterministicVault) emptyVault) bob =
      some (bobToken, tokens) := ⟨_, rfl⟩
  obtain ⟨tokens, htoken⟩ := htoken
  obtain ⟨⟨values, hvalues, hlookup⟩, -⟩ := h clear deterministicVault 0 reissued
    [.tick 1296000000] bob bobToken tokens (fun _ => .ok ()) [bobToken]
    (bob_distinct (by simp [drawsOf, reissued])) htoken (by simp) (fun _ => rfl) (by simp) rfl
    (by decide +kernel)
  have hnone : (detokenize clear (fun _ => .ok ())
      ((reissued ++ Action.tokenize bob :: [Action.tick 1296000000]).foldl
        (step clear deterministicVault) emptyVault) [bobToken] []).1 = .ok [] := by rfl
  obtain rfl : [] = values := Except.ok.inj (hnone.symm.trans hvalues)
  cases hlookup

end Haechi.Vault
