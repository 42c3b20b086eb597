import Haechi.Oidc.Sessions
import Haechi.Text.Utf8

/-! Login and callback. A login leaves a pending record under the pre-auth cookie it sets;
a callback takes the record, compares the state, and then goes through the exchange, the
verification and the identity, each of which may come back at any time. A record is never
in two places: it is in the store, or with the one callback that took it. -/

namespace Haechi.Oidc.Login

open Text

/-! ### The pending store -/

/-- What a login remembers. `login` is its place among all records that were stored. -/
structure Pending where
  state : JsString
  nonce : JsString
  codeVerifier : JsString
  tokenEndpoint : JsString
  createdAt : ℤ
  expiresAt : ℤ
  login : ℕ
deriving DecidableEq

/-- The in-memory pending store, by the pre-auth cookie. Nothing depends on the order. -/
abbrev PendingStore := List (JsString × Pending)

def PendingStore.prune (m : PendingStore) (now : ℤ) : PendingStore :=
  m.filter fun e => now < e.2.expiresAt

def PendingStore.set (m : PendingStore) (cap : ℕ) (key : JsString) (record : Pending) (now : ℤ) :
    Bool × PendingStore :=
  let m := m.prune now
  if !m.any (·.1 = key) && cap ≤ m.length then (false, m)
  else (true, m.filter (·.1 ≠ key) ++ [(key, record)])

/-- The record is deleted in the call that returns it. -/
def PendingStore.take (m : PendingStore) (key : JsString) (now : ℤ) :
    Option Pending × PendingStore :=
  match m.lookup key with
  | none => (none, m)
  | some r => (if r.expiresAt ≤ now then none else some r, m.filter (·.1 ≠ key))

/-! ### The handlers -/

/-- Random bytes in base64url. -/
def randomToken (bytes : List ℕ) : JsString := (sextetsOfBytes bytes).map Base64.url.letter

def constantTimeEqual (a b : JsString) : Bool := encodeUtf8 a = encodeUtf8 b

/-- The nonce check at the end of `verify`. -/
def nonceOk (claims : Claims) (expectedNonce : JsString) : Bool := claims.nonce = some expectedNonce

/-- With a maximal age, `auth_time` is a number that is recent enough. -/
def maxAgeOk (cfg : Config) (claims : Claims) (now : ℤ) : Bool :=
  cfg.maxAgeSeconds.all fun maxAge =>
    claims.authTime.any fun authTime => (now : ℚ) / 1000 - authTime ≤ maxAge + cfg.clockSkewSeconds

/-- Where a callback is. After the exchange it keeps what it has got so far. -/
inductive Phase where
  | exchange
  | verify (response : TokenResponse)
  | identify (response : TokenResponse) (claims : Claims)
  | custody (claims : Claims) (sessionId : JsString) (identity : Identity) (createdAt : ℤ)
  | publish
  | ended

/-- A call of `handleCallback`: the record it took, and the state it was called with. -/
structure Callback where
  record : Option Pending
  state : Option JsString
  phase : Phase

/-- A token exchange. -/
structure Exchange where
  callback : ℕ
  login : ℕ
  code : JsString
  codeVerifier : JsString
  tokenEndpoint : JsString

/-- A session that was minted, with the claims it was minted for. -/
structure Mint where
  callback : ℕ
  login : ℕ
  sessionId : JsString
  claims : Claims

/-- The broker with its logins: all records ever stored, all callbacks, exchanges and
minted sessions so far. -/
structure Flow where
  pending : PendingStore
  records : List Pending
  callbacks : List Callback
  exchanges : List Exchange
  mints : List Mint
  broker : Broker

def start : Flow := ⟨[], [], [], [], [], Oidc.start⟩

/-- The random bytes of a login. -/
structure Draws where
  preauthId : List ℕ
  state : List ℕ
  nonce : List ℕ
  codeVerifier : List ℕ

/-- `handleLogin` once discovery has come back. -/
def handleLogin (cfg : Config) (s : Flow) (d : Draws) (tokenEndpoint : JsString) (now : ℤ) : Flow :=
  let record : Pending :=
    { state := randomToken d.state
      nonce := randomToken d.nonce
      codeVerifier := randomToken d.codeVerifier
      tokenEndpoint := tokenEndpoint
      createdAt := now
      expiresAt := now + cfg.pendingTtlSeconds * 1000
      login := s.records.length }
  let p := s.pending.set cfg.pendingCap (randomToken d.preauthId) record now
  { s with pending := p.2, records := if p.1 then s.records ++ [record] else s.records }

structure Query where
  state : Option JsString
  iss : Option JsString
  code : Option JsString

def Flow.answer (s : Flow) (c : Callback) : Flow := { s with callbacks := s.callbacks ++ [c] }

/-- `handleCallback` up to the exchange, which it starts in the turn that takes the record. -/
def handleCallback (cfg : Config) (s : Flow) (preauthId : Option JsString) (q : Query) (now : ℤ) :
    Flow :=
  match nonempty? preauthId with
  | none => s.answer ⟨none, q.state, .ended⟩
  | some key =>
    let p := s.pending.take key now
    let s := { s with pending := p.2 }
    match p.1 with
    | none => s.answer ⟨none, q.state, .ended⟩
    | some r =>
      if q.state.any (constantTimeEqual · r.state) && q.iss.all (· = cfg.issuer) then
        match nonempty? q.code with
        | none => s.answer ⟨some r, q.state, .ended⟩
        | some code =>
          { s.answer ⟨some r, q.state, .exchange⟩ with
            exchanges := s.exchanges ++
              [⟨s.callbacks.length, r.login, code, r.codeVerifier, r.tokenEndpoint⟩] }
      else s.answer ⟨some r, q.state, .ended⟩

def Flow.goto (s : Flow) (i : ℕ) (c : Callback) (phase : Phase) : Flow :=
  { s with callbacks := s.callbacks.set i { c with phase := phase } }

/-- The last turn before the answer. -/
def mintSession (cfg : Config) (s : Flow) (i : ℕ) (c : Callback) (r : Pending) (claims : Claims)
    (sessionId : JsString) (identity : Identity) (createdAt : ℤ) (envelope : Option JsString) :
    Flow :=
  { s.goto i c .publish with
    mints := s.mints ++ [⟨i, r.login, sessionId, claims⟩]
    broker := mint cfg s.broker sessionId identity createdAt envelope }

/-- A callback goes on with what it awaited. `bytes` are the ones a session id is drawn of. -/
def continueCallback (cfg : Config) (s : Flow) (i : ℕ) (c : Callback) (r : Pending) (y : Yield)
    (now : ℤ) (bytes : List ℕ) : Flow :=
  match c.phase, y with
  | .exchange, .response (some response) =>
    if issOk cfg response && (nonempty? response.idToken).isSome then s.goto i c (.verify response)
    else s.goto i c .ended
  | .verify response, .claims claims =>
    if nonceOk claims r.nonce && oidcAudienceProfileOk cfg claims && maxAgeOk cfg claims now then
      s.goto i c (.identify response claims)
    else s.goto i c .ended
  | .identify response claims, .identity identity =>
    if cfg.enableRefresh && (nonempty? response.refreshToken).isSome then
      s.goto i c (.custody claims (randomToken bytes) identity now)
    else mintSession cfg s i c r claims (randomToken bytes) identity now none
  | .custody claims sessionId identity createdAt, .envelope envelope =>
    mintSession cfg s i c r claims sessionId identity createdAt (some envelope)
  | .publish, _ => s.goto i c .ended
  -- A failure is denied, and so is the value `null`, whose members cannot be read.
  | .exchange, .response none => s.goto i c .ended
  | .ended, _ => s
  | _, .failed => s.goto i c .ended
  | _, _ => s

/-! ### Steps -/

inductive Action where
  | login (draws : Draws) (tokenEndpoint : JsString) (now : ℤ)
  | callback (preauthId : Option JsString) (query : Query) (now : ℤ)
  | resume (i : ℕ) (yield : Yield) (now : ℤ) (bytes : List ℕ)
  | session (a : Oidc.Action)

def step (cfg : Config) (s : Flow) : Action → Flow
  | .login d tokenEndpoint now => handleLogin cfg s d tokenEndpoint now
  | .callback preauthId q now => handleCallback cfg s preauthId q now
  | .resume i y now bytes =>
    match s.callbacks[i]? with
    | some c =>
      match c.record with
      | some r => continueCallback cfg s i c r y now bytes
      | none => s
    | none => s
  -- A session is minted by a callback only.
  | .session (.login ..) => s
  | .session a => { s with broker := Oidc.step cfg s.broker a }

variable {cfg : Config} {s s' : Flow} {i : ℕ} {c : Callback} {r : Pending}

/-! ### The store -/

section Store

variable {m : PendingStore} {cap : ℕ} {key k : JsString} {record : Pending} {now : ℤ}

theorem prune_sublist : List.Sublist (m.prune now) m := List.filter_sublist

/-- A record is refused, or is stored next to the unexpired ones. -/
theorem set_cases (m : PendingStore) (cap : ℕ) (key : JsString) (record : Pending) (now : ℤ) :
    m.set cap key record now = (false, m.prune now) ∨
      m.set cap key record now =
        (true, (m.prune now).filter (fun e => e.1 ≠ key) ++ [(key, record)]) := by
  simp only [PendingStore.set]
  split_ifs
  · exact .inl rfl
  · exact .inr rfl

/-- The cap holds. -/
theorem set_length (h : m.length ≤ cap) : (m.set cap key record now).2.length ≤ cap := by
  have hprune : (m.prune now).length ≤ cap := prune_sublist.length_le.trans h
  simp only [PendingStore.set]
  split_ifs with hfull
  · exact hprune
  · rw [List.length_append, List.length_singleton]
    by_cases hany : (m.prune now).any (·.1 = key) = true
    · obtain ⟨e, he, hkey⟩ := List.any_eq_true.mp hany
      have hlt : ((m.prune now).filter fun e => e.1 ≠ key).length < (m.prune now).length :=
        List.length_filter_lt_length_iff_exists.mpr ⟨e, he, by simpa using hkey⟩
      omega
    · have hlt : (m.prune now).length < cap := by
        by_contra hle
        exact hfull (by simp [Bool.eq_false_iff.mpr hany, not_lt.mp hle])
      have := List.length_filter_le (fun e => decide (e.1 ≠ key)) (m.prune now)
      omega

/-- An unexpired record under another key stays. -/
theorem mem_set {e : JsString × Pending} (he : e ∈ m) (hlive : now < e.2.expiresAt)
    (hkey : e.1 ≠ key) : e ∈ (m.set cap key record now).2 := by
  have hprune : e ∈ m.prune now := List.mem_filter.mpr ⟨he, by simpa using hlive⟩
  rcases set_cases m cap key record now with h | h
  · rw [h]
    exact hprune
  · rw [h]
    exact List.mem_append_left _ (List.mem_filter.mpr ⟨hprune, by simpa using hkey⟩)

theorem take_sublist : List.Sublist (m.take key now).2 m := by
  unfold PendingStore.take
  split
  · exact List.Sublist.refl _
  · exact List.filter_sublist

/-- A record that is taken was in the store under the key, and the key is free after. -/
theorem take_some (h : (m.take key now).1 = some record) :
    (key, record) ∈ m ∧ (m.take key now).2 = m.filter fun e => e.1 ≠ key := by
  unfold PendingStore.take at h ⊢
  cases hl : m.lookup key with
  | none =>
    rw [hl] at h
    cases h
  | some r =>
    rw [hl] at h
    simp only at h ⊢
    split_ifs at h
    obtain rfl := Option.some.inj h
    exact ⟨mem_of_lookup hl, trivial⟩

theorem mem_take {e : JsString × Pending} (he : e ∈ m) (hkey : e.1 ≠ key) :
    e ∈ (m.take key now).2 := by
  unfold PendingStore.take
  split
  · exact he
  · exact List.mem_filter.mpr ⟨he, by simpa using hkey⟩

end Store

/-! ### What a turn of a callback does -/

/-- The exchange has been started, and no session has been minted yet. -/
def Phase.isActive : Phase → Bool
  | .publish => false
  | .ended => false
  | _ => true

/-- The claims that have been verified. -/
def Phase.claims? : Phase → Option Claims
  | .identify _ claims => some claims
  | .custody claims _ _ _ => some claims
  | _ => none

/-- A turn moves a callback on, with verified claims that bear the nonce of its record, or
mints a session for such claims. -/
inductive Turn (cfg : Config) (s : Flow) (i : ℕ) (c : Callback) (r : Pending) : Flow → Prop
  | idle : Turn cfg s i c r s
  | moves (phase : Phase) (hactive : phase.isActive = true → c.phase.isActive = true)
      (hclaims : ∀ claims ∈ phase.claims?,
        claims.nonce = some r.nonce ∨ c.phase.claims? = some claims) :
      Turn cfg s i c r (s.goto i c phase)
  | mints (claims : Claims) (sessionId : JsString) (identity : Identity) (createdAt : ℤ)
      (envelope : Option JsString) (hactive : c.phase.isActive = true)
      (hclaims : c.phase.claims? = some claims) :
      Turn cfg s i c r (mintSession cfg s i c r claims sessionId identity createdAt envelope)

theorem continueCallback_turn (cfg : Config) (s : Flow) (i : ℕ) (c : Callback) (r : Pending)
    (y : Yield) (now : ℤ) (bytes : List ℕ) :
    Turn cfg s i c r (continueCallback cfg s i c r y now bytes) := by
  have ends : Turn cfg s i c r (s.goto i c .ended) :=
    .moves .ended (fun h => by cases h) (fun _ h => by cases h)
  unfold continueCallback
  split
  case h_1 response hphase =>
    split_ifs
    · exact .moves _ (fun _ => by rw [hphase]; rfl) (fun _ h => by cases h)
    · exact ends
  case h_2 response claims hphase =>
    split_ifs with hok
    · refine .moves _ (fun _ => by rw [hphase]; rfl) fun claims' hc => .inl ?_
      obtain rfl := Option.some.inj hc
      simp only [Bool.and_eq_true, nonceOk, decide_eq_true_eq] at hok
      exact hok.1.1
    · exact ends
  case h_3 response claims identity hphase =>
    split_ifs
    · refine .moves _ (fun _ => by rw [hphase]; rfl) fun claims' hc => .inr ?_
      rw [hphase]
      exact hc
    · exact .mints _ _ _ _ _ (by rw [hphase]; rfl) (by rw [hphase]; rfl)
  case h_4 hphase => exact .mints _ _ _ _ _ (by rw [hphase]; rfl) (by rw [hphase]; rfl)
  case h_5 => exact ends
  case h_6 => exact ends
  case h_7 => exact .idle
  case h_8 => exact ends
  case h_9 => exact .idle

/-! ### The invariant -/

/-- The callback took the record, was called with its state, and exchanged its code with
the verifier of the record. -/
def Bound (s : Flow) (i : ℕ) (c : Callback) (r : Pending) : Prop :=
  c.record = some r ∧ c.state.any (constantTimeEqual · r.state) = true ∧
    ∃ e ∈ s.exchanges, e.callback = i ∧ e.login = r.login ∧ e.codeVerifier = r.codeVerifier

/-- Records are in one place only, and whatever is exchanged or minted leads back to the
callback it is for. -/
structure Inv (s : Flow) : Prop where
  stored : ∀ e ∈ s.pending, s.records[e.2.login]? = some e.2
  storedOnce : (s.pending.map fun e => e.2.login).Nodup
  taken : ∀ (i : ℕ) (c : Callback) (r : Pending), s.callbacks[i]? = some c → c.record = some r →
    s.records[r.login]? = some r ∧ ∀ e ∈ s.pending, e.2.login ≠ r.login
  takenOnce : ∀ (i j : ℕ) (c d : Callback) (r r' : Pending), s.callbacks[i]? = some c →
    s.callbacks[j]? = some d → c.record = some r → d.record = some r' → r.login = r'.login → i = j
  drawn : ∀ r ∈ s.records, ∃ bytes, r.state = randomToken bytes
  exchanged : ∀ e ∈ s.exchanges, ∃ c r, s.callbacks[e.callback]? = some c ∧ c.record = some r ∧
    e.login = r.login
  exchangedOnce : (s.exchanges.map Exchange.callback).Nodup
  active : ∀ (i : ℕ) (c : Callback), s.callbacks[i]? = some c → c.phase.isActive = true →
    (∀ m ∈ s.mints, m.callback ≠ i) ∧
      ∃ r, Bound s i c r ∧ ∀ claims ∈ c.phase.claims?, claims.nonce = some r.nonce
  minted : ∀ m ∈ s.mints, ∃ c r, s.callbacks[m.callback]? = some c ∧
    c.phase.isActive = false ∧ Bound s m.callback c r ∧ m.login = r.login ∧
      m.claims.nonce = some r.nonce
  mintedOnce : (s.mints.map Mint.callback).Nodup
  sessions : ∀ id, (s.broker.minted id).isSome → ∃ m ∈ s.mints, m.sessionId = id

/-- A change of phase changes no callback otherwise. -/
theorem goto_callback (hi : s.callbacks[i]? = some c) {phase : Phase} {j : ℕ} {d : Callback}
    (h : (s.goto i c phase).callbacks[j]? = some d) :
    ∃ d', s.callbacks[j]? = some d' ∧ d'.record = d.record ∧ d'.state = d.state := by
  rcases getElem?_set_eq_some h with ⟨rfl, rfl⟩ | ⟨-, h⟩
  · exact ⟨c, hi, rfl, rfl⟩
  · exact ⟨d, h, rfl, rfl⟩

theorem callback_goto (hi : s.callbacks[i]? = some c) (phase : Phase) {j : ℕ} {d : Callback}
    (h : s.callbacks[j]? = some d) :
    ∃ d', (s.goto i c phase).callbacks[j]? = some d' ∧ d'.record = d.record ∧ d'.state = d.state ∧
      (i ≠ j ∧ d' = d ∨ i = j ∧ d'.phase = phase) := by
  by_cases hij : i = j
  · subst hij
    obtain rfl := Option.some.inj (hi.symm.trans h)
    exact ⟨_, List.getElem?_set_self (List.getElem?_eq_some_iff.mp hi).1, rfl, rfl, .inr ⟨rfl, rfl⟩⟩
  · exact ⟨d, (List.getElem?_set_ne hij).trans h, rfl, rfl, .inl ⟨hij, rfl⟩⟩

theorem Inv.goto (h : Inv s) (hi : s.callbacks[i]? = some c) (hr : c.record = some r) {phase : Phase}
    (hactive : phase.isActive = true → c.phase.isActive = true)
    (hclaims : ∀ claims ∈ phase.claims?,
      claims.nonce = some r.nonce ∨ c.phase.claims? = some claims) :
    Inv (s.goto i c phase) := by
  refine { h with taken := ?_, takenOnce := ?_, exchanged := ?_, active := ?_, minted := ?_ }
  · intro j d r' hd hr'
    obtain ⟨d', hd', hrecord, -⟩ := goto_callback hi hd
    exact h.taken j d' r' hd' (hrecord.trans hr')
  · intro j k d e r₁ r₂ hd he hr₁ hr₂ hlogin
    obtain ⟨d', hd', hrecord, -⟩ := goto_callback hi hd
    obtain ⟨e', he', hrecord', -⟩ := goto_callback hi he
    exact h.takenOnce j k d' e' r₁ r₂ hd' he' (hrecord.trans hr₁) (hrecord'.trans hr₂) hlogin
  · intro e he
    obtain ⟨d, r', hd, hr', hlogin⟩ := h.exchanged e he
    obtain ⟨d', hd', hrecord, -, -⟩ := callback_goto hi phase hd
    exact ⟨d', r', hd', hrecord.trans hr', hlogin⟩
  · intro j d hd hactive'
    rcases getElem?_set_eq_some hd with ⟨rfl, rfl⟩ | ⟨-, hd⟩
    · obtain ⟨hno, r', hbound, hnonce⟩ := h.active i c hi (hactive hactive')
      obtain rfl := Option.some.inj (hr.symm.trans hbound.1)
      refine ⟨hno, r, hbound, fun claims hc => ?_⟩
      rcases hclaims claims hc with hn | hn
      · exact hn
      · exact hnonce claims hn
    · exact h.active j d hd hactive'
  · intro m hm
    obtain ⟨d, r', hd, hinactive, hbound, hlogin, hnonce⟩ := h.minted m hm
    obtain ⟨d', hd', hrecord, hstate, hphase⟩ := callback_goto hi phase hd
    refine ⟨d', r', hd', ?_, ⟨hrecord.trans hbound.1, hstate ▸ hbound.2.1, hbound.2.2⟩, hlogin, hnonce⟩
    rcases hphase with ⟨-, rfl⟩ | ⟨hij, hphase⟩
    · exact hinactive
    · have hc : c = d := Option.some.inj (hi.symm.trans (hij ▸ hd))
      by_contra hne
      rw [hphase, Bool.not_eq_false] at hne
      have := hactive hne
      rw [hc, hinactive] at this
      cases this

theorem Inv.mint (h : Inv s) (hi : s.callbacks[i]? = some c) {claims : Claims}
    (hr : c.record = some r) (hactive : c.phase.isActive = true)
    (hclaims : c.phase.claims? = some claims) (sessionId : JsString) (identity : Identity)
    (createdAt : ℤ) (envelope : Option JsString) :
    Inv (mintSession cfg s i c r claims sessionId identity createdAt envelope) := by
  obtain ⟨hno, r', hbound, hnonce⟩ := h.active i c hi hactive
  obtain rfl := Option.some.inj (hr.symm.trans hbound.1)
  have hgoto : Inv (s.goto i c .publish) :=
    h.goto hi hr (fun h => by cases h) (fun _ h => by cases h)
  obtain ⟨c', hc', hrecord, hstate, hphase⟩ := callback_goto hi .publish hi
  have hpublish : c'.phase = .publish := by
    rcases hphase with ⟨hne, -⟩ | ⟨-, hphase⟩
    · exact absurd rfl hne
    · exact hphase
  refine { hgoto with active := ?_, minted := ?_, mintedOnce := ?_, sessions := ?_ }
  · intro j d hd hactive'
    obtain ⟨hno', hrest⟩ := hgoto.active j d hd hactive'
    refine ⟨fun m hm => ?_, hrest⟩
    rcases List.mem_append.mp hm with hm | hm
    · exact hno' m hm
    · rw [List.mem_singleton.mp hm]
      rintro rfl
      obtain rfl := Option.some.inj (hc'.symm.trans hd)
      rw [hpublish] at hactive'
      cases hactive'
  · intro m hm
    rcases List.mem_append.mp hm with hm | hm
    · exact hgoto.minted m hm
    · rw [List.mem_singleton.mp hm]
      exact ⟨c', r, hc', by rw [hpublish]; rfl,
        ⟨hrecord.trans hbound.1, hstate ▸ hbound.2.1, hbound.2.2⟩, rfl, hnonce claims hclaims⟩
  · show ((s.mints ++ [_]).map Mint.callback).Nodup
    rw [List.map_append, List.nodup_append]
    refine ⟨h.mintedOnce, List.nodup_singleton _, fun a ha b hb => ?_⟩
    obtain ⟨m, hm, rfl⟩ := List.mem_map.mp ha
    rw [List.mem_singleton.mp hb]
    exact hno m hm
  · intro id hid
    change ((Oidc.mint cfg s.broker sessionId identity createdAt envelope).minted id).isSome at hid
    rw [Oidc.mint, set_minted] at hid
    by_cases hs : id = sessionId
    · exact ⟨_, List.mem_append_right _ (List.mem_singleton_self _), hs.symm⟩
    · obtain ⟨m, hm, hmid⟩ := h.sessions id (by
        rwa [show Broker.minted _ id = s.broker.minted id from Function.update_of_ne hs ..] at hid)
      exact ⟨m, List.mem_append_left _ hm, hmid⟩

theorem Inv.turn (h : Inv s) (hi : s.callbacks[i]? = some c) (hr : c.record = some r)
    (hturn : Turn cfg s i c r s') : Inv s' := by
  cases hturn with
  | idle => exact h
  | moves phase hactive hclaims => exact h.goto hi hr hactive hclaims
  | mints claims sessionId identity createdAt envelope hactive hclaims =>
    exact h.mint hi hr hactive hclaims sessionId identity createdAt envelope

/-! ### Logins and new callbacks -/

/-- Records may leave the store. -/
theorem Inv.shrink (h : Inv s) {p : PendingStore} (hp : List.Sublist p s.pending) :
    Inv { s with pending := p } := by
  refine { h with stored := ?_, storedOnce := ?_, taken := ?_ }
  · exact fun e he => h.stored e (hp.subset he)
  · exact h.storedOnce.sublist (hp.map _)
  · intro j c r hc hr
    obtain ⟨hrecord, hne⟩ := h.taken j c r hc hr
    exact ⟨hrecord, fun e he => hne e (hp.subset he)⟩

/-- A new record is stored. -/
theorem Inv.store (h : Inv s) (key : JsString) {record : Pending}
    (hlogin : record.login = s.records.length) (hdrawn : ∃ bytes, record.state = randomToken bytes) :
    Inv { s with pending := s.pending ++ [(key, record)], records := s.records ++ [record] } := by
  have old : ∀ {n : ℕ} {r : Pending}, s.records[n]? = some r → (s.records ++ [record])[n]? = some r :=
    fun hn => getElem?_concat_eq_some.mpr (.inl hn)
  have fresh : ∀ {n : ℕ} {r : Pending}, s.records[n]? = some r → n ≠ record.login := by
    intro n r hn
    have := (List.getElem?_eq_some_iff.mp hn).1
    omega
  refine { h with stored := ?_, storedOnce := ?_, taken := ?_, drawn := ?_ }
  · intro e he
    rcases List.mem_append.mp he with he | he
    · exact old (h.stored e he)
    · rw [List.mem_singleton.mp he]
      exact getElem?_concat_eq_some.mpr (.inr ⟨hlogin, rfl⟩)
  · rw [List.map_append, List.nodup_append]
    refine ⟨h.storedOnce, List.nodup_singleton _, fun a ha b hb => ?_⟩
    obtain ⟨e, he, rfl⟩ := List.mem_map.mp ha
    rw [List.mem_singleton.mp hb]
    exact fresh (h.stored e he)
  · intro j c r hc hr
    obtain ⟨hrecord, hne⟩ := h.taken j c r hc hr
    refine ⟨old hrecord, fun e he => ?_⟩
    rcases List.mem_append.mp he with he | he
    · exact hne e he
    · rw [List.mem_singleton.mp he]
      exact (fresh hrecord).symm
  · intro r hr
    rcases List.mem_append.mp hr with hr | hr
    · exact h.drawn r hr
    · rw [List.mem_singleton.mp hr]
      exact hdrawn

theorem Inv.login (h : Inv s) (d : Draws) (tokenEndpoint : JsString) (now : ℤ) :
    Inv (handleLogin cfg s d tokenEndpoint now) := by
  simp only [handleLogin]
  generalize hrecord : Pending.mk _ _ _ _ _ _ _ = record
  rcases set_cases s.pending cfg.pendingCap (randomToken d.preauthId) record now with hset | hset
  · rw [hset]
    exact h.shrink prune_sublist
  · rw [hset]
    have hrest : Inv { s with
        pending := (s.pending.prune now).filter fun e => e.1 ≠ randomToken d.preauthId } :=
      h.shrink (List.filter_sublist.trans prune_sublist)
    exact hrest.store _ (by rw [← hrecord]) ⟨d.state, by rw [← hrecord]⟩

/-- The record of a new callback has left the store, and no other callback has it. -/
def Free (s : Flow) (r : Pending) : Prop :=
  s.records[r.login]? = some r ∧ (∀ e ∈ s.pending, e.2.login ≠ r.login) ∧
    ∀ (j : ℕ) (d : Callback) (r' : Pending), s.callbacks[j]? = some d → d.record = some r' →
      r'.login ≠ r.login

/-- A callback comes, and starts at most one exchange, for its record. -/
theorem Inv.answer (h : Inv s) (hr : ∀ r, c.record = some r → Free s r) {es : List Exchange}
    (hone : es.length ≤ 1)
    (hes : ∀ e ∈ es, e.callback = s.callbacks.length ∧ ∃ r, c.record = some r ∧ e.login = r.login)
    (hactive : c.phase.isActive = true → c.phase.claims? = none ∧
      ∃ r, Bound { s with exchanges := s.exchanges ++ es } s.callbacks.length c r) :
    Inv { s.answer c with exchanges := s.exchanges ++ es } := by
  have bound : ∀ {j : ℕ} {d : Callback} {r : Pending}, Bound s j d r →
      Bound { s.answer c with exchanges := s.exchanges ++ es } j d r := by
    rintro j d r ⟨hrecord, hstate, e, he, hcallback⟩
    exact ⟨hrecord, hstate, e, List.mem_append_left _ he, hcallback⟩
  have old : ∀ {j : ℕ} {d : Callback}, s.callbacks[j]? = some d →
      (s.callbacks ++ [c])[j]? = some d := fun hd => getElem?_concat_eq_some.mpr (.inl hd)
  have lt : ∀ {j : ℕ} {d : Callback}, s.callbacks[j]? = some d → j ≠ s.callbacks.length := by
    intro j d hd
    exact (List.getElem?_eq_some_iff.mp hd).1.ne
  refine { h with taken := ?_, takenOnce := ?_, exchanged := ?_, exchangedOnce := ?_, active := ?_, minted := ?_ }
  · intro j d r hd hdr
    rcases getElem?_concat_eq_some.mp hd with hd | ⟨-, rfl⟩
    · exact h.taken j d r hd hdr
    · exact ⟨(hr r hdr).1, (hr r hdr).2.1⟩
  · intro j k d e r r' hd he hdr her hlogin
    rcases getElem?_concat_eq_some.mp hd with hd | ⟨hj, rfl⟩
    · rcases getElem?_concat_eq_some.mp he with he | ⟨-, rfl⟩
      · exact h.takenOnce j k d e r r' hd he hdr her hlogin
      · exact absurd hlogin ((hr r' her).2.2 j d r hd hdr)
    · rcases getElem?_concat_eq_some.mp he with he | ⟨hk, -⟩
      · exact absurd hlogin.symm ((hr r hdr).2.2 k e r' he her)
      · exact hj.trans hk.symm
  · intro e he
    rcases List.mem_append.mp he with he | he
    · obtain ⟨d, r, hd, hdr, hlogin⟩ := h.exchanged e he
      exact ⟨d, r, old hd, hdr, hlogin⟩
    · obtain ⟨hcallback, r, hcr, hlogin⟩ := hes e he
      exact ⟨c, r, getElem?_concat_eq_some.mpr (.inr ⟨hcallback, rfl⟩), hcr, hlogin⟩
  · show ((s.exchanges ++ es).map Exchange.callback).Nodup
    rw [List.map_append, List.nodup_append]
    refine ⟨h.exchangedOnce, ?_, fun a ha b hb => ?_⟩
    · rcases es with _ | ⟨e, _ | ⟨e', es⟩⟩
      · exact List.nodup_nil
      · exact List.nodup_singleton _
      · simp at hone
    · obtain ⟨e, he, rfl⟩ := List.mem_map.mp ha
      obtain ⟨e', he', rfl⟩ := List.mem_map.mp hb
      obtain ⟨d, -, hd, -⟩ := h.exchanged e he
      rw [(hes e' he').1]
      exact lt hd
  · intro j d hd hact
    rcases getElem?_concat_eq_some.mp hd with hd | ⟨rfl, rfl⟩
    · obtain ⟨hno, r, hbound, hnonce⟩ := h.active j d hd hact
      exact ⟨hno, r, bound hbound, hnonce⟩
    · obtain ⟨hclaims, r, hbound⟩ := hactive hact
      refine ⟨fun m hm => ?_, r, hbound, fun claims hc => ?_⟩
      · obtain ⟨d, -, hd, -⟩ := h.minted m hm
        exact lt hd
      · rw [hclaims] at hc
        cases hc
  · intro m hm
    obtain ⟨d, r, hd, hinactive, hbound, hrest⟩ := h.minted m hm
    exact ⟨d, r, old hd, hinactive, bound hbound, hrest⟩

/-- A callback that is denied at once. -/
theorem Inv.deny (h : Inv s) (hr : ∀ r, c.record = some r → Free s r)
    (hphase : c.phase.isActive = false) : Inv (s.answer c) := by
  have hanswer : Inv { s.answer c with exchanges := s.exchanges ++ [] } :=
    h.answer hr (Nat.zero_le _) (fun e he => by cases he)
      (fun hact => by rw [hphase] at hact; cases hact)
  rw [List.append_nil] at hanswer
  exact hanswer

/-- A record that has been taken is free. -/
theorem Inv.free (h : Inv s) {key : JsString} {now : ℤ} (ht : (s.pending.take key now).1 = some r) :
    Free { s with pending := (s.pending.take key now).2 } r := by
  obtain ⟨hmem, hrest⟩ := take_some ht
  refine ⟨h.stored _ hmem, fun e he => ?_, fun j d r' hd hr' => ?_⟩
  · rw [hrest] at he
    obtain ⟨he, hkey⟩ := List.mem_filter.mp he
    intro hlogin
    have := List.inj_on_of_nodup_map h.storedOnce he hmem hlogin
    rw [this] at hkey
    simp at hkey
  · exact ((h.taken j d r' hd hr').2 _ hmem).symm

theorem Inv.callback (h : Inv s) (preauthId : Option JsString) (q : Query) (now : ℤ) :
    Inv (handleCallback cfg s preauthId q now) := by
  have none_free : ∀ {s : Flow} (r : Pending), (none : Option Pending) = some r → Free s r :=
    fun _ hr => by cases hr
  unfold handleCallback
  split
  · exact h.deny none_free rfl
  · next key _ =>
    have hrest : Inv { s with pending := (s.pending.take key now).2 } := h.shrink take_sublist
    simp only
    split
    · exact hrest.deny none_free rfl
    · next r ht =>
      have hfree : ∀ r', some r = some r' →
          Free { s with pending := (s.pending.take key now).2 } r' := by
        rintro _ ⟨⟩
        exact h.free ht
      split_ifs with hstate
      · split
        · exact hrest.deny hfree rfl
        · next code _ =>
          refine hrest.answer hfree le_rfl (fun e he => ?_) fun _ => ⟨rfl, r, rfl, ?_, ?_⟩
          · rw [List.mem_singleton.mp he]
            exact ⟨rfl, r, rfl, rfl⟩
          · exact (Bool.and_eq_true_iff.mp hstate).1
          · exact ⟨_, List.mem_append_right _ (List.mem_singleton_self _), rfl, rfl, rfl⟩
      · exact hrest.deny hfree rfl

theorem Inv.session (h : Inv s) (a : Oidc.Action) : Inv (step cfg s (.session a)) := by
  have other : a.isLogin = false → Inv { s with broker := Oidc.step cfg s.broker a } := by
    intro ha
    refine { h with sessions := fun id hid => h.sessions id ?_ }
    rwa [show Broker.minted (Oidc.step cfg s.broker a) = s.broker.minted from
      step_minted_eq a ha] at hid
  cases a with
  | login id identity t envelope => exact h
  | _ => exact other rfl

theorem Inv.step (h : Inv s) (a : Action) : Inv (step cfg s a) := by
  cases a with
  | login d tokenEndpoint now => exact h.login d tokenEndpoint now
  | callback preauthId q now => exact h.callback preauthId q now
  | resume i y now bytes =>
    rw [Login.step]
    split
    · next c hi =>
      split
      · next r hr => exact h.turn hi hr (continueCallback_turn ..)
      · exact h
    · exact h
  | session a => exact h.session a

theorem inv_run (cfg : Config) (as : List Action) : Inv (as.foldl (Login.step cfg) start) := by
  have hall : Allowed (Login.step cfg) (fun _ _ => True) start as :=
    Allowed.of_forall (fun _ _ => trivial) _ _
  refine @Allowed.invariant _ _ _ _ Inv (fun _ a h _ => h.step a) _ _ ?_ hall
  exact
    { stored := fun e he => by cases he
      storedOnce := List.nodup_nil
      taken := fun i c r hc => by cases hc
      takenOnce := fun i j c d r r' hc => by cases hc
      drawn := fun r hr => by cases hr
      exchanged := fun e he => by cases he
      exchangedOnce := List.nodup_nil
      active := fun i c hc => by cases hc
      minted := fun m hm => by cases hm
      mintedOnce := List.nodup_nil
      sessions := fun id hid => by cases hid }

/-! ### The protocol -/

theorem letter_ascii (n : ℕ) : Base64.url.letter n < 128 := by
  rw [UInt16.lt_iff_toNat_lt]
  unfold Base64.letter
  split_ifs <;> simp [Nat.toUInt16, UInt16.toNat_ofNat'] <;> omega

/-- Only the state of the record has its bytes. -/
theorem state_eq {state : Option JsString} {bytes : List ℕ}
    (h : state.any (constantTimeEqual · (randomToken bytes)) = true) :
    state = some (randomToken bytes) := by
  cases state with
  | none => cases h
  | some st =>
    refine congrArg some (eq_of_encodeUtf8_eq (fun c hc => ?_) (of_decide_eq_true h))
    obtain ⟨n, -, rfl⟩ := List.mem_map.mp hc
    exact letter_ascii n

/-- Two exchanges, or two sessions, of one record would be of one callback. -/
theorem nodup_logins {α : Type} {l : List α} {callback login : α → ℕ} (h : Inv s)
    (hone : (l.map callback).Nodup)
    (hl : ∀ x ∈ l, ∃ c r, s.callbacks[callback x]? = some c ∧ c.record = some r ∧ login x = r.login) :
    (l.map login).Nodup := by
  refine List.pairwise_map.mpr ((List.pairwise_map.mp hone).imp_of_mem ?_)
  intro x y hx hy hne hlogin
  obtain ⟨c, r, hc, hr, hxl⟩ := hl x hx
  obtain ⟨d, r', hd, hr', hyl⟩ := hl y hy
  exact hne (h.takenOnce _ _ c d r r' hc hd hr hr' (hxl.symm.trans (hlogin.trans hyl)))

/-- The clock reading of a step. -/
def Action.now : Action → Option ℤ
  | .login _ _ now => some now
  | .callback _ _ now => some now
  | .resume _ _ now _ => some now
  | .session _ => none

/-- The step draws the key for a new login, or presents it as its cookie. -/
def Action.Names (key : JsString) : Action → Prop
  | .login d _ _ => randomToken d.preauthId = key
  | .callback preauthId _ _ => preauthId = some key
  | _ => False

theorem turn_pending (h : Turn cfg s i c r s') : s'.pending = s.pending := by
  cases h <;> rfl

/-- An unexpired record stays, unless the step is about its key. -/
theorem step_pending (a : Action) {key : JsString} {r : Pending} (hr : (key, r) ∈ s.pending)
    (hlive : a.now.all (· < r.expiresAt) = true) (hkey : ¬a.Names key) :
    (key, r) ∈ (step cfg s a).pending := by
  cases a with
  | login d tokenEndpoint now =>
    exact mem_set hr (of_decide_eq_true hlive) fun h => hkey h.symm
  | callback preauthId q now =>
    have hk : ∀ k, nonempty? preauthId = some k → key ≠ k := by
      rintro k hk rfl
      exact hkey (Option.filter_eq_some_iff.mp hk).1
    rw [step, handleCallback]
    split
    · exact hr
    · next k hpreauth =>
      have hmem : (key, r) ∈ (s.pending.take k now).2 := mem_take hr (hk k hpreauth)
      simp only
      split
      · exact hmem
      · split_ifs
        · split <;> exact hmem
        · exact hmem
  | resume i y now bytes =>
    rw [step]
    split
    · split
      · rwa [turn_pending (continueCallback_turn ..)]
      · exact hr
    · exact hr
  | session a => cases a <;> exact hr

theorem step_cap (a : Action) (h : s.pending.length ≤ cfg.pendingCap) :
    (step cfg s a).pending.length ≤ cfg.pendingCap := by
  cases a with
  | login d tokenEndpoint now => exact set_length h
  | callback preauthId q now =>
    rw [step, handleCallback]
    split
    · exact h
    · next key _ =>
      have htake : ((s.pending.take key now).2).length ≤ cfg.pendingCap :=
        take_sublist.length_le.trans h
      simp only
      split
      · exact htake
      · split_ifs
        · split <;> exact htake
        · exact htake
  | resume i y now bytes =>
    rw [step]
    split
    · split
      · rwa [turn_pending (continueCallback_turn ..)]
      · exact h
    · exact h
  | session a => cases a <;> exact h

end Haechi.Oidc.Login
