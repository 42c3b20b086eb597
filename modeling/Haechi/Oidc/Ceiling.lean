import Haechi.Oidc.Logout

/-! The hard ceiling. Only the start of a refresh looks at it, so it holds while every
request that comes at or after it is either turned away by an expiry or starts a refresh
itself. What a run needs is that every object kept under a session id, by the store or by
a refresh, has the ceiling that the session was minted with. -/

namespace Haechi.Oidc

variable {cfg : Config} {s s' : Broker} {i r : ℕ} {p : Refresh} {id k : JsString} {t : ℤ}

/-! ### Objects keep their ceiling -/

/-- The object has the ceiling of the session minted under the id. -/
def Anchored (s : Broker) (k : JsString) (o : Session) : Prop :=
  ∃ m, s.minted k = some m ∧ o.originalCreatedAt = m.originalCreatedAt ∧
    (m.refreshTokenEnvelope.isSome → o.refreshTokenEnvelope.isSome)

/-- Old objects keep their ceilings, and minted sessions stay. -/
structure Extends (s s' : Broker) : Prop where
  size : s.size ≤ s'.size
  objects : ∀ r < s.size, (s'.objects r).originalCreatedAt = (s.objects r).originalCreatedAt ∧
    ((s.objects r).refreshTokenEnvelope.isSome → (s'.objects r).refreshTokenEnvelope.isSome)
  minted : ∀ k m, s.minted k = some m → s'.minted k = some m

theorem Extends.refl (s : Broker) : Extends s s :=
  ⟨le_rfl, fun _ _ => ⟨rfl, fun h => h⟩, fun _ _ h => h⟩

theorem Extends.trans {s'' : Broker} (h : Extends s s') (h' : Extends s' s'') : Extends s s'' := by
  refine ⟨h.size.trans h'.size, fun r hr => ?_, fun k m hm => h'.minted k m (h.minted k m hm)⟩
  obtain ⟨hc, he⟩ := h.objects r hr
  obtain ⟨hc', he'⟩ := h'.objects r (hr.trans_le h.size)
  exact ⟨hc'.trans hc, fun ho => he' (he ho)⟩

theorem modify_extends {f : Session → Session} (hf : Keeps f) : Extends s (s.modify r f) := by
  refine ⟨le_rfl, fun q _ => ?_, fun _ _ h => h⟩
  show (Function.update s.objects r (f (s.objects r)) q).originalCreatedAt = _ ∧
    (_ → (Function.update s.objects r (f (s.objects r)) q).refreshTokenEnvelope.isSome)
  by_cases hq : q = r
  · rw [hq, Function.update_self]
    exact hf _
  · rw [Function.update_of_ne hq]
    exact ⟨rfl, fun h => h⟩

theorem pass_extends : Extends s (s.pass cfg r).2 :=
  ⟨pass_size_le, fun q hq => by rw [pass_objects hq]; exact ⟨rfl, fun h => h⟩,
    fun k m hm => by rw [pass_minted]; exact hm⟩

theorem set_extends : Extends s (s.set cfg id r) := by
  have h : Extends s (s.pass cfg r).2 := pass_extends
  exact ⟨h.size, h.objects, h.minted⟩

/-- What the broker keeps under an id is anchored. -/
def Kept (s : Broker) (k : JsString) (r : ℕ) : Prop :=
  r < s.size ∧ Anchored s k (s.objects r)

theorem Kept.extend (h : Kept s k r) (hx : Extends s s') : Kept s' k r := by
  obtain ⟨hlt, m, hm, hc, he⟩ := h
  obtain ⟨hc', he'⟩ := hx.objects r hlt
  exact ⟨hlt.trans_le hx.size, m, hx.minted k m hm, hc'.trans hc, fun hs => he' (he hs)⟩

theorem Kept.pass (h : Kept s k r) : Kept (s.pass cfg r).2 k (s.pass cfg r).1 := by
  obtain ⟨hlt, m, hm, hc, he⟩ := h
  refine ⟨pass_lt hlt, m, by rw [pass_minted]; exact hm, ?_⟩
  rw [pass_objects_self]
  exact ⟨hc, he⟩

/-- Everything the store and the refreshes keep. -/
structure Owned (s : Broker) : Prop where
  stored : ∀ k r, s.store k = some r → Kept s k r
  refreshed : ∀ (i : ℕ) (p : Refresh), s.refreshes[i]? = some p → Kept s p.sessionId p.session

theorem Owned.extend (h : Owned s) (hx : Extends s s') (hs : s'.store = s.store)
    (hr : s'.refreshes = s.refreshes) : Owned s' :=
  ⟨fun k r hk => (h.stored k r (hs ▸ hk)).extend hx,
    fun i p hi => (h.refreshed i p (hr ▸ hi)).extend hx⟩

theorem Owned.set (h : Owned s) (hr : Kept s id r) : Owned (s.set cfg id r) := by
  refine ⟨fun k q hk => ?_, fun i p hi => ?_⟩
  · change Function.update s.store id (some (s.pass cfg r).1) k = some q at hk
    by_cases hid : k = id
    · subst hid
      rw [Function.update_self] at hk
      obtain rfl := Option.some.inj hk
      exact hr.pass
    · rw [Function.update_of_ne hid] at hk
      exact (h.stored k q hk).extend set_extends
  · rw [set_refreshes] at hi
    exact (h.refreshed i p hi).extend set_extends

theorem Owned.evict (h : Owned s) : Owned (evictSession s id) := by
  refine ⟨fun k q hk => ?_, h.refreshed⟩
  change Function.update s.store id none k = some q at hk
  by_cases hid : k = id
  · rw [hid, Function.update_self] at hk
    cases hk
  · rw [Function.update_of_ne hid] at hk
    exact h.stored k q hk

theorem Owned.goto (h : Owned s) (hi : s.refreshes[i]? = some p) (phase : Phase) :
    Owned (s.goto i p phase) := by
  refine ⟨h.stored, fun j q hj => ?_⟩
  rcases getElem?_set_eq_some hj with ⟨-, rfl⟩ | ⟨-, hj⟩
  · exact h.refreshed i p hi
  · exact h.refreshed j q hj

theorem Owned.turn (h : Owned s) (hi : s.refreshes[i]? = some p) (hturn : Turn cfg s i p s') :
    Owned s' := by
  have hp : Kept s p.sessionId p.session := h.refreshed i p hi
  cases hturn with
  | idle => exact h
  | moves f hf phase hphase =>
    exact Owned.goto (s := s.modify p.session f) (h.extend (modify_extends hf) rfl rfl) hi phase
  | evicts => exact Owned.goto (s := evictSession s p.sessionId) h.evict hi _
  | commits f hf hlive =>
    have hf : Extends s (s.modify p.session f) := modify_extends hf
    refine Owned.goto ((h.extend hf rfl rfl).set (hp.extend hf)) ?_ _
    rw [set_refreshes]
    exact hi
  | settles session hphase =>
    have := h.goto hi (.settled session)
    exact ⟨this.stored, this.refreshed⟩

theorem Owned.performRefresh (h : Owned s) : Owned (performRefresh cfg s id r t).1 := by
  unfold Oidc.performRefresh
  split_ifs
  · exact h.evict
  · exact h

theorem Owned.refreshSingleFlight (h : Owned s) (hr : Kept s id r) :
    Owned (refreshSingleFlight cfg s id r t).1 := by
  unfold Oidc.refreshSingleFlight
  split
  · exact h
  · have hperf : Owned (Oidc.performRefresh cfg s id r t).1 := h.performRefresh
    have hx : Extends s (Oidc.performRefresh cfg s id r t).1 := by
      unfold Oidc.performRefresh
      split_ifs <;> exact ⟨le_rfl, fun _ _ => ⟨rfl, fun h => h⟩, fun _ _ h => h⟩
    refine ⟨hperf.stored, fun j q hj => ?_⟩
    rcases getElem?_concat_eq_some.mp hj with hj | ⟨-, rfl⟩
    · have hq := (h.refreshed j q hj).extend hx
      exact hq
    · have hnew := hr.extend hx
      exact hnew

theorem Owned.authenticate (h : Owned s) : Owned (authenticate cfg s id t) := by
  unfold Oidc.authenticate
  split
  · exact ⟨h.stored, h.refreshed⟩
  · next r hr =>
    have hpass : Owned (s.pass cfg r).2 := h.extend pass_extends pass_store pass_refreshes
    have hkept : Kept (s.pass cfg r).2 id (s.pass cfg r).1 := (h.stored id r hr).pass
    have hevict : Owned (evictSession (s.pass cfg r).2 id) := hpass.evict
    simp only [authenticateWith]
    split_ifs
    · exact ⟨hevict.stored, hevict.refreshed⟩
    · have hf : Owned (Oidc.refreshSingleFlight cfg (s.pass cfg r).2 id (s.pass cfg r).1 t).1 :=
        hpass.refreshSingleFlight hkept
      exact ⟨hf.stored, hf.refreshed⟩
    · exact ⟨hevict.stored, hevict.refreshed⟩
    · have hx : Extends (s.pass cfg r).2
          ((s.pass cfg r).2.modify (s.pass cfg r).1 fun o => { o with lastSeen := t }) :=
        modify_extends fun _ => ⟨rfl, fun h => h⟩
      have hset : Owned (Broker.set cfg _ id (s.pass cfg r).1) :=
        (hpass.extend hx rfl rfl).set (hkept.extend hx)
      exact ⟨hset.stored, hset.refreshed⟩

theorem Owned.mint (h : Owned s) (identity : Identity) (envelope : Option JsString)
    (hfresh : s.minted id = none) : Owned (mint cfg s id identity t envelope) := by
  simp only [Oidc.mint]
  have hx : ∀ session, Extends s
      { s.alloc session with minted := Function.update s.minted id (some session) } := by
    refine fun session => ⟨Nat.le_succ _, fun r hr => ?_, fun k m hm => ?_⟩
    · rw [show Broker.objects _ r = s.objects r from Function.update_of_ne hr.ne ..]
      exact ⟨rfl, fun h => h⟩
    · have hne : k ≠ id := by
        rintro rfl
        rw [hfresh] at hm
        cases hm
      exact (Function.update_of_ne hne ..).trans hm
  refine (h.extend (hx _) rfl rfl).set ⟨Nat.lt_succ_self _, _, Function.update_self .., ?_⟩
  rw [show Broker.objects _ s.size = _ from Function.update_self ..]
  exact ⟨rfl, fun h => h⟩

theorem Owned.step (h : Owned s) (a : Action) (hfresh : Fresh s a) : Owned (step cfg s a) := by
  cases a with
  | login id identity t envelope => exact h.mint identity envelope hfresh
  | authenticate id t => exact h.authenticate
  | refresh i y =>
    rw [Oidc.step]
    split
    · next p hi => exact h.turn hi (continueRefresh_turn ..)
    · exact h
  | resume i =>
    rw [Oidc.step]
    split
    · exact ⟨h.stored, h.refreshed⟩
    · exact h
  | logout id =>
    rw [Oidc.step, logout]
    split
    · exact ⟨h.stored, h.refreshed⟩
    · have hevict : Owned (evictSession s id) := h.evict
      exact ⟨hevict.stored, hevict.refreshed⟩
  | hashed j ok =>
    rw [Oidc.step]
    split
    · next l hl =>
      have hevict : Owned (evictSession s l.sessionId) := h.evict
      unfold continueLogout
      split_ifs
      · exact ⟨hevict.stored, hevict.refreshed⟩
      · exact ⟨h.stored, h.refreshed⟩
      · exact h
    · exact h

/-! ### Calls that are late come to nothing -/

/-- The refresh will settle without a session. -/
def Phase.isDoomed : Phase → Bool
  | .evict => true
  | .returned session => session.isNone
  | .settled session => session.isNone
  | _ => false

/-- The call will not succeed. -/
def CallStatus.Harmless (s : Broker) : CallStatus → Prop
  | .awaiting i => ∃ p, s.refreshes[i]? = some p ∧ p.phase.isDoomed = true
  | .evicting => True
  | .returned view => view = none

/-- If the session was minted renewable, the time is below its ceiling. -/
def Below (cfg : Config) (s : Broker) (id : JsString) (t : ℤ) : Prop :=
  ∃ m, s.minted id = some m ∧
    ∀ a, renewable cfg m → m.originalCreatedAt = some a → t < a + cfg.refreshMaxLifetimeSeconds * 1000

def Bounded (cfg : Config) (s : Broker) (c : Call) : Prop :=
  c.status.Harmless s ∨ Below cfg s c.sessionId c.time

/-- A request for a renewable session at or after its ceiling finds it expired, or starts
the refresh that looks at the ceiling. -/
def CeilingSeen (cfg : Config) (s : Broker) : Action → Prop
  | .authenticate id t => ∀ r ∈ s.store id,
      renewable cfg (s.objects r) → ceilingReached cfg (s.objects r) t →
        idleExpiry cfg (s.objects r) ≤ t ∨ absoluteExpiry cfg (s.objects r) ≤ t ∨
          renewAt cfg (s.objects r) ≤ t ∧ s.inflight id = none
  | _ => True

theorem refreshSingleFlight_doomed (hnone : s.inflight id = none)
    (hc : ceilingReached cfg (s.objects r) t = true) :
    (CallStatus.awaiting (refreshSingleFlight cfg s id r t).2).Harmless
      (refreshSingleFlight cfg s id r t).1 := by
  rw [refreshSingleFlight, hnone]
  simp only [performRefresh, if_pos hc]
  exact ⟨_, List.getElem?_concat_length, rfl⟩

/-- A request that comes late, and sees the ceiling, does not succeed. -/
theorem authenticateWith_late (hren : renewable cfg (s.objects r) = true)
    (hc : ceilingReached cfg (s.objects r) t = true)
    (hseen : idleExpiry cfg (s.objects r) ≤ t ∨ absoluteExpiry cfg (s.objects r) ≤ t ∨
      renewAt cfg (s.objects r) ≤ t ∧ s.inflight id = none) :
    ∃ status, (authenticateWith cfg s id t r).calls = s.calls ++ [⟨id, t, status⟩] ∧
      status.Harmless (authenticateWith cfg s id t r) := by
  simp only [authenticateWith]
  split_ifs with hidle hwindow habs
  · exact ⟨.evicting, rfl, trivial⟩
  · have hnone : s.inflight id = none := by
      rcases hseen with h | h | h
      · exact absurd h hidle
      · exact absurd h (not_le.mpr hwindow.2.1)
      · exact h.2
    obtain ⟨p, hp, hd⟩ := refreshSingleFlight_doomed hnone hc
    exact ⟨_, congrArg (· ++ _) (refreshSingleFlight_frame ..).1, p, hp, hd⟩
  · exact ⟨.evicting, rfl, trivial⟩
  · exfalso
    rcases hseen with h | h | h
    · exact hidle h
    · exact habs h
    · exact hwindow ⟨hren, not_le.mp habs, h.1⟩

theorem authenticate_bounded (h : Owned s) (hseen : CeilingSeen cfg s (.authenticate id t)) :
    ∃ status, (authenticate cfg s id t).calls = s.calls ++ [⟨id, t, status⟩] ∧
      Bounded cfg (authenticate cfg s id t) ⟨id, t, status⟩ := by
  cases hs : s.store id with
  | none =>
    obtain ⟨status, hcalls, -, -, hstatus⟩ := authenticate_frame cfg s id t
    refine ⟨status, hcalls, .inl ?_⟩
    rw [hstatus hs]
    rfl
  | some r =>
    obtain ⟨-, m, hm, horiginal, henvelope⟩ := h.stored id r hs
    by_cases hbelow : Below cfg s id t
    · obtain ⟨status, hcalls, hminted, -, -⟩ := authenticate_frame cfg s id t
      refine ⟨status, hcalls, .inr ?_⟩
      rw [Below, hminted]
      exact hbelow
    · have hlate : ∃ a, renewable cfg m = true ∧ m.originalCreatedAt = some a ∧
          a + cfg.refreshMaxLifetimeSeconds * 1000 ≤ t := by
        by_contra hno
        refine hbelow ⟨m, hm, fun a hr ha => not_le.mp fun hle => hno ⟨a, hr, ha, hle⟩⟩
      obtain ⟨a, hr, ha, hle⟩ := hlate
      have hren : renewable cfg (s.objects r) = true := by
        rw [renewable, Bool.and_eq_true] at hr ⊢
        exact ⟨hr.1, henvelope hr.2⟩
      have hc : ceilingReached cfg (s.objects r) t = true := by
        rw [ceilingReached, horiginal, ha]
        simpa using hle
      have hcond := hseen r hs hren hc
      have hauth : authenticate cfg s id t =
          authenticateWith cfg (s.pass cfg r).2 id t (s.pass cfg r).1 := by
        rw [authenticate, hs]
      have hpass : (s.pass cfg r).2.objects (s.pass cfg r).1 = s.objects r := pass_objects_self
      rw [← hpass] at hren hc hcond
      rw [← pass_inflight] at hcond
      obtain ⟨status, hcalls, hharmless⟩ := authenticateWith_late hren hc hcond
      rw [pass_calls] at hcalls
      rw [hauth]
      exact ⟨status, hcalls, .inl hharmless⟩

/-! ### Whole runs -/

/-- A refresh that is doomed stays so. -/
def KeepsDoomed (s s' : Broker) : Prop :=
  ∀ (i : ℕ) (p : Refresh), s.refreshes[i]? = some p → p.phase.isDoomed = true →
    ∃ q : Refresh, s'.refreshes[i]? = some q ∧ q.phase.isDoomed = true

theorem CallStatus.Harmless.mono {status : CallStatus} (h : status.Harmless s)
    (hd : KeepsDoomed s s') : status.Harmless s' := by
  cases status with
  | awaiting i =>
    obtain ⟨p, hp, hdoomed⟩ := h
    exact hd i p hp hdoomed
  | evicting => trivial
  | returned view => exact h

theorem Bounded.mono {c : Call} (h : Bounded cfg s c) (hd : KeepsDoomed s s')
    (hm : ∀ k m, s.minted k = some m → s'.minted k = some m) : Bounded cfg s' c := by
  rcases h with h | ⟨m, hc, h⟩
  · exact .inl (h.mono hd)
  · exact .inr ⟨m, hm _ m hc, h⟩

theorem turn_refreshes (hturn : Turn cfg s i p s') :
    s'.refreshes = s.refreshes ∨
      ∃ phase, s'.refreshes = s.refreshes.set i { p with phase := phase } := by
  cases hturn with
  | idle => exact .inl rfl
  | moves f hf phase hphase => exact .inr ⟨phase, rfl⟩
  | evicts => exact .inr ⟨.evict, rfl⟩
  | commits f hf hlive =>
    refine .inr ⟨.publish, ?_⟩
    show (Broker.set cfg _ p.sessionId p.session).refreshes.set i _ = _
    rw [set_refreshes]
    rfl
  | settles session hphase => exact .inr ⟨.settled session, rfl⟩

theorem continueRefresh_doomed (cfg : Config) (s : Broker) (i : ℕ) {p : Refresh} (y : Yield)
    (h : p.phase.isDoomed = true) :
    continueRefresh cfg s i p y = s ∨ ∃ phase, phase.isDoomed = true ∧
      (continueRefresh cfg s i p y).refreshes = s.refreshes.set i { p with phase := phase } := by
  obtain ⟨sessionId, session, gen, time, phase⟩ := p
  cases phase with
  | evict => exact .inr ⟨.returned none, rfl, rfl⟩
  | returned session => exact .inr ⟨.settled session, h, rfl⟩
  | settled session => exact .inl rfl
  | _ => cases h

theorem refresh_doomed (hi : s.refreshes[i]? = some p) (y : Yield) :
    KeepsDoomed s (continueRefresh cfg s i p y) := by
  intro j q hj hq
  by_cases hij : i = j
  · subst hij
    obtain rfl := Option.some.inj (hi.symm.trans hj)
    rcases continueRefresh_doomed cfg s i y hq with h | ⟨phase, hphase, h⟩
    · rw [h]
      exact ⟨p, hi, hq⟩
    · rw [h, List.getElem?_set_self (List.getElem?_eq_some_iff.mp hi).1]
      exact ⟨_, rfl, hphase⟩
  · refine ⟨q, ?_, hq⟩
    rcases turn_refreshes (continueRefresh_turn cfg s i p y) with h | ⟨phase, h⟩
    · rw [h, hj]
    · rw [h, List.getElem?_set_ne hij, hj]

theorem refreshSingleFlight_refreshes (cfg : Config) (s : Broker) (id : JsString) (r : ℕ) (t : ℤ) :
    ∃ new, (refreshSingleFlight cfg s id r t).1.refreshes = s.refreshes ++ new := by
  unfold refreshSingleFlight
  split
  · exact ⟨[], (List.append_nil _).symm⟩
  · exact ⟨[_], rfl⟩

theorem authenticate_refreshes (cfg : Config) (s : Broker) (id : JsString) (t : ℤ) :
    ∃ new, (authenticate cfg s id t).refreshes = s.refreshes ++ new := by
  unfold authenticate
  split
  · exact ⟨[], (List.append_nil _).symm⟩
  · next r hr =>
    rw [← show (s.pass cfg r).2.refreshes = s.refreshes from pass_refreshes]
    simp only [authenticateWith]
    split_ifs
    · exact ⟨[], (List.append_nil _).symm⟩
    · exact refreshSingleFlight_refreshes ..
    · exact ⟨[], (List.append_nil _).symm⟩
    · refine ⟨[], ?_⟩
      show (Broker.set cfg _ id (s.pass cfg r).1).refreshes = _
      rw [set_refreshes, List.append_nil]
      rfl

theorem step_doomed (a : Action) : KeepsDoomed s (step cfg s a) := by
  have same : ∀ {s' : Broker}, s'.refreshes = s.refreshes → KeepsDoomed s s' :=
    fun h i p hi hp => ⟨p, h ▸ hi, hp⟩
  cases a with
  | login id identity t envelope => exact same set_refreshes
  | authenticate id t =>
    obtain ⟨new, h⟩ := authenticate_refreshes cfg s id t
    intro i p hi hp
    refine ⟨p, ?_, hp⟩
    rw [step, h, List.getElem?_append_left (List.getElem?_eq_some_iff.mp hi).1, hi]
  | refresh i y =>
    rw [step]
    split
    · next p hi => exact refresh_doomed hi y
    · exact same rfl
  | resume i =>
    rw [step]
    split <;> exact same rfl
  | logout id =>
    rw [step, logout]
    split <;> exact same rfl
  | hashed j ok =>
    rw [step]
    split
    · unfold continueLogout
      split_ifs <;> exact same rfl
    · exact same rfl

/-- A call that is resumed stays bounded. -/
theorem Bounded.resume {c : Call} (h : Bounded cfg s c) :
    Bounded cfg s { c with status := c.status.resume s } := by
  refine h.imp_left fun h => ?_
  obtain ⟨sessionId, time, status⟩ := c
  cases status with
  | awaiting i =>
    obtain ⟨p, hp, hd⟩ := h
    simp only [CallStatus.resume, hp, Option.map_some]
    cases hphase : p.phase with
    | settled session =>
      rw [hphase] at hd
      obtain rfl := Option.isNone_iff_eq_none.mp hd
      rfl
    | _ => exact ⟨p, hp, hd⟩
  | evicting => rfl
  | returned view => exact h

/-- Everything under an id has its ceiling, and every call is bounded by it. -/
structure Ceiled (cfg : Config) (s : Broker) : Prop where
  owned : Owned s
  bounded : ∀ (i : ℕ) (c : Call), s.calls[i]? = some c → Bounded cfg s c

theorem Ceiled.step (h : Ceiled cfg s) (a : Action) (hfresh : Fresh s a)
    (hseen : CeilingSeen cfg s a) : Ceiled cfg (step cfg s a) := by
  refine ⟨h.owned.step a hfresh, ?_⟩
  have mono : ∀ c, Bounded cfg s c → Bounded cfg (Oidc.step cfg s a) c :=
    fun c hc => hc.mono (step_doomed a) fun k m hm => step_minted a hfresh hm
  intro i c hc
  cases a with
  | login id identity t envelope =>
    rw [Oidc.step, mint_calls] at hc
    exact mono c (h.bounded i c hc)
  | authenticate id t =>
    obtain ⟨status, hcalls, hnew⟩ := authenticate_bounded h.owned hseen
    rw [Oidc.step, hcalls] at hc
    rcases getElem?_concat_eq_some.mp hc with hc | ⟨-, rfl⟩
    · exact mono c (h.bounded i c hc)
    · exact hnew
  | refresh j y =>
    have hcalls : (Oidc.step cfg s (.refresh j y)).calls = s.calls := by
      rw [Oidc.step]
      split
      · exact turn_calls (continueRefresh_turn ..)
      · rfl
    rw [hcalls] at hc
    exact mono c (h.bounded i c hc)
  | resume j =>
    rw [Oidc.step] at hc ⊢
    split at hc
    · next d hd =>
      rcases getElem?_set_eq_some hc with ⟨-, rfl⟩ | ⟨-, hc⟩
      · exact (h.bounded j d hd).resume
      · exact h.bounded i c hc
    · exact h.bounded i c hc
  | logout id =>
    have hcalls : (Oidc.step cfg s (.logout id)).calls = s.calls := by
      rw [Oidc.step, logout]
      split <;> rfl
    rw [hcalls] at hc
    exact mono c (h.bounded i c hc)
  | hashed j ok =>
    have hcalls : (Oidc.step cfg s (.hashed j ok)).calls = s.calls := by
      rw [Oidc.step]
      split
      · unfold continueLogout
        split_ifs <;> rfl
      · rfl
    rw [hcalls] at hc
    exact mono c (h.bounded i c hc)

/-- The call has succeeded. -/
def Call.succeeded (c : Call) : Bool :=
  match c.status with
  | .returned (some _) => true
  | _ => false

/-- **The ceiling holds.** In every run with fresh session ids in which every request for a
renewable session at or after its ceiling finds it expired, or starts a refresh: no call
of `authenticate` succeeds at a time at or after the ceiling of the session it is for. -/
theorem ceiling_kept (cfg : Config) (as : List Action)
    (hall : Allowed (step cfg) (fun s a => Fresh s a ∧ CeilingSeen cfg s a) start as) :
    let s := as.foldl (step cfg) start
    ∀ c ∈ s.calls, c.succeeded = true → ∀ m ∈ s.minted c.sessionId, renewable cfg m = true →
      ∀ a ∈ m.originalCreatedAt, c.time < a + cfg.refreshMaxLifetimeSeconds * 1000 := by
  intro s c hc hsucceeded m hm hrenewable a ha
  have h : Ceiled cfg s := by
    refine @Allowed.invariant _ _ _ _ (Ceiled cfg) (fun _ a h ha => h.step a ha.1 ha.2) _ _ ?_ hall
    exact ⟨⟨fun k r hk => (by cases hk), fun i p hp => (by cases hp)⟩, fun i c hc => by cases hc⟩
  obtain ⟨i, hi⟩ := List.mem_iff_getElem?.mp hc
  rcases h.bounded i c hi with hharmless | ⟨m', hm', hbelow⟩
  · unfold Call.succeeded at hsucceeded
    split at hsucceeded
    · next view hview =>
      rw [hview] at hharmless
      cases hharmless
    · cases hsucceeded
  · obtain rfl := Option.some.inj (hm'.symm.trans hm)
    exact hbelow a hrenewable ha

instance decidableCeilingSeen (cfg : Config) (s : Broker) (a : Action) :
    Decidable (CeilingSeen cfg s a) := by
  unfold CeilingSeen
  split <;> infer_instance

/-- Sessions of an hour, with a ceiling a little later. -/
def hourly : Config where
  issuer := js "https://id.example"
  clientId := js "haechi"
  sessionTtlSeconds := 3600
  idleTtlSeconds := 3600
  maxAgeSeconds := none
  clockSkewSeconds := 60
  enableRefresh := true
  refreshMaxLifetimeSeconds := 4000
  pendingTtlSeconds := 600
  pendingCap := 1024
  storeShares := true

/-- A session of time zero that is renewed after 3000 seconds. -/
def renewed : List Action :=
  [.login (js "sid") default 0 (some (js "ciphertext")), .authenticate (js "sid") 3000000,
    .refresh 0 .done, .refresh 0 .done,
    .refresh 0 (.response (some ⟨none, some (js "token"), none⟩)),
    .refresh 0 (.claims ⟨.text (js "haechi"), none, some (js "alice"), none, none⟩),
    .refresh 0 (.identity default), .refresh 0 .done, .refresh 0 .done, .resume 0]

/-- The next renewal comes after the ceiling and evicts the session. -/
theorem ceiling_kept_evicted :
    let s := (renewed ++ [Action.authenticate (js "sid") 5700000]).foldl (step hourly) start
    ∀ c ∈ s.calls, c.succeeded = true → ∀ m ∈ s.minted c.sessionId, renewable hourly m = true →
      ∀ a ∈ m.originalCreatedAt, c.time < a + hourly.refreshMaxLifetimeSeconds * 1000 :=
  ceiling_kept hourly (renewed ++ [Action.authenticate (js "sid") 5700000]) (by decide +kernel)

/-- A session that was renewed before its ceiling is served at it. -/
theorem ceiling_crossed : ¬∀ (cfg : Config) (as : List Action), Allowed (step cfg) Fresh start as →
    let s := as.foldl (step cfg) start
    ∀ c ∈ s.calls, c.succeeded = true → ∀ m ∈ s.minted c.sessionId, renewable cfg m = true →
      ∀ a ∈ m.originalCreatedAt, c.time < a + cfg.refreshMaxLifetimeSeconds * 1000 := by
  intro h
  have h := h hourly (renewed ++ [Action.authenticate (js "sid") 4000000]) (by decide +kernel)
  revert h
  decide +kernel

end Haechi.Oidc
