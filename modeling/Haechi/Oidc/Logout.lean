import Haechi.Oidc.Sessions

/-! Logout is final. Only a login puts a session id into the store that is not there;
a refresh commits in the turn in which it finds its session live. So an id that is gone
stays gone, and the map of the refreshes in flight admits one refresh per id. -/

namespace Haechi.Oidc

variable {cfg : Config} {s : Broker} {i r : ℕ} {p : Refresh} {id k : JsString} {t : ℤ}

/-! ### Only a login adds a session -/

theorem evictSession_absent (h : s.store k = none) : (evictSession s id).store k = none := by
  show Function.update s.store id none k = none
  by_cases hk : k = id
  · rw [hk, Function.update_self]
  · rw [Function.update_of_ne hk, h]

/-- Setting a session that is there adds none. -/
theorem set_absent (h : s.store k = none) (hid : (s.store id).isSome) :
    (s.set cfg id r).store k = none := by
  have hk : k ≠ id := by
    rintro rfl
    rw [h] at hid
    cases hid
  show Function.update s.store id _ k = none
  rw [Function.update_of_ne hk, h]

theorem turn_absent {s' : Broker} (hturn : Turn cfg s i p s') (h : s.store k = none) :
    s'.store k = none := by
  cases hturn with
  | idle => exact h
  | moves f hf phase hphase => exact h
  | evicts => exact evictSession_absent h
  | commits f hf hlive => exact set_absent (s := s.modify p.session f) h hlive
  | settles session hphase => exact h

theorem performRefresh_absent (h : s.store k = none) :
    (performRefresh cfg s id r t).1.store k = none := by
  unfold performRefresh
  split_ifs
  · exact evictSession_absent h
  · exact h

theorem refreshSingleFlight_absent (h : s.store k = none) :
    (refreshSingleFlight cfg s id r t).1.store k = none := by
  unfold refreshSingleFlight
  split
  · exact h
  · exact performRefresh_absent h

theorem authenticate_absent (h : s.store k = none) : (authenticate cfg s id t).store k = none := by
  unfold authenticate
  split
  · exact h
  · next r hr =>
    have h' : (s.pass cfg r).2.store k = none := by rw [pass_store, h]
    have hr' : ((s.pass cfg r).2.store id).isSome := by rw [pass_store, hr]; rfl
    simp only [authenticateWith]
    split_ifs
    · exact evictSession_absent h'
    · exact refreshSingleFlight_absent h'
    · exact evictSession_absent h'
    · exact set_absent (s := (s.pass cfg r).2.modify _ _) h' hr'

theorem logout_absent (h : s.store k = none) : (logout s id).store k = none := by
  unfold logout
  split
  · exact h
  · exact evictSession_absent h

theorem continueLogout_absent {j : ℕ} {l : Logout} {ok : Bool} (h : s.store k = none) :
    (continueLogout s j l ok).store k = none := by
  unfold continueLogout
  split_ifs
  · exact evictSession_absent h
  · exact h
  · exact h

/-- **A session id that has been minted and is gone stays gone.** -/
theorem step_absent (a : Action) (hfresh : Fresh s a) (hk : (s.minted k).isSome)
    (h : s.store k = none) : (step cfg s a).store k = none := by
  cases a with
  | login id identity t envelope =>
    have hne : k ≠ id := by
      rintro rfl
      rw [show s.minted k = none from hfresh] at hk
      cases hk
    show Function.update s.store id _ k = none
    rw [Function.update_of_ne hne, h]
  | authenticate id t => exact authenticate_absent h
  | refresh i y =>
    rw [step]
    split
    · exact turn_absent (continueRefresh_turn ..) h
    · exact h
  | resume i =>
    rw [step]
    split <;> exact h
  | logout id => exact logout_absent h
  | hashed j ok =>
    rw [step]
    split
    · exact continueLogout_absent h
    · exact h

/-! ### Requests that come after -/

/-- From the n-th call on, every call with the id is turned away. -/
def Denied (n : ℕ) (k : JsString) (calls : List Call) : Prop :=
  ∀ i c, n ≤ i → calls[i]? = some c → c.sessionId = k → c.status = .returned none

theorem Denied.append {n : ℕ} {calls : List Call} (h : Denied n k calls) {c : Call}
    (hc : c.sessionId = k → c.status = .returned none) : Denied n k (calls ++ [c]) := by
  intro i d hn hd hid
  rcases getElem?_concat_eq_some.mp hd with hd | ⟨-, rfl⟩
  · exact h i d hn hd hid
  · exact hc hid

theorem step_denied {n : ℕ} (a : Action) (habsent : s.store k = none) (h : Denied n k s.calls) :
    Denied n k (step cfg s a).calls := by
  cases a with
  | login id identity t envelope =>
    rw [step, mint_calls]
    exact h
  | authenticate id t =>
    obtain ⟨status, hcalls, -, -, hstatus⟩ := authenticate_frame cfg s id t
    rw [step, hcalls]
    refine h.append fun hid => hstatus ?_
    rw [show id = k from hid, habsent]
  | refresh i y =>
    rw [step]
    split
    · rwa [turn_calls (continueRefresh_turn ..)]
    · exact h
  | resume i =>
    rw [step]
    split
    · next c hc =>
      intro j d hn hd hid
      rcases getElem?_set_eq_some hd with ⟨rfl, rfl⟩ | ⟨-, hd⟩
      · show c.status.resume s = .returned none
        rw [h i c hn hc hid]
        rfl
      · exact h j d hn hd hid
    · exact h
  | logout id =>
    rw [step, logout]
    split <;> exact h
  | hashed j ok =>
    rw [step]
    split
    · unfold continueLogout
      split_ifs <;> exact h
    · exact h

/-- A minted id that is gone: it stays gone, and every later call with it is turned away. -/
structure Gone (n : ℕ) (k : JsString) (s : Broker) : Prop where
  minted : (s.minted k).isSome
  absent : s.store k = none
  denied : Denied n k s.calls

theorem Gone.step {n : ℕ} (h : Gone n k s) (a : Action) (hfresh : Fresh s a) :
    Gone n k (step cfg s a) := by
  refine ⟨?_, step_absent a hfresh h.minted h.absent, step_denied a h.absent h.denied⟩
  obtain ⟨m, hm⟩ := Option.isSome_iff_exists.mp h.minted
  rw [step_minted a hfresh hm]
  rfl

/-! ### One refresh per session -/

/-- Every refresh that has not settled is the one in the map. -/
def Flights (s : Broker) : Prop :=
  ∀ i p, s.refreshes[i]? = some p → p.phase.isSettled = false → s.inflight p.sessionId = some i

theorem continueRefresh_settled {y : Yield} (h : p.phase.isSettled = true) :
    continueRefresh cfg s i p y = s := by
  unfold continueRefresh
  split
  case h_11 => rfl
  all_goals simp_all [Phase.isSettled]

theorem Flights.goto (h : Flights s) (hi : s.refreshes[i]? = some p)
    (hp : p.phase.isSettled = false) (phase : Phase) : Flights (s.goto i p phase) := by
  intro j q hj hq
  rcases getElem?_set_eq_some hj with ⟨rfl, rfl⟩ | ⟨-, hj⟩
  · exact h i p hi hp
  · exact h j q hj hq

theorem turn_flights {s' : Broker} (h : Flights s) (hi : s.refreshes[i]? = some p)
    (hp : p.phase.isSettled = false) (hturn : Turn cfg s i p s') : Flights s' := by
  cases hturn with
  | idle => exact h
  | moves f hf phase hphase => exact Flights.goto (s := s.modify p.session f) h hi hp phase
  | evicts => exact Flights.goto (s := evictSession s p.sessionId) h hi hp _
  | commits f hf hlive =>
    refine Flights.goto (s := (s.modify p.session f).set cfg p.sessionId p.session) ?_ ?_ hp _
    · intro j q
      rw [set_refreshes, set_inflight]
      exact h j q
    · rw [set_refreshes]
      exact hi
  | settles session hphase =>
    intro j q hj hq
    rcases getElem?_set_eq_some hj with ⟨rfl, rfl⟩ | ⟨hij, hj⟩
    · cases hq
    · have hne : q.sessionId ≠ p.sessionId := by
        intro hid
        have hqi := h j q hj hq
        rw [hid, h i p hi hp] at hqi
        exact hij (Option.some.inj hqi)
      show Function.update s.inflight p.sessionId none q.sessionId = some j
      rw [Function.update_of_ne hne]
      exact h j q hj hq

theorem refreshSingleFlight_flights (h : Flights s) :
    Flights (refreshSingleFlight cfg s id r t).1 := by
  unfold refreshSingleFlight
  split
  · exact h
  · next hnone =>
    intro j q hj hq
    show Function.update s.inflight id (some s.refreshes.length) q.sessionId = some j
    rcases getElem?_concat_eq_some.mp hj with hj | ⟨rfl, rfl⟩
    · have hsome := h j q hj hq
      rw [Function.update_of_ne, hsome]
      rintro rfl
      rw [hnone] at hsome
      cases hsome
    · exact Function.update_self ..

theorem authenticate_flights (h : Flights s) : Flights (authenticate cfg s id t) := by
  unfold authenticate
  split
  · exact h
  · next r hr =>
    have hpass : Flights (s.pass cfg r).2 := by
      intro j q
      rw [pass_refreshes, pass_inflight]
      exact h j q
    simp only [authenticateWith]
    split_ifs
    · exact hpass
    · exact refreshSingleFlight_flights (t := t) hpass
    · exact hpass
    · intro j q
      show (Broker.set cfg _ id _).refreshes[j]? = some q → _ → (Broker.set cfg _ id _).inflight _ = _
      rw [set_refreshes, set_inflight]
      exact hpass j q

theorem step_flights (h : Flights s) (a : Action) : Flights (step cfg s a) := by
  cases a with
  | login id identity t envelope =>
    intro j q
    show (Broker.set cfg _ id _).refreshes[j]? = some q → _ → (Broker.set cfg _ id _).inflight _ = _
    rw [set_refreshes, set_inflight]
    exact h j q
  | authenticate id t => exact authenticate_flights h
  | refresh i y =>
    rw [step]
    split
    · next p hi =>
      cases hp : p.phase.isSettled with
      | true =>
        rw [continueRefresh_settled hp]
        exact h
      | false => exact turn_flights h hi hp (continueRefresh_turn ..)
    · exact h
  | resume i =>
    rw [step]
    split <;> exact h
  | logout id =>
    rw [step, logout]
    split <;> exact h
  | hashed j ok =>
    rw [step]
    split
    · unfold continueLogout
      split_ifs <;> exact h
    · exact h

/-! ### Whole runs -/

theorem destroySessionSync_absent : (destroySessionSync s id).2.store id = none :=
  Function.update_self ..

/-- The step that answers a logout leaves no session under its id. -/
theorem logout_answered (a : Action) {j : ℕ} {l : Logout}
    (hl : (step cfg s a).logouts[j]? = some l) (hdone : l.status = .loggedOut)
    (hnew : s.logouts[j]? ≠ some l) : (step cfg s a).store l.sessionId = none := by
  cases a with
  | login id identity t envelope =>
    have : (step cfg s (.login id identity t envelope)).logouts = s.logouts :=
      pass_logouts (s := { s.alloc _ with minted := _ })
    rw [this] at hl
    exact absurd hl hnew
  | authenticate id t =>
    obtain ⟨-, -, -, hlogouts, -⟩ := authenticate_frame cfg s id t
    rw [step, hlogouts] at hl
    exact absurd hl hnew
  | refresh i y =>
    rw [step] at hl
    split at hl
    · rw [turn_logouts (continueRefresh_turn ..)] at hl
      exact absurd hl hnew
    · exact absurd hl hnew
  | resume i =>
    rw [step] at hl
    split at hl <;> exact absurd hl hnew
  | logout id =>
    rw [step, logout] at hl ⊢
    split at hl
    · rcases getElem?_concat_eq_some.mp hl with hl | ⟨-, rfl⟩
      · exact absurd hl hnew
      · cases hdone
    · rcases getElem?_concat_eq_some.mp hl with hl | ⟨-, rfl⟩
      · exact absurd hl hnew
      · exact destroySessionSync_absent
  | hashed i ok =>
    rw [step] at hl ⊢
    split at hl
    · next l' hl' =>
      unfold continueLogout at hl ⊢
      split_ifs at hl with hhash hok
      · rcases getElem?_set_eq_some hl with ⟨-, rfl⟩ | ⟨-, hl⟩
        · rw [if_pos hhash, if_pos hok]
          exact destroySessionSync_absent
        · exact absurd hl hnew
      · rcases getElem?_set_eq_some hl with ⟨-, rfl⟩ | ⟨-, hl⟩
        · cases hdone
        · exact absurd hl hnew
      · exact absurd hl hnew
    · exact absurd hl hnew

/-- **Sessions are not resurrected.** In every run with fresh session ids: once a logout of
a session id has been answered with success, the id is never again in the store, and every
call of `authenticate` that starts later with it is turned away; and at any time at most one
refresh is in flight for an id. -/
theorem logout_final (cfg : Config) (as bs : List Action) (a : Action)
    (hfresh : Allowed (step cfg) Fresh start (as ++ a :: bs)) :
    let before := as.foldl (step cfg) start
    let answered := step cfg before a
    let after := bs.foldl (step cfg) answered
    (∀ (j : ℕ) (l : Logout), answered.logouts[j]? = some l → l.status = .loggedOut →
      before.logouts[j]? ≠ some l → (before.minted l.sessionId).isSome →
        after.store l.sessionId = none ∧
        ∀ (i : ℕ) (c : Call), answered.calls.length ≤ i → after.calls[i]? = some c →
          c.sessionId = l.sessionId → c.status = .returned none) ∧
    ∀ (i j : ℕ) (p q : Refresh), after.refreshes[i]? = some p → after.refreshes[j]? = some q →
      p.phase.isSettled = false → q.phase.isSettled = false → p.sessionId = q.sessionId →
        i = j := by
  intro before answered after
  obtain ⟨-, ha, hbs⟩ := Allowed.append.mp hfresh
  refine ⟨fun j l hl hdone hnew hminted => ?_, fun i j p q hp hq hpf hqf hid => ?_⟩
  · obtain ⟨m, hm⟩ := Option.isSome_iff_exists.mp hminted
    have hgone : Gone answered.calls.length l.sessionId answered := by
      refine ⟨?_, logout_answered a hl hdone hnew, fun i c hi hc => ?_⟩
      · rw [show answered.minted _ = some m from step_minted a ha hm]
        rfl
      · rw [List.getElem?_eq_none hi] at hc
        cases hc
    have hafter : Gone answered.calls.length l.sessionId after :=
      hbs.invariant (fun _ b h hb => h.step b hb) hgone
    exact ⟨hafter.absent, hafter.denied⟩
  · have hall : Allowed (step cfg) (fun _ _ => True) start (as ++ a :: bs) :=
      Allowed.of_forall (fun _ _ => trivial) _ _
    have hflights : Flights after := by
      have := @Allowed.invariant _ _ _ _ Flights (fun _ b h _ => step_flights h b) _ _
        (fun i p hi => by cases hi) hall
      rwa [List.foldl_append] at this
    have hi := hflights i p hp hpf
    rw [hid, hflights j q hq hqf] at hi
    exact (Option.some.inj hi).symm

instance decidableFresh (s : Broker) (a : Action) : Decidable (Fresh s a) := by
  unfold Fresh
  split <;> infer_instance

/-- Sessions of a day that may be renewed for a week. -/
def daily : Config where
  issuer := js "https://id.example"
  clientId := js "haechi"
  sessionTtlSeconds := 86400
  idleTtlSeconds := 86400
  maxAgeSeconds := none
  clockSkewSeconds := 60
  enableRefresh := true
  refreshMaxLifetimeSeconds := 604800
  pendingTtlSeconds := 600
  pendingCap := 1024
  storeShares := true

/-- A request in the renewal window starts a refresh, and the user logs out. -/
def leaving : List Action :=
  [.login (js "sid") default 0 (some (js "ciphertext")), .authenticate (js "sid") 80000000,
    .logout (js "sid")]

/-- The refresh comes to its end after the logout, and the cookie is replayed. -/
def replaying : List Action :=
  [.refresh 0 .done, .refresh 0 .done,
    .refresh 0 (.response (some ⟨none, some (js "token"), none⟩)),
    .refresh 0 (.claims ⟨.text (js "haechi"), none, some (js "alice"), none, none⟩),
    .refresh 0 (.identity default), .refresh 0 .done, .resume 0,
    .authenticate (js "sid") 80001000]

/-- A refresh that was in flight does not bring the session back. -/
theorem logout_final_replayed :
    let before := leaving.foldl (step daily) start
    let answered := step daily before (.hashed 0 true)
    let after := replaying.foldl (step daily) answered
    (∀ (j : ℕ) (l : Logout), answered.logouts[j]? = some l → l.status = .loggedOut →
      before.logouts[j]? ≠ some l → (before.minted l.sessionId).isSome →
        after.store l.sessionId = none ∧
        ∀ (i : ℕ) (c : Call), answered.calls.length ≤ i → after.calls[i]? = some c →
          c.sessionId = l.sessionId → c.status = .returned none) ∧
    ∀ (i j : ℕ) (p q : Refresh), after.refreshes[i]? = some p → after.refreshes[j]? = some q →
      p.phase.isSettled = false → q.phase.isSettled = false → p.sessionId = q.sessionId →
        i = j :=
  logout_final daily leaving replaying (.hashed 0 true) (by decide +kernel)

end Haechi.Oidc
