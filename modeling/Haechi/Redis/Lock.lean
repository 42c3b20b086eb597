import Haechi.Fence

/-! The lock around every write of the Redis stores: a key set under the token of the call if it
is absent, for a time to live, asked for again and again until a deadline. The machine behind it
is the one of the fence, its lock now on a clock. Proved: within its time to live the key stays
with the call it was granted to, so that at most one call is inside, and a key that nobody frees
is free again after one time to live. -/

namespace Haechi.Redis

variable {D I R T K : Type} [DecidableEq K]

/-! ### The machine -/

/-- The options of `withRedisLock`. -/
structure LockOptions where
  ttlMs : ℕ := 10000
  retryMs : ℕ := 20
  timeoutMs : ℕ := 5000
  ttl_pos : 0 < ttlMs := by decide
  retry_pos : 0 < retryMs := by decide

/-- Where a call is in the loop around `SET`: the request on its way, a refusal on its way back,
the delay, `fn` under a lock that lapses, and out of it. -/
inductive Wait where
  | asking (deadline : ℕ)
  | refused (deadline : ℕ)
  | sleeping (deadline wake : ℕ)
  | inside (lapse : ℕ)
  | done
deriving DecidableEq

/-- The fenced store and its calls, the lock key with its expiry, and a clock. -/
structure Locked (D I R T K : Type) where
  fence : Fence.State D I R T K
  now : ℕ
  expires : ℕ
  waits : List Wait

/-- What happens next. `SET` runs at the server, and its reply may get lost on the way; or the
server is not reached. The moves of `fn` and the release are those of the fence. -/
inductive LockAction (I K : Type) where
  | call (input : I) (token : K)
  | tick (ms : ℕ)
  | set (i : ℕ) (lost : Bool)
  | unreached (i : ℕ)
  | answer (i : ℕ)
  | wake (i : ℕ)
  | move (i : ℕ) (m : Fence.Move)
deriving DecidableEq

variable (o : LockOptions) (store : Fence.Store D I R T)

/-- Call `i` makes these moves and waits elsewhere. -/
def Locked.turn (s : Locked D I R T K) (i : ℕ) (w : Wait) (ms : List Fence.Move) :
    Locked D I R T K :=
  { s with
    fence := (ms.map (Fence.Action.move i)).foldl (Fence.step store) s.fence
    waits := s.waits.set i w }

/-- `client.set(lockKey, token, { NX: true, PX: ttlMs })`. A call whose reply is lost throws, and
leaves the key behind. -/
def Locked.setNx (s : Locked D I R T K) (i deadline : ℕ) (lost : Bool) : Locked D I R T K :=
  if s.fence.lock.isSome then
    if lost then s.turn store i .done [.giveUp] else s.turn store i (.refused deadline) []
  else if lost then
    { s.turn store i .done [.acquire, .fail, .release false] with expires := s.now + o.ttlMs }
  else { s.turn store i (.inside (s.now + o.ttlMs)) [.acquire] with expires := s.now + o.ttlMs }

def lockStep (s : Locked D I R T K) : LockAction I K → Locked D I R T K
  | .call input token =>
    { s with
      fence := Fence.step store s.fence (.call input token)
      waits := s.waits ++ [.asking (s.now + o.timeoutMs)] }
  | .tick ms =>
    { s with
      now := s.now + ms
      fence := if s.expires < s.now + ms then Fence.step store s.fence .expire else s.fence }
  | .set i lost =>
    match s.waits[i]? with
    | some (.asking deadline) => s.setNx o store i deadline lost
    | _ => s
  | .unreached i =>
    match s.waits[i]? with
    | some (.asking _) => s.turn store i .done [.giveUp]
    | _ => s
  | .answer i =>
    match s.waits[i]? with
    | some (.refused deadline) =>
      if deadline ≤ s.now then s.turn store i .done [.giveUp]
      else s.turn store i (.sleeping deadline (s.now + o.retryMs)) []
    | _ => s
  | .wake i =>
    match s.waits[i]? with
    | some (.sleeping deadline wake) =>
      if wake ≤ s.now then s.turn store i (.asking deadline) [] else s
    | _ => s
  | .move i m =>
    match s.waits[i]? with
    | some (.inside lapse) => s.turn store i (.inside lapse) [m]
    | _ => s

def lockStart (d : D) : Locked D I R T K := ⟨Fence.start d, 0, 0, []⟩

/-- Sixteen random bytes: no two calls draw one token. -/
def FreshToken (s : Locked D I R T K) : LockAction I K → Prop
  | .call _ token => ∀ c ∈ s.fence.calls, c.token ≠ token
  | _ => True

instance (s : Locked D I R T K) (a : LockAction I K) : Decidable (FreshToken s a) := by
  unfold FreshToken
  split <;> infer_instance

/-- Call `i` is inside, within the time its key lives. -/
def Locked.Holds (s : Locked D I R T K) (i : ℕ) : Prop :=
  ∃ lapse c, s.waits[i]? = some (.inside lapse) ∧ s.now ≤ lapse ∧ s.fence.calls[i]? = some c ∧
    ∀ resolved, c.phase ≠ .settled resolved

/-! ### What a move does -/

section Moves

variable {store} {s : Fence.State D I R T K} {i : ℕ} {c : Fence.Call I R T K}

omit [DecidableEq K] in
theorem set_phase_self (hc : s.calls[i]? = some c) :
    s.calls.set i { c with phase := c.phase } = s.calls := by
  obtain ⟨hlt, rfl⟩ := List.getElem?_eq_some_iff.mp hc
  exact List.set_getElem_self hlt

omit [DecidableEq K] in
theorem afterWrite_ne_waiting (n : ℕ) (lost : Bool) (reply : Fence.Reply) :
    store.afterWrite n lost reply ≠ (.waiting : Fence.Phase R T) := by
  cases reply with
  | conflict =>
    rw [Fence.Store.afterWrite]
    split_ifs <;> simp
  | _ => simp [Fence.Store.afterWrite]

variable (store) in
/-- A move changes the phase of its call, and once the call is inside it leaves the lock alone or
gives its own back. -/
theorem move_cases (hc : s.calls[i]? = some c) (m : Fence.Move) :
    ∃ p, (Fence.step store s (.move i m)).calls = s.calls.set i { c with phase := p } ∧
      (c.phase ≠ .waiting → p ≠ .waiting) ∧
      (∀ resolved, c.phase = .settled resolved → p = .settled resolved) ∧
      (c.phase ≠ .waiting → (Fence.step store s (.move i m)).lock = s.lock ∨
        (s.lock = some c.token ∧ ∃ resolved, p = .settled resolved)) := by
  have hself := set_phase_self hc
  have hopen : ∀ {p q : Fence.Phase R T}, c.phase = q → (∀ resolved, q ≠ .settled resolved) →
      ∀ resolved, c.phase = .settled resolved → p = .settled resolved :=
    fun hq hne resolved h => absurd (hq.symm.trans h) (hne resolved)
  simp only [Fence.step, hc]
  unfold Fence.advance
  split
  · next hp =>
    split_ifs
    · exact ⟨c.phase, hself.symm, id, fun _ => id, fun _ => .inl rfl⟩
    · exact ⟨.start 0, rfl, fun _ => by simp, hopen hp (by simp), fun h => absurd hp h⟩
  · next hp => exact ⟨.settled false, rfl, fun _ => by simp, hopen hp (by simp), fun _ => .inl rfl⟩
  · next hp => exact ⟨.pinned _ _, rfl, fun _ => by simp, hopen hp (by simp), fun _ => .inl rfl⟩
  · next hp => exact ⟨.ready _ _ _, rfl, fun _ => by simp, hopen hp (by simp), fun _ => .inl rfl⟩
  · next hp =>
    exact ⟨_, rfl, fun _ => afterWrite_ne_waiting _ _ _, hopen hp (by simp), fun _ => .inl rfl⟩
  · next hp =>
    exact ⟨.releasing false, rfl, fun _ => by simp, hopen hp (by simp), fun _ => .inl rfl⟩
  · next hp =>
    exact ⟨.releasing false, rfl, fun _ => by simp, hopen hp (by simp), fun _ => .inl rfl⟩
  · next hp =>
    exact ⟨.releasing false, rfl, fun _ => by simp, hopen hp (by simp), fun _ => .inl rfl⟩
  · next resolved reached hp =>
    refine ⟨.settled resolved, rfl, fun _ => by simp, hopen hp (by simp), fun _ => ?_⟩
    split_ifs with h
    · simp only [Bool.and_eq_true, beq_iff_eq] at h
      exact .inr ⟨h.2, resolved, rfl⟩
    · exact .inl rfl
  · exact ⟨c.phase, hself.symm, id, fun _ => id, fun _ => .inl rfl⟩

variable (store) in
theorem acquire_eq (hc : s.calls[i]? = some c) (hp : c.phase = .waiting)
    (hfree : s.lock.isSome = false) :
    Fence.step store s (.move i .acquire) =
      { s with calls := s.calls.set i { c with phase := .start 0 }, lock := some c.token } := by
  simp only [Fence.step, hc, Fence.advance, hp, hfree, Bool.false_eq_true, if_false]
  rfl

variable (store) in
theorem giveUp_eq (hc : s.calls[i]? = some c) (hp : c.phase = .waiting) :
    Fence.step store s (.move i .giveUp) =
      { s with calls := s.calls.set i { c with phase := .settled false } } := by
  simp only [Fence.step, hc, Fence.advance, hp]
  rfl

variable (store) in
/-- A lock set for a call that never hears of it. -/
theorem lost_eq (hc : s.calls[i]? = some c) (hp : c.phase = .waiting)
    (hfree : s.lock.isSome = false) :
    ([.acquire, .fail, .release false].map (Fence.Action.move i)).foldl (Fence.step store) s =
      { s with
        calls := s.calls.set i { c with phase := .settled false }
        lock := some c.token } := by
  have hlt := (List.getElem?_eq_some_iff.mp hc).1
  simp only [List.map_cons, List.map_nil, List.foldl_cons, List.foldl_nil,
    acquire_eq store hc hp hfree]
  simp only [Fence.step, List.getElem?_set_self hlt, Fence.advance, Fence.State.goto, List.set_set,
    Bool.false_and, Bool.false_eq_true, if_false]

end Moves

/-! ### One call inside -/

section Exclusion

variable {o store}

/-- The call has not asked the last time yet. -/
def Wait.outside : Wait → Bool
  | .asking _ | .refused _ | .sleeping _ _ => true
  | _ => false

/-- Where a call waits and where it stands at the fence. -/
structure InStep (w : Wait) (p : Fence.Phase R T) : Prop where
  outside : w.outside = true → p = .waiting
  inside : ∀ lapse, w = .inside lapse → p ≠ .waiting
  done : w = .done → ∃ resolved, p = .settled resolved

theorem agrees_done (resolved : Bool) : InStep .done (.settled resolved : Fence.Phase R T) where
  outside h := by cases h
  inside _ h := by cases h
  done _ := ⟨resolved, rfl⟩

theorem agrees_inside {lapse : ℕ} {p : Fence.Phase R T} (hp : p ≠ .waiting) :
    InStep (.inside lapse) p where
  outside h := by cases h
  inside _ _ := hp
  done h := by cases h

theorem agrees_outside {w : Wait} {p : Fence.Phase R T} (hw : w.outside = true)
    (hp : p = .waiting) : InStep w p where
  outside _ := hp
  inside lapse h := by
    rw [h] at hw
    cases hw
  done h := by
    rw [h] at hw
    cases hw

structure LockInv (o : LockOptions) (s : Locked D I R T K) : Prop where
  length : s.waits.length = s.fence.calls.length
  agrees : ∀ (i : ℕ) (w : Wait) (c : Fence.Call I R T K), s.waits[i]? = some w →
    s.fence.calls[i]? = some c → InStep w c.phase
  distinct : ∀ (i j : ℕ) (c d : Fence.Call I R T K), s.fence.calls[i]? = some c →
    s.fence.calls[j]? = some d → c.token = d.token → i = j
  holder : ∀ (i : ℕ) (c : Fence.Call I R T K) (lapse : ℕ),
    s.waits[i]? = some (.inside lapse) → s.fence.calls[i]? = some c → s.now ≤ lapse →
      (∀ resolved, c.phase ≠ .settled resolved) → s.fence.lock = some c.token ∧ s.expires = lapse
  bound : s.fence.lock.isSome → s.now ≤ s.expires ∧ s.expires ≤ s.now + o.ttlMs

variable {s s' : Locked D I R T K} {i : ℕ} {w w' : Wait} {c : Fence.Call I R T K}

omit [DecidableEq K] in
/-- A turn of one call that takes no other call's lock. -/
theorem LockInv.turn (h : LockInv o s) (hc : s.fence.calls[i]? = some c)
    {p : Fence.Phase R T} (hnow : s'.now = s.now) (hwaits : s'.waits = s.waits.set i w')
    (hcalls : s'.fence.calls = s.fence.calls.set i { c with phase := p }) (hagrees : InStep w' p)
    (hown : ∀ lapse, w' = .inside lapse → s.now ≤ lapse → (∀ resolved, p ≠ .settled resolved) →
      s'.fence.lock = some c.token ∧ s'.expires = lapse)
    (hothers : ∀ k, k ≠ c.token → s.fence.lock = some k →
      s'.fence.lock = some k ∧ s'.expires = s.expires)
    (hbound : s'.fence.lock.isSome → s.now ≤ s'.expires ∧ s'.expires ≤ s.now + o.ttlMs) :
    LockInv o s' where
  length := by rw [hwaits, hcalls, List.length_set, List.length_set, h.length]
  agrees j v d hv hd := by
    rw [hwaits] at hv
    rw [hcalls] at hd
    rcases getElem?_set_eq_some hv with ⟨rfl, rfl⟩ | ⟨hij, hv⟩
    · rcases getElem?_set_eq_some hd with ⟨-, rfl⟩ | ⟨hii, -⟩
      · exact hagrees
      · exact absurd rfl hii
    · rcases getElem?_set_eq_some hd with ⟨hij', -⟩ | ⟨-, hd⟩
      · exact absurd hij' hij
      · exact h.agrees j v d hv hd
  distinct j k d e hd he htoken := by
    have hsame : ∀ {j : ℕ} {d : Fence.Call I R T K}, s'.fence.calls[j]? = some d →
        ∃ d', s.fence.calls[j]? = some d' ∧ d'.token = d.token := by
      intro j d hd
      rw [hcalls] at hd
      rcases getElem?_set_eq_some hd with ⟨rfl, rfl⟩ | ⟨-, hd⟩
      · exact ⟨c, hc, rfl⟩
      · exact ⟨d, hd, rfl⟩
    obtain ⟨d', hd', hdtoken⟩ := hsame hd
    obtain ⟨e', he', hetoken⟩ := hsame he
    exact h.distinct j k d' e' hd' he' (hdtoken.trans (htoken.trans hetoken.symm))
  holder j d lapse hv hd hlapse hsettled := by
    rw [hwaits] at hv
    rw [hcalls] at hd
    rw [hnow] at hlapse
    rcases getElem?_set_eq_some hv with ⟨rfl, rfl⟩ | ⟨hij, hv⟩
    · rcases getElem?_set_eq_some hd with ⟨-, rfl⟩ | ⟨hii, -⟩
      · exact hown lapse rfl hlapse hsettled
      · exact absurd rfl hii
    · rcases getElem?_set_eq_some hd with ⟨hij', -⟩ | ⟨-, hd⟩
      · exact absurd hij' hij
      · obtain ⟨hlock, hexpires⟩ := h.holder j d lapse hv hd hlapse hsettled
        have hne : d.token ≠ c.token := fun heq => hij (h.distinct i j c d hc hd heq.symm)
        obtain ⟨hlock', hexpires'⟩ := hothers d.token hne hlock
        exact ⟨hlock', hexpires'.trans hexpires⟩
  bound hlock := by
    rw [hnow]
    exact hbound hlock

omit [DecidableEq K] in
theorem lockInv_start (d : D) : LockInv o (lockStart d : Locked D I R T K) where
  length := rfl
  agrees i w c hw := by cases hw
  distinct i j c d hc := by cases hc
  holder i c lapse hw := by cases hw
  bound h := by cases h

/-- A call gives up: it was told to wait, or never got an answer. -/
theorem LockInv.giveUp (h : LockInv o s) (hi : s.waits[i]? = some w) (hw : w.outside = true)
    (hc : s.fence.calls[i]? = some c) : LockInv o (s.turn store i .done [.giveUp]) := by
  have hp := (h.agrees i w c hi hc).outside hw
  have hlock := congrArg Fence.State.lock (giveUp_eq store hc hp)
  refine h.turn hc (p := .settled false) rfl rfl ?_ ?_ ?_ ?_ ?_
  · exact congrArg Fence.State.calls (giveUp_eq store hc hp)
  · exact agrees_done false
  · rintro lapse ⟨⟩
  · exact fun k _ hk => ⟨hlock.trans hk, rfl⟩
  · exact fun hsome => h.bound ((congrArg Option.isSome hlock).symm.trans hsome)

/-- A call waits elsewhere, and the fence sees nothing. -/
theorem LockInv.stay (h : LockInv o s) (hi : s.waits[i]? = some w) (hw : w.outside = true)
    (hw' : w'.outside = true) (hc : s.fence.calls[i]? = some c) :
    LockInv o (s.turn store i w' []) := by
  have hp := (h.agrees i w c hi hc).outside hw
  refine h.turn hc (p := c.phase) rfl rfl (set_phase_self hc).symm ?_ ?_ ?_ ?_
  · exact agrees_outside hw' hp
  · rintro lapse rfl
    cases hw'
  · exact fun k _ hk => ⟨hk, rfl⟩
  · exact h.bound

theorem LockInv.setNx (h : LockInv o s) {deadline : ℕ} (hi : s.waits[i]? = some (.asking deadline))
    (hc : s.fence.calls[i]? = some c) (lost : Bool) :
    LockInv o (s.setNx o store i deadline lost) := by
  have hp := (h.agrees i _ c hi hc).outside rfl
  rw [Locked.setNx]
  by_cases hlock : s.fence.lock.isSome = true
  · rw [if_pos hlock]
    cases lost
    · exact h.stay hi rfl rfl hc
    · exact h.giveUp hi rfl hc
  · have hfree : s.fence.lock.isSome = false := Bool.eq_false_iff.mpr hlock
    have hothers : ∀ k, s.fence.lock ≠ some k := fun k hk => by
      rw [hk] at hfree
      cases hfree
    rw [if_neg hlock]
    cases lost
    · refine h.turn hc (p := .start 0) rfl rfl
        (congrArg Fence.State.calls (acquire_eq store hc hp hfree)) ?_ ?_ ?_ ?_
      · exact agrees_inside (by simp)
      · rintro lapse ⟨⟩ - -
        exact ⟨congrArg Fence.State.lock (acquire_eq store hc hp hfree), rfl⟩
      · exact fun k _ hk => absurd hk (hothers k)
      · exact fun _ => ⟨Nat.le_add_right _ _, le_rfl⟩
    · refine h.turn hc (p := .settled false) rfl rfl
        (congrArg Fence.State.calls (lost_eq store hc hp hfree)) ?_ ?_ ?_ ?_
      · exact agrees_done false
      · rintro lapse ⟨⟩
      · exact fun k _ hk => absurd hk (hothers k)
      · exact fun _ => ⟨Nat.le_add_right _ _, le_rfl⟩

theorem LockInv.move (h : LockInv o s) {lapse : ℕ} (hi : s.waits[i]? = some (.inside lapse))
    (hc : s.fence.calls[i]? = some c) (m : Fence.Move) :
    LockInv o (s.turn store i (.inside lapse) [m]) := by
  have hp := (h.agrees i _ c hi hc).inside lapse rfl
  obtain ⟨p, hcalls, hwaiting, hsettles, hlock⟩ := move_cases store hc m
  have hlock := hlock hp
  refine h.turn hc (p := p) rfl rfl hcalls ?_ ?_ ?_ ?_
  · exact agrees_inside (hwaiting hp)
  · rintro _ ⟨⟩ hlapse hsettled
    have hsettled' : ∀ resolved, c.phase ≠ .settled resolved := fun resolved hresolved =>
      hsettled resolved (hsettles resolved hresolved)
    obtain ⟨hheld, hexpires⟩ := h.holder i c lapse hi hc hlapse hsettled'
    refine ⟨?_, hexpires⟩
    rcases hlock with hsame | ⟨-, resolved, hresolved⟩
    · exact hsame.trans hheld
    · exact absurd hresolved (hsettled resolved)
  · intro k hk hheld
    refine ⟨?_, rfl⟩
    rcases hlock with hsame | ⟨hown, -⟩
    · exact hsame.trans hheld
    · exact absurd (Option.some.inj (hheld.symm.trans hown)) hk
  · intro hsome
    apply h.bound
    rcases hlock with hsame | ⟨hown, -⟩
    · exact (congrArg Option.isSome hsame).symm.trans hsome
    · rw [hown]
      rfl

theorem LockInv.call (h : LockInv o s) (input : I) {token : K}
    (hfresh : ∀ c ∈ s.fence.calls, c.token ≠ token) :
    LockInv o (lockStep o store s (.call input token)) where
  length := by simp [lockStep, Fence.step, h.length]
  agrees i w c hw hc := by
    rcases getElem?_concat_eq_some.mp hc with hc | ⟨rfl, rfl⟩
    · rcases getElem?_concat_eq_some.mp hw with hw | ⟨rfl, rfl⟩
      · exact h.agrees i w c hw hc
      · have := (List.getElem?_eq_some_iff.mp hc).1
        rw [h.length] at this
        exact absurd this (lt_irrefl _)
    · rcases getElem?_concat_eq_some.mp hw with hw | ⟨-, rfl⟩
      · have := (List.getElem?_eq_some_iff.mp hw).1
        rw [h.length] at this
        exact absurd this (lt_irrefl _)
      · exact agrees_outside rfl rfl
  distinct i j c d hc hd htoken := by
    rcases getElem?_concat_eq_some.mp hc with hc | ⟨rfl, rfl⟩
    · rcases getElem?_concat_eq_some.mp hd with hd | ⟨rfl, rfl⟩
      · exact h.distinct i j c d hc hd htoken
      · exact absurd htoken (hfresh c (List.mem_of_getElem? hc))
    · rcases getElem?_concat_eq_some.mp hd with hd | ⟨rfl, rfl⟩
      · exact absurd htoken.symm (hfresh d (List.mem_of_getElem? hd))
      · rfl
  holder i c lapse hw hc hlapse hsettled := by
    rcases getElem?_concat_eq_some.mp hw with hw | ⟨-, hne⟩
    · rcases getElem?_concat_eq_some.mp hc with hc | ⟨rfl, rfl⟩
      · exact h.holder i c lapse hw hc hlapse hsettled
      · have := (List.getElem?_eq_some_iff.mp hw).1
        rw [h.length] at this
        exact absurd this (lt_irrefl _)
    · cases hne
  bound := h.bound

theorem LockInv.tick (h : LockInv o s) (ms : ℕ) : LockInv o (lockStep o store s (.tick ms)) := by
  have hcalls : (lockStep o store s (.tick ms)).fence.calls = s.fence.calls := by
    simp only [lockStep]
    split_ifs <;> rfl
  have hlock : s.now + ms ≤ s.expires →
      (lockStep o store s (.tick ms)).fence.lock = s.fence.lock := by
    intro hle
    simp only [lockStep]
    rw [if_neg (Nat.not_lt.mpr hle)]
  refine ⟨?_, ?_, ?_, ?_, ?_⟩
  · rw [hcalls]
    exact h.length
  · rw [hcalls]
    exact h.agrees
  · rw [hcalls]
    exact h.distinct
  · rw [hcalls]
    intro i c lapse hw hc hlapse hsettled
    obtain ⟨hheld, hexpires⟩ :=
      h.holder i c lapse hw hc ((Nat.le_add_right _ _).trans hlapse) hsettled
    exact ⟨(hlock (hexpires ▸ hlapse)).trans hheld, hexpires⟩
  · intro hsome
    have hkept : s.now + ms ≤ s.expires := by
      by_contra hlt
      simp only [lockStep] at hsome
      rw [if_pos (Nat.not_le.mp hlt)] at hsome
      cases hsome
    rw [hlock hkept] at hsome
    exact ⟨hkept, (h.bound hsome).2.trans (by simp only [lockStep]; omega)⟩

omit [DecidableEq K] in
theorem exists_call (h : LockInv o s) (hi : s.waits[i]? = some w) :
    ∃ c, s.fence.calls[i]? = some c := by
  have hlt := (List.getElem?_eq_some_iff.mp hi).1
  rw [h.length] at hlt
  exact ⟨_, List.getElem?_eq_getElem hlt⟩

theorem LockInv.step (h : LockInv o s) (a : LockAction I K) (hfresh : FreshToken s a) :
    LockInv o (lockStep o store s a) := by
  cases a with
  | call input token => exact h.call input hfresh
  | tick ms => exact h.tick ms
  | set i lost =>
    rw [lockStep]
    split
    · next deadline hi =>
      obtain ⟨c, hc⟩ := exists_call h hi
      exact h.setNx hi hc lost
    · exact h
  | unreached i =>
    rw [lockStep]
    split
    · next deadline hi =>
      obtain ⟨c, hc⟩ := exists_call h hi
      exact h.giveUp hi rfl hc
    · exact h
  | answer i =>
    rw [lockStep]
    split
    · next deadline hi =>
      obtain ⟨c, hc⟩ := exists_call h hi
      split_ifs
      · exact h.giveUp hi rfl hc
      · exact h.stay hi rfl rfl hc
    · exact h
  | wake i =>
    rw [lockStep]
    split
    · next deadline wake hi =>
      obtain ⟨c, hc⟩ := exists_call h hi
      split_ifs
      · exact h.stay hi rfl rfl hc
      · exact h
    · exact h
  | move i m =>
    rw [lockStep]
    split
    · next lapse hi =>
      obtain ⟨c, hc⟩ := exists_call h hi
      exact h.move hi hc m
    · exact h

theorem lockInv_run (d : D) {as : List (LockAction I K)}
    (h : Allowed (lockStep o store) FreshToken (lockStart d) as) :
    LockInv o (as.foldl (lockStep o store) (lockStart d)) :=
  h.invariant (fun _ a hs hok => hs.step a hok) (lockInv_start d)

omit [DecidableEq K] in
theorem LockInv.holds_unique (h : LockInv o s) {i j : ℕ} (hi : s.Holds i) (hj : s.Holds j) :
    i = j := by
  obtain ⟨l, c, hw, hl, hc, hsettled⟩ := hi
  obtain ⟨l', c', hw', hl', hc', hsettled'⟩ := hj
  have hlock := (h.holder i c l hw hc hl hsettled).1
  have hlock' := (h.holder j c' l' hw' hc' hl' hsettled').1
  exact h.distinct i j c c' hc hc' (Option.some.inj (hlock.symm.trans hlock'))

/-- After one time to live the key is free. -/
theorem LockInv.tick_free (h : LockInv o s) :
    (lockStep o store s (.tick (o.ttlMs + 1))).fence.lock = none := by
  simp only [lockStep]
  split_ifs with hlt
  · rfl
  · rw [← Option.not_isSome_iff_eq_none]
    intro hsome
    have := (h.bound hsome).2
    omega

theorem LockInv.set_holds (h : LockInv o s) {deadline : ℕ}
    (hi : s.waits[i]? = some (.asking deadline)) (hfree : s.fence.lock = none) :
    (lockStep o store s (.set i false)).Holds i := by
  obtain ⟨c, hc⟩ := exists_call h hi
  have hp := (h.agrees i _ c hi hc).outside rfl
  have hcalls := congrArg Fence.State.calls (acquire_eq store hc hp (by rw [hfree]; rfl))
  have hwlt := (List.getElem?_eq_some_iff.mp hi).1
  have hclt := (List.getElem?_eq_some_iff.mp hc).1
  simp only [lockStep, hi, Locked.setNx, hfree, Option.isSome_none, Bool.false_eq_true, if_false]
  refine ⟨s.now + o.ttlMs, { c with phase := .start 0 }, List.getElem?_set_self hwlt,
    Nat.le_add_right _ _, ?_, by simp⟩
  exact (congrArg (fun l : List (Fence.Call I R T K) => l[i]?) hcalls).trans
    (List.getElem?_set_self hclt)

/-- `fn` is running. -/
def isRunning : Fence.Phase R T → Bool
  | .start _ | .pinned _ _ | .ready _ _ _ => true
  | _ => false

omit [DecidableEq K] in
theorem LockInv.running (h : LockInv o s) (hc : s.fence.calls[i]? = some c)
    (hrunning : isRunning c.phase = true) : ∃ lapse, s.waits[i]? = some (.inside lapse) := by
  have hlt := (List.getElem?_eq_some_iff.mp hc).1
  rw [← h.length] at hlt
  have hw : s.waits[i]? = some s.waits[i] := List.getElem?_eq_getElem hlt
  have hagrees := h.agrees i _ c hw hc
  cases hcase : s.waits[i] with
  | inside lapse => exact ⟨lapse, hcase ▸ hw⟩
  | done =>
    obtain ⟨resolved, hp⟩ := hagrees.done hcase
    rw [hp] at hrunning
    cases hrunning
  | _ =>
    rw [hagrees.outside (by rw [hcase]; rfl)] at hrunning
    cases hrunning

/-- **The lock.** In every run, whatever is delayed, lost or abandoned: at most one call is
inside within the time its key lives, and the key is its; `fn` runs only for a call whose `SET`
came back; and a call that asks one time to live from now on gets the key. -/
theorem withRedisLock_exclusive (d : D) {as : List (LockAction I K)}
    (h : Allowed (lockStep o store) FreshToken (lockStart d) as) :
    let s := as.foldl (lockStep o store) (lockStart d)
    (∀ i j, s.Holds i → s.Holds j → i = j) ∧
      (∀ i, s.Holds i → ∃ c, s.fence.calls[i]? = some c ∧ s.fence.lock = some c.token) ∧
      (∀ (i : ℕ) (c : Fence.Call I R T K), s.fence.calls[i]? = some c → isRunning c.phase = true →
        ∃ lapse, s.waits[i]? = some (.inside lapse)) ∧
      ∀ i deadline, s.waits[i]? = some (.asking deadline) →
        ([.tick (o.ttlMs + 1), .set i false].foldl (lockStep o store) s).Holds i := by
  intro s
  have hinv : LockInv o s := lockInv_run d h
  refine ⟨fun i j hi hj => hinv.holds_unique hi hj, ?_, fun i c hc => hinv.running hc, ?_⟩
  · rintro i ⟨lapse, c, hw, hlapse, hc, hsettled⟩
    exact ⟨c, hc, (hinv.holder i c lapse hw hc hlapse hsettled).1⟩
  · intro i deadline hi
    exact (hinv.tick _).set_holds hi hinv.tick_free

/-- A store of one number. -/
def numberStore : Fence.Store ℕ ℕ ℕ Unit where
  version n := n
  snapshot _ := ()
  write x _ r _ n := if r = n then (.committed, n + x) else (.conflict, n)
  retries := 64

/-- The second of two calls that ask is turned away. -/
theorem withRedisLock_exclusive_two :
    ¬([.call 3 70, .call 4 80, .set 0 false, .set 1 false].foldl (lockStep {} numberStore)
      (lockStart 0 : Locked ℕ ℕ ℕ Unit ℕ)).Holds 1 := by
  intro hone
  have hfresh : Allowed (lockStep {} numberStore) FreshToken (lockStart 0 : Locked ℕ ℕ ℕ Unit ℕ)
      [.call 3 70, .call 4 80, .set 0 false, .set 1 false] := by decide
  have hunique := (withRedisLock_exclusive 0 hfresh).1
  have hzero := hunique 0 1 ⟨10000, ⟨3, 70, .start 0⟩, rfl, by decide, rfl, by simp⟩ hone
  exact absurd hzero (by decide)

end Exclusion

end Haechi.Redis
