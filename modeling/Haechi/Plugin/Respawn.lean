import Haechi.Windows
import Haechi.Plugin.Replies

/-! How often the process sandbox starts a child. A kill of a child in use is recorded,
and enough of them in a window trip the breaker for good; a child that fails while it
starts is killed without a record. Proved: the bound holds in every run in which no child
fails its start, and starts go on for ever where each of them does. -/

namespace Haechi.Plugin

open Text JsValue Windows

variable {ν ι : Type}

/-- The call has an id. -/
def Phase.sent : Phase ν ι → Bool
  | .fetching _ | .inFlight _ => true
  | _ => false

/-- The child starts up without a failure. -/
def SandboxAction.loads : SandboxAction ν → Bool
  | .handshake _ ok => ok
  | _ => true

namespace Sandbox

/-! ### What a step does to the child -/

/-- The call awaits the handshake of a child. -/
def Spawning (s : Sandbox ν ι) (i : ℕ) : Prop := ∃ k, s.calls[i]? = some (.spawning k)

def BackingOff (s : Sandbox ν ι) (i : ℕ) : Prop := s.calls[i]? = some .backoff

def Sent (s : Sandbox ν ι) (i : ℕ) : Prop := ∃ p, s.calls[i]? = some p ∧ p.sent

/-- All that decides whether a child is started. -/
def lifecycle (s : Sandbox ν ι) : Option ℕ × Bool × List ℕ × Bool × List ℕ × List ℕ :=
  (s.child, s.closed, s.killTimes, s.breakerTripped, s.spawns, s.kills)

/-- What a step of the process sandbox does to the child. -/
inductive Turnover (c : SandboxConfig ι) (s : Sandbox ν ι) (a : SandboxAction ν)
    (s' : Sandbox ν ι) : Prop
  | calm (hclock : s.clock ≤ s'.clock) (hsame : s'.lifecycle = s.lifecycle)
      (hspawning : ∀ i, s'.Spawning i ↔ s.Spawning i)
      (hsent : s.child = none → ∀ i, s'.Sent i → s.Sent i)
      (hbackoff : s.child ≠ none → ∀ i, s'.BackingOff i → s.BackingOff i)
  | started (i : ℕ) (hclock : s'.clock = s.clock) (hchild : s.child = none)
      (hopen : s.closed = false) (htripped : s.breakerTripped = false)
      (hnone : ∀ j, ¬s.Spawning j) (hspawning : s'.Spawning i)
      (hlife : s'.lifecycle = (none, false, s.killTimes, false, s.clock :: s.spawns, s.kills))
  | ready (i k : ℕ) (hclock : s'.clock = s.clock) (hspawning : s.Spawning i)
      (hopen : s.closed = false) (hnone : ∀ j, ¬s'.Spawning j ∧ ¬s'.BackingOff j)
      (hlife : s'.lifecycle =
        (some k, false, s.killTimes, s.breakerTripped, s.spawns, s.kills))
  | failed (i : ℕ) (hclock : s'.clock = s.clock) (hspawning : s.Spawning i)
      (hfail : a.loads → s.closed) (hnone : ∀ j, ¬s'.Spawning j ∧ ¬s'.BackingOff j)
      (hlife : s'.lifecycle = s.lifecycle)
  | killed (hclock : s'.clock = s.clock) (hchild : s.child.isSome)
      (hspawning : ∀ i, s'.Spawning i ↔ s.Spawning i)
      (hlife : s'.lifecycle = (none, s.closed,
        (s.killTimes ++ [s.clock]).filter fun ts => s.clock - ts < c.respawnWindowMs,
        s.breakerTripped || decide (c.respawnMaxKills ≤ ((s.killTimes ++ [s.clock]).filter
          fun ts => s.clock - ts < c.respawnWindowMs).length),
        s.spawns, s.clock :: s.kills))
  | closing (hclock : s'.clock = s.clock) (hcalls : s'.calls = s.calls)
      (hlife : s'.lifecycle = (none, true, s.killTimes, s.breakerTripped, s.spawns, s.kills))

variable {c : SandboxConfig ι} {s s' : Sandbox ν ι} {a : SandboxAction ν} {i : ℕ} {p p' : Phase ν ι}

theorem active_of_sent (h : p.sent) : p.active := by
  cases p <;> first | rfl | cases h

/-- A call that comes to another place starts no child by that. -/
theorem spawning_set (hp : s.calls[i]? = some p) (hold : ∀ k, p ≠ .spawning k)
    (hnew : ∀ k, p' ≠ .spawning k) (hcalls : s'.calls = s.calls.set i p') (j : ℕ) :
    s'.Spawning j ↔ s.Spawning j := by
  unfold Spawning
  rw [hcalls]
  by_cases hij : i = j
  · subst hij
    rw [List.getElem?_set_self (List.getElem?_eq_some_iff.1 hp).1, hp]
    simp [hold, hnew]
  · rw [List.getElem?_set_ne hij]

theorem sent_set (hnew : p'.sent → s.Sent i) (hcalls : s'.calls = s.calls.set i p') (j : ℕ)
    (h : s'.Sent j) : s.Sent j := by
  obtain ⟨q, hq, hsent⟩ := h
  rw [hcalls] at hq
  rcases getElem?_set_eq_some hq with ⟨rfl, rfl⟩ | ⟨-, hq⟩
  · exact hnew hsent
  · exact ⟨q, hq, hsent⟩

/-- A call goes on, and no child is started or stopped by that. -/
theorem turnover_set (hp : s.calls[i]? = some p) (hold : ∀ k, p ≠ .spawning k)
    (hnew : ∀ k, p' ≠ .spawning k) (hsent : s.child = none → p'.sent → p.sent)
    (hback : p' = .backoff → s.child = none) (hcalls : s'.calls = s.calls.set i p')
    (hclock : s'.clock = s.clock) (hsame : s'.lifecycle = s.lifecycle) : Turnover c s a s' := by
  refine .calm hclock.ge hsame (spawning_set hp hold hnew hcalls)
    (fun hchild => sent_set (fun h => ⟨p, hp, hsent hchild h⟩) hcalls) fun hchild j hj => ?_
  rw [BackingOff, hcalls] at hj
  rcases getElem?_set_eq_some hj with ⟨-, h⟩ | ⟨-, hj⟩
  · exact absurd (hback h) hchild
  · exact hj

/-- At most one child is starting, and its call has the turn. -/
theorem Orderly.spawning_unique {j : ℕ} (hs : Orderly c s) (hp : s.calls[i]? = some p)
    (hact : p.active) (hwait : p ≠ .waiting) (hj : s.Spawning j) : j = i := by
  obtain ⟨k, hk⟩ := hj
  have hi := hs.head_of_active hp hact hwait
  rw [hs.head_of_active hk rfl (by simp)] at hi
  exact Option.some.inj hi

theorem Orderly.not_spawning (hs : Orderly c s) (hp : s.calls[i]? = some p) (hact : p.active)
    (hwait : p ≠ .waiting) (hold : ∀ k, p ≠ .spawning k) (j : ℕ) : ¬s.Spawning j := by
  intro hj
  obtain rfl := hs.spawning_unique hp hact hwait hj
  obtain ⟨k, hk⟩ := hj
  rw [hp] at hk
  exact hold k (Option.some.inj hk)

theorem turnover_spawn (hiso : c.isolation = .process) (hs : Orderly c s)
    (hp : s.calls[i]? = some p) (hrun : p.running) (hold : ∀ k, p ≠ .spawning k)
    (hchild : s.child = none) (hopen : s.closed = false) (htripped : s.breakerTripped = false)
    (verified : Bool) : Turnover c s a (spawn c s i verified) := by
  have hwait : p ≠ .waiting := by rintro rfl; cases hrun
  unfold spawn
  split
  · exact turnover_set hp hold (by simp) (fun _ h => by cases h) (fun h => by cases h) rfl rfl rfl
  · rw [hiso]
    refine .started i rfl hchild hopen htripped
      (hs.not_spawning hp (active_of_running hrun) hwait hold) ⟨s.spawned, ?_⟩ ?_
    · exact List.getElem?_set_self (List.getElem?_eq_some_iff.1 hp).1
    · simp [lifecycle, goto, hchild, hopen, htripped]

theorem turnover_ensureChild (hiso : c.isolation = .process) (hs : Orderly c s)
    (hp : s.calls[i]? = some .ensuring) (verified : Bool) :
    Turnover c s a (ensureChild c s i verified) := by
  unfold ensureChild
  split
  next => exact turnover_set hp (by simp) (by simp) (fun _ h => by cases h) (fun h => by cases h) rfl rfl rfl
  next hnone =>
    rw [Bool.or_eq_true, not_or, Bool.not_eq_true, Bool.not_eq_true, Option.isSome_eq_false_iff,
      Option.isNone_iff_eq_none] at hnone
    split
    next => exact turnover_set hp (by simp) (by simp) (fun _ h => by cases h) (fun h => by cases h) rfl rfl rfl
    next htripped =>
      split
      next => exact turnover_set hp (by simp) (by simp) (fun _ h => by cases h) (fun _ => hnone.1) rfl rfl rfl
      next =>
        exact turnover_spawn hiso hs hp rfl (by simp) hnone.1 hnone.2 (Bool.not_eq_true _ ▸ htripped)
          verified

theorem turnover_send {cid : JsString} (hp : s.calls[i]? = some p) (hold : ∀ k, p ≠ .spawning k)
    (sent : Bool) : Turnover c s a (s.send i cid sent) := by
  unfold send
  split
  next hsome =>
    refine turnover_set hp hold (by simp) (fun hnone _ => ?_) (fun h => by cases h) rfl rfl rfl
    simp [hnone] at hsome
  next => exact turnover_set hp hold (by simp) (fun _ h => by cases h) (fun h => by cases h) rfl rfl rfl

theorem turnover_begin {cid : JsString} (hp : s.calls[i]? = some .ensured) (fits sent : Bool) :
    Turnover c s a (begin c s i cid fits sent) := by
  unfold begin
  split
  next => exact turnover_set hp (by simp) (by simp) (fun _ h => by cases h) (fun h => by cases h) rfl rfl rfl
  next hsome =>
    split
    next => exact turnover_set hp (by simp) (by simp) (fun _ h => by cases h) (fun h => by cases h) rfl rfl rfl
    next =>
      split
      next =>
        refine turnover_set hp (by simp) (by simp) (fun hnone _ => ?_) (fun h => by cases h) rfl rfl rfl
        simp [hnone] at hsome
      next => exact turnover_send hp (by simp) sent

/-- Calls that fail together start no child by that. -/
theorem spawning_settleAll {value : Settled ν} {s₀ : Sandbox ν ι} (hcalls : s₀.calls = s.calls)
    (j : ℕ) : (s₀.settleAll value).Spawning j ↔ s.Spawning j := by
  unfold Spawning
  rw [settleAll, List.getElem?_mapIdx, hcalls]
  cases s.calls[j]? with
  | none => simp
  | some p => cases p with
    | inFlight cid =>
      simp only [Option.map_some]
      split <;> simp
    | _ => simp

theorem turnover_settleAll {value : Settled ν} {s₀ : Sandbox ν ι} (hcalls : s₀.calls = s.calls)
    (hclock : s₀.clock = s.clock) (hsame : s₀.lifecycle = s.lifecycle) :
    Turnover c s a (s₀.settleAll value) := by
  refine .calm hclock.ge hsame (spawning_settleAll hcalls) (fun _ j hj => ?_) fun _ j hj => ?_
  · obtain ⟨q, hq, hsent⟩ := hj
    rw [settleAll, List.getElem?_mapIdx, hcalls] at hq
    obtain ⟨p, hp, rfl⟩ := Option.map_eq_some_iff.1 hq
    refine ⟨p, hp, ?_⟩
    split at hsent
    · rfl
    · exact hsent
  · rw [BackingOff, settleAll, List.getElem?_mapIdx, hcalls] at hj
    obtain ⟨p, hp, heq⟩ := Option.map_eq_some_iff.1 hj
    split at heq
    · split at heq <;> cases heq
    · rw [BackingOff, hp, heq]

theorem lifecycle_terminateChild (hiso : c.isolation = .process) (hchild : s.child.isSome) :
    (terminateChild c s).lifecycle = (none, s.closed,
      (s.killTimes ++ [s.clock]).filter fun ts => s.clock - ts < c.respawnWindowMs,
      s.breakerTripped || decide (c.respawnMaxKills ≤ ((s.killTimes ++ [s.clock]).filter
        fun ts => s.clock - ts < c.respawnWindowMs).length),
      s.spawns, s.clock :: s.kills) := by
  simp [terminateChild, hiso, hchild, recordKill, settleAll, lifecycle]

theorem lifecycle_of_none (hchild : s.child = none) :
    (terminateChild c s).lifecycle = s.lifecycle := by
  cases s
  cases hchild
  rfl

theorem clock_terminateChild (c : SandboxConfig ι) (s : Sandbox ν ι) :
    (terminateChild c s).clock = s.clock := by
  unfold terminateChild
  split <;> rfl

theorem turnover_expire (hiso : c.isolation = .process) (hs : Orderly c s) {cid : JsString}
    (hp : s.calls[i]? = some (.inFlight cid)) : Turnover c s a (expire c s i cid) := by
  obtain ⟨hcalls, -, -⟩ := expire_calls hs hp
  have hclock : (expire c s i cid).clock = s.clock := clock_terminateChild c _
  cases hchild : s.child with
  | none =>
    refine turnover_set hp (by simp) (by simp) (fun _ h => by cases h) (fun h => by cases h) hcalls
      hclock ?_
    exact lifecycle_of_none (s := { s with pending := s.pending.filter fun e => e.1 != cid }) hchild
  | some k =>
    refine .killed hclock (by rw [hchild]; rfl) (spawning_set hp (by simp) (by simp) hcalls) ?_
    exact lifecycle_terminateChild hiso (by rw [hchild]; rfl)

theorem turnover_terminateChild (hiso : c.isolation = .process) (hchild : s.child.isSome) :
    Turnover c s a (terminateChild c s) := by
  obtain ⟨s₀, hterm, hcalls, -, -⟩ := terminateChild_eq c s
  refine .killed (clock_terminateChild c s) hchild (fun j => ?_) (lifecycle_terminateChild hiso hchild)
  rw [hterm]
  exact spawning_settleAll hcalls j

theorem turnover_same (hclock : s.clock ≤ s'.clock) (hsame : s'.lifecycle = s.lifecycle)
    (hcalls : s'.calls = s.calls) : Turnover c s a s' := by
  refine .calm hclock hsame (fun j => ?_) (fun _ j => ?_) fun _ j => ?_
  · rw [Spawning, hcalls, Spawning]
  · rw [Sent, hcalls]
    exact id
  · rw [BackingOff, hcalls]
    exact id

theorem turnover_receive (hs : Orderly c s) (m : Message ν) : Turnover c s a (receive c s m) := by
  cases m with
  | oversized => exact turnover_settleAll rfl rfl rfl
  | unparseable => exact turnover_same le_rfl rfl rfl
  | parsed r =>
    simp only [receive]
    split
    next cid hcid =>
      split
      · split
        next i hlookup =>
          exact turnover_set (hs.pending _ (mem_of_lookup hlookup)) (by simp) (by simp)
            (fun _ h => by cases h) (fun h => by cases h) rfl rfl rfl
        next => exact turnover_same le_rfl rfl rfl
      · exact turnover_same le_rfl rfl rfl
    next => exact turnover_same le_rfl rfl rfl

/-- A new call starts no child. -/
theorem turnover_enqueue (hasCredential : Bool) : Turnover c s a (enqueue c s hasCredential) := by
  have hcalm : ∀ p : Phase ν ι, p = .waiting ∨ p = .done none → ∀ s' : Sandbox ν ι,
      s'.calls = s.calls ++ [p] → s.clock ≤ s'.clock → s'.lifecycle = s.lifecycle →
      Turnover c s a s' := by
    intro p hp s' hcalls hclock hsame
    refine .calm hclock hsame (fun j => ⟨?_, ?_⟩) (fun _ j => ?_) fun _ j hj => ?_
    · rintro ⟨k, hk⟩
      rw [hcalls] at hk
      rcases getElem?_concat_eq_some.1 hk with hk | ⟨-, rfl⟩
      · exact ⟨k, hk⟩
      · simp at hp
    · rintro ⟨k, hk⟩
      exact ⟨k, hcalls ▸ getElem?_concat_eq_some.2 (.inl hk)⟩
    · rintro ⟨q, hq, hsent⟩
      rw [hcalls] at hq
      rcases getElem?_concat_eq_some.1 hq with hq | ⟨-, rfl⟩
      · exact ⟨q, hq, hsent⟩
      · rcases hp with rfl | rfl <;> cases hsent
    · rw [BackingOff, hcalls] at hj
      rcases getElem?_concat_eq_some.1 hj with hj | ⟨-, rfl⟩
      · exact hj
      · simp at hp
  unfold enqueue
  split
  · exact hcalm _ (.inl rfl) _ rfl le_rfl rfl
  · exact hcalm _ (.inr rfl) _ rfl le_rfl rfl

theorem turnover_backoff (hiso : c.isolation = .process) (hs : Orderly c s)
    (hp : s.calls[i]? = some .backoff) (hchild : s.child = none) (verified : Bool) :
    Turnover c s a (if s.closed || s.breakerTripped then s.goto i (.settled .null)
      else spawn c s i verified) := by
  split
  next => exact turnover_set hp (by simp) (by simp) (fun _ h => by cases h) (fun h => by cases h) rfl rfl rfl
  next hgo =>
    rw [Bool.or_eq_true, not_or, Bool.not_eq_true, Bool.not_eq_true] at hgo
    exact turnover_spawn hiso hs hp rfl (by simp) hchild hgo.1 hgo.2 verified

/-- After the call at its turn has moved on, no other one starts a child. -/
theorem Orderly.none_starting {k : ℕ} (hs : Orderly c s) (hp : s.calls[i]? = some (.spawning k))
    (hnew : (∀ k, p' ≠ .spawning k) ∧ p' ≠ .backoff) (hcalls : s'.calls = s.calls.set i p') (j : ℕ) :
    ¬s'.Spawning j ∧ ¬s'.BackingOff j := by
  refine ⟨?_, fun hj => ?_⟩
  · rintro ⟨l, hl⟩
    rw [hcalls] at hl
    rcases getElem?_set_eq_some hl with ⟨-, h⟩ | ⟨hne, hl⟩
    · exact hnew.1 l h
    · exact hne (hs.spawning_unique hp rfl (by simp) ⟨l, hl⟩).symm
  · rw [BackingOff, hcalls] at hj
    rcases getElem?_set_eq_some hj with ⟨-, h⟩ | ⟨hne, hj⟩
    · exact hnew.2 h
    · have hi := hs.head_of_active hp rfl (by simp)
      rw [hs.head_of_active hj rfl (by simp)] at hi
      exact hne (Option.some.inj hi).symm

theorem turnover_handshake {child : ℕ} (hs : Orderly c s) (hp : s.calls[i]? = some (.spawning child))
    (ok : Bool) : Turnover c s (.handshake i ok)
      (if ok && !s.closed then { s.goto i .ensured with child := some child }
        else s.goto i (.settled .null)) := by
  split
  next hok =>
    rw [Bool.and_eq_true, Bool.not_eq_true'] at hok
    refine .ready i child rfl ⟨child, hp⟩ hok.2 (hs.none_starting hp ⟨by simp, by simp⟩ rfl) ?_
    simp [lifecycle, goto, hok.2]
  next hok =>
    refine .failed i rfl ⟨child, hp⟩ (fun hload => ?_) (hs.none_starting hp ⟨by simp, by simp⟩ rfl) rfl
    have htrue : ok = true := hload
    simpa [htrue] using hok

theorem next_turnover [JsNumber ν] (hiso : c.isolation = .process) (hs : Orderly c s)
    (hback : ∀ i, s.BackingOff i → s.child = none) (h : next c s a = some s') :
    Turnover c s a s' := by
  cases a with
  | tick d => cases h; exact turnover_same (Nat.le_add_right _ _) rfl rfl
  | authenticate hasCredential => cases h; exact turnover_enqueue hasCredential
  | turn i =>
    simp only [next] at h
    split at h
    next hp =>
      split at h
      next =>
        cases h
        exact turnover_set hp (by simp) (by simp) (fun _ h => by cases h) (fun h => by cases h) rfl rfl rfl
      next => cases h
    next => cases h
  | ensure i verified =>
    simp only [next] at h
    split at h
    next hp => cases h; exact turnover_ensureChild hiso hs hp verified
    next => cases h
  | backoffOver i verified =>
    simp only [next] at h
    split at h
    next hp => cases h; exact turnover_backoff hiso hs hp (hback i hp) verified
    next => cases h
  | handshake i ok =>
    simp only [next] at h
    split at h
    next child hp => cases h; exact turnover_handshake hs hp ok
    next => cases h
  | begin i cid fits sent =>
    simp only [next] at h
    split at h
    next hp => cases h; exact turnover_begin hp fits sent
    next => cases h
  | fetched i ok sent =>
    simp only [next] at h
    split at h
    next cid hp =>
      cases h
      split
      · exact turnover_send hp (by simp) sent
      · exact turnover_set hp (by simp) (by simp) (fun _ h => by cases h) (fun h => by cases h) rfl rfl rfl
    next => cases h
  | timer i =>
    simp only [next] at h
    split at h
    next cid hp => cases h; exact turnover_expire hiso hs hp
    next => cases h
  | resume i =>
    simp only [next] at h
    split at h
    next value hp =>
      cases h
      obtain ⟨p', hcalls, -, hact⟩ := release_calls c s i value
      refine turnover_set hp (by simp) ?_ ?_ ?_ hcalls rfl rfl
      · rintro k rfl
        cases hact
      · intro _ hsent
        rw [active_of_sent hsent] at hact
        cases hact
      · rintro rfl
        cases hact
    next => cases h
  | built i =>
    simp only [next] at h
    split at h
    next claims hp =>
      cases h
      exact turnover_set hp (by simp) (by simp) (fun _ h => by cases h) (fun h => by cases h) rfl rfl rfl
    next => cases h
  | message k m =>
    simp only [next] at h
    split at h
    next => cases h; exact turnover_receive hs m
    next => cases h
  | died k crashed =>
    simp only [next] at h
    split at h
    next hdied =>
      cases h
      refine turnover_terminateChild hiso ?_
      rw [Bool.and_eq_true, beq_iff_eq] at hdied
      rw [hdied.2]
      rfl
    next => cases h
  | close => cases h; exact .closing rfl rfl rfl

/-! ### The breaker -/

/-- What a sandbox keeps to as long as no child fails its start. -/
structure Paced (c : SandboxConfig ι) (s : Sandbox ν ι) : Prop where
  backoff : ∀ i, s.BackingOff i → s.child = none
  single : s.child ≠ none → ∀ i, ¬s.Spawning i
  closed : s.closed → s.child = none
  started : ∀ t ∈ s.spawns, t ≤ s.clock
  stopped : ∀ t ∈ s.kills, t ≤ s.clock
  /-- A start comes after each kill, and only then; while the sandbox is open, the last
  child started is in use or about to be, or is recorded as killed. -/
  alternating : ∃ up, Alternating up s.spawns s.kills ∧
    (s.closed = false → (up = true ↔ s.child ≠ none ∨ ∃ i, s.Spawning i))
  /-- The record is the recent part of the history. -/
  record : ∀ t, s.clock ≤ t → recent c.respawnWindowMs t s.killTimes = recent c.respawnWindowMs t s.kills
  below : s.breakerTripped = false → s.killTimes.length < c.respawnMaxKills ∧
    ∀ a, within c.respawnWindowMs a s.kills < c.respawnMaxKills
  bounded : ∀ a, within c.respawnWindowMs a s.kills ≤ c.respawnMaxKills
  tripped : s.breakerTripped → s.child = none ∧ ∀ i, ¬s.Spawning i

theorem paced_start (hiso : c.isolation = .process) (clock : ℕ) :
    Paced c (startSandbox c clock : Sandbox ν ι) := by
  rw [startSandbox, hiso]
  have hnone : ∀ i, ¬(⟨clock, none, 0, false, [], false, [], [], [], [], []⟩ : Sandbox ν ι).Spawning i := by
    rintro i ⟨k, hk⟩
    cases hk
  exact {
    backoff := fun _ _ => rfl
    single := fun h => absurd rfl h
    closed := fun _ => rfl
    started := fun _ h => (List.not_mem_nil h).elim
    stopped := fun _ h => (List.not_mem_nil h).elim
    alternating := by
      refine ⟨false, .never, fun _ => ⟨fun h => (by cases h), ?_⟩⟩
      rintro (h | ⟨i, hi⟩)
      · exact absurd rfl h
      · exact absurd hi (hnone i)
    record := fun _ _ => rfl
    below := fun _ => ⟨c.kills_pos, fun _ => c.kills_pos⟩
    bounded := fun _ => Nat.zero_le _
    tripped := fun h => (by cases h) }

/-- A kill of the child in use. -/
theorem Paced.killed (hs : Paced c s) (hclock : s'.clock = s.clock) (hchild : s.child.isSome)
    (hspawning : ∀ i, s'.Spawning i ↔ s.Spawning i)
    (hlife : s'.lifecycle = (none, s.closed,
      (s.killTimes ++ [s.clock]).filter fun ts => s.clock - ts < c.respawnWindowMs,
      s.breakerTripped || decide (c.respawnMaxKills ≤ ((s.killTimes ++ [s.clock]).filter
        fun ts => s.clock - ts < c.respawnWindowMs).length),
      s.spawns, s.clock :: s.kills)) : Paced c s' := by
  simp only [lifecycle, Prod.mk.injEq] at hlife
  obtain ⟨hc, hcl, hrecord, htrip, hspawns, hkills⟩ := hlife
  have hsome : s.child ≠ none := by
    rw [Option.ne_none_iff_isSome]
    exact hchild
  have hnot : s.breakerTripped = false := by
    by_contra h
    rw [Bool.not_eq_false] at h
    exact hsome (hs.tripped h).1
  have hopen : s.closed = false := by
    by_contra h
    rw [Bool.not_eq_false] at h
    exact hsome (hs.closed h)
  have hnone : ∀ i, ¬s'.Spawning i := fun i hi => hs.single hsome i ((hspawning i).1 hi)
  have hrec : ∀ t, s.clock ≤ t → recent c.respawnWindowMs t s'.killTimes =
      recent c.respawnWindowMs t (s.clock :: s.kills) := by
    intro t ht
    rw [hrecord, recent_filter ht, recent_append, hs.record t ht, Nat.add_comm, ← recent_append]
    rfl
  have hlen : s'.killTimes.length = recent c.respawnWindowMs s.clock (s.clock :: s.kills) := by
    rw [← hrec s.clock le_rfl, hrecord, recent_filter le_rfl, recent, List.countP_eq_length_filter]
  have hle : s'.killTimes.length ≤ c.respawnMaxKills := by
    rw [hrecord]
    refine (List.length_filter_le _ _).trans ?_
    rw [List.length_append]
    exact (hs.below hnot).1
  obtain ⟨up, halt, hup⟩ := hs.alternating
  have hlast : up = true := (hup hopen).2 (.inl hsome)
  refine ⟨fun _ _ => hc, fun h => absurd hc h, fun _ => hc, ?_, ?_, ?_, ?_, ?_, ?_, fun _ => ⟨hc, hnone⟩⟩
  · rw [hspawns, hclock]
    exact hs.started
  · rw [hkills, hclock]
    exact List.forall_mem_cons.2 ⟨le_rfl, hs.stopped⟩
  · refine ⟨false, ?_, fun _ => ⟨fun h => (by cases h), ?_⟩⟩
    · rw [hspawns, hkills]
      exact .stop (hlast ▸ halt) hs.started
    · rintro (h | ⟨i, hi⟩)
      · exact absurd hc h
      · exact absurd hi (hnone i)
  · intro t ht
    rw [hkills]
    exact hrec t (hclock ▸ ht)
  · intro hfalse
    rw [htrip, hnot, Bool.false_or, decide_eq_false_iff_not, Nat.not_le, ← hrecord] at hfalse
    refine ⟨hfalse, fun a => ?_⟩
    rw [hkills]
    rcases within_cons_le c.respawnWindowMs a hs.stopped with heq | hrecent
    · rw [heq]
      exact (hs.below hnot).2 a
    · exact (hrecent.trans hlen.ge).trans_lt hfalse
  · intro a
    rw [hkills]
    rcases within_cons_le c.respawnWindowMs a hs.stopped with heq | hrecent
    · rw [heq]
      exact hs.bounded a
    · exact (hrecent.trans hlen.ge).trans hle

/-- A step after which the record of starts and kills is the same. -/
theorem Paced.of_same {child : Option ℕ} {closed : Bool} (hs : Paced c s) (hclock : s.clock ≤ s'.clock)
    (hlife : s'.lifecycle =
      (child, closed, s.killTimes, s.breakerTripped, s.spawns, s.kills))
    (hbackoff : ∀ i, s'.BackingOff i → child = none) (hsingle : child ≠ none → ∀ i, ¬s'.Spawning i)
    (hclosed : closed → child = none)
    (hup : closed = false → s.closed = false ∧
      ((child ≠ none ∨ ∃ i, s'.Spawning i) ↔ (s.child ≠ none ∨ ∃ i, s.Spawning i)))
    (htripped : s.breakerTripped → child = none ∧ ∀ i, ¬s'.Spawning i) : Paced c s' := by
  simp only [lifecycle, Prod.mk.injEq] at hlife
  obtain ⟨hc, hcl, hrecord, htrip, hspawns, hkills⟩ := hlife
  obtain ⟨up, halt, hold⟩ := hs.alternating
  refine ⟨fun i hi => hc.trans (hbackoff i hi), fun h => hsingle (hc ▸ h),
    fun h => hc.trans (hclosed (hcl ▸ h)), fun t ht => ?_, fun t ht => ?_, ⟨up, ?_, fun h => ?_⟩,
    fun t ht => ?_, fun h => ?_, fun a => ?_, fun h => ?_⟩
  · exact (hs.started t (hspawns ▸ ht)).trans hclock
  · exact (hs.stopped t (hkills ▸ ht)).trans hclock
  · rw [hspawns, hkills]
    exact halt
  · obtain ⟨hopen, hiff⟩ := hup (hcl ▸ h)
    rw [hc, hold hopen, hiff]
  · rw [hrecord, hkills]
    exact hs.record t (hclock.trans ht)
  · rw [hrecord, hkills]
    exact hs.below (htrip ▸ h)
  · rw [hkills]
    exact hs.bounded a
  · rw [hc]
    exact htripped (htrip ▸ h)

/-- A step keeps to the pace, unless it is the failure of a child that starts. -/
theorem Paced.turnover (hs : Paced c s) (h : Turnover c s a s') (hload : a.loads) : Paced c s' := by
  cases h with
  | calm hclock hsame hspawning hsent hbackoff =>
    refine hs.of_same hclock hsame (fun i hi => ?_) (fun h i hi => hs.single h i ((hspawning i).1 hi))
      hs.closed (fun h => ⟨h, by simp only [hspawning]⟩)
      fun h => ⟨(hs.tripped h).1, fun i hi => (hs.tripped h).2 i ((hspawning i).1 hi)⟩
    by_contra hchild
    exact hchild (hs.backoff i (hbackoff hchild i hi))
  | started i hclock hchild hopen htripped hnone hspawning hlife =>
    simp only [lifecycle, Prod.mk.injEq] at hlife
    obtain ⟨hc, hcl, hrecord, htrip, hspawns, hkills⟩ := hlife
    obtain ⟨up, halt, hup⟩ := hs.alternating
    have hdown : up = false := by
      by_contra h
      rw [Bool.not_eq_false] at h
      rcases (hup hopen).1 h with h | ⟨j, hj⟩
      · exact h hchild
      · exact hnone j hj
    refine ⟨fun _ _ => hc, fun h => absurd hc h, fun _ => hc, ?_, ?_, ⟨true, ?_, fun _ => ?_⟩,
      fun t ht => ?_, fun _ => ?_, fun a => ?_, fun h => ?_⟩
    · rw [hspawns, hclock]
      exact List.forall_mem_cons.2 ⟨le_rfl, hs.started⟩
    · rw [hkills, hclock]
      exact hs.stopped
    · rw [hspawns, hkills]
      exact .start (hdown ▸ halt) hs.stopped
    · exact ⟨fun _ => .inr ⟨i, hspawning⟩, fun _ => rfl⟩
    · rw [hrecord, hkills]
      exact hs.record t (hclock ▸ ht)
    · rw [hrecord, hkills]
      exact hs.below htripped
    · rw [hkills]
      exact hs.bounded a
    · rw [htrip] at h
      cases h
  | ready i k hclock hspawning hopen hnone hlife =>
    have hnot : ¬s.breakerTripped := fun h => (hs.tripped h).2 i hspawning
    refine hs.of_same hclock.ge hlife (fun j hj => absurd hj (hnone j).2) (fun _ j => (hnone j).1)
      (fun h => by cases h) (fun _ => ⟨hopen, ?_⟩) fun h => absurd h hnot
    exact ⟨fun _ => .inr ⟨i, hspawning⟩, fun _ => .inl (by simp)⟩
  | failed i hclock hspawning hfail hnone hlife =>
    have hclosed := hfail hload
    refine hs.of_same hclock.ge hlife (fun j hj => absurd hj (hnone j).2) (fun _ j => (hnone j).1)
      hs.closed (fun h => ?_) fun h => ⟨(hs.tripped h).1, fun j => (hnone j).1⟩
    rw [hclosed] at h
    cases h
  | killed hclock hchild hspawning hlife => exact hs.killed hclock hchild hspawning hlife
  | closing hclock hcalls hlife =>
    have hspawning : ∀ i, s'.Spawning i ↔ s.Spawning i := fun i => by rw [Spawning, hcalls, Spawning]
    exact hs.of_same hclock.ge hlife (fun _ _ => rfl) (fun h => absurd rfl h) (fun _ => rfl)
      (fun h => by cases h) fun h => ⟨rfl, fun i hi => (hs.tripped h).2 i ((hspawning i).1 hi)⟩

/-- The breaker is tripped, and there is no child nor one that starts. -/
structure Barred (s : Sandbox ν ι) : Prop where
  tripped : s.breakerTripped
  child : s.child = none
  spawning : ∀ i, ¬s.Spawning i

/-- Then it stays so, no child is started, and no call gets an id. -/
theorem Barred.turnover (hs : Barred s) (h : Turnover c s a s') :
    Barred s' ∧ s'.spawns = s.spawns ∧ ∀ i, s'.Sent i → s.Sent i := by
  cases h with
  | calm hclock hsame hspawning hsent hbackoff =>
    simp only [lifecycle, Prod.mk.injEq] at hsame
    obtain ⟨hc, -, -, htrip, hspawns, -⟩ := hsame
    exact ⟨⟨htrip ▸ hs.tripped, hc ▸ hs.child, fun i hi => hs.spawning i ((hspawning i).1 hi)⟩, hspawns,
      hsent hs.child⟩
  | started i hclock hchild hopen htripped =>
    have := hs.tripped
    rw [htripped] at this
    cases this
  | ready i k hclock hspawning => exact absurd hspawning (hs.spawning i)
  | failed i hclock hspawning => exact absurd hspawning (hs.spawning i)
  | killed hclock hchild =>
    rw [hs.child] at hchild
    cases hchild
  | closing hclock hcalls hlife =>
    simp only [lifecycle, Prod.mk.injEq] at hlife
    obtain ⟨hc, -, -, htrip, hspawns, -⟩ := hlife
    refine ⟨⟨htrip ▸ hs.tripped, hc, fun i => ?_⟩, hspawns, fun i => ?_⟩
    · rw [Spawning, hcalls]
      exact hs.spawning i
    · rw [Sent, hcalls]
      exact id

/-! ### Runs -/

section Runs

variable [JsNumber ν] {clock : ℕ} {as : List (SandboxAction ν)}

/-- A step that is possible, or none. -/
theorem step_turnover (hiso : c.isolation = .process) (hs : Orderly c s)
    (hback : ∀ i, s.BackingOff i → s.child = none) (a : SandboxAction ν) :
    Turnover c s a (step c s a) := by
  rcases step_eq_or c s a with ⟨s', hnext, rfl⟩ | ⟨-, heq⟩
  · exact next_turnover hiso hs hback hnext
  · rw [heq]
    exact turnover_same le_rfl rfl rfl

theorem paced_after (hiso : c.isolation = .process) (hload : ∀ a ∈ as, SandboxAction.loads a) :
    Paced c (after c clock as : Sandbox ν ι) := by
  induction as using List.reverseRecOn with
  | nil => exact paced_start hiso clock
  | append_singleton as a ih =>
    have hs := ih fun b hb => hload b (List.mem_append_left _ hb)
    rw [after_concat]
    exact hs.turnover (step_turnover hiso (orderly_after c clock as) hs.backoff a)
      (hload a (List.mem_append_right _ (List.mem_singleton_self a)))

theorem length_after_le (c : SandboxConfig ι) (clock : ℕ) (as bs : List (SandboxAction ν)) :
    (after c clock as : Sandbox ν ι).calls.length ≤ (after c clock (as ++ bs)).calls.length := by
  induction bs using List.reverseRecOn with
  | nil => rw [List.append_nil]
  | append_singleton bs b ih =>
    rw [← List.append_assoc, after_concat]
    exact ih.trans (step_moves (orderly_after c clock _) b).1

/-- Once the breaker is tripped no child is started any more, and no new call gets an id. -/
theorem barred_after (hiso : c.isolation = .process)
    (hs : Barred (after c clock as : Sandbox ν ι)) (bs : List (SandboxAction ν)) :
    Barred (after c clock (as ++ bs) : Sandbox ν ι) ∧
      (after c clock (as ++ bs) : Sandbox ν ι).spawns = (after c clock as).spawns ∧
      ∀ i, (after c clock (as ++ bs) : Sandbox ν ι).Sent i →
        i < (after c clock as : Sandbox ν ι).calls.length := by
  induction bs using List.reverseRecOn with
  | nil =>
    rw [List.append_nil]
    exact ⟨hs, rfl, fun i ⟨p, hp, _⟩ => (List.getElem?_eq_some_iff.1 hp).1⟩
  | append_singleton bs b ih =>
    obtain ⟨hbarred, hspawns, hsent⟩ := ih
    rw [← List.append_assoc, after_concat]
    obtain ⟨hbarred', hspawns', hsent'⟩ :=
      hbarred.turnover (step_turnover hiso (orderly_after c clock _) (fun _ _ => hbarred.child) b)
    exact ⟨hbarred', hspawns'.trans hspawns, fun i hi => hsent i (hsent' i hi)⟩

/-- A call that came after the breaker tripped is denied. -/
theorem denied_of_barred (hiso : c.isolation = .process)
    (hs : Barred (after c clock as : Sandbox ν ι)) {bs : List (SandboxAction ν)} {identity : Option ι}
    (hi : (after c clock as : Sandbox ν ι).calls.length ≤ i)
    (hp : (after c clock (as ++ bs)).calls[i]? = some (.done identity)) : identity = none := by
  cases identity with
  | none => rfl
  | some identity =>
    obtain ⟨r, -, ⟨pre, k, post, cid, heq, hflight, -⟩, -⟩ := sourced_after c clock (as ++ bs) i _ hp
    exfalso
    rcases List.append_eq_append_iff.1 heq with ⟨bs', rfl, -⟩ | ⟨as', rfl, -⟩
    · have := (barred_after hiso hs bs').2.2 i ⟨_, hflight, rfl⟩
      omega
    · have hlt := (List.getElem?_eq_some_iff.1 hflight).1
      have := length_after_le (ι := ι) c clock pre as'
      omega

/-- The promise of the breaker. -/
structure SpawnBound (c : SandboxConfig ι) (clock : ℕ) (as : List (SandboxAction ν)) : Prop where
  window : ∀ a, within c.respawnWindowMs a (after c clock as : Sandbox ν ι).spawns ≤
    c.respawnMaxKills + 1
  denied : ∀ a, c.respawnMaxKills ≤ within c.respawnWindowMs a (after c clock as : Sandbox ν ι).kills →
    ∀ bs, (after c clock (as ++ bs) : Sandbox ν ι).spawns = (after c clock as).spawns ∧
      ∀ (i : ℕ) (identity : Option ι), (after c clock as : Sandbox ν ι).calls.length ≤ i →
        (after c clock (as ++ bs)).calls[i]? = some (.done identity) → identity = none

/-- It is kept in every run in which no child fails its start. -/
theorem spawns_bounded (hiso : c.isolation = .process) (clock : ℕ)
    (hload : ∀ a ∈ as, SandboxAction.loads a) : SpawnBound c clock as := by
  have hs : Paced c (after c clock as) := paced_after hiso hload
  refine ⟨fun a => ?_, fun a hfull bs => ?_⟩
  · obtain ⟨up, halt, -⟩ := hs.alternating
    exact (halt.within_le c.respawnWindowMs a).1.trans (Nat.succ_le_succ (hs.bounded a))
  · have htripped : (after c clock as : Sandbox ν ι).breakerTripped := by
      by_contra h
      rw [Bool.not_eq_true] at h
      exact absurd ((hs.below h).2 a) (not_lt.2 hfull)
    have hbarred : Barred (after c clock as : Sandbox ν ι) :=
      ⟨htripped, (hs.tripped htripped).1, (hs.tripped htripped).2⟩
    exact ⟨(barred_after hiso hbarred bs).2.1, fun i identity hi hp => denied_of_barred hiso hbarred hi hp⟩

end Runs

/-- The defaults of the process sandbox. -/
def processDefaults : SandboxConfig ℕ where
  isolation := .process
  maxPendingCalls := 8
  keyMaterial := false
  respawnMaxKills := 5
  kills_pos := Nat.succ_pos 4
  respawnWindowMs := 10000
  respawnBackoffMs := 100
  build claims := some claims.subject.length

/-- A call starts a child, its time is up, and the next call starts another. -/
def timeoutRun : List (SandboxAction NumberToken) :=
  [.authenticate true, .turn 0, .ensure 0 true, .handshake 0 true, .begin 0 (js "a") true true,
    .tick 50, .timer 0, .resume 0, .authenticate true, .turn 1, .ensure 1 true, .tick 100,
    .backoffOver 1 true]

theorem timeoutRun_bounded :
    within 10000 0 (after processDefaults 0 timeoutRun).spawns = 2 ∧
      SpawnBound processDefaults 0 timeoutRun :=
  ⟨by decide +kernel, spawns_bounded rfl 0 (by decide)⟩

/-- Seven calls, each with a child that does not load. -/
def failingLoads : List (SandboxAction NumberToken) :=
  (List.range 7).flatMap fun i =>
    [.authenticate true, .turn i, .ensure i true, .handshake i false, .resume i]

/-- Each of them starts a child, and none is recorded as killed. -/
theorem failing_loads_spawn : ¬SpawnBound processDefaults 0 failingLoads := by
  intro h
  have hseven : within 10000 0 (after processDefaults 0 failingLoads).spawns = 7 := by decide +kernel
  have := h.window 0
  rw [show processDefaults.respawnWindowMs = 10000 from rfl, hseven] at this
  exact absurd this (by decide)

end Sandbox

end Haechi.Plugin
