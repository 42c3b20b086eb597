import Haechi.Plugin.Sandbox

/-! What a call of a sandboxed plugin comes to, over every run: an identity is from a
reply with the call's own correlation id that arrived while it was the one in flight, one
call is in flight at a time, the queue stays within its bound, and every call comes to
one end. The child may answer late, twice, too much, under any id, or not at all. -/

namespace Haechi.Plugin

open Text JsValue

variable {ν ι : Type}

/-! ### Moves of a call -/

/-- It is not a reply. -/
def Settled.claimless : Settled ν → Bool
  | .reply _ => false
  | _ => true

/-- The call has its turn and no outcome yet. -/
def Phase.running : Phase ν ι → Bool
  | .waiting | .settled _ | .building _ | .done _ => false
  | _ => true

/-- The call goes on from a place of this rank, or has failed. -/
inductive Phase.Later (n : ℕ) : Phase ν ι → Prop
  | onward {p : Phase ν ι} (hp : p.running) (hlt : p.rank < n) : Later n p
  | failed {value : Settled ν} (hv : value.claimless) : Later n (.settled value)

/-- What a step may do to one call. -/
inductive Move [JsNumber ν] (c : SandboxConfig ι) :
    SandboxAction ν → Phase ν ι → Phase ν ι → Prop
  | turn (i : ℕ) : Move c (.turn i) .waiting .ensuring
  | goes (a : SandboxAction ν) {p p' : Phase ν ι} (hp : p.running) (hp' : p'.Later p.rank) :
      Move c a p p'
  | answered (k : ℕ) {r : JsValue ν} {cid : JsString} (hcid : r.get (js "cid") = .str cid) :
      Move c (.message k (.parsed r)) (.inFlight cid) (.settled (.reply r))
  | denied (i : ℕ) (value : Settled ν) : Move c (.resume i) (.settled value) (.done none)
  | claimed (i : ℕ) {r : JsValue ν} {claims : Claims}
      (hclaims : claimsOf c.isolation r = some claims) :
      Move c (.resume i) (.settled (.reply r)) (.building claims)
  | built (i : ℕ) (claims : Claims) : Move c (.built i) (.building claims) (.done (c.build claims))

/-- The step is one that the host comes to by itself: a turn, a timer, or the end of
something it awaits. -/
def SandboxAction.ofHost : SandboxAction ν → Bool
  | .tick _ | .authenticate _ | .message _ _ | .died _ _ | .close => false
  | _ => true

namespace Sandbox

/-- The calls after a step are the old ones, each in its place or moved, and perhaps a new
one; a call that waited has moved by its turn only. -/
def Moves [JsNumber ν] (c : SandboxConfig ι) (s : Sandbox ν ι) (a : SandboxAction ν)
    (calls : List (Phase ν ι)) : Prop :=
  ∀ i p', calls[i]? = some p' →
    (i = s.calls.length ∧ (p' = .waiting ∨ p' = .done none)) ∨
    ∃ p, s.calls[i]? = some p ∧
      (p' = p ∨ Move c a p p' ∧ (p = .waiting → s.queue.head? = some i))

/-- A call that is to be answered is in flight under its id. -/
def PendingInFlight (s : Sandbox ν ι) : Prop :=
  ∀ e ∈ s.pending, s.calls[e.2]? = some (.inFlight e.1)

/-- One call is at a new place, and waits for an answer if it is in flight there. -/
structure Goes (s s' : Sandbox ν ι) (i : ℕ) (p' : Phase ν ι) : Prop where
  calls : s'.calls = s.calls.set i p'
  queue : s'.queue = s.queue
  pending : ∀ e ∈ s'.pending, e ∈ s.pending ∨ e.2 = i ∧ p' = .inFlight e.1

variable {c : SandboxConfig ι} {s : Sandbox ν ι} {i : ℕ} {p p' : Phase ν ι}

theorem goes_goto (s : Sandbox ν ι) (i : ℕ) (p' : Phase ν ι) : Goes s (s.goto i p') i p' :=
  ⟨rfl, rfl, fun _ he => .inl he⟩

theorem spawn_goes (c : SandboxConfig ι) (s : Sandbox ν ι) (i : ℕ) (verified : Bool) :
    ∃ p', Goes s (spawn c s i verified) i p' ∧ p'.Later 7 := by
  unfold spawn
  split
  · exact ⟨_, goes_goto s i _, .failed rfl⟩
  · split
    · exact ⟨.ensured, ⟨rfl, rfl, fun _ he => .inl he⟩, .onward rfl (by simp [Phase.rank])⟩
    · exact ⟨.spawning s.spawned, ⟨rfl, rfl, fun _ he => .inl he⟩, .onward rfl (by simp [Phase.rank])⟩

theorem later_mono {m n : ℕ} (hmn : m ≤ n) (h : p'.Later m) : p'.Later n := by
  cases h with
  | onward hp hlt => exact .onward hp (by omega)
  | failed hv => exact .failed hv

theorem ensureChild_goes (c : SandboxConfig ι) (s : Sandbox ν ι) (i : ℕ) (verified : Bool) :
    ∃ p', Goes s (ensureChild c s i verified) i p' ∧ p'.Later 8 := by
  unfold ensureChild
  split
  · exact ⟨_, goes_goto s i _, .onward rfl (by simp [Phase.rank])⟩
  · split
    · exact ⟨_, goes_goto s i _, .failed rfl⟩
    · split
      · exact ⟨_, goes_goto s i _, .onward rfl (by simp [Phase.rank])⟩
      · obtain ⟨p', hgoes, hlater⟩ := spawn_goes c s i verified
        exact ⟨p', hgoes, later_mono (by omega) hlater⟩

theorem send_goes (s : Sandbox ν ι) (i : ℕ) (cid : JsString) (sent : Bool) :
    ∃ p', Goes s (s.send i cid sent) i p' ∧ p'.Later 4 := by
  unfold send
  split
  · refine ⟨.inFlight cid, ⟨rfl, rfl, fun e he => ?_⟩, .onward rfl (by simp [Phase.rank])⟩
    rcases List.mem_cons.1 he with rfl | he
    · exact .inr ⟨rfl, rfl⟩
    · exact .inl he
  · exact ⟨_, goes_goto s i _, .failed rfl⟩

theorem begin_goes (c : SandboxConfig ι) (s : Sandbox ν ι) (i : ℕ) (cid : JsString)
    (fits sent : Bool) : ∃ p', Goes s (begin c s i cid fits sent) i p' ∧ p'.Later 5 := by
  unfold begin
  split
  · exact ⟨_, goes_goto s i _, .failed rfl⟩
  · split
    · exact ⟨_, goes_goto s i _, .failed rfl⟩
    · split
      · exact ⟨_, goes_goto s i _, .onward rfl (by simp [Phase.rank])⟩
      · obtain ⟨p', hgoes, hlater⟩ := send_goes s i cid sent
        exact ⟨p', hgoes, later_mono (by omega) hlater⟩

/-! ### The queue -/

/-- The calls that wait or run, in the order they came. -/
def activeCalls (calls : List (Phase ν ι)) : List ℕ :=
  (List.range calls.length).filter fun i => calls[i]?.any Phase.active

theorem nodup_activeCalls (calls : List (Phase ν ι)) : (activeCalls calls).Nodup :=
  List.nodup_range.filter _

theorem mem_activeCalls {calls : List (Phase ν ι)} :
    i ∈ activeCalls calls ↔ ∃ p, calls[i]? = some p ∧ p.active := by
  rw [activeCalls, List.mem_filter, List.mem_range, Option.any_eq_true]
  exact ⟨And.right, fun ⟨p, hp, hact⟩ => ⟨(List.getElem?_eq_some_iff.1 hp).1, p, hp, hact⟩⟩

theorem activeCalls_congr {l l' : List (Phase ν ι)} (hlen : l'.length = l.length)
    (hact : ∀ i : ℕ, l'[i]?.any Phase.active = l[i]?.any Phase.active) :
    activeCalls l' = activeCalls l := by
  rw [activeCalls, activeCalls, hlen]
  exact List.filter_congr fun i _ => hact i

theorem activeCalls_concat (l : List (Phase ν ι)) (p : Phase ν ι) :
    activeCalls (l ++ [p]) = activeCalls l ++ if p.active then [l.length] else [] := by
  have hold : ∀ i ∈ List.range l.length,
      (l ++ [p])[i]?.any Phase.active = l[i]?.any Phase.active := fun i hi => by
    rw [List.getElem?_append_left (List.mem_range.1 hi)]
  rw [activeCalls, List.length_append, List.length_singleton, List.range_succ, List.filter_append,
    List.filter_congr hold, ← activeCalls, List.filter_singleton, List.getElem?_concat_length]
  cases hact : p.active <;> simp [Option.any, hact]

theorem length_activeCalls (l : List (Phase ν ι)) :
    (activeCalls l).length = l.countP Phase.active := by
  induction l using List.reverseRecOn with
  | nil => rfl
  | append_singleton l p ih =>
    rw [activeCalls_concat, List.length_append, ih, List.countP_append, List.countP_singleton]
    split <;> rfl

/-- A call that is over leaves the queue. -/
theorem activeCalls_set_inactive {l : List (Phase ν ι)} (hp' : p'.active = false) :
    activeCalls (l.set i p') = (activeCalls l).erase i := by
  rw [(nodup_activeCalls l).erase_eq_filter, activeCalls, activeCalls, List.length_set,
    List.filter_filter]
  refine List.filter_congr fun j hj => ?_
  by_cases hij : j = i
  · subst hij
    rw [List.getElem?_set_self (List.mem_range.1 hj)]
    simp [Option.any, hp']
  · rw [List.getElem?_set_ne (Ne.symm hij)]
    simp [hij]

/-- What every state of a sandbox keeps: the queue is the calls that wait or run, all but
the first of them wait, and the calls to be answered are in flight. -/
structure Orderly (c : SandboxConfig ι) (s : Sandbox ν ι) : Prop where
  queue : s.queue = activeCalls s.calls
  waiting : ∀ i ∈ s.queue.tail, s.calls[i]? = some .waiting
  bounded : s.queue.length ≤ c.maxPendingCalls
  pending : PendingInFlight s

namespace Orderly

theorem not_head (hs : Orderly c s) (hi : i ∈ s.queue.tail) : s.queue.head? ≠ some i := by
  have hnodup : s.queue.Nodup := hs.queue ▸ nodup_activeCalls s.calls
  cases hq : s.queue with
  | nil => simp
  | cons j rest =>
    rw [hq] at hi hnodup
    rintro hj
    cases hj
    exact (List.nodup_cons.1 hnodup).1 hi

/-- A call with its turn is the first of the queue. -/
theorem head_of_active (hs : Orderly c s) (hp : s.calls[i]? = some p) (hact : p.active)
    (hwait : p ≠ .waiting) : s.queue.head? = some i := by
  have hi : i ∈ s.queue := hs.queue ▸ mem_activeCalls.2 ⟨p, hp, hact⟩
  cases hq : s.queue with
  | nil => rw [hq] at hi; cases hi
  | cons j rest =>
    rw [hq] at hi
    rcases List.mem_cons.1 hi with rfl | hi
    · rfl
    · have := hs.waiting i (by rw [hq]; exact hi)
      rw [hp] at this
      exact absurd (Option.some.inj this) hwait

variable [JsNumber ν] {a : SandboxAction ν} {s' : Sandbox ν ι}

theorem of_moves (hs : Orderly c s) (hmoves : Moves c s a s'.calls)
    (hlen : s'.calls.length = s.calls.length) (hqueue : s'.queue = s.queue)
    (hact : ∀ i : ℕ, s'.calls[i]?.any Phase.active = s.calls[i]?.any Phase.active)
    (hpending : PendingInFlight s') : Orderly c s' where
  queue := by rw [hqueue, hs.queue, activeCalls_congr hlen hact]
  waiting j hj := by
    rw [hqueue] at hj
    have hold := hs.waiting j hj
    have hlt : j < s'.calls.length := hlen ▸ (List.getElem?_eq_some_iff.1 hold).1
    obtain ⟨p', hp'⟩ : ∃ p', s'.calls[j]? = some p' := ⟨_, List.getElem?_eq_getElem hlt⟩
    rcases hmoves j p' hp' with ⟨rfl, -⟩ | ⟨p, hp, rfl | ⟨-, hturn⟩⟩
    · omega
    · rw [hp', ← hp, hold]
    · rw [hold] at hp
      exact absurd (hturn (Option.some.inj hp).symm) (hs.not_head hj)
  bounded := hqueue ▸ hs.bounded
  pending := hpending

end Orderly

/-! ### Steps -/

theorem any_set {l : List (Phase ν ι)} (hp : l[i]? = some p) (hact : p'.active = p.active) (j : ℕ) :
    (l.set i p')[j]?.any Phase.active = l[j]?.any Phase.active := by
  by_cases hij : i = j
  · subst hij
    rw [List.getElem?_set_self (List.getElem?_eq_some_iff.1 hp).1, hp]
    exact hact
  · rw [List.getElem?_set_ne hij]

/-- A call that is not in flight has no answer to wait for. -/
theorem not_pending (hs : Orderly c s) (hp : s.calls[i]? = some p)
    (hflight : ∀ cid, p ≠ .inFlight cid) {e : JsString × ℕ} (he : e ∈ s.pending) : e.2 ≠ i := by
  rintro rfl
  have := hs.pending e he
  rw [hp] at this
  exact hflight e.1 (Option.some.inj this)

theorem active_of_running (hp : p.running) : p.active := by
  cases p <;> first | rfl | cases hp

theorem active_of_later {n : ℕ} (h : p.Later n) : p.active := by
  cases h with
  | onward hp _ => exact active_of_running hp
  | failed _ => rfl

/-- Only one call can be in flight under its id. -/
theorem inFlight_unique (hs : Orderly c s) {cid : JsString} (hp : s.calls[i]? = some (.inFlight cid))
    {e : JsString × ℕ} (he : e ∈ s.pending) : e = (cid, i) := by
  have hother := hs.head_of_active (hs.pending e he) rfl (by simp)
  have hi := hs.head_of_active hp rfl (by simp)
  rw [hi] at hother
  have heq := hs.pending e he
  rw [← Option.some.inj hother, hp] at heq
  exact Prod.ext (Phase.inFlight.inj (Option.some.inj heq)).symm (Option.some.inj hother).symm

theorem terminateChild_eq (c : SandboxConfig ι) (s : Sandbox ν ι) :
    ∃ s₀ : Sandbox ν ι, terminateChild c s = s₀.settleAll .null ∧ s₀.calls = s.calls ∧
      s₀.queue = s.queue ∧ s₀.pending = s.pending := by
  unfold terminateChild
  split
  · exact ⟨_, rfl, rfl, rfl, rfl⟩
  · exact ⟨_, rfl, rfl, rfl, rfl⟩

theorem settleAll_calls_of_nil {s₀ : Sandbox ν ι} {value : Settled ν} (h : s₀.pending = []) :
    (s₀.settleAll value).calls = s₀.calls := by
  refine List.ext_getElem? fun i => ?_
  rw [settleAll, List.getElem?_mapIdx]
  cases s₀.calls[i]? with
  | none => rfl
  | some p => cases p <;> simp [h]

theorem expire_calls (hs : Orderly c s) {cid : JsString} (hp : s.calls[i]? = some (.inFlight cid)) :
    (expire c s i cid).calls = s.calls.set i (.settled .timeout) ∧
      (expire c s i cid).queue = s.queue ∧ (expire c s i cid).pending = [] := by
  obtain ⟨s₀, hterm, hcalls, hqueue, hpending⟩ :=
    terminateChild_eq c { s with pending := s.pending.filter fun e => e.1 != cid }
  have hnone : s₀.pending = [] := by
    rw [hpending, List.filter_eq_nil_iff]
    intro e he
    simp [inFlight_unique hs hp he]
  rw [expire, hterm]
  refine ⟨?_, hqueue, rfl⟩
  rw [goto, settleAll_calls_of_nil hnone, hcalls]

/-- What a step comes to. -/
structure Stepped [JsNumber ν] (c : SandboxConfig ι) (s : Sandbox ν ι) (a : SandboxAction ν)
    (s' : Sandbox ν ι) : Prop where
  length : s.calls.length ≤ s'.calls.length
  moves : Moves c s a s'.calls
  orderly : Orderly c s'
  /-- A step of the host moves a call. -/
  advances : a.ofHost → ∃ (i : ℕ) (p p' : Phase ν ι),
    s.calls[i]? = some p ∧ s'.calls[i]? = some p' ∧ Move c a p p'

section Steps

variable [JsNumber ν] {a : SandboxAction ν} {s' : Sandbox ν ι} {value : Settled ν}

theorem moves_refl (c : SandboxConfig ι) (s : Sandbox ν ι) (a : SandboxAction ν) :
    Moves c s a s.calls :=
  fun _ p' hp' => .inr ⟨p', hp', .inl rfl⟩

theorem stepped_idle (hs : Orderly c s) (ha : a.ofHost = false) (hcalls : s'.calls = s.calls)
    (hqueue : s'.queue = s.queue) (hpending : s'.pending ⊆ s.pending) : Stepped c s a s' := by
  have hmoves : Moves c s a s'.calls := hcalls ▸ moves_refl c s a
  have hlen : s'.calls.length = s.calls.length := by rw [hcalls]
  refine ⟨hlen.ge, hmoves, hs.of_moves hmoves hlen hqueue (fun i => by rw [hcalls]) fun e he => ?_,
    fun h => by rw [ha] at h; cases h⟩
  rw [hcalls]
  exact hs.pending e (hpending he)

theorem moves_set (hp : s.calls[i]? = some p) (hmove : Move c a p p')
    (hturn : p = .waiting → s.queue.head? = some i) : Moves c s a (s.calls.set i p') := by
  intro j q' hq'
  rcases getElem?_set_eq_some hq' with ⟨rfl, rfl⟩ | ⟨-, hq'⟩
  · exact .inr ⟨p, hp, .inr ⟨hmove, hturn⟩⟩
  · exact moves_refl c s a j q' hq'

theorem stepped_set (hs : Orderly c s) (hp : s.calls[i]? = some p) (hmove : Move c a p p')
    (hturn : p = .waiting → s.queue.head? = some i) (hact : p'.active = p.active)
    (hcalls : s'.calls = s.calls.set i p') (hqueue : s'.queue = s.queue)
    (hpending : ∀ e ∈ s'.pending, e ∈ s.pending ∧ e.2 ≠ i ∨ e.2 = i ∧ p' = .inFlight e.1) :
    Stepped c s a s' := by
  have hmoves : Moves c s a s'.calls := hcalls ▸ moves_set hp hmove hturn
  have hlen : s'.calls.length = s.calls.length := by rw [hcalls, List.length_set]
  have hnew : s'.calls[i]? = some p' :=
    hcalls ▸ List.getElem?_set_self (List.getElem?_eq_some_iff.1 hp).1
  refine ⟨hlen.ge, hmoves, hs.of_moves hmoves hlen hqueue
    (fun j => by rw [hcalls, any_set hp hact]) fun e he => ?_, fun _ => ⟨i, p, p', hp, hnew, hmove⟩⟩
  rcases hpending e he with ⟨he, hne⟩ | ⟨rfl, rfl⟩
  · rw [hcalls, List.getElem?_set_ne hne.symm]
    exact hs.pending e he
  · exact hnew

theorem stepped_goes (hs : Orderly c s) (hp : s.calls[i]? = some p) (hrun : p.running)
    (hflight : ∀ cid, p ≠ .inFlight cid) (h : ∃ p', Goes s s' i p' ∧ p'.Later p.rank) :
    Stepped c s a s' := by
  obtain ⟨p', hgoes, hlater⟩ := h
  refine stepped_set hs hp (.goes a hrun hlater) ?_ ?_ hgoes.calls hgoes.queue fun e he => ?_
  · rintro rfl
    cases hrun
  · rw [active_of_later hlater, active_of_running hrun]
  · exact (hgoes.pending e he).imp (fun he => ⟨he, not_pending hs hp hflight he⟩) id

/-- Calls in flight fail together. -/
theorem moves_settleAll {s₀ : Sandbox ν ι} (hcalls : s₀.calls = s.calls) (hv : value.claimless) :
    Moves c s a (s₀.settleAll value).calls := by
  intro i p' hp'
  rw [settleAll, List.getElem?_mapIdx, hcalls] at hp'
  obtain ⟨p, hp, rfl⟩ := Option.map_eq_some_iff.1 hp'
  refine .inr ⟨p, hp, ?_⟩
  split
  · split
    · exact .inr ⟨.goes a rfl (.failed hv), fun h => by cases h⟩
    · exact .inl rfl
  · exact .inl rfl

theorem stepped_settleAll {s₀ : Sandbox ν ι} (hs : Orderly c s) (ha : a.ofHost = false)
    (hcalls : s₀.calls = s.calls) (hqueue : s₀.queue = s.queue) (hv : value.claimless) :
    Stepped c s a (s₀.settleAll value) := by
  have hmoves : Moves c s a (s₀.settleAll value).calls := moves_settleAll hcalls hv
  have hlen : (s₀.settleAll value).calls.length = s.calls.length := by
    rw [settleAll, List.length_mapIdx, hcalls]
  refine ⟨hlen.ge, hmoves, hs.of_moves hmoves hlen hqueue (fun i => ?_)
    fun e he => (List.not_mem_nil he).elim, fun h => by rw [ha] at h; cases h⟩
  · rw [settleAll, List.getElem?_mapIdx, hcalls]
    cases s.calls[i]? with
    | none => rfl
    | some p => cases p with
      | inFlight cid =>
        simp only [Option.map_some, Option.any_some]
        split <;> rfl
      | _ => rfl

theorem stepped_enqueue (hs : Orderly c s) (hasCredential : Bool) :
    Stepped c s (.authenticate hasCredential) (enqueue c s hasCredential) := by
  have hmoves : ∀ p, p = .waiting ∨ p = .done none →
      Moves c s (.authenticate hasCredential) (s.calls ++ [p]) := by
    intro p hnew i p' hp'
    rcases getElem?_concat_eq_some.1 hp' with hp' | ⟨rfl, rfl⟩
    · exact moves_refl c s _ i p' hp'
    · exact .inl ⟨rfl, hnew⟩
  have hlen : ∀ p, s.calls.length ≤ (s.calls ++ [p]).length := fun p => by
    rw [List.length_append]
    exact Nat.le_add_right _ _
  have hold : ∀ p, ∀ i q, s.calls[i]? = some q → (s.calls ++ [p])[i]? = some q :=
    fun p i q hq => getElem?_concat_eq_some.2 (.inl hq)
  unfold enqueue
  split
  next hroom =>
    rw [Bool.and_eq_true, decide_eq_true_eq] at hroom
    refine ⟨hlen _, hmoves _ (.inl rfl), ⟨?_, fun i hi => ?_, ?_,
      fun e he => hold _ _ _ (hs.pending e he)⟩, fun h => by cases h⟩
    · rw [activeCalls_concat, hs.queue]
      rfl
    · cases hq : s.queue with
      | nil => simp [hq] at hi
      | cons j rest =>
        rw [hq, List.cons_append, List.tail_cons] at hi
        rcases List.mem_append.1 hi with hi | hi
        · exact hold _ _ _ (hs.waiting i (by rw [hq]; exact hi))
        · rw [List.mem_singleton.1 hi]
          exact List.getElem?_concat_length
    · rw [List.length_append]
      exact hroom.2
  next =>
    refine ⟨hlen _, hmoves _ (.inr rfl), ⟨?_, fun i hi => hold _ _ _ (hs.waiting i hi), hs.bounded,
      fun e he => hold _ _ _ (hs.pending e he)⟩, fun h => by cases h⟩
    rw [activeCalls_concat, hs.queue]
    exact (List.append_nil _).symm

theorem release_calls (c : SandboxConfig ι) (s : Sandbox ν ι) (i : ℕ) (value : Settled ν) :
    ∃ p', (release c s i value).calls = s.calls.set i p' ∧
      Move c (.resume i) (.settled value) p' ∧ p'.active = false := by
  unfold release
  cases value with
  | reply r =>
    cases hclaims : claimsOf c.isolation r with
    | none => exact ⟨.done none, by simp [goto, hclaims], .denied i _, rfl⟩
    | some claims => exact ⟨.building claims, by simp [goto, hclaims], .claimed i hclaims, rfl⟩
  | _ => exact ⟨.done none, rfl, .denied i _, rfl⟩

/-- The outcome of a round trip gives the turn to the next call. -/
theorem stepped_release (hs : Orderly c s) (hp : s.calls[i]? = some (.settled value)) :
    Stepped c s (.resume i) (release c s i value) := by
  have hhead := hs.head_of_active hp rfl (by simp)
  have hi : ∀ j, j ∈ s.queue.tail → j ≠ i := fun j hj hji => hs.not_head (hji ▸ hj) hhead
  obtain ⟨p', hcalls, hmove, hact⟩ := release_calls c s i value
  have htail : (release c s i value).queue = s.queue.tail := by
    cases hq : s.queue with
    | nil => rw [hq] at hhead; cases hhead
    | cons j rest =>
      rw [hq] at hhead
      cases hhead
      simp [release, hq]
  have hnew : (release c s i value).calls[i]? = some p' :=
    hcalls ▸ List.getElem?_set_self (List.getElem?_eq_some_iff.1 hp).1
  refine ⟨by rw [hcalls, List.length_set], hcalls ▸ moves_set hp hmove (fun h => by cases h),
    ⟨?_, fun j hj => ?_, ?_, fun e he => ?_⟩, fun _ => ⟨i, _, p', hp, hnew, hmove⟩⟩
  · rw [hcalls, activeCalls_set_inactive hact, ← hs.queue]
    rfl
  · rw [htail] at hj
    rw [hcalls, List.getElem?_set_ne (hi j (List.mem_of_mem_tail hj)).symm]
    exact hs.waiting j (List.mem_of_mem_tail hj)
  · rw [htail, List.length_tail]
    exact (Nat.sub_le _ _).trans hs.bounded
  · rw [hcalls, List.getElem?_set_ne (not_pending hs hp (by simp) he).symm]
    exact hs.pending e he

/-- A call whose time is up takes the child with it, and no other call. -/
theorem stepped_expire (hs : Orderly c s) {cid : JsString}
    (hp : s.calls[i]? = some (.inFlight cid)) : Stepped c s a (expire c s i cid) := by
  obtain ⟨hcalls, hqueue, hpending⟩ := expire_calls hs hp
  have hlater : (Phase.settled .timeout : Phase ν ι).Later 3 := .failed rfl
  refine stepped_set hs hp (.goes a rfl hlater) (fun h => by cases h) rfl hcalls hqueue fun e he => ?_
  rw [hpending] at he
  exact (List.not_mem_nil he).elim

theorem stepped_receive (hs : Orderly c s) (k : ℕ) (m : Message ν) :
    Stepped c s (.message k m) (receive c s m) := by
  cases m with
  | oversized => exact stepped_settleAll hs rfl rfl rfl rfl
  | unparseable => exact stepped_idle hs rfl rfl rfl (List.Subset.refl _)
  | parsed r =>
    have hidle : Stepped c s (.message k (.parsed r)) s := stepped_idle hs rfl rfl rfl (List.Subset.refl _)
    simp only [receive]
    split
    next cid hcid =>
      split
      · split
        next i hlookup =>
          have hmem : (cid, i) ∈ s.pending := mem_of_lookup hlookup
          refine stepped_set hs (hs.pending _ hmem) (.answered k hcid) (fun h => by cases h) rfl rfl rfl
            fun e he => ?_
          obtain ⟨he, hne⟩ := List.mem_filter.1 he
          have heq := inFlight_unique hs (hs.pending _ hmem) he
          simp [heq] at hne
        next => exact hidle
      · exact hidle
    next => exact hidle

theorem next_stepped (hs : Orderly c s) (h : next c s a = some s') : Stepped c s a s' := by
  cases a with
  | tick d => cases h; exact stepped_idle hs rfl rfl rfl (List.Subset.refl _)
  | authenticate hasCredential => cases h; exact stepped_enqueue hs hasCredential
  | turn i =>
    simp only [next] at h
    split at h
    next hp =>
      split at h
      next hhead =>
        cases h
        exact stepped_set hs hp (.turn i) (fun _ => hhead) rfl rfl rfl
          fun e he => .inl ⟨he, not_pending hs hp (by simp) he⟩
      next => cases h
    next => cases h
  | ensure i verified =>
    simp only [next] at h
    split at h
    next hp => cases h; exact stepped_goes hs hp rfl (by simp) (ensureChild_goes c s i verified)
    next => cases h
  | backoffOver i verified =>
    simp only [next] at h
    split at h
    next hp =>
      cases h
      refine stepped_goes hs hp rfl (by simp) ?_
      split
      · exact ⟨_, goes_goto s i _, .failed rfl⟩
      · exact spawn_goes c s i verified
    next => cases h
  | handshake i ok =>
    simp only [next] at h
    split at h
    next child hp =>
      cases h
      refine stepped_goes hs hp rfl (by simp) ?_
      split
      · exact ⟨.ensured, ⟨rfl, rfl, fun _ he => .inl he⟩, .onward rfl (by simp [Phase.rank])⟩
      · exact ⟨_, goes_goto s i _, .failed rfl⟩
    next => cases h
  | begin i cid fits sent =>
    simp only [next] at h
    split at h
    next hp => cases h; exact stepped_goes hs hp rfl (by simp) (begin_goes c s i cid fits sent)
    next => cases h
  | fetched i ok sent =>
    simp only [next] at h
    split at h
    next cid hp =>
      cases h
      refine stepped_goes hs hp rfl (by simp) ?_
      split
      · exact send_goes s i cid sent
      · exact ⟨_, goes_goto s i _, .failed rfl⟩
    next => cases h
  | timer i =>
    simp only [next] at h
    split at h
    next cid hp => cases h; exact stepped_expire hs hp
    next => cases h
  | resume i =>
    simp only [next] at h
    split at h
    next value hp => cases h; exact stepped_release hs hp
    next => cases h
  | built i =>
    simp only [next] at h
    split at h
    next claims hp =>
      cases h
      exact stepped_set hs hp (.built i claims) (fun h => by cases h) rfl rfl rfl
        fun e he => .inl ⟨he, not_pending hs hp (by simp) he⟩
    next => cases h
  | message k m =>
    simp only [next] at h
    split at h
    next => cases h; exact stepped_receive hs k m
    next => cases h
  | died k crashed =>
    simp only [next] at h
    split at h
    next =>
      cases h
      obtain ⟨s₀, hterm, hcalls, hqueue, -⟩ := terminateChild_eq c s
      rw [hterm]
      exact stepped_settleAll hs rfl hcalls hqueue rfl
    next => cases h
  | close => cases h; exact stepped_idle hs rfl rfl rfl (List.nil_subset _)

end Steps

/-! ### Runs -/

theorem orderly_start (c : SandboxConfig ι) (clock : ℕ) :
    Orderly c (startSandbox c clock : Sandbox ν ι) := by
  unfold startSandbox
  split
  · exact ⟨rfl, by simp, Nat.zero_le _, by simp [PendingInFlight]⟩
  · exact ⟨rfl, by simp, Nat.zero_le _, by simp [PendingInFlight]⟩

/-- How far the calls have come. -/
def spent (calls : List (Phase ν ι)) : ℕ :=
  ∑ i ∈ Finset.range calls.length, calls[i]?.elim 0 fun p => 9 - p.rank

theorem spent_le (calls : List (Phase ν ι)) : spent calls ≤ 9 * calls.length := by
  refine (Finset.sum_le_card_nsmul _ _ 9 fun i _ => ?_).trans ?_
  · cases calls[i]? with
    | none => exact Nat.zero_le _
    | some p => exact Nat.sub_le _ _
  · rw [Finset.card_range, smul_eq_mul, Nat.mul_comm]

variable [JsNumber ν]

theorem step_eq_or (c : SandboxConfig ι) (s : Sandbox ν ι) (a : SandboxAction ν) :
    (∃ s', next c s a = some s' ∧ step c s a = s') ∨ next c s a = none ∧ step c s a = s := by
  cases h : next c s a with
  | none => exact .inr ⟨rfl, by rw [step, h]; rfl⟩
  | some s' => exact .inl ⟨s', rfl, by rw [step, h]; rfl⟩

theorem step_moves (hs : Orderly c s) (a : SandboxAction ν) :
    s.calls.length ≤ (step c s a).calls.length ∧ Moves c s a (step c s a).calls ∧
      Orderly c (step c s a) := by
  rcases step_eq_or c s a with ⟨s', hnext, rfl⟩ | ⟨-, heq⟩
  · obtain ⟨hlen, hmoves, horderly, -⟩ := next_stepped hs hnext
    exact ⟨hlen, hmoves, horderly⟩
  · rw [heq]
    exact ⟨le_rfl, moves_refl c s a, hs⟩

/-- The state after a run. -/
def after (c : SandboxConfig ι) (clock : ℕ) (as : List (SandboxAction ν)) : Sandbox ν ι :=
  as.foldl (step c) (startSandbox c clock)

theorem after_concat (c : SandboxConfig ι) (clock : ℕ) (as : List (SandboxAction ν))
    (a : SandboxAction ν) : after c clock (as ++ [a]) = step c (after c clock as) a :=
  List.foldl_concat _ _ _ _

theorem orderly_after (c : SandboxConfig ι) (clock : ℕ) (as : List (SandboxAction ν)) :
    Orderly c (after c clock as : Sandbox ν ι) := by
  induction as using List.reverseRecOn with
  | nil => exact orderly_start c clock
  | append_singleton as a ih =>
    rw [after_concat]
    exact (step_moves ih a).2.2

/-- The reply came in the run while the call was in flight, and carried its id. -/
def AnsweredBy (c : SandboxConfig ι) (clock : ℕ) (as : List (SandboxAction ν)) (i : ℕ)
    (r : JsValue ν) : Prop :=
  ∃ pre k post cid, as = pre ++ .message k (.parsed r) :: post ∧
    (after c clock pre).calls[i]? = some (.inFlight cid) ∧ r.get (js "cid") = .str cid

/-- Where a call is says what it was answered. -/
def Sourced (c : SandboxConfig ι) (clock : ℕ) (as : List (SandboxAction ν)) (i : ℕ) :
    Phase ν ι → Prop
  | .settled (.reply r) => AnsweredBy c clock as i r
  | .building claims => ∃ r, AnsweredBy c clock as i r ∧ claimsOf c.isolation r = some claims
  | .done (some identity) => ∃ r claims, AnsweredBy c clock as i r ∧
      claimsOf c.isolation r = some claims ∧ c.build claims = some identity
  | _ => True

theorem AnsweredBy.concat {clock : ℕ} {as : List (SandboxAction ν)} {r : JsValue ν}
    (h : AnsweredBy c clock as i r) (a : SandboxAction ν) : AnsweredBy c clock (as ++ [a]) i r := by
  obtain ⟨pre, k, post, cid, rfl, hrest⟩ := h
  exact ⟨pre, k, post ++ [a], cid, by simp, hrest⟩

theorem Sourced.concat {clock : ℕ} {as : List (SandboxAction ν)} (h : Sourced c clock as i p)
    (a : SandboxAction ν) : Sourced c clock (as ++ [a]) i p := by
  unfold Sourced at h ⊢
  split
  · exact AnsweredBy.concat h a
  · obtain ⟨r, h, hrest⟩ := h
    exact ⟨r, h.concat a, hrest⟩
  · obtain ⟨r, claims, h, hrest⟩ := h
    exact ⟨r, claims, h.concat a, hrest⟩
  · trivial

theorem sourced_later {clock : ℕ} {as : List (SandboxAction ν)} {n : ℕ} (h : p.Later n) :
    Sourced c clock as i p := by
  cases h with
  | onward hp _ => cases p <;> trivial
  | @failed value hv => cases value <;> trivial

theorem sourced_move {clock : ℕ} {as : List (SandboxAction ν)} {a : SandboxAction ν}
    (hp : (after c clock as).calls[i]? = some p) (h : Sourced c clock as i p)
    (hmove : Move c a p p') : Sourced c clock (as ++ [a]) i p' := by
  cases hmove with
  | turn i => trivial
  | goes a hrun hlater => exact sourced_later hlater
  | answered k hcid => exact ⟨as, k, [], _, rfl, hp, hcid⟩
  | denied i value => trivial
  | claimed i hclaims => exact ⟨_, AnsweredBy.concat h _, hclaims⟩
  | built i claims =>
    obtain ⟨r, hr, hclaims⟩ := h
    unfold Sourced
    split
    · trivial
    · trivial
    next identity hbuild => exact ⟨r, claims, hr.concat _, hclaims, Phase.done.inj hbuild⟩
    · trivial

/-- Every outcome of every run has its reply. -/
theorem sourced_after (c : SandboxConfig ι) (clock : ℕ) (as : List (SandboxAction ν)) (i : ℕ)
    (p : Phase ν ι) (hp : (after c clock as).calls[i]? = some p) : Sourced c clock as i p := by
  induction as using List.reverseRecOn generalizing p with
  | nil =>
    have : (after c clock [] : Sandbox ν ι).calls = [] := by
      simp only [after, List.foldl_nil, startSandbox]
      split <;> rfl
    rw [this] at hp
    cases hp
  | append_singleton as a ih =>
    rw [after_concat] at hp
    rcases (step_moves (orderly_after c clock as) a).2.1 i p hp with
      ⟨-, rfl | rfl⟩ | ⟨q, hq, rfl | ⟨hmove, -⟩⟩
    · trivial
    · trivial
    · exact (ih p hq).concat a
    · exact sourced_move hq (ih q hq) hmove

/-! ### The end of a call -/

theorem done_step {a : SandboxAction ν} {identity : Option ι} (hs : Orderly c s)
    (hp : s.calls[i]? = some (.done identity)) :
    (step c s a).calls[i]? = some (.done identity) := by
  obtain ⟨hlen, hmoves, -⟩ := step_moves hs a
  have hi : i < s.calls.length := (List.getElem?_eq_some_iff.1 hp).1
  obtain ⟨p', hp'⟩ : ∃ p', (step c s a).calls[i]? = some p' :=
    ⟨_, List.getElem?_eq_getElem (hi.trans_le hlen)⟩
  rcases hmoves i p' hp' with ⟨rfl, -⟩ | ⟨p, hold, rfl | ⟨hmove, -⟩⟩
  · exact absurd hi (lt_irrefl _)
  · rw [hp', ← hold, hp]
  · rw [hp] at hold
    cases hold
    cases hmove with
    | goes _ hrun _ => cases hrun

theorem done_after {clock : ℕ} {as : List (SandboxAction ν)} {identity : Option ι}
    (hp : (after c clock as).calls[i]? = some (.done identity)) (bs : List (SandboxAction ν)) :
    (after c clock (as ++ bs)).calls[i]? = some (.done identity) := by
  induction bs using List.reverseRecOn with
  | nil => rwa [List.append_nil]
  | append_singleton bs b ih =>
    rw [← List.append_assoc, after_concat]
    exact done_step (orderly_after c clock _) ih

/-- The call with the turn can go on. -/
theorem exists_next_of_active (hp : s.calls[i]? = some p) (hact : p.active)
    (hhead : s.queue.head? = some i) : ∃ a : SandboxAction ν, a.ofHost ∧ next c s a ≠ none := by
  cases p with
  | waiting => exact ⟨.turn i, rfl, by simp [next, hp, hhead]⟩
  | ensuring => exact ⟨.ensure i true, rfl, by simp [next, hp]⟩
  | backoff => exact ⟨.backoffOver i true, rfl, by simp [next, hp]⟩
  | spawning child => exact ⟨.handshake i true, rfl, by simp [next, hp]⟩
  | ensured => exact ⟨.begin i [] true true, rfl, by simp [next, hp]⟩
  | fetching cid => exact ⟨.fetched i true true, rfl, by simp [next, hp]⟩
  | inFlight cid => exact ⟨.timer i, rfl, by simp [next, hp]⟩
  | settled value => exact ⟨.resume i, rfl, by simp [next, hp]⟩
  | building claims => cases hact
  | done identity => cases hact

/-- Where the host has nothing left to do, every call is over. -/
theorem done_of_stuck (hs : Orderly c s)
    (hstuck : ∀ a : SandboxAction ν, a.ofHost → next c s a = none) (hp : s.calls[i]? = some p) :
    ∃ identity, p = .done identity := by
  have hidle : p.active = false := by
    by_contra hact
    rw [Bool.not_eq_false] at hact
    have hi : i ∈ s.queue := hs.queue ▸ mem_activeCalls.2 ⟨p, hp, hact⟩
    obtain ⟨j, hhead⟩ : ∃ j, s.queue.head? = some j := by
      cases hq : s.queue with
      | nil => rw [hq] at hi; cases hi
      | cons j rest => exact ⟨j, rfl⟩
    obtain ⟨q, hq, hqact⟩ := mem_activeCalls.1 (hs.queue ▸ List.mem_of_mem_head? hhead)
    obtain ⟨a, ha, hnext⟩ := exists_next_of_active hq hqact hhead
    exact hnext (hstuck a ha)
  cases p with
  | building claims =>
    have := hstuck (.built i) rfl
    simp [next, hp] at this
  | done identity => exact ⟨identity, rfl⟩
  | _ => cases hidle

theorem move_rank_lt {a : SandboxAction ν} (h : Move c a p p') : p'.rank < p.rank := by
  cases h with
  | goes a hrun hlater =>
    cases hlater with
    | onward _ hlt => exact hlt
    | failed _ => cases p <;> simp_all [Phase.rank, Phase.running]
  | _ => simp [Phase.rank]

theorem spent_step {a : SandboxAction ν} {s' : Sandbox ν ι} (h : Stepped c s a s') :
    spent s.calls + (if a.ofHost then 1 else 0) ≤ spent s'.calls := by
  have hle : ∀ i ∈ Finset.range s.calls.length, (s.calls[i]?.elim 0 fun p => 9 - p.rank) ≤
      s'.calls[i]?.elim 0 fun p => 9 - p.rank := by
    intro i hi
    have hlt := Finset.mem_range.1 hi
    have hp' := List.getElem?_eq_getElem (hlt.trans_le h.length)
    rcases h.moves i _ hp' with ⟨rfl, -⟩ | ⟨p, hp, heq | ⟨hmove, -⟩⟩
    · exact absurd hlt (lt_irrefl _)
    · rw [hp', heq, hp]
    · rw [hp', hp]
      exact Nat.sub_le_sub_left (move_rank_lt hmove).le 9
  have hmore : ∑ i ∈ Finset.range s.calls.length, (s'.calls[i]?.elim 0 fun p => 9 - p.rank) ≤
      spent s'.calls :=
    Finset.sum_le_sum_of_subset (Finset.range_subset_range.2 h.length)
  split
  next hhost =>
    refine Nat.succ_le_of_lt ((Finset.sum_lt_sum hle ?_).trans_le hmore)
    obtain ⟨i, p, p', hp, hp', hmove⟩ := h.advances hhost
    refine ⟨i, Finset.mem_range.2 (List.getElem?_eq_some_iff.1 hp).1, ?_⟩
    have hlt := move_rank_lt hmove
    have hmax : p.rank ≤ 9 := by cases p <;> simp [Phase.rank]
    rw [hp, hp']
    show 9 - p.rank < 9 - p'.rank
    omega
  next => exact (Finset.sum_le_sum hle).trans hmore

/-- How often the host has moved a call. -/
def hostSteps (c : SandboxConfig ι) : Sandbox ν ι → List (SandboxAction ν) → ℕ
  | _, [] => 0
  | s, a :: as =>
    (if a.ofHost && (next c s a).isSome then 1 else 0) + hostSteps c (step c s a) as

theorem hostSteps_le (hs : Orderly c s) (as : List (SandboxAction ν)) :
    spent s.calls + hostSteps c s as ≤ spent (as.foldl (step c) s).calls := by
  induction as generalizing s with
  | nil => exact le_rfl
  | cons a as ih =>
    have hrest := ih (step_moves hs a).2.2
    have hfirst : spent s.calls + (if a.ofHost && (next c s a).isSome then 1 else 0) ≤
        spent (step c s a).calls := by
      rcases step_eq_or c s a with ⟨s', hnext, rfl⟩ | ⟨hnext, heq⟩
      · have := spent_step (next_stepped hs hnext)
        simpa [hnext] using this
      · simp [hnext, heq]
    rw [hostSteps, List.foldl_cons]
    omega

/-- What a run of a sandbox keeps to. -/
structure Isolated (c : SandboxConfig ι) (clock : ℕ) (as : List (SandboxAction ν)) : Prop where
  /-- The calls that wait or run are bounded. -/
  bounded : (after c clock as : Sandbox ν ι).calls.countP Phase.active ≤ c.maxPendingCalls
  /-- One call at most is past its wait and not yet over. -/
  single : ∀ (i j : ℕ) (p q : Phase ν ι), (after c clock as).calls[i]? = some p →
    (after c clock as).calls[j]? = some q → p.active → q.active → p ≠ .waiting → q ≠ .waiting →
    i = j
  /-- An identity is from the claims of a reply to the call, received while it was in flight. -/
  answered : ∀ (i : ℕ) (identity : ι), (after c clock as).calls[i]? = some (.done (some identity)) →
    ∃ r claims, AnsweredBy c clock as i r ∧ claimsOf c.isolation r = some claims ∧
      c.build claims = some identity
  /-- An outcome is the last. -/
  final : ∀ (i : ℕ) (identity : Option ι), (after c clock as).calls[i]? = some (.done identity) →
    ∀ bs, (after c clock (as ++ bs)).calls[i]? = some (.done identity)
  /-- There is an outcome once the host has no step left. -/
  settles : (∀ a : SandboxAction ν, a.ofHost → next c (after c clock as) a = none) →
    ∀ (i : ℕ) (p : Phase ν ι), (after c clock as).calls[i]? = some p → ∃ identity, p = .done identity
  /-- The host has few steps for each call. -/
  ends : hostSteps c (startSandbox c clock) as ≤ 9 * (after c clock as : Sandbox ν ι).calls.length

/-- Whatever the child does, and in every order of the steps. -/
theorem replies_isolated (c : SandboxConfig ι) (clock : ℕ) (as : List (SandboxAction ν)) :
    Isolated c clock as := by
  have hs := orderly_after c clock as
  refine ⟨?_, fun i j p q hp hq hpa hqa hpw hqw => ?_, fun i identity hp => ?_,
    fun i identity hp bs => done_after hp bs, fun hstuck i p hp => done_of_stuck hs hstuck hp, ?_⟩
  · rw [← length_activeCalls, ← hs.queue]
    exact hs.bounded
  · have hi := hs.head_of_active hp hpa hpw
    rw [hs.head_of_active hq hqa hqw] at hi
    exact (Option.some.inj hi).symm
  · exact sourced_after c clock as i _ hp
  · have h := hostSteps_le (orderly_start c clock) as
    exact (Nat.le_add_left _ _).trans (h.trans (spent_le _))

end Sandbox

end Haechi.Plugin
