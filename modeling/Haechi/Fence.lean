import Haechi.Runs

/-! Optimistic transactions on one shared cell. A call reads the cell in two
steps, computes, and hands the result to a conditional write that the store runs
in one piece; a conflict sends the call back to reading. The lock around all of
it is advisory: it may expire at any time. `Fenced` says what a store has to
promise, and then every run is serial in the order of its commits. -/

namespace Haechi.Fence

/-- How a conditional write ends. -/
inductive Reply where
  | committed
  | conflict
  | error
deriving DecidableEq

/-- A store: its two reads, its conditional write, and how often a call tries. -/
structure Store (D I R T : Type) where
  version : D → R
  snapshot : D → T
  write : I → ℕ → R → T → D → Reply × D
  retries : ℕ

/-- Where a call is. `attempt` counts the conflicts it has met. -/
inductive Phase (R T : Type) where
  | waiting
  | start (attempt : ℕ)
  | pinned (attempt : ℕ) (version : R)
  | ready (attempt : ℕ) (version : R) (snapshot : T)
  | releasing (resolved : Bool)
  | settled (resolved : Bool)
deriving DecidableEq

/-- A call, with the token it takes the lock under. -/
structure Call (I R T K : Type) where
  input : I
  token : K
  phase : Phase R T
deriving DecidableEq

/-- One committed write: the call, its input and the attempt that went through. -/
structure Entry (I : Type) where
  call : ℕ
  input : I
  attempt : ℕ
deriving DecidableEq

/-- The cell, its lock, all calls so far, and the commits in order. -/
structure State (D I R T K : Type) where
  data : D
  lock : Option K
  calls : List (Call I R T K)
  log : List (Entry I)

/-- What a call does next. A lost write ran, but its reply never came; an
unreached release did not. -/
inductive Move where
  | acquire
  | giveUp
  | readVersion
  | readSnapshot
  | write (lost : Bool)
  | fail
  | release (reached : Bool)
deriving DecidableEq

inductive Action (I K : Type) where
  | call (input : I) (token : K)
  | expire
  | move (i : ℕ) (m : Move)

variable {D I R T K : Type} [DecidableEq K] (store : Store D I R T)

/-- The phase after a write that did not commit. -/
def Store.afterWrite (n : ℕ) (lost : Bool) : Reply → Phase R T
  | .committed => .releasing !lost
  | .conflict =>
    if lost then .releasing false
    else if n + 1 < store.retries then .start (n + 1) else .releasing false
  | .error => .releasing false

/-- Call `i` goes on to a phase. -/
def State.goto (s : State D I R T K) (i : ℕ) (c : Call I R T K) (p : Phase R T) :
    State D I R T K :=
  { s with calls := s.calls.set i { c with phase := p } }

/-- The commits after a write. -/
def logWrite (log : List (Entry I)) (e : Entry I) : Reply → List (Entry I)
  | .committed => log ++ [e]
  | _ => log

/-- One move of call `i`; a move its phase does not allow changes nothing. -/
def advance (s : State D I R T K) (i : ℕ) (c : Call I R T K) (m : Move) : State D I R T K :=
  match c.phase, m with
  | .waiting, .acquire =>
    if s.lock.isSome then s else { s.goto i c (.start 0) with lock := some c.token }
  | .waiting, .giveUp => s.goto i c (.settled false)
  | .start n, .readVersion => s.goto i c (.pinned n (store.version s.data))
  | .pinned n r, .readSnapshot => s.goto i c (.ready n r (store.snapshot s.data))
  | .ready n r t, .write lost =>
    let result := store.write c.input n r t s.data
    { s.goto i c (store.afterWrite n lost result.1) with
      data := result.2, log := logWrite s.log ⟨i, c.input, n⟩ result.1 }
  | .start _, .fail | .pinned _ _, .fail | .ready _ _ _, .fail => s.goto i c (.releasing false)
  | .releasing resolved, .release reached =>
    { s.goto i c (.settled resolved) with
      lock := if reached && s.lock == some c.token then none else s.lock }
  | _, _ => s

def step (s : State D I R T K) : Action I K → State D I R T K
  | .call input token => { s with calls := s.calls ++ [⟨input, token, .waiting⟩] }
  | .expire => { s with lock := none }
  | .move i m =>
    match s.calls[i]? with
    | none => s
    | some c => advance store s i c m

def start (d : D) : State D I R T K := ⟨d, none, [], []⟩

/-- The commits one after another, each reading the cell it writes to. -/
def replay : D → List (Entry I) → Option D
  | d, [] => some d
  | d, e :: es =>
    match store.write e.input e.attempt (store.version d) (store.snapshot d) d with
    | (.committed, d') => replay d' es
    | _ => none

theorem replay_append (d : D) (es fs : List (Entry I)) :
    replay store d (es ++ fs) = (replay store d es).bind fun d' => replay store d' fs := by
  induction es generalizing d with
  | nil => rfl
  | cons e es ih =>
    simp only [List.cons_append, replay]
    split
    · exact ih _
    · rfl

/-- The condition `ok` on a write, as a condition on the steps of a run. -/
def Writes (ok : I → ℕ → R → T → D → Prop) (s : State D I R T K) : Action I K → Prop
  | .move i (.write _) => ∀ input token n r t,
      s.calls[i]? = some ⟨input, token, .ready n r t⟩ → ok input n r t s.data
  | _ => True

/-- What the store promises. Under `ok` a write based on the current cell raises
its rank, and one that does not commit leaves the cell alone; a write that
commits was based on a version of the current rank. -/
structure Fenced (inv : D → Prop) (rank : D → ℕ) (ok : I → ℕ → R → T → D → Prop) : Prop where
  raises : ∀ {d d' x n}, inv d → ok x n (store.version d) (store.snapshot d) d →
    store.write x n (store.version d) (store.snapshot d) d = (.committed, d') →
      inv d' ∧ rank d < rank d'
  fences : ∀ {d₀ d d' x n t}, inv d₀ → inv d → rank d₀ ≤ rank d →
    store.write x n (store.version d₀) t d = (.committed, d') → rank d₀ = rank d
  keeps : ∀ {d x n r t}, ok x n r t d → (store.write x n r t d).1 ≠ .committed →
    (store.write x n r t d).2 = d

/-! ### The invariant -/

section Invariant

variable {store} (inv : D → Prop) (rank : D → ℕ)

variable (store) in
/-- The version was read from a cell of an earlier rank, or from this one. -/
def Pins (d : D) (r : R) : Prop :=
  ∃ d₀, inv d₀ ∧ r = store.version d₀ ∧ rank d₀ ≤ rank d ∧ (rank d₀ = rank d → d₀ = d)

variable (store) in
/-- The snapshot, too, is of this cell unless the version is of an earlier one. -/
def Reads (d : D) (r : R) (t : T) : Prop :=
  ∃ d₀, inv d₀ ∧ r = store.version d₀ ∧ rank d₀ ≤ rank d ∧
    (rank d₀ = rank d → d₀ = d ∧ t = store.snapshot d)

/-- How often call `i` has committed. -/
def commits (i : ℕ) (log : List (Entry I)) : ℕ := log.countP fun e => e.call = i

variable (store) in
/-- What holds of call `i` in its phase. -/
def Consistent (d : D) (log : List (Entry I)) (i : ℕ) : Phase R T → Prop
  | .waiting | .start _ => commits i log = 0
  | .pinned _ r => commits i log = 0 ∧ Pins store inv rank d r
  | .ready _ r t => commits i log = 0 ∧ Reads store inv rank d r t
  | .releasing resolved | .settled resolved =>
    commits i log ≤ 1 ∧ (resolved = true → commits i log = 1)

variable (store) in
/-- The cell is the replay of the commits, and each commit is that of its call. -/
structure Serial (init : D) (s : State D I R T K) : Prop where
  holds : inv s.data
  replays : replay store init s.log = some s.data
  entries : ∀ e ∈ s.log, ∃ c, s.calls[e.call]? = some c ∧ c.input = e.input
  phases : ∀ i c, s.calls[i]? = some c → Consistent store inv rank s.data s.log i c.phase

variable {inv rank} {ok : I → ℕ → R → T → D → Prop} {init : D} {s : State D I R T K} {i : ℕ}
  {c : Call I R T K}

theorem pins_self {d : D} (hd : inv d) : Pins store inv rank d (store.version d) :=
  ⟨d, hd, rfl, le_rfl, fun _ => rfl⟩

theorem Pins.reads {d : D} {r : R} (h : Pins store inv rank d r) :
    Reads store inv rank d r (store.snapshot d) := by
  obtain ⟨d₀, hinv, hr, hle, heq⟩ := h
  exact ⟨d₀, hinv, hr, hle, fun h => ⟨heq h, rfl⟩⟩

theorem Pins.mono {d d' : D} {r : R} (h : Pins store inv rank d r) (hlt : rank d < rank d') :
    Pins store inv rank d' r := by
  obtain ⟨d₀, hinv, hr, hle, -⟩ := h
  exact ⟨d₀, hinv, hr, by omega, fun h => by omega⟩

theorem Reads.mono {d d' : D} {r : R} {t : T} (h : Reads store inv rank d r t)
    (hlt : rank d < rank d') : Reads store inv rank d' r t := by
  obtain ⟨d₀, hinv, hr, hle, -⟩ := h
  exact ⟨d₀, hinv, hr, by omega, fun h => by omega⟩

theorem commits_append (i : ℕ) (log : List (Entry I)) (e : Entry I) :
    commits i (log ++ [e]) = commits i log + if e.call = i then 1 else 0 := by
  by_cases h : e.call = i <;> simp [commits, h]

/-- A commit of another call raises the rank and leaves a call's phase consistent. -/
theorem Consistent.mono {d d' : D} {log : List (Entry I)} {e : Entry I} {p : Phase R T}
    (h : Consistent store inv rank d log i p) (hlt : rank d < rank d') (hne : e.call ≠ i) :
    Consistent store inv rank d' (log ++ [e]) i p := by
  have hcommits : commits i (log ++ [e]) = commits i log := by
    rw [commits_append, if_neg hne, Nat.add_zero]
  cases p with
  | pinned n r => exact ⟨hcommits.trans h.1, h.2.mono hlt⟩
  | ready n r t => exact ⟨hcommits.trans h.1, h.2.mono hlt⟩
  | _ => simpa only [Consistent, hcommits] using h

omit [DecidableEq K] in
theorem getElem?_goto (p : Phase R T) (hc : s.calls[i]? = some c) (j : ℕ) :
    (s.goto i c p).calls[j]? = if i = j then some { c with phase := p } else s.calls[j]? := by
  obtain ⟨hlt, -⟩ := List.getElem?_eq_some_iff.mp hc
  rw [State.goto, List.getElem?_set]
  split_ifs <;> rfl

omit [DecidableEq K] in
/-- A phase does not change what call an entry names. -/
theorem entries_goto (p : Phase R T) (hc : s.calls[i]? = some c) {log : List (Entry I)}
    (h : ∀ e ∈ log, ∃ c, s.calls[e.call]? = some c ∧ c.input = e.input) :
    ∀ e ∈ log, ∃ c', (s.goto i c p).calls[e.call]? = some c' ∧ c'.input = e.input := by
  intro e he
  rw [getElem?_goto p hc]
  split_ifs with hi
  · subst hi
    obtain ⟨c', hc', hinput⟩ := h e he
    rw [hc] at hc'
    obtain rfl := Option.some.inj hc'
    exact ⟨_, rfl, hinput⟩
  · exact h e he

omit [DecidableEq K] in
/-- The lock plays no part in the invariant. -/
theorem Serial.withLock (h : Serial store inv rank init s) (lock : Option K) :
    Serial store inv rank init { s with lock := lock } :=
  ⟨h.holds, h.replays, h.entries, h.phases⟩

omit [DecidableEq K] in
/-- A move that leaves the cell and the log keeps the invariant, if the phase it
leads to is consistent. -/
theorem Serial.goto (h : Serial store inv rank init s) (hc : s.calls[i]? = some c)
    {p : Phase R T} (hp : Consistent store inv rank s.data s.log i p) :
    Serial store inv rank init (s.goto i c p) where
  holds := h.holds
  replays := h.replays
  entries := entries_goto p hc h.entries
  phases j c' hj := by
    rw [getElem?_goto p hc] at hj
    split_ifs at hj with hi
    · subst hi
      obtain rfl := Option.some.inj hj
      exact hp
    · exact h.phases j c' hj

omit [DecidableEq K] in
theorem serial_start {d : D} (hd : inv d) :
    Serial store inv rank d (start d : State D I R T K) where
  holds := hd
  replays := rfl
  entries e he := by cases he
  phases j c' hj := by cases hj

omit [DecidableEq K] in
/-- No commit names a call that is yet to come. -/
theorem Serial.commits_length (h : Serial store inv rank init s) :
    commits s.calls.length s.log = 0 := by
  rw [commits, List.countP_eq_zero]
  intro e he
  obtain ⟨c, hc, -⟩ := h.entries e he
  obtain ⟨hlt, -⟩ := List.getElem?_eq_some_iff.mp hc
  simpa using hlt.ne

omit [DecidableEq K] in
theorem Serial.call (h : Serial store inv rank init s) (input : I) (token : K) :
    Serial store inv rank init { s with calls := s.calls ++ [⟨input, token, .waiting⟩] } where
  holds := h.holds
  replays := h.replays
  entries e he := by
    obtain ⟨c, hc, hinput⟩ := h.entries e he
    obtain ⟨hlt, -⟩ := List.getElem?_eq_some_iff.mp hc
    exact ⟨c, (List.getElem?_append_left hlt).trans hc, hinput⟩
  phases j c' hj := by
    rcases lt_or_ge j s.calls.length with hlt | hge
    · exact h.phases j c' ((List.getElem?_append_left hlt).symm.trans hj)
    · obtain ⟨hlt, hget⟩ := List.getElem?_eq_some_iff.mp hj
      obtain rfl : j = s.calls.length := by simp at hlt; omega
      obtain rfl : _ = c' := (List.getElem_concat_length rfl hlt).symm.trans hget
      exact h.commits_length

/-- A write that commits was computed from the cell it is applied to. -/
theorem Fenced.current (hf : Fenced store inv rank ok) {d d' : D} {x : I} {n : ℕ} {r : R} {t : T}
    (hd : inv d) (h : Reads store inv rank d r t)
    (hw : store.write x n r t d = (.committed, d')) :
    r = store.version d ∧ t = store.snapshot d := by
  obtain ⟨d₀, hinv, rfl, hle, heq⟩ := h
  obtain ⟨rfl, rfl⟩ := heq (hf.fences hinv hd hle hw)
  exact ⟨rfl, rfl⟩

omit [DecidableEq K] in
/-- A write keeps the invariant: a commit extends the replay by one entry. -/
theorem Serial.write (hf : Fenced store inv rank ok) (h : Serial store inv rank init s)
    {n : ℕ} {r : R} {t : T} (hc : s.calls[i]? = some c) (hp : c.phase = .ready n r t)
    (hok : ok c.input n r t s.data) (lost : Bool) :
    let result := store.write c.input n r t s.data
    Serial store inv rank init
      { s.goto i c (store.afterWrite n lost result.1) with
        data := result.2, log := logWrite s.log ⟨i, c.input, n⟩ result.1 } := by
  have hphase := h.phases i c hc
  rw [hp] at hphase
  obtain ⟨hzero, hreads⟩ := hphase
  rcases hw : store.write c.input n r t s.data with ⟨reply, d'⟩
  by_cases hreply : reply = .committed
  · subst hreply
    obtain ⟨rfl, rfl⟩ := hf.current h.holds hreads hw
    obtain ⟨hinv, hlt⟩ := hf.raises h.holds hok hw
    refine ⟨hinv, ?_, ?_, fun j c' hj => ?_⟩
    · show replay store init (s.log ++ [_]) = some d'
      rw [replay_append, h.replays, Option.bind_some, replay, hw]
      rfl
    · intro e he
      rcases List.mem_append.mp he with he | he
      · exact entries_goto _ hc h.entries e he
      · obtain rfl := List.mem_singleton.mp he
        exact ⟨_, (getElem?_goto _ hc i).trans (if_pos rfl), rfl⟩
    · have hget := (getElem?_goto _ hc j).symm.trans hj
      show Consistent store inv rank d' (s.log ++ [_]) j c'.phase
      split_ifs at hget with hi
      · subst hi
        obtain rfl := Option.some.inj hget
        have hone : commits i (s.log ++ [⟨i, c.input, n⟩]) = 1 := by
          rw [commits_append, hzero]
          simp
        exact ⟨hone.le, fun _ => hone⟩
      · exact (h.phases j c' hget).mono hlt hi
  · have hkeep : d' = s.data := by
      have := hf.keeps hok (by rw [hw]; exact hreply)
      rwa [hw] at this
    subst hkeep
    have hlog : logWrite s.log ⟨i, c.input, n⟩ reply = s.log := by
      cases reply with
      | committed => exact absurd rfl hreply
      | _ => rfl
    have hafter : Consistent store inv rank s.data s.log i (store.afterWrite n lost reply) := by
      have hreleasing : Consistent store inv rank s.data s.log i (.releasing false) :=
        ⟨hzero.le.trans (Nat.zero_le _), fun h => by cases h⟩
      cases reply with
      | committed => exact absurd rfl hreply
      | error => exact hreleasing
      | conflict =>
        rw [Store.afterWrite]
        split_ifs
        · exact hreleasing
        · exact hzero
        · exact hreleasing
    simp only [hlog]
    exact h.goto hc hafter

/-- Every move whose write meets the condition keeps the invariant. -/
theorem Serial.advance (hf : Fenced store inv rank ok) (h : Serial store inv rank init s)
    (hc : s.calls[i]? = some c) (m : Move)
    (hok : ∀ n r t lost, c.phase = .ready n r t → m = .write lost → ok c.input n r t s.data) :
    Serial store inv rank init (advance store s i c m) := by
  have hphase := h.phases i c hc
  have hfailed : ∀ {log : List (Entry I)}, commits i log = 0 →
      Consistent store inv rank s.data log i (.releasing false) := fun h0 =>
    ⟨h0.le.trans (Nat.zero_le _), fun h => by cases h⟩
  unfold Fence.advance
  split
  · next hp =>
    rw [hp] at hphase
    split_ifs
    · exact h
    · exact (h.goto hc (p := .start 0) hphase).withLock _
  · next hp =>
    rw [hp] at hphase
    exact h.goto hc (hfailed hphase)
  · next n hp =>
    rw [hp] at hphase
    exact h.goto hc ⟨hphase, pins_self h.holds⟩
  · next n r hp =>
    rw [hp] at hphase
    exact h.goto hc ⟨hphase.1, hphase.2.reads⟩
  · next n r t lost hp =>
    exact h.write hf hc hp (hok n r t lost hp rfl) lost
  · next n hp =>
    rw [hp] at hphase
    exact h.goto hc (hfailed hphase)
  · next n r hp =>
    rw [hp] at hphase
    exact h.goto hc (hfailed hphase.1)
  · next n r t hp =>
    rw [hp] at hphase
    exact h.goto hc (hfailed hphase.1)
  · next resolved reached hp =>
    rw [hp] at hphase
    exact (h.goto hc (p := .settled resolved) hphase).withLock _
  · exact h

theorem Serial.step (hf : Fenced store inv rank ok) (a : Action I K)
    (h : Serial store inv rank init s) (hok : Writes ok s a) :
    Serial store inv rank init (step store s a) := by
  cases a with
  | call input token => exact h.call input token
  | expire => exact h.withLock none
  | move i m =>
    rw [Fence.step]
    split
    · exact h
    · next c hc =>
      refine h.advance hf hc m fun n r t lost hp hm => ?_
      subst hm
      exact hok c.input c.token n r t (hp ▸ hc)

omit [DecidableEq K] in
theorem mem_calls_goto {c' : Call I R T K} {p : Phase R T} (hc : s.calls[i]? = some c)
    (h : c' ∈ (s.goto i c p).calls) : ∃ d ∈ s.calls, c'.input = d.input := by
  rcases List.mem_or_eq_of_mem_set h with h | rfl
  · exact ⟨c', h, rfl⟩
  · exact ⟨c, List.mem_of_getElem? hc, rfl⟩

/-- No move changes the input of a call. -/
theorem mem_calls_advance {m : Move} {c' : Call I R T K} (hc : s.calls[i]? = some c)
    (h : c' ∈ (advance store s i c m).calls) : ∃ d ∈ s.calls, c'.input = d.input := by
  unfold Fence.advance at h
  split at h
  · split_ifs at h
    · exact ⟨c', h, rfl⟩
    · exact mem_calls_goto hc h
  all_goals first
    | exact mem_calls_goto hc h
    | exact ⟨c', h, rfl⟩

/-- A condition on the inputs alone is one on the calls of the run. -/
theorem allowed_of_calls {P : I → Prop} (hP : ∀ x n r t d, P x → ok x n r t d)
    {s : State D I R T K} (hs : ∀ c ∈ s.calls, P c.input) {as : List (Action I K)}
    (has : ∀ x token, Action.call x token ∈ as → P x) :
    Allowed (step store) (Writes ok) s as := by
  induction as generalizing s with
  | nil => trivial
  | cons a as ih =>
    refine ⟨?_, ih ?_ fun x token h => has x token (List.mem_cons_of_mem _ h)⟩
    · cases a with
      | move i m =>
        cases m with
        | write lost => exact fun x token n r t hc => hP x n r t _ (hs _ (List.mem_of_getElem? hc))
        | _ => trivial
      | _ => trivial
    · cases a with
      | call x token =>
        intro c hc
        rcases List.mem_append.mp hc with hc | hc
        · exact hs c hc
        · obtain rfl := List.mem_singleton.mp hc
          exact has x token List.mem_cons_self
      | expire => exact hs
      | move i m =>
        intro c hc
        rw [Fence.step] at hc
        split at hc
        · exact hs c hc
        · next c₀ hc₀ =>
          obtain ⟨d, hd, hinput⟩ := mem_calls_advance hc₀ hc
          exact hinput ▸ hs d hd

/-- **Serial in commit order.** In every run whose writes meet the condition, whatever
the lock does, the cell is the replay of the commits; a resolved call has
committed exactly once, any other at most once. -/
theorem serial_run (hf : Fenced store inv rank ok) (hinit : inv init) {as : List (Action I K)}
    (hok : Allowed (step store) (Writes ok) (Fence.start init) as) :
    Serial store inv rank init (as.foldl (step store) (Fence.start init)) :=
  hok.invariant (fun _ a h => h.step hf a) (serial_start hinit)

omit [DecidableEq K] in
theorem Serial.commits_le (h : Serial store inv rank init s) (hc : s.calls[i]? = some c) :
    commits i s.log ≤ 1 := by
  have hphase := h.phases i c hc
  rcases hp : c.phase with _ | n | ⟨n, r⟩ | ⟨n, r, t⟩ | resolved | resolved <;> rw [hp] at hphase
  · exact hphase.le.trans zero_le_one
  · exact hphase.le.trans zero_le_one
  · exact hphase.1.le.trans zero_le_one
  · exact hphase.1.le.trans zero_le_one
  · exact hphase.1
  · exact hphase.1

omit [DecidableEq K] in
theorem Serial.commits_resolved (h : Serial store inv rank init s) (hc : s.calls[i]? = some c)
    (hp : c.phase = .settled true) : commits i s.log = 1 := by
  have hphase := h.phases i c hc
  rw [hp] at hphase
  exact hphase.2 rfl

end Invariant

end Haechi.Fence
