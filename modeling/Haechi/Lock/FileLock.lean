import Haechi.Runs

/-! The lock file protocol of the audit log and the token vault, for any number
of processes. A lock that is too old is broken by check and unlink, two steps
that act on the path and not on the file that was checked. Mutual exclusion and
the serial history of the guarded store hold in every run in which an unlink
removes no other file than the one it is meant for. -/

namespace Haechi.Lock

/-- The lock file: which creation it is of, and when that was. -/
structure LockFile where
  id : ℕ
  mtime : ℕ
deriving DecidableEq

/-- `STALE_LOCK_MS`. -/
def staleLockMs : ℕ := 30000

/-- How long `acquireLock` tries. -/
def acquireMs : ℕ := 5000

/-- How long it sleeps between two attempts. -/
def retryMs : ℕ := 10

variable {P σ Op : Type}

/-- Where a process stands in `withFileLock`. `judged` and `own` name the file
that the process means; the file system does not see them. -/
inductive Phase (σ Op : Type) where
  | idle
  | opening (op : Op) (deadline : ℕ)
  | stating (op : Op) (deadline : ℕ)
  | breaking (op : Op) (deadline : ℕ) (judged : LockFile)
  | sleeping (op : Op) (deadline wake : ℕ)
  | entered (op : Op) (own : LockFile)
  | loaded (op : Op) (own : LockFile) (snapshot : σ)
  | stored (own : LockFile)
  | closing (own : LockFile)
  | releasing (own : LockFile)
  | crashed

namespace Phase

/-- The lock file the process created and has not yet unlinked. -/
def own : Phase σ Op → Option LockFile
  | .entered _ l | .loaded _ l _ | .stored l | .closing l | .releasing l => some l
  | _ => none

/-- The lock file of a live process in its critical section. -/
def critical : Phase σ Op → Option LockFile
  | .entered _ l | .loaded _ l _ | .stored l => some l
  | _ => none

theorem own_of_critical {ph : Phase σ Op} {l : LockFile} (h : ph.critical = some l) :
    ph.own = some l := by
  cases ph <;> first | exact h | cases h

end Phase

/-- The file system and all processes. `history` lists the operations in the
order in which they wrote. -/
structure State (P σ Op : Type) where
  now : ℕ
  nextId : ℕ
  lock : Option LockFile
  phase : P → Phase σ Op
  store : σ
  history : List Op

def State.init (store : σ) : State P σ Op := ⟨0, 0, none, fun _ => .idle, store, []⟩

inductive Action (P Op : Type) where
  | call (p : P) (op : Op)
  | advance (p : P)
  | crash (p : P)
  | tick (ms : ℕ)

variable [DecidableEq P]

namespace State

def setPhase (s : State P σ Op) (p : P) (ph : Phase σ Op) : State P σ Op :=
  { s with phase := Function.update s.phase p ph }

/-- The lock was found fresh, or gone: give up after the deadline, else sleep. -/
def patience (s : State P σ Op) (p : P) (op : Op) (deadline : ℕ) : State P σ Op :=
  if deadline < s.now then s.setPhase p .idle
  else s.setPhase p (.sleeping op deadline (s.now + retryMs))

/-- `open(lockPath, "wx")` when there is no lock file. -/
def acquire (s : State P σ Op) (p : P) (op : Op) : State P σ Op :=
  { s with
    nextId := s.nextId + 1
    lock := some ⟨s.nextId, s.now⟩
    phase := Function.update s.phase p (.entered op ⟨s.nextId, s.now⟩) }

/-- `unlink(lockPath)`, whichever file is there. -/
def unlink (s : State P σ Op) (p : P) (ph : Phase σ Op) : State P σ Op :=
  { s with lock := none, phase := Function.update s.phase p ph }

/-- The operation writes what it computed from its snapshot. -/
def write (apply : Op → σ → σ → σ) (s : State P σ Op) (p : P) (op : Op) (own : LockFile)
    (snapshot : σ) : State P σ Op :=
  { s with
    phase := Function.update s.phase p (.stored own)
    store := apply op snapshot s.store
    history := s.history ++ [op] }

end State

variable (apply : Op → σ → σ → σ)

/-- The next atomic step of a process. -/
def advance (s : State P σ Op) (p : P) : State P σ Op :=
  match s.phase p with
  | .idle | .crashed => s
  | .opening op deadline =>
    match s.lock with
    | none => s.acquire p op
    | some _ => s.setPhase p (.stating op deadline)
  | .stating op deadline =>
    match s.lock with
    | none => s.patience p op deadline
    | some l =>
      if l.mtime + staleLockMs < s.now then s.setPhase p (.breaking op deadline l)
      else s.patience p op deadline
  | .breaking op deadline _ => s.unlink p (.opening op deadline)
  | .sleeping op deadline wake =>
    if wake ≤ s.now then s.setPhase p (.opening op deadline) else s
  | .entered op own => s.setPhase p (.loaded op own s.store)
  | .loaded op own snapshot => s.write apply p op own snapshot
  | .stored own => s.setPhase p (.closing own)
  | .closing own => s.setPhase p (.releasing own)
  | .releasing _ => s.unlink p .idle

def step (s : State P σ Op) : Action P Op → State P σ Op
  | .call p op =>
    match s.phase p with
    | .idle => s.setPhase p (.opening op (s.now + acquireMs))
    | _ => s
  | .advance p => advance apply s p
  | .crash p => s.setPhase p .crashed
  | .tick ms => { s with now := s.now + ms }

/-- No live holder has been in its critical section beyond the stale threshold. -/
def Prompt (s : State P σ Op) : Prop :=
  ∀ p, ∀ l ∈ (s.phase p).critical, s.now ≤ l.mtime + staleLockMs

/-- The step unlinks no other file than the one the process means: the one it
judged stale, or the one it created. -/
def Careful (s : State P σ Op) : Action P Op → Prop
  | .advance p =>
    match s.phase p with
    | .breaking _ _ judged => ∀ l ∈ s.lock, l = judged
    | .releasing own => ∀ l ∈ s.lock, l = own
    | _ => True
  | _ => True

instance [Fintype P] (s : State P σ Op) : Decidable (Prompt s) :=
  inferInstanceAs (Decidable (∀ p, ∀ l ∈ (s.phase p).critical, s.now ≤ l.mtime + staleLockMs))

instance (s : State P σ Op) (a : Action P Op) : Decidable (Careful s a) := by
  unfold Careful
  split
  · split <;> infer_instance
  · infer_instance

/-! ### The invariant -/

/-- The operation as one atomic step. -/
def atomically (op : Op) (store : σ) : σ := apply op store store

/-- What the file system owes to a process in this phase. -/
structure Sound (s : State P σ Op) (ph : Phase σ Op) : Prop where
  own : ∀ l ∈ ph.own, l.id < s.nextId
  critical : ∀ l ∈ ph.critical, s.lock = some l
  judged : ∀ op d l, ph = .breaking op d l → l.mtime + staleLockMs < s.now
  snapshot : ∀ op l snap, ph = .loaded op l snap → snap = s.store

structure Inv (store : σ) (s : State P σ Op) : Prop where
  sound : ∀ p, Sound s (s.phase p)
  distinct : ∀ p q, ∀ l ∈ (s.phase p).own, ∀ m ∈ (s.phase q).own, l.id = m.id → p = q
  serial : s.store = s.history.foldl (fun st op => atomically apply op st) store

variable {apply} {store : σ} {s : State P σ Op}

omit [DecidableEq P] in
theorem sound_of_plain {ph : Phase σ Op} (hown : ph.own = none)
    (hbreaking : ∀ op d l, ph ≠ .breaking op d l) : Sound s ph where
  own := by simp [hown]
  critical l hl := by
    have := Phase.own_of_critical hl
    rw [hown] at this
    cases this
  judged op d l h := absurd h (hbreaking op d l)
  snapshot op l snap h := by
    rw [h] at hown
    cases hown

omit [DecidableEq P] in
/-- Two processes in their critical sections are one. -/
theorem Inv.critical_unique (h : Inv apply store s) {p q : P} {l m : LockFile}
    (hp : (s.phase p).critical = some l) (hq : (s.phase q).critical = some m) : p = q := by
  have hl := (h.sound p).critical l hp
  rw [(h.sound q).critical m hq] at hl
  obtain rfl := Option.some.inj hl
  exact h.distinct p q _ (Phase.own_of_critical hp) _ (Phase.own_of_critical hq) rfl

/-- A process may move to a phase the file system already vouches for. -/
theorem Inv.setPhase (h : Inv apply store s) (p : P) {ph : Phase σ Op} (hs : Sound s ph)
    (hown : ∀ l ∈ ph.own, l ∈ (s.phase p).own) : Inv apply store (s.setPhase p ph) where
  sound q := by
    by_cases hq : q = p
    · subst hq
      simpa [State.setPhase] using ⟨hs.own, hs.critical, hs.judged, hs.snapshot⟩
    · have := h.sound q
      simpa [State.setPhase, hq] using ⟨this.own, this.critical, this.judged, this.snapshot⟩
  distinct q r l hl m hm heq := by
    have hsub : ∀ x, ∀ l ∈ ((s.setPhase p ph).phase x).own, l ∈ (s.phase x).own := by
      intro x l hl
      by_cases hx : x = p
      · subst hx
        exact hown l (by simpa [State.setPhase] using hl)
      · simpa [State.setPhase, hx] using hl
    exact h.distinct q r l (hsub q l hl) m (hsub r m hm) heq
  serial := h.serial

/-- Giving up and sleeping own nothing. -/
theorem Inv.patience (h : Inv apply store s) (p : P) (op : Op) (deadline : ℕ) :
    Inv apply store (s.patience p op deadline) := by
  rw [State.patience]
  split_ifs
  · exact h.setPhase p (sound_of_plain rfl (by simp)) (by simp [Phase.own])
  · exact h.setPhase p (sound_of_plain rfl (by simp)) (by simp [Phase.own])

/-- The lock is free, so nobody is in a critical section, and the new file is
unlike any before it. -/
theorem Inv.acquire (h : Inv apply store s) (p : P) (op : Op) (hfree : s.lock = none) :
    Inv apply store (s.acquire p op) where
  sound q := by
    by_cases hq : q = p
    · subst hq
      refine ⟨?_, ?_, ?_, ?_⟩ <;> simp [State.acquire, Phase.own, Phase.critical]
    · have hs := h.sound q
      have hcrit : ∀ l, (s.phase q).critical ≠ some l := fun l hl => by
        have := hs.critical l hl
        rw [hfree] at this
        cases this
      refine ⟨fun l hl => ?_, fun l hl => ?_, fun op d l hl => ?_, fun op l snap hl => ?_⟩ <;>
        simp only [State.acquire, Function.update_of_ne hq] at hl ⊢
      · exact Nat.lt_succ_of_lt (hs.own l hl)
      · exact absurd hl (hcrit l)
      · exact hs.judged op d l hl
      · exact hs.snapshot op l snap hl
  distinct q r l hl m hm heq := by
    have hown : ∀ x, ∀ l ∈ ((s.acquire p op).phase x).own,
        x = p ∧ l.id = s.nextId ∨ x ≠ p ∧ l ∈ (s.phase x).own := by
      intro x l hl
      by_cases hx : x = p
      · subst hx
        refine .inl ⟨rfl, ?_⟩
        simp only [State.acquire, Function.update_self, Phase.own, Option.mem_some_iff] at hl
        rw [← hl]
      · exact .inr ⟨hx, by simpa [State.acquire, hx] using hl⟩
    rcases hown q l hl with ⟨rfl, hql⟩ | ⟨-, hql⟩ <;> rcases hown r m hm with ⟨rfl, hrm⟩ | ⟨-, hrm⟩
    · rfl
    · have := (h.sound r).own m hrm
      omega
    · have := (h.sound q).own l hql
      omega
    · exact h.distinct q r l hql m hrm heq
  serial := h.serial

/-- An unlink that takes nobody's lock away. -/
theorem Inv.unlink (h : Inv apply store s) (p : P) {ph : Phase σ Op} (hown : ph.own = none)
    (hbreaking : ∀ op d l, ph ≠ .breaking op d l)
    (hsafe : ∀ q, q ≠ p → (s.phase q).critical = none) : Inv apply store (s.unlink p ph) where
  sound q := by
    by_cases hq : q = p
    · subst hq
      simpa [State.unlink] using sound_of_plain (s := s.unlink q ph) hown hbreaking
    · have hs := h.sound q
      refine ⟨fun l hl => ?_, fun l hl => ?_, fun op d l hl => ?_, fun op l snap hl => ?_⟩ <;>
        simp only [State.unlink, Function.update_of_ne hq] at hl ⊢
      · exact hs.own l hl
      · rw [hsafe q hq] at hl
        cases hl
      · exact hs.judged op d l hl
      · exact hs.snapshot op l snap hl
  distinct q r l hl m hm heq := by
    have hsub : ∀ x, ∀ l ∈ ((s.unlink p ph).phase x).own, l ∈ (s.phase x).own := by
      intro x l hl
      by_cases hx : x = p
      · subst hx
        simp [State.unlink, hown] at hl
      · simpa [State.unlink, hx] using hl
    exact h.distinct q r l (hsub q l hl) m (hsub r m hm) heq
  serial := h.serial

/-- The holder writes over the store it has read. -/
theorem Inv.write (h : Inv apply store s) {p : P} {op : Op} {own : LockFile} {snapshot : σ}
    (hp : s.phase p = .loaded op own snapshot) :
    Inv apply store (s.write apply p op own snapshot) where
  sound q := by
    have hpcrit : (s.phase p).critical = some own := by rw [hp]; rfl
    by_cases hq : q = p
    · subst hq
      have hs := h.sound q
      rw [hp] at hs
      refine ⟨?_, ?_, ?_, ?_⟩
      · simpa [State.write, Phase.own] using hs.own own rfl
      · simpa [State.write, Phase.critical] using hs.critical own rfl
      · simp [State.write]
      · simp [State.write]
    · have hs := h.sound q
      refine ⟨fun l hl => ?_, fun l hl => ?_, fun op d l hl => ?_, fun op l snap hl => ?_⟩ <;>
        simp only [State.write, Function.update_of_ne hq] at hl ⊢
      · exact hs.own l hl
      · exact hs.critical l hl
      · exact hs.judged op d l hl
      · -- nobody else can have a snapshot
        exact absurd (h.critical_unique (p := q) (l := l) (by rw [hl]; rfl) hpcrit) hq
  distinct q r l hl m hm heq := by
    have hsub : ∀ x, ∀ l ∈ ((s.write apply p op own snapshot).phase x).own,
        l ∈ (s.phase x).own := by
      intro x l hl
      by_cases hx : x = p
      · subst hx
        rw [hp]
        simpa [State.write, Phase.own] using hl
      · simpa [State.write, hx] using hl
    exact h.distinct q r l (hsub q l hl) m (hsub r m hm) heq
  serial := by
    have hs := h.sound p
    rw [hp] at hs
    rw [State.write, List.foldl_append, ← h.serial, hs.snapshot op own snapshot rfl]
    rfl

omit [DecidableEq P] in
theorem Inv.tick (h : Inv apply store s) (ms : ℕ) :
    Inv apply store { s with now := s.now + ms } where
  sound q := by
    have hs := h.sound q
    exact ⟨hs.own, hs.critical,
      fun op d l hl => (hs.judged op d l hl).trans_le (Nat.le_add_right _ _), hs.snapshot⟩
  distinct := h.distinct
  serial := h.serial

omit [DecidableEq P] in
/-- A stale lock is nobody's: its holder would have been too slow. -/
theorem Inv.breaking_safe (h : Inv apply store s) (hprompt : Prompt s) {p : P} {op : Op}
    {d : ℕ} {judged : LockFile} (hp : s.phase p = .breaking op d judged)
    (hcareful : ∀ l ∈ s.lock, l = judged) (q : P) : (s.phase q).critical = none := by
  cases hq : (s.phase q).critical with
  | none => rfl
  | some l =>
    obtain rfl := hcareful l ((h.sound q).critical l hq)
    have hstale := (h.sound p).judged op d l hp
    have := hprompt q l hq
    omega

omit [DecidableEq P] in
/-- A releasing process unlinks its own file, which nobody else holds. -/
theorem Inv.releasing_safe (h : Inv apply store s) {p : P} {own : LockFile}
    (hp : s.phase p = .releasing own) (hcareful : ∀ l ∈ s.lock, l = own) (q : P) :
    (s.phase q).critical = none := by
  cases hq : (s.phase q).critical with
  | none => rfl
  | some l =>
    obtain rfl := hcareful l ((h.sound q).critical l hq)
    obtain rfl := h.distinct q p l (Phase.own_of_critical hq) l (by rw [hp]; rfl) rfl
    rw [hp] at hq
    cases hq

/-- Every careful step of a process keeps the invariant, while holders are prompt. -/
theorem Inv.advance (h : Inv apply store s) (hprompt : Prompt s) (p : P)
    (hcareful : Careful s (.advance p : Action P Op)) : Inv apply store (advance apply s p) := by
  have hs := h.sound p
  rw [Lock.advance]
  simp only [Careful] at hcareful
  split
  · exact h
  · exact h
  · next op deadline hp =>
    split
    · next hfree => exact h.acquire p op hfree
    · exact h.setPhase p (sound_of_plain rfl (by simp)) (by simp [Phase.own])
  · next op deadline hp =>
    split
    · exact h.patience p op deadline
    · next l hl =>
      split_ifs with hstale
      · refine h.setPhase p ⟨by simp [Phase.own], by simp [Phase.critical], ?_, by simp⟩
          (by simp [Phase.own])
        rintro _ _ _ ⟨⟩
        exact hstale
      · exact h.patience p op deadline
  · next op deadline judged hp =>
    rw [hp] at hcareful
    exact h.unlink p rfl (by simp) fun q _ => h.breaking_safe hprompt hp hcareful q
  · next op deadline wake hp =>
    split_ifs
    · exact h.setPhase p (sound_of_plain rfl (by simp)) (by simp [Phase.own])
    · exact h
  · next op own hp =>
    rw [hp] at hs
    refine h.setPhase p ⟨hs.own, hs.critical, by simp, ?_⟩ (by rw [hp]; simp [Phase.own])
    rintro _ _ _ ⟨⟩
    rfl
  · next op own snapshot hp => exact h.write hp
  · next own hp =>
    rw [hp] at hs
    exact h.setPhase p ⟨hs.own, by simp [Phase.critical], by simp, by simp⟩
      (by rw [hp]; simp [Phase.own])
  · next own hp =>
    rw [hp] at hs
    exact h.setPhase p ⟨hs.own, by simp [Phase.critical], by simp, by simp⟩
      (by rw [hp]; simp [Phase.own])
  · next own hp =>
    rw [hp] at hcareful
    exact h.unlink p rfl (by simp) fun q _ => h.releasing_safe hp hcareful q

theorem Inv.step (h : Inv apply store s) (hprompt : Prompt s) (a : Action P Op)
    (hcareful : Careful s a) : Inv apply store (step apply s a) := by
  cases a with
  | call p op =>
    rw [Lock.step]
    split
    · exact h.setPhase p (sound_of_plain rfl (by simp)) (by simp [Phase.own])
    · exact h
  | advance p => exact h.advance hprompt p hcareful
  | crash p => exact h.setPhase p (sound_of_plain rfl (by simp)) (by simp [Phase.own])
  | tick ms => exact h.tick ms

omit [DecidableEq P] in
theorem inv_init (store : σ) : Inv apply store (State.init store : State P σ Op) where
  sound p := sound_of_plain rfl (by simp [State.init])
  distinct p q l hl := by simp [State.init, Phase.own] at hl
  serial := rfl

/-- At most one live process is in its critical section. -/
def MutuallyExclusive (s : State P σ Op) : Prop :=
  ∀ p q, (s.phase p).critical.isSome → (s.phase q).critical.isSome → p = q

omit [DecidableEq P] in
theorem Inv.mutuallyExclusive (h : Inv apply store s) : MutuallyExclusive s := by
  intro p q hp hq
  obtain ⟨l, hl⟩ := Option.isSome_iff_exists.mp hp
  obtain ⟨m, hm⟩ := Option.isSome_iff_exists.mp hq
  exact h.critical_unique hl hm

/-- The condition of a run: holders are prompt and unlinks are careful. -/
def Safe (s : State P σ Op) (a : Action P Op) : Prop := Prompt s ∧ Careful s a

instance [Fintype P] (s : State P σ Op) (a : Action P Op) : Decidable (Safe s a) :=
  inferInstanceAs (Decidable (Prompt s ∧ Careful s a))

/-- Every run whose unlinks remove the file they mean keeps the invariant. -/
theorem inv_run (store : σ) {actions : List (Action P Op)}
    (h : Allowed (Lock.step apply) Safe (State.init store) actions) :
    Inv apply store (actions.foldl (Lock.step apply) (State.init store)) :=
  h.invariant (fun _ a hs hok => hs.step hok.1 a hok.2) (inv_init store)

end Haechi.Lock
