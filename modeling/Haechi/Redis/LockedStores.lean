import Haechi.Redis.AuditStore
import Haechi.Redis.Lock
import Haechi.Redis.TokenStore

/-! The two stores behind the lock. The fence keeps them right whatever the lock does; the lock
keeps the fence from meeting a conflict. Proved: a step of the lock is some steps of the fence,
and while every `fn` goes on only during the life of its key, no call is sent back. -/

namespace Haechi.Redis

open Text Audit

variable {D I R T K : Type} [DecidableEq K] (o : LockOptions) (store : Fence.Store D I R T)

/-! ### No conflict -/

section Prompt

variable {o store}

/-- How often `fn` has been sent back. -/
def tries : Fence.Phase R T → ℕ
  | .start n | .pinned n _ | .ready n _ _ => n
  | _ => 0

variable (store) in
/-- What the call has read is what is there. -/
def Current (d : D) : Fence.Phase R T → Prop
  | .pinned _ r => r = store.version d
  | .ready _ r t => r = store.version d ∧ t = store.snapshot d
  | _ => True

/-- `fn` goes on only while its key lives. -/
def PromptFn (s : Locked D I R T K) : LockAction I K → Prop
  | .move _ .fail | .move _ (.release _) => True
  | .move i _ => ∀ lapse, s.waits[i]? = some (.inside lapse) → s.now ≤ lapse
  | _ => True

variable (store) in
structure Undisturbed (s : Locked D I R T K) : Prop where
  first : ∀ c ∈ s.fence.calls, tries c.phase = 0
  log : ∀ e ∈ s.fence.log, e.attempt = 0
  current : ∀ (i : ℕ) (c : Fence.Call I R T K) (lapse : ℕ), s.waits[i]? = some (.inside lapse) →
    s.fence.calls[i]? = some c → s.now ≤ lapse → Current store s.fence.data c.phase

variable (store) in
/-- A move reads what is there, or writes. -/
theorem move_effect {s : Fence.State D I R T K} {i : ℕ} {c : Fence.Call I R T K}
    (hc : s.calls[i]? = some c) (m : Fence.Move) :
    ∃ p, (Fence.step store s (.move i m)).calls = s.calls.set i { c with phase := p } ∧
      ((Fence.step store s (.move i m)).data = s.data ∧
          (Fence.step store s (.move i m)).log = s.log ∧ (tries c.phase = 0 → tries p = 0) ∧
          (Current store s.data c.phase → Current store s.data p) ∨
        ∃ n r t lost, m = .write lost ∧ c.phase = .ready n r t ∧
          p = store.afterWrite n lost (store.write c.input n r t s.data).1 ∧
          (Fence.step store s (.move i m)).log =
            Fence.logWrite s.log ⟨i, c.input, n⟩ (store.write c.input n r t s.data).1) := by
  have hself := set_phase_self hc
  simp only [Fence.step, hc]
  unfold Fence.advance
  split
  · next hp =>
    split_ifs
    · exact ⟨c.phase, hself.symm, .inl ⟨rfl, rfl, id, id⟩⟩
    · exact ⟨.start 0, rfl, .inl ⟨rfl, rfl, fun _ => rfl, fun _ => trivial⟩⟩
  · exact ⟨.settled false, rfl, .inl ⟨rfl, rfl, fun _ => rfl, fun _ => trivial⟩⟩
  · next n hp =>
    refine ⟨.pinned n _, rfl, .inl ⟨rfl, rfl, ?_, fun _ => rfl⟩⟩
    rw [hp]
    exact id
  · next n r hp =>
    refine ⟨.ready n r _, rfl, .inl ⟨rfl, rfl, ?_, ?_⟩⟩
    · rw [hp]
      exact id
    · rw [hp]
      exact fun h => ⟨h, rfl⟩
  · next n r t lost hp => exact ⟨_, rfl, .inr ⟨n, r, t, lost, rfl, hp, rfl, rfl⟩⟩
  · exact ⟨.releasing false, rfl, .inl ⟨rfl, rfl, fun _ => rfl, fun _ => trivial⟩⟩
  · exact ⟨.releasing false, rfl, .inl ⟨rfl, rfl, fun _ => rfl, fun _ => trivial⟩⟩
  · exact ⟨.releasing false, rfl, .inl ⟨rfl, rfl, fun _ => rfl, fun _ => trivial⟩⟩
  · next resolved reached hp =>
    exact ⟨.settled resolved, rfl, .inl ⟨rfl, rfl, fun _ => rfl, fun _ => trivial⟩⟩
  · exact ⟨c.phase, hself.symm, .inl ⟨rfl, rfl, id, id⟩⟩

variable {s s' : Locked D I R T K} {i : ℕ} {w w' : Wait} {c : Fence.Call I R T K}

omit [DecidableEq K] in
/-- A turn that leaves the data. -/
theorem Undisturbed.turn (h : Undisturbed store s)
    {p : Fence.Phase R T} (hnow : s'.now = s.now) (hwaits : s'.waits = s.waits.set i w')
    (hcalls : s'.fence.calls = s.fence.calls.set i { c with phase := p })
    (hdata : s'.fence.data = s.fence.data) (hlog : s'.fence.log = s.fence.log)
    (hfirst : tries p = 0)
    (hcurrent : ∀ lapse, w' = .inside lapse → s.now ≤ lapse → Current store s.fence.data p) :
    Undisturbed store s' where
  first d hd := by
    rw [hcalls] at hd
    rcases List.mem_or_eq_of_mem_set hd with hd | rfl
    · exact h.first d hd
    · exact hfirst
  log e he := h.log e (hlog ▸ he)
  current j d lapse hv hd hlapse := by
    rw [hwaits] at hv
    rw [hcalls] at hd
    rw [hnow] at hlapse
    rw [hdata]
    rcases getElem?_set_eq_some hv with ⟨rfl, rfl⟩ | ⟨hij, hv⟩
    · rcases getElem?_set_eq_some hd with ⟨-, rfl⟩ | ⟨hii, -⟩
      · exact hcurrent lapse rfl hlapse
      · exact absurd rfl hii
    · rcases getElem?_set_eq_some hd with ⟨hij', -⟩ | ⟨-, hd⟩
      · exact absurd hij' hij
      · exact h.current j d lapse hv hd hlapse

omit [DecidableEq K] in
theorem undisturbed_start (d : D) : Undisturbed store (lockStart d : Locked D I R T K) where
  first c hc := by cases hc
  log e he := by cases he
  current i c lapse hw := by cases hw

theorem Undisturbed.giveUp (h : Undisturbed store s) (hlock : LockInv o s)
    (hi : s.waits[i]? = some w) (hw : w.outside = true) (hc : s.fence.calls[i]? = some c) :
    Undisturbed store (s.turn store i .done [.giveUp]) := by
  have hgive := giveUp_eq store hc ((hlock.agrees i w c hi hc).outside hw)
  exact h.turn (c := c) (p := .settled false) rfl rfl (congrArg Fence.State.calls hgive)
    (congrArg Fence.State.data hgive :) (congrArg Fence.State.log hgive :) rfl
    (fun _ h => by cases h)

theorem Undisturbed.stay (h : Undisturbed store s) (hw' : w'.outside = true)
    (hc : s.fence.calls[i]? = some c) : Undisturbed store (s.turn store i w' []) := by
  refine h.turn (c := c) (p := c.phase) rfl rfl (set_phase_self hc).symm rfl rfl
    (h.first c (List.mem_of_getElem? hc)) ?_
  rintro lapse rfl
  cases hw'

theorem Undisturbed.setNx (h : Undisturbed store s) (hlock : LockInv o s) {deadline : ℕ}
    (hi : s.waits[i]? = some (.asking deadline)) (hc : s.fence.calls[i]? = some c) (lost : Bool) :
    Undisturbed store (s.setNx o store i deadline lost) := by
  have hp := (hlock.agrees i _ c hi hc).outside rfl
  rw [Locked.setNx]
  by_cases hheld : s.fence.lock.isSome = true
  · rw [if_pos hheld]
    cases lost
    · exact h.stay rfl hc
    · exact h.giveUp hlock hi rfl hc
  · have hfree : s.fence.lock.isSome = false := Bool.eq_false_iff.mpr hheld
    rw [if_neg hheld]
    cases lost
    · have hacquire := acquire_eq store hc hp hfree
      rw [if_neg Bool.false_ne_true]
      exact h.turn (c := c) (p := .start 0) rfl rfl (congrArg Fence.State.calls hacquire)
        (congrArg Fence.State.data hacquire :) (congrArg Fence.State.log hacquire :) rfl
        (fun _ _ _ => trivial)
    · have hlost := lost_eq store hc hp hfree
      rw [if_pos rfl]
      exact h.turn (c := c) (p := .settled false) rfl rfl (congrArg Fence.State.calls hlost)
        (congrArg Fence.State.data hlost :) (congrArg Fence.State.log hlost :) rfl
        (fun _ h => by cases h)

variable {inv : D → Prop}

theorem Undisturbed.move (h : Undisturbed store s) (hlock : LockInv o s)
    (hcurrent : ∀ x n d, inv d →
      (store.write x n (store.version d) (store.snapshot d) d).1 ≠ .conflict)
    (hinv : inv s.fence.data) {lapse : ℕ} (hi : s.waits[i]? = some (.inside lapse))
    (hc : s.fence.calls[i]? = some c) (m : Fence.Move) (hprompt : PromptFn s (.move i m)) :
    Undisturbed store (s.turn store i (.inside lapse) [m]) := by
  have hfirst : tries c.phase = 0 := h.first c (List.mem_of_getElem? hc)
  obtain ⟨p, hcalls, ⟨hdata, hlog, htries, hstill⟩ | ⟨n, r, t, lost, rfl, hp, rfl, hlog⟩⟩ :=
    move_effect store hc m
  · refine h.turn (c := c) (p := p) rfl rfl hcalls hdata hlog (htries hfirst) ?_
    rintro _ ⟨⟩ hlapse
    exact hstill (h.current i c lapse hi hc hlapse)
  · -- the writer is inside and has read what is there, so nobody else has read anything
    have hlapse : s.now ≤ lapse := hprompt lapse hi
    have hread := h.current i c lapse hi hc hlapse
    rw [hp] at hread hfirst
    obtain ⟨rfl, rfl⟩ := hread
    obtain rfl : n = 0 := hfirst
    have hreply := hcurrent c.input 0 s.fence.data hinv
    have hholds : s.Holds i := ⟨lapse, c, hi, hlapse, hc, by rw [hp]; simp⟩
    refine ⟨?_, ?_, ?_⟩
    · intro d hd
      have hd' : d ∈ s.fence.calls.set i _ := hcalls ▸ hd
      rcases List.mem_or_eq_of_mem_set hd' with hd' | rfl
      · exact h.first d hd'
      · revert hreply
        generalize (store.write _ _ _ _ _).1 = reply
        cases reply with
        | conflict => exact fun hne => absurd rfl hne
        | _ => exact fun _ => rfl
    · intro e he
      have he' : e ∈ Fence.logWrite s.fence.log _ _ := hlog ▸ he
      revert hreply he'
      generalize (store.write _ _ _ _ _).1 = reply
      intro _ he'
      cases reply with
      | committed =>
        rcases List.mem_append.mp he' with he' | he'
        · exact h.log e he'
        · rw [List.mem_singleton.mp he']
      | _ => exact h.log e he'
    · intro j d lapse' hv hd hlapse'
      have hd' : (s.fence.calls.set i _)[j]? = some d := hcalls ▸ hd
      rcases getElem?_set_eq_some hd' with ⟨rfl, rfl⟩ | ⟨hij, hd'⟩
      · revert hreply
        generalize (store.write _ _ _ _ _).1 = reply
        cases reply with
        | conflict => exact fun hne => absurd rfl hne
        | _ => exact fun _ => trivial
      · have hv' : s.waits[j]? = some (.inside lapse') := by
          rcases getElem?_set_eq_some hv with ⟨hij', -⟩ | ⟨-, hv'⟩
          · exact absurd hij' hij
          · exact hv'
        cases hphase : d.phase with
        | pinned _ _ =>
          exact absurd (hlock.holds_unique hholds
            ⟨lapse', d, hv', hlapse', hd', by simp [hphase]⟩) hij
        | ready _ _ _ =>
          exact absurd (hlock.holds_unique hholds
            ⟨lapse', d, hv', hlapse', hd', by simp [hphase]⟩) hij
        | _ => trivial

theorem Undisturbed.step (h : Undisturbed store s) (hlock : LockInv o s)
    (hcurrent : ∀ x n d, inv d →
      (store.write x n (store.version d) (store.snapshot d) d).1 ≠ .conflict)
    (hinv : inv s.fence.data) (a : LockAction I K) (hprompt : PromptFn s a) :
    Undisturbed store (lockStep o store s a) := by
  cases a with
  | call input token =>
    refine ⟨?_, h.log, ?_⟩
    · intro c hc
      rcases List.mem_append.mp hc with hc | hc
      · exact h.first c hc
      · rw [List.mem_singleton.mp hc]
        rfl
    · intro i c lapse hw hc hlapse
      rcases getElem?_concat_eq_some.mp hw with hw | ⟨-, hne⟩
      · rcases getElem?_concat_eq_some.mp hc with hc | ⟨-, rfl⟩
        · exact h.current i c lapse hw hc hlapse
        · trivial
      · cases hne
  | tick ms =>
    have hfence : (lockStep o store s (.tick ms)).fence.calls = s.fence.calls ∧
        (lockStep o store s (.tick ms)).fence.log = s.fence.log ∧
        (lockStep o store s (.tick ms)).fence.data = s.fence.data := by
      simp only [lockStep]
      split_ifs <;> exact ⟨rfl, rfl, rfl⟩
    obtain ⟨hcalls, hlog, hdata⟩ := hfence
    refine ⟨by rw [hcalls]; exact h.first, by rw [hlog]; exact h.log, ?_⟩
    rw [hcalls, hdata]
    exact fun i c lapse hw hc hlapse =>
      h.current i c lapse hw hc ((Nat.le_add_right _ _).trans hlapse)
  | set i lost =>
    rw [lockStep]
    split
    · next deadline hi =>
      obtain ⟨c, hc⟩ := exists_call hlock hi
      exact h.setNx hlock hi hc lost
    · exact h
  | unreached i =>
    rw [lockStep]
    split
    · next deadline hi =>
      obtain ⟨c, hc⟩ := exists_call hlock hi
      exact h.giveUp hlock hi rfl hc
    · exact h
  | answer i =>
    rw [lockStep]
    split
    · next deadline hi =>
      obtain ⟨c, hc⟩ := exists_call hlock hi
      split_ifs
      · exact h.giveUp hlock hi rfl hc
      · exact h.stay rfl hc
    · exact h
  | wake i =>
    rw [lockStep]
    split
    · next deadline wake hi =>
      obtain ⟨c, hc⟩ := exists_call hlock hi
      split_ifs
      · exact h.stay rfl hc
      · exact h
    · exact h
  | move i m =>
    rw [lockStep]
    split
    · next lapse hi =>
      obtain ⟨c, hc⟩ := exists_call hlock hi
      exact h.move hlock hcurrent hinv hi hc m hprompt
    · exact h

/-- While every `fn` keeps to the life of its key, no call is sent back. `J` is what the store
keeps on the way. -/
theorem noConflict_run (inv : D → Prop) (J : Locked D I R T K → Prop)
    (ok : Locked D I R T K → LockAction I K → Prop)
    (hcurrent : ∀ x n d, inv d →
      (store.write x n (store.version d) (store.snapshot d) d).1 ≠ .conflict)
    (hstep : ∀ s a, J s → ok s a → J (lockStep o store s a)) (hJ : ∀ s, J s → inv s.fence.data)
    {d : D} (hd : J (lockStart d)) {as : List (LockAction I K)}
    (h : Allowed (lockStep o store) (fun s a => (FreshToken s a ∧ PromptFn s a) ∧ ok s a)
      (lockStart d) as) :
    Undisturbed store (as.foldl (lockStep o store) (lockStart d)) := by
  have hall : LockInv o (as.foldl (lockStep o store) (lockStart d)) ∧
      Undisturbed store (as.foldl (lockStep o store) (lockStart d)) ∧
      J (as.foldl (lockStep o store) (lockStart d)) := by
    refine h.invariant (I := fun s => LockInv o s ∧ Undisturbed store s ∧ J s) ?_
      ⟨lockInv_start d, undisturbed_start d, hd⟩
    rintro s a ⟨hlock, hundisturbed, hs⟩ ⟨⟨hfresh, hprompt⟩, hok⟩
    exact ⟨hlock.step a hfresh, hundisturbed.step hlock hcurrent (hJ s hs) a hprompt,
      hstep s a hs hok⟩
  exact hall.2.1

end Prompt

/-! ### The fence behind the lock -/

section Refinement

variable {o store}

variable (store) in
/-- A step of the lock is some steps of the fence. -/
theorem lockStep_fence (s : Locked D I R T K) (a : LockAction I K) :
    ∃ bs : List (Fence.Action I K),
      (lockStep o store s a).fence = bs.foldl (Fence.step store) s.fence ∧
        ∀ x token, .call x token ∈ bs → a = .call x token := by
  have hturn : ∀ (i : ℕ) (w : Wait) (ms : List Fence.Move),
      ∃ bs : List (Fence.Action I K),
        (s.turn store i w ms).fence = bs.foldl (Fence.step store) s.fence ∧
        ∀ x token, .call x token ∈ bs → a = .call x token :=
    fun i w ms => ⟨ms.map (.move i), rfl, by simp⟩
  have hnone : ∃ bs : List (Fence.Action I K), s.fence = bs.foldl (Fence.step store) s.fence ∧
      ∀ x token, .call x token ∈ bs → a = .call x token := ⟨[], rfl, by simp⟩
  cases a with
  | call input token => exact ⟨[.call input token], rfl, by simp⟩
  | tick ms =>
    by_cases hlapsed : s.expires < s.now + ms
    · exact ⟨[.expire], by simp [lockStep, hlapsed], by simp⟩
    · exact ⟨[], by simp [lockStep, hlapsed], by simp⟩
  | set i lost =>
    rw [lockStep]
    split
    · rw [Locked.setNx]
      split
      · split
        · exact hturn _ _ _
        · exact hturn _ _ _
      · split
        · exact hturn i .done [.acquire, .fail, .release false]
        · exact hturn i (.inside (s.now + o.ttlMs)) [.acquire]
    · exact hnone
  | unreached i =>
    rw [lockStep]
    split
    · exact hturn _ _ _
    · exact hnone
  | answer i =>
    rw [lockStep]
    split
    · split
      · exact hturn _ _ _
      · exact hturn _ _ _
    · exact hnone
  | wake i =>
    rw [lockStep]
    split
    · split
      · exact hturn _ _ _
      · exact hnone
    · exact hnone
  | move i m =>
    rw [lockStep]
    split
    · exact hturn _ _ _
    · exact hnone

/-- A call of the fence is one that was there, or the one that begins. -/
theorem mem_calls_step {s : Fence.State D I R T K} {a : Fence.Action I K}
    {c : Fence.Call I R T K} (h : c ∈ (Fence.step store s a).calls) :
    (∃ d ∈ s.calls, c.input = d.input) ∨ ∃ token, a = .call c.input token := by
  cases a with
  | call x token =>
    rcases List.mem_append.mp h with h | h
    · exact .inl ⟨c, h, rfl⟩
    · rw [List.mem_singleton.mp h]
      exact .inr ⟨token, rfl⟩
  | expire => exact .inl ⟨c, h, rfl⟩
  | move i m =>
    rw [Fence.step] at h
    split at h
    · exact .inl ⟨c, h, rfl⟩
    · next c₀ hc₀ => exact .inl (Fence.mem_calls_advance hc₀ h)

theorem inputs_foldl {P : I → Prop} {s : Fence.State D I R T K} (hs : ∀ c ∈ s.calls, P c.input)
    {as : List (Fence.Action I K)} (has : ∀ x token, Fence.Action.call x token ∈ as → P x) :
    ∀ c ∈ (as.foldl (Fence.step store) s).calls, P c.input := by
  induction as generalizing s with
  | nil => exact hs
  | cons a as ih =>
    refine ih ?_ fun x token h => has x token (List.mem_cons_of_mem _ h)
    intro c hc
    rcases mem_calls_step hc with ⟨d, hd, hinput⟩ | ⟨token, rfl⟩
    · exact hinput ▸ hs d hd
    · exact has c.input token List.mem_cons_self

end Refinement

/-! ### The stores -/

section Stores

variable {ν : Type} [JsNumber ν] {sha256 : Digest} {o}

theorem tokenStore_current (fn : Mutation ν) (n : ℕ) (d : TokenData) :
    (tokenStore.write fn n (tokenStore (ν := ν).version d) (tokenStore (ν := ν).snapshot d) d).1 ≠
      .conflict := by
  simp only [tokenStore]
  split
  · simp
  · rw [applyScript, if_pos rfl]
    split_ifs <;> simp

/-- The chain behind the lock, with whole events only. -/
def LinearChain (sha256 : Digest) (init : AuditData)
    (s : Locked AuditData (Event ν) (Option JsString) Unit K) : Prop :=
  Fence.Serial (auditStore sha256) (Chain sha256 ν) (fun d => d.chain.length) init s.fence ∧
    ∀ c ∈ s.fence.calls, c.input.NoHole

/-- The events of a run are whole. -/
def WholeEvent (_ : Locked AuditData (Event ν) (Option JsString) Unit K) :
    LockAction (Event ν) K → Prop
  | .call e _ => e.NoHole
  | _ => True

theorem LinearChain.step
    (hinj : Set.InjOn sha256.digest {t | ∃ v : JsValue ν, Json.canonicalize v = some t})
    (hne : NonEmpty sha256) {init : AuditData}
    {s : Locked AuditData (Event ν) (Option JsString) Unit K} (h : LinearChain sha256 init s)
    (a : LockAction (Event ν) K) (hwhole : WholeEvent s a) :
    LinearChain sha256 init (lockStep o (auditStore sha256) s a) := by
  obtain ⟨bs, hfence, hcalls⟩ := lockStep_fence (o := o) (auditStore sha256) s a
  have hbs : ∀ e token, Fence.Action.call e token ∈ bs → e.NoHole := by
    intro e token he
    obtain rfl := hcalls e token he
    exact hwhole
  rw [LinearChain, hfence]
  refine ⟨?_, inputs_foldl h.2 hbs⟩
  have hok : Allowed (Fence.step (auditStore sha256)) (Fence.Writes fun e _ _ _ _ => e.NoHole)
      s.fence bs :=
    Fence.allowed_of_calls (P := Event.NoHole) (fun _ _ _ _ _ h => h) h.2 hbs
  exact hok.invariant (fun _ b hs => hs.step (auditStore_fenced hinj hne) b) h.1

theorem auditStore_current (e : Event ν) (n : ℕ) (d : AuditData) (hd : Chain sha256 ν d) :
    ((auditStore sha256).write e n ((auditStore (ν := ν) sha256).version d)
      ((auditStore (ν := ν) sha256).snapshot d) d).1 ≠ .conflict := by
  obtain ⟨es, -, rfl⟩ := hd
  intro hconflict
  cases (congrArg Prod.fst (write_current e n es)).symm.trans hconflict

end Stores

end Haechi.Redis
