import Haechi.OrderedMap

/-! The in-memory rate limiter: a fixed-window counter for each identity. When the map of
windows has reached a size, a call first looks at the slots set longest ago, a bounded
number of them, and deletes those whose window is over. -/

namespace Haechi.Proxy

/-- The options of `createRateLimiter`. The proxy's own fallback has these values. -/
structure LimiterOptions where
  windowMs : ℤ := 60000
  sweepThreshold : ℤ := 1024
  sweepBudget : ℤ := 256

structure Slot where
  windowStart : ℤ
  count : ℕ
deriving DecidableEq

abbrev Windows (κ : Type) := OrderedMap κ Slot

/-- A call of `allow`, and the time it reads. -/
structure Allow (κ : Type) where
  now : ℤ
  key : κ
  limit : ℤ

namespace LimiterOptions

variable {κ : Type} [DecidableEq κ] (o : LimiterOptions)

/-- `now - slot.windowStart >= windowMs`. -/
def elapsed (now : ℤ) (slot : Slot) : Bool := now - slot.windowStart ≥ o.windowMs

/-- The loop of `sweepExpired` over the entries it has still to visit. -/
def sweepLoop (now : ℤ) : ℤ → List (κ × Slot) → Windows κ → Windows κ
  | _, [], windows => windows
  | scanned, (key, slot) :: rest, windows =>
    if scanned ≥ o.sweepBudget then windows
    else
      sweepLoop now (scanned + 1) rest (if o.elapsed now slot then windows.delete key else windows)

def sweepExpired (now : ℤ) (windows : Windows κ) : Windows κ :=
  o.sweepLoop now 0 windows.entries windows

/-- `allow` after the sweep: the plain counter. -/
def count (c : Allow κ) (windows : Windows κ) : Bool × Windows κ :=
  match windows.get c.key with
  | none => (true, windows.set c.key ⟨c.now, 1⟩)
  | some slot =>
    if o.elapsed c.now slot then (true, windows.set c.key ⟨c.now, 1⟩)
    else if slot.count ≥ c.limit then (false, windows)
    else (true, windows.set c.key { slot with count := slot.count + 1 })

/-- `if (windows.size >= sweepThreshold) sweepExpired(now)`. -/
def swept (now : ℤ) (windows : Windows κ) : Windows κ :=
  if windows.size ≥ o.sweepThreshold then o.sweepExpired now windows else windows

/-- `allow`. -/
def allow (c : Allow κ) (windows : Windows κ) : Bool × Windows κ :=
  o.count c (o.swept c.now windows)

end LimiterOptions

section Runs

variable {κ : Type} (step : Allow κ → Windows κ → Bool × Windows κ)

/-- The calls, one after the other, each with its answer. -/
def transcript : Windows κ → List (Allow κ) → List (Allow κ × Bool)
  | _, [] => []
  | w, c :: cs => (c, (step c w).1) :: transcript (step c w).2 cs

/-- The windows after the calls. -/
def windowsAfter (w : Windows κ) (cs : List (Allow κ)) : Windows κ :=
  cs.foldl (fun w c => (step c w).2) w

variable {step} in
theorem transcript_append (w : Windows κ) (cs ds : List (Allow κ)) :
    transcript step w (cs ++ ds) =
      transcript step w cs ++ transcript step (windowsAfter step w cs) ds := by
  induction cs generalizing w with
  | nil => rfl
  | cons c cs ih => exact congrArg (_ :: ·) (ih _)

/-- The clock does not go back. -/
def Nondecreasing (cs : List (Allow κ)) : Prop := cs.Pairwise fun c d => c.now ≤ d.now

end Runs

variable {κ : Type} [DecidableEq κ] {o : LimiterOptions} {w p : Windows κ} {now later : ℤ}
  {slot : Slot} {k : κ}

/-! ### The sweep -/

theorem elapsed_iff : o.elapsed now slot = true ↔ slot.windowStart + o.windowMs ≤ now := by
  rw [LimiterOptions.elapsed, decide_eq_true_eq]
  omega

theorem not_elapsed_iff : o.elapsed now slot = false ↔ now < slot.windowStart + o.windowMs := by
  rw [← Bool.not_eq_true, elapsed_iff, not_le]

theorem elapsed_mono (h : o.elapsed now slot = true) (hle : now ≤ later) :
    o.elapsed later slot = true := by
  rw [elapsed_iff] at h ⊢
  omega

namespace LimiterOptions

variable (o) in
/-- How many slots a sweep looks at. -/
def budget : ℕ := o.sweepBudget.toNat

/-- The loop deletes the slots that are over among those it still visits. -/
theorem entries_sweepLoop (scanned : ℕ) (visited rest : List (κ × Slot)) (w : Windows κ)
    (h : w.entries = visited ++ rest) :
    (o.sweepLoop now scanned rest w).entries =
      visited ++ (rest.take (o.budget - scanned)).filter (fun e => !o.elapsed now e.2) ++
        rest.drop (o.budget - scanned) := by
  induction rest generalizing scanned visited w with
  | nil => simpa [sweepLoop] using h
  | cons e rest ih =>
    obtain ⟨k, slot⟩ := e
    rw [sweepLoop]
    by_cases hbudget : (scanned : ℤ) ≥ o.sweepBudget
    · have hzero : o.budget - scanned = 0 := by
        unfold budget
        omega
      simp [hbudget, hzero, h]
    · have hsucc : o.budget - scanned = o.budget - (scanned + 1) + 1 := by
        unfold budget
        omega
      rw [if_neg hbudget, hsucc, List.take_succ_cons, List.drop_succ_cons]
      by_cases hover : o.elapsed now slot = true
      · have hdelete := OrderedMap.entries_delete_of_entries h
        have := ih (scanned + 1) visited (w.delete k) hdelete
        rw [if_pos hover, List.filter_cons_of_neg (by simp [hover])]
        exact_mod_cast this
      · have := ih (scanned + 1) (visited ++ [(k, slot)]) w (by simp [h])
        rw [if_neg hover, List.filter_cons_of_pos (by simp [hover])]
        simpa using this

/-- A sweep deletes the slots that are over among the first ones. -/
theorem entries_sweepExpired (w : Windows κ) :
    (o.sweepExpired now w).entries =
      (w.entries.take o.budget).filter (fun e => !o.elapsed now e.2) ++ w.entries.drop o.budget := by
  have h : (o.sweepLoop now 0 w.entries w).entries = _ := entries_sweepLoop 0 [] w.entries w rfl
  simpa [sweepExpired] using h

/-- A sweep keeps the order of what it keeps. -/
theorem sublist_sweepExpired (w : Windows κ) : (o.sweepExpired now w).entries.Sublist w.entries := by
  rw [entries_sweepExpired]
  conv_rhs => rw [← List.take_append_drop o.budget w.entries]
  exact List.filter_sublist.append (List.Sublist.refl _)

/-- Of the first slots only those are left whose window is not over. -/
theorem live_of_mem_take {e : κ × Slot} (hfirst : e ∈ w.entries.take o.budget)
    (he : e ∈ (o.sweepExpired now w).entries) : o.elapsed now e.2 = false := by
  rw [entries_sweepExpired, List.mem_append] at he
  rcases he with he | he
  · simpa using (List.mem_filter.mp he).2
  · have hn := w.nodup.of_map
    rw [← List.take_append_drop o.budget w.entries, List.nodup_append] at hn
    exact absurd rfl (hn.2.2 e hfirst e he)

/-- What a sweep deletes is over, and among the first slots. -/
theorem of_not_mem_sweepExpired {e : κ × Slot} (he : e ∈ w.entries)
    (h : e ∉ (o.sweepExpired now w).entries) :
    e ∈ w.entries.take o.budget ∧ o.elapsed now e.2 = true := by
  rw [entries_sweepExpired, List.mem_append, not_or, List.mem_filter] at h
  have hfirst : e ∈ w.entries.take o.budget := by
    rw [← List.take_append_drop o.budget w.entries, List.mem_append] at he
    exact he.resolve_right h.2
  exact ⟨hfirst, by simpa [hfirst] using h.1⟩

theorem sublist_swept (w : Windows κ) : (o.swept now w).entries.Sublist w.entries := by
  rw [swept]
  split_ifs
  · exact sublist_sweepExpired w
  · exact List.Sublist.refl _

theorem get_of_get_swept (h : (o.swept now w).get k = some slot) : w.get k = some slot := by
  rw [OrderedMap.get_eq_some] at h ⊢
  exact (sublist_swept w).subset h

/-- A slot is found after a sweep unless its window is over. -/
theorem get_swept (h : w.get k = some slot) (hlive : o.elapsed now slot = false) :
    (o.swept now w).get k = some slot := by
  rw [OrderedMap.get_eq_some] at h ⊢
  rw [swept]
  split_ifs
  · by_contra hgone
    have := (of_not_mem_sweepExpired h hgone).2
    rw [hlive] at this
    cases this
  · exact h

end LimiterOptions

/-! ### The counter -/

open LimiterOptions

/-- What `allow` makes of the slot of its key. -/
def LimiterOptions.next (o : LimiterOptions) (now limit : ℤ) (slot : Option Slot) : Bool × Slot :=
  match slot with
  | none => (true, ⟨now, 1⟩)
  | some slot =>
    if o.elapsed now slot then (true, ⟨now, 1⟩)
    else if slot.count ≥ limit then (false, slot)
    else (true, { slot with count := slot.count + 1 })

variable {c : Allow κ}

theorem count_answer : (o.count c w).1 = (o.next c.now c.limit (w.get c.key)).1 := by
  rw [count, next.eq_def]
  split
  · rfl
  · split_ifs <;> rfl

theorem get_count_self :
    (o.count c w).2.get c.key = some (o.next c.now c.limit (w.get c.key)).2 := by
  rw [count, next.eq_def]
  split
  · exact OrderedMap.get_set_self
  · next hslot =>
    split_ifs
    · exact OrderedMap.get_set_self
    · exact hslot
    · exact OrderedMap.get_set_self

theorem get_count_of_ne (h : k ≠ c.key) : (o.count c w).2.get k = w.get k := by
  rw [count]
  split
  · exact OrderedMap.get_set_of_ne h
  · split_ifs
    · exact OrderedMap.get_set_of_ne h
    · rfl
    · exact OrderedMap.get_set_of_ne h

/-- A call leaves the order as it is; a new key comes last. -/
theorem keys_count :
    (o.count c w).2.keys = if c.key ∈ w.keys then w.keys else w.keys ++ [c.key] := by
  rw [count]
  split
  · exact OrderedMap.keys_set
  · next hslot =>
    have hmem : c.key ∈ w.keys := OrderedMap.mem_keys.mpr ⟨_, hslot⟩
    split_ifs
    · rw [OrderedMap.keys_set, if_pos hmem]
    · rfl
    · rw [OrderedMap.keys_set, if_pos hmem]

/-- An elapsed slot counts for nothing. -/
theorem next_of_elapsed {limit : ℤ} (h : o.elapsed now slot = true) :
    o.next now limit (some slot) = o.next now limit none := by
  simp only [next, h, if_true]

/-! ### The swept counter and the plain one -/

/-- Every slot is the plain counter's, and what is missing is over. -/
def Shadows (o : LimiterOptions) (now : ℤ) (w p : Windows κ) : Prop :=
  ∀ k, w.get k = p.get k ∨ w.get k = none ∧ ∃ slot, p.get k = some slot ∧ o.elapsed now slot = true

theorem Shadows.mono (h : Shadows o now w p) (hle : now ≤ later) : Shadows o later w p := by
  intro k
  rcases h k with heq | ⟨hnone, slot, hslot, hover⟩
  · exact .inl heq
  · exact .inr ⟨hnone, slot, hslot, elapsed_mono hover hle⟩

theorem Shadows.swept (h : Shadows o now w p) : Shadows o now (o.swept now w) p := by
  intro k
  cases hk : (o.swept now w).get k with
  | some slot =>
    have hw := get_of_get_swept hk
    rcases h k with heq | ⟨hnone, -⟩
    · exact .inl (hw.symm.trans heq)
    · rw [hw] at hnone
      cases hnone
  | none =>
    rcases h k with heq | hover
    · cases hw : w.get k with
      | none => exact .inl (hw.symm.trans heq)
      | some slot =>
        refine .inr ⟨rfl, slot, heq.symm.trans hw, ?_⟩
        by_contra hlive
        rw [get_swept hw (by simpa using hlive)] at hk
        cases hk
    · exact .inr ⟨rfl, hover.2⟩

/-- The plain counter answers a call as its shadow does, and stays shadowed. -/
theorem Shadows.count (h : Shadows o c.now w p) :
    (o.count c w).1 = (o.count c p).1 ∧ Shadows o c.now (o.count c w).2 (o.count c p).2 := by
  have hnext : o.next c.now c.limit (w.get c.key) = o.next c.now c.limit (p.get c.key) := by
    rcases h c.key with heq | ⟨hnone, slot, hslot, hover⟩
    · rw [heq]
    · rw [hnone, hslot, next_of_elapsed hover]
  refine ⟨by rw [count_answer, count_answer, hnext], fun k => ?_⟩
  by_cases hk : k = c.key
  · subst hk
    rw [get_count_self, get_count_self, hnext]
    exact .inl rfl
  · rw [get_count_of_ne hk, get_count_of_ne hk]
    exact h k

theorem Shadows.allow (h : Shadows o c.now w p) :
    (o.allow c w).1 = (o.count c p).1 ∧ Shadows o c.now (o.allow c w).2 (o.count c p).2 :=
  h.swept.count

/-- In every run the swept counter answers as the plain one, and is its shadow. -/
theorem Shadows.run {cs : List (Allow κ)} (hcs : Nondecreasing cs) (h : Shadows o now w p)
    (hnow : ∀ c ∈ cs, now ≤ c.now) :
    transcript o.allow w cs = transcript o.count p cs ∧
      ∃ later, Shadows o later (windowsAfter o.allow w cs) (windowsAfter o.count p cs) := by
  induction cs generalizing w p now with
  | nil => exact ⟨rfl, now, h⟩
  | cons c cs ih =>
    obtain ⟨hle, hcs⟩ := List.pairwise_cons.mp hcs
    obtain ⟨hanswer, hshadows⟩ := (h.mono (hnow c List.mem_cons_self)).allow
    obtain ⟨hrest, hafter⟩ := ih hcs hshadows hle
    exact ⟨by rw [transcript, transcript, hanswer, hrest], hafter⟩

/-- The same, from the start. -/
theorem shadows_run {cs : List (Allow κ)} (hcs : Nondecreasing cs) :
    transcript o.allow .empty cs = transcript o.count .empty cs ∧
      ∃ later, Shadows o later (windowsAfter o.allow .empty cs) (windowsAfter o.count .empty cs) := by
  cases cs with
  | nil => exact ⟨rfl, 0, fun k => .inl rfl⟩
  | cons c cs =>
    have hstart : Shadows o c.now (.empty : Windows κ) .empty := fun k => .inl rfl
    apply Shadows.run hcs hstart
    intro d hd
    rcases List.mem_cons.mp hd with rfl | hd
    · exact le_rfl
    · exact (List.pairwise_cons.mp hcs).1 d hd

/-! ### How much a window holds -/

/-- How many calls of the key are granted in the window that starts then. -/
def granted (o : LimiterOptions) (key : κ) (start : ℤ) (t : List (Allow κ × Bool)) : ℕ :=
  t.countP fun e => e.2 && decide (e.1.key = key ∧ start ≤ e.1.now ∧ e.1.now < start + o.windowMs)

variable {key : κ} {start limit : ℤ} {cs : List (Allow κ)}

theorem granted_cons {answer : Bool} {t : List (Allow κ × Bool)} :
    granted o key start ((c, answer) :: t) = granted o key start t +
      if answer = true ∧ c.key = key ∧ start ≤ c.now ∧ c.now < start + o.windowMs then 1 else 0 := by
  simp [granted, List.countP_cons]

theorem granted_append (t t' : List (Allow κ × Bool)) :
    granted o key start (t ++ t') = granted o key start t + granted o key start t' :=
  List.countP_append

/-- A window that no call of the key is made in holds none. -/
theorem granted_eq_zero {step : Allow κ → Windows κ → Bool × Windows κ}
    (h : ∀ c ∈ cs, c.key = key → start ≤ c.now → start + o.windowMs ≤ c.now) :
    granted o key start (transcript step p cs) = 0 := by
  induction cs generalizing p with
  | nil => rfl
  | cons c cs ih =>
    rw [transcript, granted_cons, ih fun d hd => h d (List.mem_cons_of_mem c hd), if_neg]
    rintro ⟨-, hkey, hstart, hend⟩
    have := h c List.mem_cons_self hkey hstart
    omega

/-- The window of a slot grants what the slot has left to count, and no more. -/
theorem granted_later (hcs : Nondecreasing cs) (hlimit : ∀ c ∈ cs, c.key = key → c.limit = limit)
    (hslot : p.get key = some slot) (hcount : slot.count ≤ limit) :
    granted o key slot.windowStart (transcript o.count p cs) + slot.count ≤ limit := by
  induction cs generalizing p slot with
  | nil => simpa [transcript, granted] using hcount
  | cons c cs ih =>
    obtain ⟨hle, hcs'⟩ := List.pairwise_cons.mp hcs
    have hlimit' : ∀ d ∈ cs, d.key = key → d.limit = limit :=
      fun d hd => hlimit d (List.mem_cons_of_mem c hd)
    rw [transcript, granted_cons]
    by_cases hkey : c.key = key
    · have hnext := get_count_self (o := o) (c := c) (w := p)
      have hanswer := count_answer (o := o) (c := c) (w := p)
      rw [hkey, hslot, hlimit c List.mem_cons_self hkey] at hnext hanswer
      rw [hanswer]
      by_cases hover : o.elapsed c.now slot = true
      · rw [elapsed_iff] at hover
        rw [granted_eq_zero fun d hd _ _ => hover.trans (hle d hd), if_neg (by omega)]
        simpa using hcount
      · simp only [next, hover, Bool.false_eq_true, if_false] at hnext ⊢
        split_ifs at hnext ⊢ with hfull hin hin
        · exact hin.1.elim
        · simpa using ih hcs' hlimit' hnext hcount
        · have := ih hcs' hlimit' hnext (by push_cast; omega)
          push_cast at this ⊢
          omega
        · have := ih hcs' hlimit' hnext (by push_cast; omega)
          push_cast at this ⊢
          omega
    · rw [if_neg fun h => hkey h.2.1]
      exact ih hcs' hlimit' (by rwa [get_count_of_ne (Ne.symm hkey)]) hcount

/-- What the windows so far say of the calls of a key. -/
structure Tallied (o : LimiterOptions) (limit : ℤ) (key : κ) (cs : List (Allow κ)) (p : Windows κ)
    (t : List (Allow κ × Bool)) : Prop where
  fresh : p.get key = none → ∀ c ∈ cs, c.key ≠ key
  counted : ∀ slot, p.get key = some slot →
    (slot.count : ℤ) ≤ limit ∧ granted o key slot.windowStart t ≤ slot.count ∧
      ∀ c ∈ cs, c.key = key → c.now < slot.windowStart + o.windowMs

theorem Tallied.of_get {t : List (Allow κ × Bool)} (hslot : p.get key = some slot)
    (hcount : (slot.count : ℤ) ≤ limit) (hgranted : granted o key slot.windowStart t ≤ slot.count)
    (hwindow : ∀ c ∈ cs, c.key = key → c.now < slot.windowStart + o.windowMs) :
    Tallied o limit key cs p t where
  fresh hnone := by
    rw [hslot] at hnone
    cases hnone
  counted slot' hslot' := by
    obtain rfl := Option.some.inj (hslot.symm.trans hslot')
    exact ⟨hcount, hgranted, hwindow⟩

/-- A call that opens a window finds none of the key's calls in it. -/
theorem Tallied.opened {t : List (Allow κ × Bool)} (hpos : 0 < o.windowMs) (hlimit : 1 ≤ limit)
    (ht : granted o c.key c.now t = 0)
    (hbefore : ∀ d ∈ cs, d.key = c.key → d.now < c.now + o.windowMs)
    (hslot : p.get c.key = some ⟨c.now, 1⟩) :
    Tallied o limit c.key (cs ++ [c]) p (t ++ [(c, true)]) := by
  refine .of_get hslot (by exact_mod_cast hlimit) ?_ fun d hd hkey => ?_
  · rw [granted_append, ht, granted_cons, Nat.zero_add]
    split_ifs <;> simp [granted]
  · rcases List.mem_append.mp hd with hd | hd
    · exact hbefore d hd hkey
    · rw [List.mem_singleton.mp hd]
      show c.now < c.now + o.windowMs
      omega

/-- The calls of one more call are tallied. -/
theorem Tallied.count {t : List (Allow κ × Bool)} (h : Tallied o limit key cs p t)
    (hpos : 0 < o.windowMs) (hlimit : 1 ≤ limit) (hc : c.key = key → c.limit = limit)
    (hgranted : ∀ start, (∀ d ∈ cs, d.key = key → d.now < start) → granted o key start t = 0) :
    Tallied o limit key (cs ++ [c]) (o.count c p).2 (t ++ [(c, (o.count c p).1)]) := by
  by_cases hkey : c.key = key
  · subst hkey
    have hnext := get_count_self (o := o) (c := c) (w := p)
    rw [count_answer]
    cases hslot : p.get c.key with
    | none =>
      rw [hslot, next] at hnext
      have hfresh := h.fresh hslot
      exact .opened hpos hlimit (hgranted _ fun d hd hk => absurd hk (hfresh d hd))
        (fun d hd hk => absurd hk (hfresh d hd)) hnext
    | some slot =>
      obtain ⟨hcount, hgr, hwindow⟩ := h.counted slot hslot
      rw [hslot, hc rfl] at hnext
      rw [hc rfl]
      by_cases hover : o.elapsed c.now slot = true
      · rw [next_of_elapsed hover] at hnext ⊢
        rw [elapsed_iff] at hover
        refine .opened hpos hlimit (hgranted _ fun d hd hk => ?_) (fun d hd hk => ?_) hnext
        · exact (hwindow d hd hk).trans_le hover
        · have := hwindow d hd hk
          omega
      · have hlive : c.now < slot.windowStart + o.windowMs := not_elapsed_iff.mp (by simpa using hover)
        have hcalls : ∀ d ∈ cs ++ [c], d.key = c.key → d.now < slot.windowStart + o.windowMs := by
          intro d hd hk
          rcases List.mem_append.mp hd with hd | hd
          · exact hwindow d hd hk
          · rwa [List.mem_singleton.mp hd]
        simp only [next, hover, Bool.false_eq_true, if_false] at hnext ⊢
        split_ifs at hnext ⊢ with hfull
        · refine .of_get hnext hcount ?_ hcalls
          rw [granted_append, granted_cons, if_neg (by simp)]
          simpa [granted] using hgr
        · refine .of_get hnext (by push_cast; omega) ?_ hcalls
          show granted o c.key slot.windowStart _ ≤ slot.count + 1
          rw [granted_append, granted_cons]
          have : granted o c.key slot.windowStart ([] : List (Allow κ × Bool)) = 0 := rfl
          split_ifs <;> omega
  · have hother : ∀ d ∈ cs ++ [c], d.key = key → d ∈ cs := by
      intro d hd hk
      rcases List.mem_append.mp hd with hd | hd
      · exact hd
      · exact absurd (List.mem_singleton.mp hd ▸ hk) hkey
    have hget : (o.count c p).2.get key = p.get key := get_count_of_ne (Ne.symm hkey)
    refine ⟨fun hnone d hd hk => ?_, fun slot hslot => ?_⟩
    · exact h.fresh (hget ▸ hnone) d (hother d hd hk) hk
    · obtain ⟨hcount, hgr, hwindow⟩ := h.counted slot (hget ▸ hslot)
      refine ⟨hcount, ?_, fun d hd hk => hwindow d (hother d hd hk) hk⟩
      rw [granted_append, granted_cons, if_neg fun h' => hkey h'.2.1]
      simpa [granted] using hgr

/-- The plain counter tallies every run. -/
theorem tallied_run (hpos : 0 < o.windowMs) (hone : 1 ≤ limit) (hcs : Nondecreasing cs)
    (hlimit : ∀ c ∈ cs, c.key = key → c.limit = limit) :
    Tallied o limit key cs (windowsAfter o.count .empty cs) (transcript o.count .empty cs) := by
  induction cs using List.reverseRecOn with
  | nil => exact ⟨fun _ c hc => by simp at hc, fun slot hslot => by cases hslot⟩
  | append_singleton cs c ih =>
    have h := ih (List.pairwise_append.mp hcs).1 fun d hd => hlimit d (List.mem_append_left _ hd)
    rw [transcript_append, windowsAfter, List.foldl_append]
    refine h.count hpos hone (hlimit c (by simp)) fun start hstart => ?_
    exact granted_eq_zero fun d hd hkey hle => absurd (hstart d hd hkey) (not_lt.mpr hle)

/-- A window of the plain counter grants at most the limit. -/
theorem granted_le {cs₁ cs₂ : List (Allow κ)} (hcs : Nondecreasing (cs₁ ++ cs₂)) (hone : 1 ≤ limit)
    (hlimit : ∀ c ∈ cs₁ ++ cs₂, c.key = key → c.limit = limit)
    (hslot : (windowsAfter o.count .empty cs₁).get key = some slot) :
    granted o key slot.windowStart (transcript o.count .empty (cs₁ ++ cs₂)) ≤ limit := by
  rcases lt_or_ge 0 o.windowMs with hpos | hneg
  · obtain ⟨hcs₁, hcs₂, -⟩ := List.pairwise_append.mp hcs
    obtain ⟨hcount, hgranted, -⟩ := (tallied_run hpos hone hcs₁ fun c hc =>
      hlimit c (List.mem_append_left _ hc)).counted slot hslot
    have hlater := granted_later (o := o) hcs₂ (fun c hc => hlimit c (List.mem_append_right _ hc)) hslot hcount
    rw [transcript_append, granted_append]
    push_cast
    omega
  · rw [granted_eq_zero fun c _ _ hle => by omega]
    exact_mod_cast (zero_le_one.trans hone)

theorem exists_call (hslot : (windowsAfter o.count .empty cs).get key = some slot) :
    ∃ c ∈ cs, c.key = key := by
  induction cs using List.reverseRecOn generalizing slot with
  | nil => cases hslot
  | append_singleton cs c ih =>
    by_cases hkey : c.key = key
    · exact ⟨c, by simp, hkey⟩
    · rw [windowsAfter, List.foldl_append] at hslot
      obtain ⟨d, hd, hdkey⟩ := ih ((get_count_of_ne (Ne.symm hkey)).symm.trans hslot)
      exact ⟨d, List.mem_append_left _ hd, hdkey⟩

/-- **Refinement.** With a clock that does not go back, the limiter that sweeps answers every
call as the plain counter, which deletes nothing; and with one limit for a key, the calls
granted within a window of the key are at most the limit. -/
theorem swept_refines_plain (o : LimiterOptions) (cs : List (Allow κ)) (hclock : Nondecreasing cs)
    (hlimit : ∀ c ∈ cs, 1 ≤ c.limit) :
    transcript o.allow .empty cs = transcript o.count .empty cs ∧
      ∀ (key : κ) (limit : ℤ), (∀ c ∈ cs, c.key = key → c.limit = limit) →
        ∀ (cs₁ cs₂ : List (Allow κ)) (slot : Slot), cs = cs₁ ++ cs₂ →
          (windowsAfter o.allow .empty cs₁).get key = some slot →
            granted o key slot.windowStart (transcript o.allow .empty cs) ≤ limit := by
  have hsame := (shadows_run (o := o) hclock).1
  refine ⟨hsame, ?_⟩
  rintro key limit hfixed cs₁ cs₂ slot rfl hslot
  obtain ⟨-, later, hshadows⟩ := shadows_run (o := o) (List.pairwise_append.mp hclock).1
  have hplain : (windowsAfter o.count .empty cs₁).get key = some slot := by
    rcases hshadows key with heq | ⟨hnone, -⟩
    · rwa [← heq]
    · rw [hslot] at hnone
      cases hnone
  obtain ⟨c, hc, hkey⟩ := exists_call hplain
  have hmem := List.mem_append_left cs₂ hc
  rw [hsame]
  exact granted_le hclock (hfixed c hmem hkey ▸ hlimit c hmem) hfixed hplain

/-- Two calls of one key, and one when its window is over. -/
def threeCalls : List (Allow ℕ) := [⟨0, 1, 1⟩, ⟨10, 1, 1⟩, ⟨60000, 1, 1⟩]

theorem swept_refines_plain_three :
    transcript ({} : LimiterOptions).allow .empty threeCalls =
        transcript ({} : LimiterOptions).count .empty threeCalls ∧
      granted {} 1 0 (transcript ({} : LimiterOptions).allow .empty threeCalls) ≤ 1 := by
  have h := swept_refines_plain {} threeCalls (by unfold Nondecreasing; decide) (by decide)
  refine ⟨h.1, ?_⟩
  exact_mod_cast h.2 1 1 (by decide) [⟨0, 1, 1⟩] [⟨10, 1, 1⟩, ⟨60000, 1, 1⟩] ⟨0, 1⟩ rfl rfl

end Haechi.Proxy
