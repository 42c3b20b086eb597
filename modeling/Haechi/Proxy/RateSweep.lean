import Haechi.Proxy.RateLimiter
import Haechi.Runs

/-! What the sweep of the rate limiter reclaims. A call deletes a slot whose window is over
if there is one among the slots it looks at. These need not be the oldest: a slot that is
renewed keeps its place. But while the map is at its threshold the first slots are never
renewed in their place, so all of them go within one window, and then those after them. -/

namespace Haechi.Proxy

open LimiterOptions

variable {κ : Type} [DecidableEq κ] {o : LimiterOptions} {w : Windows κ} {c : Allow κ} {k : κ}
  {slot : Slot}

/-- The call removes a slot that is over: its key is gone, or is the call's own, whose slot
is then a new one. -/
def Removes (o : LimiterOptions) (c : Allow κ) (w : Windows κ) : Prop :=
  ∃ e ∈ w.entries, o.elapsed c.now e.2 = true ∧ (e.1 = c.key ∨ e.1 ∉ (o.allow c w).2.keys)

/-- The sweep of this call finds a slot that is over, or the call's own is. -/
def Finds (o : LimiterOptions) (c : Allow κ) (w : Windows κ) : Prop :=
  (∃ e ∈ w.entries.take o.budget, o.elapsed c.now e.2 = true) ∨
    ∃ slot, w.get c.key = some slot ∧ o.elapsed c.now slot = true

theorem swept_of_full (h : o.sweepThreshold ≤ w.size) (now : ℤ) :
    o.swept now w = o.sweepExpired now w := if_pos h

/-- Of the first keys only those are left whose slots are not over. -/
theorem live_of_mem_keys (hk : k ∈ w.keys.take o.budget) {now : ℤ}
    (hswept : (o.sweepExpired now w).get k = some slot) : o.elapsed now slot = false := by
  rw [OrderedMap.keys, ← List.map_take] at hk
  obtain ⟨e, he, rfl⟩ := List.mem_map.mp hk
  rw [OrderedMap.get_eq_some] at hswept
  have hmem := (sublist_sweepExpired w).subset hswept
  have hslot : e.2 = slot := by
    have h := OrderedMap.get_eq_some.mpr hmem
    rw [OrderedMap.get_eq_some.mpr (show (e.1, e.2) ∈ w.entries from List.mem_of_mem_take he)] at h
    exact Option.some.inj h
  subst hslot
  exact live_of_mem_take he hswept

/-- A call at the threshold removes a slot exactly if its sweep finds one. -/
theorem removes_iff (hfull : o.sweepThreshold ≤ w.size) : Removes o c w ↔ Finds o c w := by
  constructor
  · rintro ⟨e, he, hover, hown | hgone⟩
    · exact .inr ⟨e.2, OrderedMap.get_eq_some.mpr (hown ▸ he), hover⟩
    · have hdeleted : e ∉ (o.sweepExpired c.now w).entries := by
        intro hmem
        have hkey : e.1 ∈ (o.swept c.now w).keys := by
          rw [swept_of_full hfull]
          exact List.mem_map_of_mem hmem
        apply hgone
        rw [allow, keys_count]
        split_ifs
        · exact hkey
        · exact List.mem_append_left _ hkey
      exact .inl ⟨e, (of_not_mem_sweepExpired he hdeleted).1, hover⟩
  · rintro (⟨e, he, hover⟩ | ⟨slot, hslot, hover⟩)
    · refine ⟨e, List.mem_of_mem_take he, hover, or_iff_not_imp_left.mpr fun hown hmem => ?_⟩
      have hkey : e.1 ∈ (o.swept c.now w).keys := by
        rw [allow, keys_count] at hmem
        split_ifs at hmem
        · exact hmem
        · exact (List.mem_append.mp hmem).resolve_right fun h => hown (List.mem_singleton.mp h)
      obtain ⟨slot, hslot⟩ := OrderedMap.mem_keys.mp hkey
      rw [swept_of_full hfull] at hslot
      have hlive := live_of_mem_keys (by
        rw [OrderedMap.keys, ← List.map_take]
        exact List.mem_map_of_mem he) hslot
      have hw := (sublist_sweepExpired w).subset (OrderedMap.get_eq_some.mp hslot)
      rw [← OrderedMap.get_eq_some, OrderedMap.get_eq_some.mpr
        (show (e.1, e.2) ∈ w.entries from List.mem_of_mem_take he)] at hw
      rw [← Option.some.inj hw, hover] at hlive
      cases hlive
    · exact ⟨(c.key, slot), OrderedMap.get_eq_some.mp hslot, hover, .inl rfl⟩

/-! ### Rounds -/

/-- Some keys of the map at the start, in their order, and then newer ones: `front` and
`back` are those that have been in it since. No slot of the front has been renewed since
`t`; whatever has left was over, and so was what has been renewed. -/
structure Standing (o : LimiterOptions) (start : Windows κ) (t : ℤ) (front back fresh : List κ)
    (clock : ℤ) (w : Windows κ) : Prop where
  keys : w.keys = front ++ back ++ fresh
  early : ∀ k ∈ front, ∀ slot, w.get k = some slot → slot.windowStart ≤ t
  past : ∀ k slot, w.get k = some slot → slot.windowStart ≤ clock
  stays : ∀ k ∈ front ++ back, ∀ slot₀ slot, start.get k = some slot₀ → w.get k = some slot →
    slot₀.windowStart ≤ slot.windowStart
  left : ∀ k, k ∉ front ++ back → ∀ slot₀, start.get k = some slot₀ →
    slot₀.windowStart + o.windowMs ≤ clock ∧
      ∀ slot, w.get k = some slot → slot₀.windowStart + o.windowMs ≤ slot.windowStart

variable {start : Windows κ} {t clock later : ℤ} {front back fresh : List κ}

/-- The sweep of a full map keeps what stands standing; once a window has passed since
`t`, nothing is left of the front. -/
theorem Standing.swept (h : Standing o start t front back fresh clock w)
    (hfront : front.length ≤ o.budget) (hfull : o.sweepThreshold ≤ w.size)
    (hlater : clock ≤ later) :
    ∃ front' back' fresh', front'.Sublist front ∧ back'.Sublist back ∧
      Standing o start t front' back' fresh' later (o.swept later w) ∧
      (∀ k ∈ front', ∀ slot, (o.swept later w).get k = some slot → o.elapsed later slot = false) ∧
      (t + o.windowMs ≤ later → front' = []) := by
  have hsub : (o.swept later w).keys.Sublist (front ++ back ++ fresh) :=
    h.keys ▸ (sublist_swept w).map Prod.fst
  obtain ⟨rest, fresh', hkeys, hrest, hfresh'⟩ := List.sublist_append_iff.mp hsub
  obtain ⟨front', back', rfl, hfront', hback'⟩ := List.sublist_append_iff.mp hrest
  have hlive : ∀ k ∈ front', ∀ slot, (o.swept later w).get k = some slot →
      o.elapsed later slot = false := by
    intro k hk slot hslot
    have hmem : k ∈ w.keys.take o.budget := by
      rw [h.keys, List.append_assoc, List.take_append, List.take_of_length_le hfront]
      exact List.mem_append_left _ (hfront'.subset hk)
    exact live_of_mem_keys hmem (swept_of_full hfull later ▸ hslot)
  have hstanding : Standing o start t front' back' fresh' later (o.swept later w) := by
    refine ⟨hkeys, fun k hk slot hslot => ?_, fun k slot hslot => ?_,
      fun k hk slot₀ slot hslot₀ hslot => ?_, fun k hk slot₀ hslot₀ => ?_⟩
    · exact h.early k (hfront'.subset hk) slot (get_of_get_swept hslot)
    · exact (h.past k slot (get_of_get_swept hslot)).trans hlater
    · exact h.stays k (hrest.subset hk) slot₀ slot hslot₀ (get_of_get_swept hslot)
    · by_cases hstood : k ∈ front ++ back
      · -- `k` has just been swept, so its slot was over
        obtain ⟨slot, hslot⟩ := OrderedMap.mem_keys.mp (h.keys ▸ List.mem_append_left fresh hstood)
        have hgone : (o.swept later w).get k = none := by
          rw [OrderedMap.get_eq_none, hkeys, List.mem_append, not_or]
          refine ⟨hk, fun hmem => ?_⟩
          have hn : (front ++ back ++ fresh).Nodup := h.keys ▸ w.nodup
          exact (List.nodup_append.mp hn).2.2 k hstood k (hfresh'.subset hmem) rfl
        have hover : o.elapsed later slot = true := by
          by_contra hlive
          rw [get_swept hslot (by simpa using hlive)] at hgone
          cases hgone
        have hstay := h.stays k hstood slot₀ slot hslot₀ hslot
        rw [elapsed_iff] at hover
        refine ⟨by omega, fun slot' hslot' => ?_⟩
        rw [hgone] at hslot'
        cases hslot'
      · obtain ⟨hover, hnew⟩ := h.left k hstood slot₀ hslot₀
        exact ⟨hover.trans hlater, fun slot hslot => hnew slot (get_of_get_swept hslot)⟩
  refine ⟨front', back', fresh', hfront', hback', hstanding, hlive, fun hpast => ?_⟩
  refine List.eq_nil_iff_forall_not_mem.mpr fun k hk => ?_
  have hmem : k ∈ (o.swept later w).keys := by
    rw [hkeys]
    exact List.mem_append_left _ (List.mem_append_left _ hk)
  obtain ⟨slot, hslot⟩ := OrderedMap.mem_keys.mp hmem
  have hstart := hstanding.early k hk slot hslot
  have := not_elapsed_iff.mp (hlive k hk slot hslot)
  omega

/-- A call's slot starts now, or is one that is not over. -/
theorem next_windowStart {now limit : ℤ} (s : Option Slot) :
    ((o.next now limit s).2.windowStart = now ∧ ∀ slot, s = some slot → o.elapsed now slot = true) ∨
      ∃ slot, s = some slot ∧ (o.next now limit s).2.windowStart = slot.windowStart := by
  cases s with
  | none => exact .inl ⟨rfl, by simp⟩
  | some slot =>
    rw [next]
    split_ifs with hover hfull
    · exact .inl ⟨rfl, by simpa using hover⟩
    · exact .inr ⟨slot, rfl, rfl⟩
    · exact .inr ⟨slot, rfl, rfl⟩

/-- A slot after the counter is one from before it, or starts now. -/
theorem get_count (hslot : (o.count c w).2.get k = some slot) :
    (slot.windowStart = c.now ∧ ∀ old, w.get k = some old → o.elapsed c.now old = true) ∨
      ∃ old, w.get k = some old ∧ slot.windowStart = old.windowStart := by
  by_cases hk : k = c.key
  · subst hk
    rw [get_count_self] at hslot
    obtain rfl := Option.some.inj hslot
    exact next_windowStart _
  · rw [get_count_of_ne hk] at hslot
    exact .inr ⟨slot, hslot, rfl⟩

/-- The counter leaves what stands standing. -/
theorem Standing.count (h : Standing o start t front back fresh c.now w)
    (hlive : ∀ k ∈ front, ∀ slot, w.get k = some slot → o.elapsed c.now slot = false) :
    ∃ fresh', Standing o start t front back fresh' c.now (o.count c w).2 := by
  have hkeys : ∃ fresh', (o.count c w).2.keys = front ++ back ++ fresh' := by
    rw [keys_count, h.keys]
    split_ifs
    · exact ⟨fresh, rfl⟩
    · exact ⟨fresh ++ [c.key], List.append_assoc ..⟩
  obtain ⟨fresh', hkeys⟩ := hkeys
  refine ⟨fresh', hkeys, fun k hk slot hslot => ?_, fun k slot hslot => ?_,
    fun k hk slot₀ slot hslot₀ hslot => ?_, fun k hk slot₀ hslot₀ => ?_⟩
  · rcases get_count hslot with ⟨-, hover⟩ | ⟨old, hold, hstart⟩
    · obtain ⟨old, hold⟩ := OrderedMap.mem_keys.mp
        (h.keys ▸ List.mem_append_left fresh (List.mem_append_left back hk))
      have := hover old hold
      rw [hlive k hk old hold] at this
      cases this
    · rw [hstart]
      exact h.early k hk old hold
  · rcases get_count hslot with ⟨hnow, -⟩ | ⟨old, hold, hstart⟩
    · exact hnow.le
    · rw [hstart]
      exact h.past k old hold
  · obtain ⟨old, hold⟩ := OrderedMap.mem_keys.mp (h.keys ▸ List.mem_append_left fresh hk)
    have hstay := h.stays k hk slot₀ old hslot₀ hold
    rcases get_count hslot with ⟨hnow, -⟩ | ⟨old', hold', hstart⟩
    · rw [hnow]
      exact hstay.trans (h.past k old hold)
    · rw [hstart]
      exact h.stays k hk slot₀ old' hslot₀ hold'
  · obtain ⟨hover, hnew⟩ := h.left k hk slot₀ hslot₀
    refine ⟨hover, fun slot hslot => ?_⟩
    rcases get_count hslot with ⟨hnow, -⟩ | ⟨old, hold, hstart⟩
    · rw [hnow]
      exact hover
    · rw [hstart]
      exact hnew old hold

/-- What a call at the threshold leaves of what stands. -/
theorem Standing.allow (h : Standing o start t front back fresh clock w)
    (hfront : front.length ≤ o.budget) (hfull : o.sweepThreshold ≤ w.size) (hnow : clock ≤ c.now) :
    ∃ front' back' fresh', front'.Sublist front ∧ back'.Sublist back ∧
      Standing o start t front' back' fresh' c.now (o.allow c w).2 ∧
      (t + o.windowMs ≤ c.now → front' = []) := by
  obtain ⟨front', back', fresh', hf, hb, hswept, hlive, hpast⟩ := h.swept hfront hfull hnow
  obtain ⟨fresh'', hcount⟩ := hswept.count hlive
  exact ⟨front', back', fresh'', hf, hb, hcount, hpast⟩

/-- The map is at its threshold when the call comes. -/
def Full (o : LimiterOptions) (w : Windows κ) (_ : Allow κ) : Prop := o.sweepThreshold ≤ w.size

/-- The last call of each round comes a window or more after that of the round before it. -/
def Rounds (o : LimiterOptions) : ℤ → List (List (Allow κ)) → Prop
  | _, [] => True
  | t, r :: rs => ∃ c, r.getLast? = some c ∧ t + o.windowMs ≤ c.now ∧ Rounds o c.now rs

theorem Standing.run {cs : List (Allow κ)} (h : Standing o start t front back fresh clock w)
    (hfront : front.length ≤ o.budget) (hcs : Nondecreasing cs) (hclock : ∀ c ∈ cs, clock ≤ c.now)
    (hfull : Allowed (fun w c => (o.allow c w).2) (Full o) w cs) :
    ∃ front' back' fresh' clock', front'.Sublist front ∧ back'.Sublist back ∧
      Standing o start t front' back' fresh' clock' (windowsAfter o.allow w cs) ∧
      (clock' = clock ∨ ∃ c ∈ cs, clock' = c.now) := by
  induction cs generalizing front back fresh clock w with
  | nil => exact ⟨front, back, fresh, clock, .refl _, .refl _, h, .inl rfl⟩
  | cons c cs ih =>
    obtain ⟨hle, hcs⟩ := List.pairwise_cons.mp hcs
    obtain ⟨f₁, b₁, fresh₁, hf₁, hb₁, h₁, -⟩ := h.allow hfront hfull.1 (hclock c List.mem_cons_self)
    obtain ⟨f₂, b₂, fresh₂, clock', hf₂, hb₂, h₂, hclock'⟩ :=
      ih h₁ (hf₁.length_le.trans hfront) hcs hle hfull.2
    refine ⟨f₂, b₂, fresh₂, clock', hf₂.trans hf₁, hb₂.trans hb₁, h₂, .inr ?_⟩
    rcases hclock' with rfl | ⟨d, hd, rfl⟩
    · exact ⟨c, List.mem_cons_self, rfl⟩
    · exact ⟨d, List.mem_cons_of_mem c hd, rfl⟩

/-- After a round, none of the first keys stands. -/
theorem Standing.round {cs : List (Allow κ)} (h : Standing o start t [] back fresh clock w)
    (hcs : Nondecreasing (cs ++ [c])) (hclock : ∀ d ∈ cs ++ [c], clock ≤ d.now)
    (hfull : Allowed (fun w c => (o.allow c w).2) (Full o) w (cs ++ [c]))
    (hlast : clock + o.windowMs ≤ c.now) :
    ∃ back' fresh', back'.Sublist (back.drop o.budget) ∧
      Standing o start clock [] back' fresh' c.now (windowsAfter o.allow w (cs ++ [c])) := by
  have hsplit : Standing o start clock (back.take o.budget) (back.drop o.budget) fresh clock w := by
    refine ⟨?_, fun k _ slot hslot => h.past k slot hslot, h.past, ?_, ?_⟩
    · rw [List.take_append_drop, h.keys, List.nil_append]
    · rw [List.take_append_drop]
      exact h.stays
    · rw [List.take_append_drop]
      exact h.left
  obtain ⟨hcs, -, hle⟩ := List.pairwise_append.mp hcs
  obtain ⟨hfull, hlastFull⟩ := Allowed.append.mp hfull
  obtain ⟨f₁, b₁, fresh₁, clock₁, hf₁, hb₁, h₁, hclock₁⟩ := hsplit.run (List.length_take_le _ _) hcs
    (fun d hd => hclock d (List.mem_append_left _ hd)) hfull
  have hbefore : clock₁ ≤ c.now := by
    rcases hclock₁ with rfl | ⟨d, hd, rfl⟩
    · exact hclock c (by simp)
    · exact hle d hd c (by simp)
  obtain ⟨f₂, b₂, fresh₂, -, hb₂, h₂, hgone⟩ :=
    h₁.allow (hf₁.length_le.trans (List.length_take_le _ _)) hlastFull.1 hbefore
  rw [hgone hlast] at h₂
  refine ⟨b₂, fresh₂, hb₂.trans hb₁, ?_⟩
  rw [windowsAfter, List.foldl_append]
  exact h₂

theorem Standing.rounds {rs : List (List (Allow κ))}
    (h : Standing o start t [] back fresh clock w) (hcs : Nondecreasing rs.flatten)
    (hclock : ∀ c ∈ rs.flatten, clock ≤ c.now)
    (hfull : Allowed (fun w c => (o.allow c w).2) (Full o) w rs.flatten) (hrs : Rounds o clock rs) :
    ∃ t' back' fresh' clock', back'.Sublist (back.drop (rs.length * o.budget)) ∧
      Standing o start t' [] back' fresh' clock' (windowsAfter o.allow w rs.flatten) := by
  induction rs generalizing t back fresh clock w with
  | nil => exact ⟨t, back, fresh, clock, by simp, h⟩
  | cons r rs ih =>
    obtain ⟨c, hc, hlast, hrs⟩ := hrs
    obtain ⟨init, rfl⟩ := List.getLast?_eq_some_iff.mp hc
    rw [List.flatten_cons] at hcs hclock hfull
    obtain ⟨hinit, hrest, hle⟩ := List.pairwise_append.mp hcs
    obtain ⟨hfull, hrestFull⟩ := Allowed.append.mp hfull
    obtain ⟨b₁, fresh₁, hb₁, h₁⟩ := h.round hinit
      (fun d hd => hclock d (List.mem_append_left _ hd)) hfull hlast
    obtain ⟨t', b₂, fresh₂, clock', hb₂, h₂⟩ :=
      ih h₁ hrest (fun d hd => hle c (by simp) d hd) hrestFull hrs
    refine ⟨t', b₂, fresh₂, clock', hb₂.trans ((hb₁.drop _).trans ?_), ?_⟩
    · rw [List.drop_drop, List.length_cons, Nat.succ_mul, Nat.add_comm]
    · rw [List.flatten_cons, windowsAfter, List.foldl_append]
      exact h₂

/-- No slot starts later than the last call. -/
theorem windowStart_le {cs : List (Allow κ)} (ht : ∀ c ∈ cs, c.now ≤ t)
    (hslot : (windowsAfter o.allow .empty cs).get k = some slot) : slot.windowStart ≤ t := by
  induction cs using List.reverseRecOn generalizing k slot with
  | nil => cases hslot
  | append_singleton cs c ih =>
    rw [windowsAfter, List.foldl_append] at hslot
    rcases get_count hslot with ⟨hnow, -⟩ | ⟨old, hold, hstart⟩
    · rw [hnow]
      exact ht c (by simp)
    · rw [hstart]
      exact ih (fun d hd => ht d (List.mem_append_left _ hd)) (get_of_get_swept hold)

/-- **Progress of the sweep.** In every state reached, a call at the threshold removes a slot
that is over exactly if one is among the first `sweepBudget` slots or is the call's own.
And whatever the calls are: while they find the map at the threshold and come in rounds
that end a window or more apart, `n` rounds are the end of the first `n * sweepBudget` slots,
so that a key of theirs is gone or has a slot of a later window. -/
theorem sweep_progress (o : LimiterOptions) (cs : List (Allow κ)) (t : ℤ)
    (ht : ∀ c ∈ cs, c.now ≤ t) :
    (∀ c : Allow κ, o.sweepThreshold ≤ (windowsAfter o.allow .empty cs).size →
        (Removes o c (windowsAfter o.allow .empty cs) ↔
          Finds o c (windowsAfter o.allow .empty cs))) ∧
      ∀ rs : List (List (Allow κ)), Nondecreasing rs.flatten → (∀ c ∈ rs.flatten, t ≤ c.now) →
        Allowed (fun w c => (o.allow c w).2) (Full o) (windowsAfter o.allow .empty cs) rs.flatten →
        Rounds o t rs →
          ∀ e ∈ (windowsAfter o.allow .empty cs).entries.take (rs.length * o.budget),
            ∀ slot, (windowsAfter o.allow .empty (cs ++ rs.flatten)).get e.1 = some slot →
              e.2.windowStart + o.windowMs ≤ slot.windowStart := by
  refine ⟨fun c hfull => removes_iff hfull, fun rs hrs hclock hfull hrounds e he slot hslot => ?_⟩
  have hstart : Standing o (windowsAfter o.allow .empty cs) t [] (windowsAfter o.allow .empty cs).keys
      [] t (windowsAfter o.allow .empty cs) := by
    refine ⟨by simp, by simp, fun k slot hslot => windowStart_le ht hslot,
      fun k _ slot₀ slot h₀ h => ?_, fun k hk slot₀ h₀ => ?_⟩
    · rw [Option.some.inj (h₀.symm.trans h)]
    · exact absurd (OrderedMap.mem_keys.mpr ⟨slot₀, h₀⟩) hk
  obtain ⟨t', back, fresh, clock, hback, h⟩ := hstart.rounds hrs hclock hfull hrounds
  have hgone : e.1 ∉ [] ++ back := by
    intro hmem
    have hn := (windowsAfter o.allow .empty cs).nodup
    rw [← OrderedMap.keys, ← List.take_append_drop (rs.length * o.budget) (OrderedMap.keys _),
      List.nodup_append] at hn
    refine hn.2.2 e.1 ?_ e.1 (hback.subset hmem) rfl
    rw [OrderedMap.keys, ← List.map_take]
    exact List.mem_map_of_mem he
  rw [windowsAfter, List.foldl_append] at hslot
  exact (h.left e.1 hgone e.2 (OrderedMap.get_eq_some.mpr (List.mem_of_mem_take he))).2 slot hslot

/-- A sweep that looks at one slot. -/
def oneSlot : LimiterOptions := ⟨10, 3, 1⟩

/-- The first key is renewed in its place while the map is below the threshold; the second
key's slot is over when the last call comes. -/
def renewedInPlace : List (Allow ℕ) := [⟨0, 1, 5⟩, ⟨1, 2, 5⟩, ⟨10, 1, 5⟩, ⟨11, 3, 5⟩]

/-- A round of two calls is the end of the first slot. -/
theorem sweep_progress_renewed :
    (Removes oneSlot ⟨11, 4, 5⟩ (windowsAfter oneSlot.allow .empty renewedInPlace) ↔
        Finds oneSlot ⟨11, 4, 5⟩ (windowsAfter oneSlot.allow .empty renewedInPlace)) ∧
      ∀ slot, (windowsAfter oneSlot.allow .empty
          (renewedInPlace ++ [[⟨11, 4, 5⟩, ⟨21, 1, 5⟩]].flatten)).get 1 = some slot →
        10 + 10 ≤ slot.windowStart := by
  have h := sweep_progress oneSlot renewedInPlace 11 (by decide)
  refine ⟨h.1 ⟨11, 4, 5⟩ (by decide), ?_⟩
  exact h.2 [[⟨11, 4, 5⟩, ⟨21, 1, 5⟩]] (by unfold Nondecreasing; decide) (by decide)
    (by simp only [Allowed, Full, List.flatten_cons, List.flatten_nil, List.append_nil]; decide)
    ⟨⟨21, 1, 5⟩, rfl, by decide, trivial⟩ (1, ⟨10, 1⟩) (by decide)

/-- A slot that is over stays when the one before it has been renewed. -/
theorem sweep_stalls : ¬∀ (o : LimiterOptions) (cs : List (Allow ℕ)) (c : Allow ℕ),
    Nondecreasing (cs ++ [c]) → o.sweepThreshold ≤ (windowsAfter o.allow .empty cs).size →
      (∃ e ∈ (windowsAfter o.allow .empty cs).entries, o.elapsed c.now e.2 = true) →
        Removes o c (windowsAfter o.allow .empty cs) := by
  intro h
  have h := h oneSlot renewedInPlace ⟨11, 4, 5⟩ (by unfold Nondecreasing; decide) (by decide)
    (by decide)
  revert h
  unfold Removes
  decide

end Haechi.Proxy
