import Haechi.Crypto.NonceWindow

/-! The nonce budget over runs. As long as no step goes back, what is used under a key
and what is about to be used stay below the window in memory, the window below the
usage in the file, and the usage below the limit. Two calls that both find the window
used up can go back: the second one reads the file before the first one writes it, and
installs a window that has been used already. -/

namespace Haechi.Crypto

variable {κ : Type} [DecidableEq κ]

/-! ### The key file -/

theorem usageOf_cons (e : KeyEntry κ) (keys : List (KeyEntry κ)) (kid : κ) :
    usageOf (e :: keys) kid = if e.kid = kid then e.usage.getD 0 else usageOf keys kid := by
  by_cases h : e.kid = kid <;> simp [usageOf, entryOf, h]

theorem usageOf_setUsage_of_ne {kid kid' : κ} (h : kid' ≠ kid) (u : ℕ)
    (keys : List (KeyEntry κ)) : usageOf (setUsage kid u keys) kid' = usageOf keys kid' := by
  induction keys with
  | nil => rfl
  | cons e es ih =>
    rw [setUsage]
    split
    · rename_i he
      rw [usageOf_cons, usageOf_cons, if_neg (by simpa [he] using h.symm),
        if_neg (by simpa [he] using h.symm)]
    · rw [usageOf_cons, usageOf_cons, ih]

theorem usageOf_setUsage_self {kid : κ} {keys : List (KeyEntry κ)} {e : KeyEntry κ}
    (h : entryOf keys kid = some e) (u : ℕ) : usageOf (setUsage kid u keys) kid = u := by
  induction keys with
  | nil => cases h
  | cons e' es ih =>
    rw [setUsage]
    split
    · rename_i he
      rw [usageOf_cons, if_pos he]
      rfl
    · rename_i he
      rw [usageOf_cons, if_neg he]
      refine ih ?_
      simpa [entryOf, he] using h

theorem activeKid_setUsage (kid : κ) (u : ℕ) (keys : List (KeyEntry κ)) :
    activeKid (setUsage kid u keys) = activeKid keys := by
  have hfind : ∀ keys : List (KeyEntry κ),
      ((setUsage kid u keys).find? KeyEntry.active).map KeyEntry.kid =
        (keys.find? KeyEntry.active).map KeyEntry.kid := by
    intro keys
    induction keys with
    | nil => rfl
    | cons e es ih =>
      rw [setUsage]
      by_cases ha : e.active <;> split <;> simp [ha, ih]
  have hhead : (setUsage kid u keys).head?.map KeyEntry.kid = keys.head?.map KeyEntry.kid := by
    cases keys with
    | nil => rfl
    | cons e es =>
      rw [setUsage]
      split <;> rfl
  rw [activeKid, activeKid, Option.map_or, Option.map_or, hfind, hhead]

theorem usageOf_eq_zero {kid : κ} {keys : List (KeyEntry κ)}
    (h : kid ∉ keys.map KeyEntry.kid) : usageOf keys kid = 0 := by
  induction keys with
  | nil => rfl
  | cons e es ih =>
    rw [List.map_cons, List.mem_cons, not_or] at h
    rw [usageOf_cons, if_neg (Ne.symm h.1), ih h.2]

/-- A rotation keeps every usage. -/
theorem usageOf_rotated {kid : κ} {keys : List (KeyEntry κ)} (h : kid ∉ keys.map KeyEntry.kid)
    (kid' : κ) : usageOf (rotated kid keys) kid' = usageOf keys kid' := by
  have hmap : usageOf (keys.map fun e => { e with active := false }) kid' = usageOf keys kid' := by
    clear h
    induction keys with
    | nil => rfl
    | cons e es ih => rw [List.map_cons, usageOf_cons, usageOf_cons, ih]
  rw [rotated, usageOf_cons, hmap]
  split
  · rename_i he
    rw [← show kid = kid' from he, usageOf_eq_zero h]
    rfl
  · rfl

/-! ### The invariant -/

/-- The calls that are about to draw an IV. -/
def Process.drawing (p : Process κ) : ℕ := p.calls.countP Phase.isDrawing

section Invariant

variable (keys : List (KeyEntry κ)) (spent : κ → ℕ) (p : Process κ)

/-- What a window still means to write or to install. -/
structure Pending (raw : List (KeyEntry κ)) (window : Reservation κ) : Prop where
  cached : p.cached = some window.kid
  used : window.used = 0
  usage : window.base + window.granted ≤ usageOf raw window.kid
  spent : p.reservation = none → spent window.kid ≤ window.base

/-- What holds of a call in each phase. -/
def CallInv : Phase κ → Prop
  | .loading | .done => True
  | .loaded kid | .reading kid | .resuming kid | .drawing kid => p.cached = some kid
  | .writing raw window | .truncated raw window =>
    Pending spent p raw window ∧ activeKid raw = some window.kid ∧
      ∀ kid, usageOf raw kid ≤ maxEncryptionsPerKey
  | .written window => Pending spent p keys window

/-- What holds of the window in memory. -/
structure WindowInv (r : Reservation κ) : Prop where
  cached : p.cached = some r.kid
  used : r.used ≤ r.granted
  usage : r.base + r.granted ≤ usageOf keys r.kid
  spent : spent r.kid + p.drawing ≤ r.base + r.used

structure ProcessInv : Prop where
  persists : p.persistDisabled = false
  active : ∀ kid, p.cached = some kid → activeKid keys = some kid
  window : ∀ r, p.reservation = some r → WindowInv keys spent p r
  idle : p.reservation = none → p.drawing = 0
  calls : ∀ ph ∈ p.calls, CallInv keys spent p ph

end Invariant

structure Inv (s : State κ) : Prop where
  spent : ∀ kid, s.spent kid ≤ usageOf s.keys kid
  usage : ∀ kid, usageOf s.keys kid ≤ maxEncryptionsPerKey
  process : ∀ p, s.process = some p → ProcessInv s.keys s.spent p

theorem inv_init : Inv (State.init : State κ) where
  spent := fun _ => Nat.zero_le _
  usage := fun _ => Nat.zero_le _
  process := by simp [State.init]

/-! ### What one call preserves -/

section Calls

variable {keys keys' : List (KeyEntry κ)} {spent spent' : κ → ℕ} {p p' : Process κ} {i : ℕ}
  {ph ph' : Phase κ}

/-- A call keeps what it has while the others write, draw and install. -/
theorem CallInv.mono (h : CallInv keys spent p ph)
    (hcached : ∀ kid, p.cached = some kid → p'.cached = some kid)
    (husage : ∀ kid, usageOf keys kid ≤ usageOf keys' kid)
    (hspent : p'.reservation = none → p.reservation = none ∧ spent' = spent) :
    CallInv keys' spent' p' ph := by
  have hpending : ∀ {raw raw' window}, (∀ kid, usageOf raw kid ≤ usageOf raw' kid) →
      Pending spent p raw window → Pending spent' p' raw' window := by
    intro raw raw' window hle hw
    refine ⟨hcached _ hw.cached, hw.used, hw.usage.trans (hle _), fun hnone => ?_⟩
    obtain ⟨hres, rfl⟩ := hspent hnone
    exact hw.spent hres
  cases ph with
  | loading => trivial
  | done => trivial
  | loaded kid => exact hcached _ h
  | reading kid => exact hcached _ h
  | resuming kid => exact hcached _ h
  | drawing kid => exact hcached _ h
  | writing raw window => exact ⟨hpending (fun _ => le_rfl) h.1, h.2⟩
  | truncated raw window => exact ⟨hpending (fun _ => le_rfl) h.1, h.2⟩
  | written window => exact hpending husage h

omit [DecidableEq κ] in
variable (ph') in
/-- One call drops out of its phase into another. -/
theorem drawing_enter (hi : p.calls[i]? = some ph) :
    (p.enter i ph').drawing + (if ph.isDrawing then 1 else 0) =
      p.drawing + (if ph'.isDrawing then 1 else 0) := by
  obtain ⟨hlt, hget⟩ := List.getElem?_eq_some_iff.mp hi
  have hcount := List.countP_set (p := Phase.isDrawing) (a := ph') hlt
  have hpos : ph.isDrawing = true → 0 < p.calls.countP Phase.isDrawing := fun h =>
    List.countP_pos_iff.mpr ⟨ph, List.mem_of_getElem? hi, h⟩
  rw [hget] at hcount
  rw [Process.drawing, Process.drawing, Process.enter, hcount]
  cases hd : ph.isDrawing
  · simp
  · have := hpos hd
    simp only [if_true]
    omega

omit [DecidableEq κ] in
theorem drawing_enter_of (hi : p.calls[i]? = some ph) (hd : ph.isDrawing = false) :
    (p.enter i ph').drawing = p.drawing + (if ph'.isDrawing then 1 else 0) := by
  simpa only [hd, Bool.false_eq_true, if_false, Nat.add_zero] using drawing_enter ph' hi

theorem calls_enter (h : ∀ ph ∈ p.calls, CallInv keys' spent' p' ph)
    (hc : CallInv keys' spent' p' ph') : ∀ ph ∈ (p.enter i ph').calls, CallInv keys' spent' p' ph :=
  fun ph hph => (List.mem_or_eq_of_mem_set hph).elim (h ph) fun heq => heq ▸ hc

/-- A call moves on, and nothing else changes. -/
theorem ProcessInv.enter (h : ProcessInv keys spent p) (hi : p.calls[i]? = some ph)
    (hd : ph.isDrawing = false) (hd' : ph'.isDrawing = false) (hc : CallInv keys spent p ph') :
    ProcessInv keys spent (p.enter i ph') := by
  have hdrawing : (p.enter i ph').drawing = p.drawing := by
    rw [drawing_enter_of hi hd, hd']
    rfl
  have hmono : ∀ ph, CallInv keys spent p ph → CallInv keys spent (p.enter i ph') ph :=
    fun ph hph => hph.mono (fun _ h => h) (fun _ => le_rfl) fun h => ⟨h, rfl⟩
  refine ⟨h.persists, h.active, fun r hr => ?_, fun hnone => hdrawing.trans (h.idle hnone),
    calls_enter (fun ph hph => hmono ph (h.calls ph hph)) (hmono _ hc)⟩
  have hw := h.window r hr
  exact ⟨hw.cached, hw.used, hw.usage, hdrawing ▸ hw.spent⟩

/-- An index is taken from a window that has one left. -/
theorem ProcessInv.consume (h : ProcessInv keys spent p) (hi : p.calls[i]? = some ph)
    (hd : ph.isDrawing = false) {kid : κ} (hkid : p.cached = some kid)
    (hleft : ∀ r ∈ p.reservation, r.used < r.granted) :
    ProcessInv keys spent (p.consume i kid) := by
  rw [Process.consume]
  split
  · exact h.enter hi hd rfl trivial
  rename_i r hr
  split
  · exact h.enter hi hd rfl trivial
  have hw := h.window r hr
  have hdrawing : (p.enter i (.drawing kid)).drawing = p.drawing + 1 :=
    drawing_enter_of hi hd
  refine ⟨h.persists, h.active, ?_, by simp, calls_enter (fun ph hph => ?_) hkid⟩
  · rintro _ ⟨⟩
    refine ⟨hw.cached, hleft r hr, hw.usage, ?_⟩
    show spent r.kid + (p.enter i (.drawing kid)).drawing ≤ r.base + (r.used + 1)
    have := hw.spent
    omega
  · exact (h.calls ph hph).mono (fun _ h => h) (fun _ => le_rfl) (by simp)

/-- The file is read for the first time. -/
theorem ProcessInv.load (h : ProcessInv keys spent p) (hi : p.calls[i]? = some ph)
    (hd : ph.isDrawing = false) : ProcessInv keys spent (p.load i keys) := by
  rw [Process.load]
  split
  · exact h.enter hi hd rfl trivial
  rename_i kid hkid
  have hcached : ∀ kid', p.cached = some kid' → some kid = some kid' := fun kid' hkid' => by
    rw [← hkid, h.active kid' hkid']
  have hdrawing : (p.enter i (.loaded kid)).drawing = p.drawing :=
    drawing_enter_of hi hd
  refine ⟨h.persists, fun kid' hkid' => hkid.trans hkid', fun r hr => ?_,
    fun hnone => hdrawing.trans (h.idle hnone), calls_enter (fun ph hph => ?_) rfl⟩
  · have hw := h.window r hr
    exact ⟨hcached _ hw.cached, hw.used, hw.usage, hdrawing ▸ hw.spent⟩
  · exact (h.calls ph hph).mono hcached (fun _ => le_rfl) fun h => ⟨h, rfl⟩

/-- The file is read for a window. -/
theorem ProcessInv.reserveFrom (h : ProcessInv keys spent p) (hi : p.calls[i]? = some ph)
    (hd : ph.isDrawing = false) {kid : κ} (hkid : p.cached = some kid)
    (hspent : ∀ kid, spent kid ≤ usageOf keys kid)
    (husage : ∀ kid, usageOf keys kid ≤ maxEncryptionsPerKey) :
    ProcessInv keys spent (p.reserveFrom i kid keys) := by
  rw [Process.reserveFrom]
  split
  · exact h.enter hi hd rfl trivial
  rename_i e he
  have hself := usageOf_setUsage_self he
    ((windowAt kid (usageOf keys kid)).base + (windowAt kid (usageOf keys kid)).granted)
  simp only [h.persists, Bool.false_eq_true, if_false]
  split
  · exact h.enter hi hd rfl trivial
  refine h.enter hi hd rfl ⟨⟨hkid, rfl, hself.ge, fun _ => hspent kid⟩, ?_, fun kid' => ?_⟩
  · rw [activeKid_setUsage]
    exact h.active kid hkid
  · by_cases heq : kid' = kid
    · rw [heq, hself]
      have := husage kid
      simp only [windowAt]
      omega
    · rw [usageOf_setUsage_of_ne heq]
      exact husage kid'

/-- The file is written. -/
theorem ProcessInv.write {raw : List (KeyEntry κ)} {window : Reservation κ}
    (h : ProcessInv keys spent p) (hi : p.calls[i]? = some (.truncated raw window))
    (hle : ∀ kid, usageOf keys kid ≤ usageOf raw kid) :
    ProcessInv raw spent (p.enter i (.written window)) := by
  obtain ⟨hpending, hactive, -⟩ := h.calls _ (List.mem_of_getElem? hi)
  have hdrawing : (p.enter i (.written window)).drawing = p.drawing :=
    drawing_enter_of hi rfl
  refine ⟨h.persists, fun kid hkid => ?_, fun r hr => ?_,
    fun hnone => hdrawing.trans (h.idle hnone), calls_enter (fun ph hph => ?_) ?_⟩
  · rw [hactive, ← hkid, ← hpending.cached]
    rfl
  · have hw := h.window r hr
    exact ⟨hw.cached, hw.used, hw.usage.trans (hle _), hdrawing ▸ hw.spent⟩
  · exact (h.calls ph hph).mono (fun _ h => h) hle fun h => ⟨h, rfl⟩
  · exact ⟨hpending.cached, hpending.used, hpending.usage, hpending.spent⟩

/-- A window is installed behind what is used in memory. -/
theorem ProcessInv.install {window : Reservation κ} (h : ProcessInv keys spent p)
    (hi : p.calls[i]? = some (.written window))
    (hbase : ∀ r ∈ p.reservation, r.base + r.used ≤ window.base) :
    ProcessInv keys spent (p.install i window) := by
  have hpending : Pending spent p keys window := h.calls _ (List.mem_of_getElem? hi)
  have hdrawing : (p.enter i (.resuming window.kid)).drawing = p.drawing :=
    drawing_enter_of hi rfl
  refine ⟨h.persists, h.active, ?_, by simp [Process.install],
    calls_enter (fun ph hph => ?_) hpending.cached⟩
  · rintro _ ⟨⟩
    refine ⟨hpending.cached, by simp [hpending.used], hpending.usage, ?_⟩
    show spent window.kid + (p.enter i (.resuming window.kid)).drawing ≤ window.base + window.used
    rw [hdrawing, hpending.used]
    rcases hres : p.reservation with _ | r
    · have := hpending.spent hres
      have := h.idle hres
      omega
    · have hw := h.window r hres
      have hkid : r.kid = window.kid := by
        simpa [hw.cached] using hpending.cached
      have := hbase r hres
      have := hkid ▸ hw.spent
      omega
  · exact (h.calls ph hph).mono (fun _ h => h) (fun _ => le_rfl) (by simp [Process.install])

/-- An IV is drawn. -/
theorem ProcessInv.draw {kid : κ} (h : ProcessInv keys spent p)
    (hi : p.calls[i]? = some (.drawing kid)) :
    spent kid + 1 ≤ usageOf keys kid ∧
      ProcessInv keys (Function.update spent kid (spent kid + 1)) (p.enter i .done) := by
  have hdrawing : (p.enter i .done).drawing + 1 = p.drawing := by
    simpa [Phase.isDrawing] using drawing_enter .done hi
  have hkid : p.cached = some kid := h.calls _ (List.mem_of_getElem? hi)
  obtain ⟨r, hr⟩ : ∃ r, p.reservation = some r := by
    rw [← Option.ne_none_iff_exists']
    intro hnone
    have := h.idle hnone
    omega
  have hw := h.window r hr
  have hrkid : r.kid = kid := by
    simpa [hw.cached] using hkid
  have hspent := hrkid ▸ hw.spent
  have husage := hrkid ▸ hw.usage
  refine ⟨?_, h.persists, h.active, fun r' hr' => ?_, fun hnone => ?_,
    calls_enter (fun ph hph => ?_) trivial⟩
  · have := hw.used
    omega
  · obtain rfl : r = r' := Option.some.inj (hr.symm.trans hr')
    refine ⟨hw.cached, hw.used, hw.usage, ?_⟩
    rw [hrkid, Function.update_self]
    omega
  · rw [show p.reservation = none from hnone] at hr
    cases hr
  · refine (h.calls ph hph).mono (fun _ h => h) (fun _ => le_rfl) fun hnone => ?_
    rw [show p.reservation = none from hnone] at hr
    cases hr

theorem ProcessInv.reserve (h : ProcessInv keys spent p) (hi : p.calls[i]? = some ph)
    (hd : ph.isDrawing = false) {kid : κ} (hkid : p.cached = some kid) :
    ProcessInv keys spent (p.reserve i kid) := by
  simp only [Process.reserve, h.persists]
  exact h.enter hi hd rfl hkid

theorem ProcessInv.call (h : ProcessInv keys spent p) : ProcessInv keys spent p.call := by
  rw [Process.call]
  have happend : ∀ ph, ph.isDrawing = false → CallInv keys spent p ph →
      ProcessInv keys spent { p with calls := p.calls ++ [ph] } := by
    intro ph hd hc
    have hdrawing : ({ p with calls := p.calls ++ [ph] } : Process κ).drawing = p.drawing := by
      simp [Process.drawing, hd]
    refine ⟨h.persists, h.active, fun r hr => ?_, fun hnone => hdrawing.trans (h.idle hnone),
      fun ph' hph' => ?_⟩
    · have hw := h.window r hr
      exact ⟨hw.cached, hw.used, hw.usage, hdrawing ▸ hw.spent⟩
    · have hold : CallInv keys spent p ph' := by
        rcases List.mem_append.mp hph' with hmem | hmem
        · exact h.calls ph' hmem
        · rwa [List.mem_singleton.mp hmem]
      exact hold.mono (fun _ h => h) (fun _ => le_rfl) fun h => ⟨h, rfl⟩
  split
  · exact happend .loading rfl trivial
  · rename_i kid hkid
    exact happend (.loaded kid) rfl hkid

end Calls

/-! ### Runs -/

theorem Inv.run {s : State κ} (h : Inv s) {p : Process κ} (hp : ProcessInv s.keys s.spent p) :
    Inv (s.run p) where
  spent := h.spent
  usage := h.usage
  process := by
    rintro _ ⟨⟩
    exact hp

theorem Inv.advance {s : State κ} (h : Inv s) {p : Process κ} {i : ℕ} {ph : Phase κ}
    (hp : ProcessInv s.keys s.spent p) (hi : p.calls[i]? = some ph) (hsteady : Steady s p ph) :
    Inv (s.advance p i ph) := by
  have hcall : CallInv s.keys s.spent p ph := hp.calls ph (List.mem_of_getElem? hi)
  have hread : ∀ keys, s.read = some keys → keys = s.keys := by
    intro keys hkeys
    rw [State.read] at hkeys
    split at hkeys
    · cases hkeys
    · exact (Option.some.inj hkeys).symm
  cases ph with
  | done => exact h
  | loading =>
    rw [State.advance]
    split
    · exact h.run (hp.enter hi rfl rfl trivial)
    · rename_i keys hkeys
      exact h.run (hread keys hkeys ▸ hp.load hi rfl)
  | loaded kid =>
    rw [State.advance]
    refine h.run ?_
    split
    · exact hp.reserve hi rfl hcall
    · rename_i hneeds
      refine hp.consume hi rfl hcall fun r hr => ?_
      rw [Process.needsWindow, show p.reservation = some r from hr] at hneeds
      simp only [ne_eq, decide_not, Bool.or_eq_true, Bool.not_eq_true', decide_eq_false_iff_not,
        decide_eq_true_eq, not_or, not_not, not_le] at hneeds
      exact hneeds.2
  | reading kid =>
    rw [State.advance]
    split
    · exact h.run (hp.enter hi rfl rfl trivial)
    · rename_i keys hkeys
      rw [hread keys hkeys]
      exact h.run (hp.reserveFrom hi rfl hcall h.spent h.usage)
  | writing raw window =>
    exact ⟨h.spent, h.usage, by rintro _ ⟨⟩; exact hp.enter hi rfl rfl hcall⟩
  | truncated raw window =>
    have hle : ∀ kid, usageOf s.keys kid ≤ usageOf raw kid := by
      intro kid
      by_cases hmem : kid ∈ s.keys.map KeyEntry.kid
      · obtain ⟨e, he, rfl⟩ := List.mem_map.mp hmem
        exact hsteady e he
      · rw [usageOf_eq_zero hmem]
        exact Nat.zero_le _
    have hp' := hp.write hi hle
    exact ⟨fun kid => (h.spent kid).trans (hle kid), hcall.2.2, by rintro _ ⟨⟩; exact hp'⟩
  | written window => exact h.run (hp.install hi hsteady)
  | resuming kid => exact h.run (hp.consume hi rfl hcall hsteady)
  | drawing kid =>
    obtain ⟨hle, hp'⟩ := hp.draw hi
    refine ⟨fun kid' => ?_, h.usage, by rintro _ ⟨⟩; exact hp'⟩
    show Function.update s.spent kid (s.spent kid + 1) kid' ≤ usageOf s.keys kid'
    by_cases hkid : kid' = kid
    · rw [hkid, Function.update_self]
      exact hle
    · rw [Function.update_of_ne hkid]
      exact h.spent kid'

omit [DecidableEq κ] in
theorem callAt_eq_some {s : State κ} {i : ℕ} {p : Process κ} {ph : Phase κ}
    (h : s.callAt i = some (p, ph)) : s.process = some p ∧ p.calls[i]? = some ph := by
  rw [State.callAt] at h
  split at h
  · cases h
  · rename_i p' hp'
    obtain ⟨ph', hph', heq⟩ := Option.map_eq_some_iff.mp h
    obtain ⟨rfl, rfl⟩ := Prod.mk.inj heq
    exact ⟨hp', hph'⟩

/-- Every step that does not go back keeps the invariant. -/
theorem Inv.step (s : State κ) (a : Action κ) (h : Inv s)
    (hok : Writable a ∧ StepsSteady s a) : Inv (step s a) := by
  obtain ⟨hwritable, hsteady⟩ := hok
  cases a with
  | rotate kid =>
    simp only [Crypto.step]
    split
    · rename_i hguard
      simp only [Bool.and_eq_true, Option.isNone_iff_eq_none, Bool.not_eq_true',
        decide_eq_true_eq] at hguard
      have husage := usageOf_rotated hguard.2
      refine ⟨fun kid' => ?_, fun kid' => ?_, fun p hp => ?_⟩
      · exact (h.spent kid').trans (husage kid').ge
      · exact (husage kid').le.trans (h.usage kid')
      · rw [show s.process = some p from hp] at hguard
        cases hguard.1.1
    · exact h
  | rotateCrash =>
    simp only [Crypto.step]
    split
    · exact ⟨h.spent, h.usage, h.process⟩
    · exact h
  | start =>
    simp only [Crypto.step]
    split
    · refine h.run ⟨rfl, ?_, ?_, fun _ => rfl, ?_⟩ <;> simp [Process.fresh]
    · exact h
  | call =>
    simp only [Crypto.step]
    split
    · exact h
    · rename_i p hp
      exact h.run (h.process p hp).call
  | advance i =>
    simp only [Crypto.step]
    split
    · exact h
    · rename_i p ph hat
      obtain ⟨hp, hi⟩ := callAt_eq_some hat
      refine h.advance (h.process p hp) hi ?_
      simpa only [StepsSteady, hat] using hsteady
  | failWrite i => exact hwritable.elim
  | crash => exact ⟨h.spent, h.usage, by rintro _ ⟨⟩⟩

/-- One call from the read of the file to its IV. -/
def oneCall : List (Action Unit) :=
  .rotate () :: .start :: .call :: List.replicate 8 (.advance 0)

/-- Two first calls read the file before either writes it. The first one writes it,
installs the window and draws an IV. -/
def twoReads : List (Action Unit) :=
  [.rotate (), .start, .call, .call, .advance 0, .advance 1, .advance 0, .advance 1, .advance 0,
    .advance 1] ++ List.replicate 5 (.advance 0)

/-- Further calls, from the first to the IV of the last. -/
def furtherCalls (n : ℕ) : List (Action Unit) :=
  (List.range n).flatMap fun k => [.call, .advance (k + 2), .advance (k + 2)]

def firstWindow (used : ℕ) : Reservation Unit := ⟨(), 0, nonceReserveWindow, used⟩

/-- The second call is still to write while the window is used. -/
def usedWindow (k : ℕ) : State Unit where
  keys := [⟨(), true, some nonceReserveWindow⟩]
  torn := false
  spent := fun _ => k + 1
  process := some ⟨some (), some (firstWindow (k + 1)), false,
    .done :: .writing [⟨(), true, some nonceReserveWindow⟩] (firstWindow 0) ::
      List.replicate k .done⟩

theorem foldl_twoReads : twoReads.foldl step State.init = usedWindow 0 := by
  have hspent : Function.update (fun _ : Unit => 0) () 1 = fun _ => 1 := by
    funext _
    rfl
  show State.mk _ _ (Function.update (fun _ : Unit => 0) () 1) _ = _
  rw [hspent]
  rfl

/-- One more call uses one more index. -/
theorem foldl_furtherCall (k : ℕ) (h : k + 1 < nonceReserveWindow) :
    [.call, .advance (k + 2), .advance (k + 2)].foldl step (usedWindow k) =
      usedWindow (k + 1) := by
  have hlt : ¬nonceReserveWindow ≤ k + 1 := by omega
  have hmax : ¬maxEncryptionsPerKey ≤ k + 1 := by
    have : nonceReserveWindow ≤ maxEncryptionsPerKey := by decide
    omega
  have hset : ∀ ph ph' : Phase Unit,
      (List.replicate k Phase.done ++ [ph]).set k ph' = List.replicate k .done ++ [ph'] := by
    intro ph ph'
    simp
  have hspent : Function.update (fun _ : Unit => k + 1) () (k + 1 + 1) = fun _ => k + 2 := by
    funext _
    rfl
  simp [usedWindow, step, State.run, State.callAt, Process.call, State.advance,
    Process.needsWindow, Process.consume, Process.enter, firstWindow, hlt, hmax, hset, hspent,
    List.replicate_succ']

theorem foldl_furtherCalls (n : ℕ) (h : n < nonceReserveWindow) :
    (furtherCalls n).foldl step (usedWindow 0) = usedWindow n := by
  induction n with
  | zero => rfl
  | succ n ih =>
    rw [furtherCalls, List.range_succ, List.flatMap_append, List.foldl_append, ← furtherCalls,
      ih (by omega)]
    exact foldl_furtherCall n h

/-- The second call writes the usage it computed long ago, and goes on from its base. -/
theorem foldl_secondCall (k : ℕ) :
    let s := (List.replicate 5 (.advance 1)).foldl step (usedWindow k)
    s.spent () = k + 2 ∧ usageOf s.keys () = nonceReserveWindow := by
  have hkeys : ((List.replicate 5 (.advance 1)).foldl step (usedWindow k)).keys =
      [⟨(), true, some nonceReserveWindow⟩] := rfl
  refine ⟨rfl, ?_⟩
  rw [hkeys]
  rfl

/-- Some of a window is used between the read and the write of the second call. -/
def overlappingReads (n : ℕ) : List (Action Unit) :=
  twoReads ++ furtherCalls n ++ List.replicate 5 (.advance 1)

theorem writable_overlappingReads (n : ℕ) : ∀ a ∈ overlappingReads n, Writable a := by
  intro a ha
  simp only [overlappingReads, twoReads, furtherCalls, List.mem_append, List.mem_flatMap,
    List.mem_cons, List.mem_replicate, List.not_mem_nil, or_false] at ha
  cases a with
  | failWrite i => simp at ha
  | _ => trivial

theorem foldl_overlappingReads (n : ℕ) (h : n < nonceReserveWindow) :
    let s := (overlappingReads n).foldl step State.init
    s.spent () = n + 2 ∧ usageOf s.keys () = nonceReserveWindow := by
  rw [overlappingReads, List.foldl_append, List.foldl_append, foldl_twoReads,
    foldl_furtherCalls n h]
  exact foldl_secondCall n

end Haechi.Crypto
