import Mathlib.Tactic

/-! Events of two kinds that take turns, and how many of them a window of time holds. The
lists of times have the latest first. -/

namespace Haechi.Windows

/-- How many of the events are in the window of length `w` that starts at `a`. -/
def within (w a : ℕ) (events : List ℕ) : ℕ :=
  events.countP fun t => decide (a ≤ t ∧ t < a + w)

/-- How many of the events are less than `w` old. -/
def recent (w now : ℕ) (events : List ℕ) : ℕ :=
  events.countP fun t => decide (now - t < w)

variable {w a t : ℕ} {events starts stops : List ℕ} {up : Bool}

theorem within_cons_of_mem (ha : a ≤ t) (ht : t < a + w) :
    within w a (t :: events) = within w a events + 1 :=
  List.countP_cons_of_pos (decide_eq_true ⟨ha, ht⟩)

theorem within_cons_of_notMem (h : ¬(a ≤ t ∧ t < a + w)) :
    within w a (t :: events) = within w a events :=
  List.countP_cons_of_neg (by simpa using h)

/-- A window that starts after the events holds none of them. -/
theorem within_eq_zero (h : ∀ x ∈ events, x < a) : within w a events = 0 := by
  refine List.countP_eq_zero.2 fun x hx => ?_
  have := h x hx
  simp only [decide_eq_true_eq, not_and]
  omega

/-- A window that holds the latest event holds only recent ones. -/
theorem within_le_recent (hlast : ∀ x ∈ events, x ≤ t) (ht : t < a + w) :
    within w a events ≤ recent w t events := by
  refine List.countP_mono_left fun x hx h => ?_
  have := hlast x hx
  simp only [decide_eq_true_eq] at h ⊢
  omega

/-- A new event makes no window fuller than it was, or than the recent past is. -/
theorem within_cons_le (w a : ℕ) (hlast : ∀ x ∈ events, x ≤ t) :
    within w a (t :: events) = within w a events ∨
      within w a (t :: events) ≤ recent w t (t :: events) := by
  by_cases h : a ≤ t ∧ t < a + w
  · refine .inr (within_le_recent ?_ h.2)
    exact List.forall_mem_cons.2 ⟨le_rfl, hlast⟩
  · exact .inl (within_cons_of_notMem h)

/-- Starts and stops take turns, each no earlier than the one before it; `up` is whether a
start came last. -/
inductive Alternating : Bool → List ℕ → List ℕ → Prop
  | never : Alternating false [] []
  | start {starts stops : List ℕ} {t : ℕ} (h : Alternating false starts stops)
      (ht : ∀ x ∈ stops, x ≤ t) : Alternating true (t :: starts) stops
  | stop {starts stops : List ℕ} {t : ℕ} (h : Alternating true starts stops)
      (ht : ∀ x ∈ starts, x ≤ t) : Alternating false starts (t :: stops)

/-- Between two starts in a window there is a stop in it. -/
theorem Alternating.within_le (h : Alternating up starts stops) (w a : ℕ) :
    within w a starts ≤ within w a stops + 1 ∧
      (up = false → (∀ x ∈ stops, x < a + w) → within w a starts ≤ within w a stops) := by
  induction h with
  | never => exact ⟨Nat.zero_le _, fun _ _ => le_rfl⟩
  | @start starts stops t _ ht ih =>
    refine ⟨?_, fun h => by cases h⟩
    by_cases hin : a ≤ t ∧ t < a + w
    · rw [within_cons_of_mem hin.1 hin.2]
      exact Nat.succ_le_succ (ih.2 rfl fun x hx => (ht x hx).trans_lt hin.2)
    · rw [within_cons_of_notMem hin]
      exact ih.1
  | @stop starts stops t _ ht ih =>
    by_cases hin : a ≤ t ∧ t < a + w
    · rw [within_cons_of_mem hin.1 hin.2]
      exact ⟨ih.1.trans (Nat.le_succ _), fun _ _ => ih.1⟩
    · rw [within_cons_of_notMem hin]
      refine ⟨ih.1, fun _ hlt => ?_⟩
      have hbefore : t < a := by
        have := hlt t List.mem_cons_self
        omega
      rw [within_eq_zero fun x hx => (ht x hx).trans_lt hbefore]
      exact Nat.zero_le _

theorem recent_append (w now : ℕ) (l l' : List ℕ) :
    recent w now (l ++ l') = recent w now l + recent w now l' :=
  List.countP_append

/-- What was dropped as old is not recent later on. -/
theorem recent_filter {now later : ℕ} (h : now ≤ later) (events : List ℕ) :
    recent w later (events.filter fun t => decide (now - t < w)) = recent w later events := by
  rw [recent, List.countP_filter]
  refine List.countP_congr fun t _ => ?_
  simp only [Bool.and_eq_true, decide_eq_true_eq]
  omega

end Haechi.Windows
