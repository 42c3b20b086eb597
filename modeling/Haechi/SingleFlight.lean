import Mathlib.Tactic

/-! A promise that is made once and shared. The first call starts an attempt and every
further call is given the same one, until it fails: a failure is forgotten, and the next
call starts again. So an attempt that has not failed is the one that is kept: at most one
is open at any time, and at most one ever succeeds. -/

namespace Haechi

universe u

/-- The attempts so far, each open, failed or with its value, and the one that is kept. -/
structure Memo (α : Type u) where
  attempts : List (Option (Option α))
  current : Option ℕ

namespace Memo

variable {α : Type u}

def empty : Memo α := ⟨[], none⟩

/-- The attempt a call is given. -/
def handed (m : Memo α) : ℕ := m.current.getD m.attempts.length

/-- A call: it starts an attempt where none is kept. -/
def get (m : Memo α) : Memo α :=
  if m.current.isSome then m else ⟨m.attempts ++ [none], some m.attempts.length⟩

/-- An open attempt ends, with a value or a failure. -/
def settle (m : Memo α) (i : ℕ) (x : Option α) : Memo α :=
  match m.attempts[i]? with
  | some none => ⟨m.attempts.set i (some x), if x.isSome then m.current else none⟩
  | _ => m

/-- The value of an attempt. -/
def value? (m : Memo α) (i : ℕ) : Option α := (m.attempts[i]?.join).join

def Open (m : Memo α) (i : ℕ) : Prop := m.attempts[i]? = some none

/-- The attempt that is kept is the one that has not failed. -/
def Sound (m : Memo α) : Prop :=
  ∀ i, m.current = some i ↔ m.Open i ∨ (m.value? i).isSome

variable {m : Memo α} {i j : ℕ}

theorem value?_eq_some {a : α} : m.value? i = some a ↔ m.attempts[i]? = some (some (some a)) := by
  simp [value?, Option.join_eq_some_iff]

theorem sound_empty : (empty : Memo α).Sound := by
  intro i
  simp [empty, Open, value?]

theorem Sound.unique {a b : α} (h : m.Sound) (ha : m.value? i = some a)
    (hb : m.value? j = some b) : a = b := by
  have hi := (h i).mpr (.inr (by rw [ha]; rfl))
  have hj := (h j).mpr (.inr (by rw [hb]; rfl))
  rw [hi] at hj
  cases hj
  exact Option.some.inj (ha.symm.trans hb)

theorem Sound.open_unique (h : m.Sound) (hi : m.Open i) (hj : m.Open j) : i = j :=
  Option.some.inj (((h i).mpr (.inl hi)).symm.trans ((h j).mpr (.inl hj)))

/-- Nothing is kept exactly when all attempts have failed. -/
theorem Sound.current_eq_none (h : m.Sound) :
    m.current = none ↔ ∀ x ∈ m.attempts, x = some none := by
  constructor
  · intro hnone x hx
    obtain ⟨i, hi⟩ := List.getElem?_of_mem hx
    have hi' := (h i).not.mp (by rw [hnone]; simp)
    rcases x with _ | _ | a
    · exact absurd (.inl hi) hi'
    · rfl
    · exact absurd (.inr (by rw [value?_eq_some.mpr hi]; rfl)) hi'
  · intro hall
    rw [Option.eq_none_iff_forall_ne_some]
    intro i hi
    rcases (h i).mp hi with hopen | hvalue
    · cases hall none (List.mem_of_getElem? hopen)
    · obtain ⟨a, ha⟩ := Option.isSome_iff_exists.mp hvalue
      cases hall _ (List.mem_of_getElem? (value?_eq_some.mp ha))

theorem attempts_get (m : Memo α) : ∃ l, m.get.attempts = m.attempts ++ l := by
  rw [get]
  split
  · exact ⟨[], (List.append_nil _).symm⟩
  · exact ⟨[none], rfl⟩

theorem handed_lt (h : m.Sound) : m.handed < m.get.attempts.length := by
  rw [handed, get]
  cases hc : m.current with
  | none => simp
  | some i =>
    simp only [Option.isSome_some, if_true, Option.getD_some]
    rcases (h i).mp hc with hopen | hvalue
    · exact (List.getElem?_eq_some_iff.mp hopen).1
    · obtain ⟨a, ha⟩ := Option.isSome_iff_exists.mp hvalue
      exact (List.getElem?_eq_some_iff.mp (value?_eq_some.mp ha)).1

/-- A call where nothing is kept opens a new attempt. -/
theorem open_handed (h : m.current = none) : m.get.Open m.handed := by
  simp [Open, get, handed, h]

theorem Sound.get (h : m.Sound) : m.get.Sound := by
  rw [Memo.get]
  split
  · exact h
  · next hnone =>
    have hnone : m.current = none := by simpa using hnone
    intro j
    by_cases hj : j = m.attempts.length
    · subst hj
      simp [Open]
    · have hnot := (h j).not.mp (by rw [hnone]; simp)
      have hsame : (m.attempts ++ [none])[j]? = m.attempts[j]? ∨
          (m.attempts ++ [none])[j]? = none := by
        rcases lt_or_gt_of_ne hj with hlt | hgt
        · exact .inl (List.getElem?_append_left hlt)
        · exact .inr (List.getElem?_eq_none (by simp; omega))
      simp only [Open, value?] at hnot ⊢
      refine iff_of_false (fun h => hj (Option.some.inj h).symm) ?_
      rcases hsame with hsame | hsame <;> rw [hsame]
      · exact hnot
      · simp

theorem Sound.settle (h : m.Sound) (i : ℕ) (x : Option α) : (m.settle i x).Sound := by
  rw [Memo.settle]
  split
  · next hopen =>
    have hi : m.current = some i := (h i).mpr (.inl hopen)
    have hlt := (List.getElem?_eq_some_iff.mp hopen).1
    intro j
    by_cases hj : i = j
    · subst hj
      simp only [Open, value?, List.getElem?_set_self hlt, hi]
      cases x <;> simp
    · have hj' : m.current ≠ some j := by
        rw [hi]
        simpa using hj
      have hnot := (h j).not.mp hj'
      simp only [Open, value?, List.getElem?_set_ne hj] at hnot ⊢
      simp only [hnot, iff_false]
      cases x with
      | none => simp
      | some a => exact hj'
  · exact h

theorem value?_get {a : α} (h : m.value? i = some a) : m.get.value? i = some a := by
  rw [value?_eq_some] at h ⊢
  obtain ⟨l, hl⟩ := m.attempts_get
  rw [hl, List.getElem?_append_left (List.getElem?_eq_some_iff.mp h).1, h]

theorem value?_settle {a : α} {x : Option α} (h : m.value? i = some a) :
    (m.settle j x).value? i = some a := by
  rw [settle]
  split
  · next hopen =>
    rw [value?_eq_some] at h ⊢
    have hne : j ≠ i := by
      rintro rfl
      rw [hopen] at h
      cases h
    exact (List.getElem?_set_ne hne).trans h
  · exact h

/-- A value that is there after an attempt has ended was there before, or is its outcome. -/
theorem value?_settle_cases {a : α} {x : Option α} (h : (m.settle j x).value? i = some a) :
    m.value? i = some a ∨ i = j ∧ m.Open j ∧ x = some a := by
  rw [settle] at h
  split at h
  · next hopen =>
    by_cases hij : j = i
    · subst hij
      rw [value?_eq_some] at h
      have hlt := (List.getElem?_eq_some_iff.mp hopen).1
      rw [List.getElem?_set_self hlt] at h
      exact .inr ⟨rfl, hopen, by simpa using h⟩
    · rw [value?, List.getElem?_set_ne hij] at h
      exact .inl h
  · exact .inl h

theorem value?_get_cases {a : α} (h : m.get.value? i = some a) : m.value? i = some a := by
  rw [get] at h
  split at h
  · exact h
  · rw [value?_eq_some] at h ⊢
    rcases lt_trichotomy i m.attempts.length with hlt | rfl | hgt
    · rwa [List.getElem?_append_left hlt] at h
    · rw [List.getElem?_concat_length] at h
      cases h
    · rw [List.getElem?_eq_none (by simp; omega)] at h
      cases h

end Memo

end Haechi
