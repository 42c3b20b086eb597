import Mathlib.Tactic

/-! Runs of a deterministic system under a condition on its steps: the one
induction behind every statement about reachable states. -/

namespace Haechi

universe u v

variable {S : Type u} {A : Type v} (step : S → A → S) (ok : S → A → Prop)

/-- Every action of the run meets the condition in the state it is taken in. -/
def Allowed : S → List A → Prop
  | _, [] => True
  | s, a :: as => ok s a ∧ Allowed (step s a) as

instance Allowed.decidable [∀ s a, Decidable (ok s a)] (s : S) (as : List A) :
    Decidable (Allowed step ok s as) :=
  match as with
  | [] => isTrue trivial
  | a :: as =>
    have := Allowed.decidable (step s a) as
    inferInstanceAs (Decidable (ok s a ∧ Allowed step ok (step s a) as))

variable {step ok}

/-- What allowed steps preserve holds at the end of an allowed run. -/
theorem Allowed.invariant {I : S → Prop} (hstep : ∀ s a, I s → ok s a → I (step s a))
    {as : List A} {s : S} (hs : I s) (h : Allowed step ok s as) : I (as.foldl step s) := by
  induction as generalizing s with
  | nil => exact hs
  | cons a as ih => exact ih (hstep s a hs h.1) h.2

theorem Allowed.of_forall (h : ∀ s a, ok s a) (s : S) (as : List A) : Allowed step ok s as := by
  induction as generalizing s with
  | nil => trivial
  | cons a as ih => exact ⟨h s a, ih _⟩

/-- The condition may use what the actions of the run are. -/
theorem Allowed.of_mem {as : List A} (h : ∀ s, ∀ a ∈ as, ok s a) (s : S) :
    Allowed step ok s as := by
  induction as generalizing s with
  | nil => trivial
  | cons a as ih =>
    exact ⟨h s a List.mem_cons_self, ih (fun s b hb => h s b (List.mem_cons_of_mem _ hb)) _⟩

/-- What every step preserves holds at the end of every run. -/
theorem invariant_run {I : S → Prop} (hstep : ∀ s a, I s → I (step s a)) {s : S} (hs : I s)
    (as : List A) : I (as.foldl step s) :=
  (Allowed.of_forall (fun _ _ => trivial) s as :
    Allowed step (fun _ _ => True) s as).invariant (fun s a h _ => hstep s a h) hs

theorem Allowed.mono {ok' : S → A → Prop} (himp : ∀ s a, ok s a → ok' s a) {s : S} {as : List A}
    (h : Allowed step ok s as) : Allowed step ok' s as := by
  induction as generalizing s with
  | nil => trivial
  | cons a as ih => exact ⟨himp s a h.1, ih h.2⟩

theorem Allowed.and {ok' : S → A → Prop} {s : S} {as : List A} (h : Allowed step ok s as)
    (h' : Allowed step ok' s as) : Allowed step (fun s a => ok s a ∧ ok' s a) s as := by
  induction as generalizing s with
  | nil => trivial
  | cons a as ih => exact ⟨⟨h.1, h'.1⟩, ih h.2 h'.2⟩

theorem Allowed.append {s : S} {as bs : List A} :
    Allowed step ok s (as ++ bs) ↔
      Allowed step ok s as ∧ Allowed step ok (as.foldl step s) bs := by
  induction as generalizing s with
  | nil => simp [Allowed]
  | cons a as ih => simp [Allowed, ih, and_assoc]

/-- What some of the actions do to a part of the state, and the others leave alone, is done by
these alone. -/
theorem foldl_part {β : Type u} {p : S → β} {hit : A → Bool} {update : β → A → β}
    (h : ∀ s a, p (step s a) = if hit a then update (p s) a else p s) (s : S) (as : List A) :
    p (as.foldl step s) = (as.filter hit).foldl update (p s) := by
  induction as generalizing s with
  | nil => rfl
  | cons a as ih =>
    rw [List.foldl_cons, ih, h]
    cases ha : hit a with
    | false => rw [List.filter_cons_of_neg (by simp [ha]), if_neg Bool.false_ne_true]
    | true => rw [List.filter_cons_of_pos ha, if_pos rfl, List.foldl_cons]

/-! ### Lists of calls that grow and change -/

variable {α : Type u} {l : List α} {i j : ℕ} {x y : α}

/-- A new call comes after the others. -/
theorem getElem?_concat_eq_some :
    (l ++ [x])[i]? = some y ↔ l[i]? = some y ∨ i = l.length ∧ x = y := by
  rcases lt_trichotomy i l.length with hlt | rfl | hgt
  · rw [List.getElem?_append_left hlt]
    exact ⟨.inl, fun h => h.resolve_right fun h => hlt.ne h.1⟩
  · rw [List.getElem?_concat_length, List.getElem?_eq_none le_rfl]
    simp
  · rw [List.getElem?_eq_none (by rw [List.length_append]; exact hgt),
      List.getElem?_eq_none hgt.le]
    simp [hgt.ne']

/-- A change at one place is seen there only. -/
theorem getElem?_set_eq_some (h : (l.set i x)[j]? = some y) :
    i = j ∧ x = y ∨ i ≠ j ∧ l[j]? = some y := by
  by_cases hij : i = j
  · subst hij
    have hlt : i < l.length := by
      by_contra hlen
      rw [List.getElem?_eq_none (by rw [List.length_set]; omega)] at h
      cases h
    rw [List.getElem?_set_self hlt] at h
    exact .inl ⟨rfl, Option.some.inj h⟩
  · rw [List.getElem?_set_ne hij] at h
    exact .inr ⟨hij, h⟩

end Haechi
