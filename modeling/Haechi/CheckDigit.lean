import Mathlib.Algebra.Group.Basic
import Mathlib.Tactic

/-! Check digits over a group. The word of a text is the product of its digits, each first
mapped by its position. Two texts that differ in one digit have one word only if the map of the
position confuses the digits, and two that differ in the order of two neighbours only if the
maps of the two positions confuse the two orders. -/

namespace Haechi.CheckDigit

universe u v w

variable {G : Type u} [Group G] {α : Type v} {β : Type w} (σ : ℕ → α → G)

/-- The product of the digits from a position on. -/
def word : ℕ → List α → G
  | _, [] => 1
  | i, d :: ds => σ i d * word (i + 1) ds

theorem word_append (i : ℕ) (as bs : List α) :
    word σ i (as ++ bs) = word σ i as * word σ (i + as.length) bs := by
  induction as generalizing i with
  | nil => rw [List.nil_append, word, one_mul, List.length_nil, Nat.add_zero]
  | cons a as ih =>
    rw [List.cons_append, word, word, ih, mul_assoc, List.length_cons, Nat.add_right_comm,
      Nat.add_assoc]

/-- What stands before and after does not matter. -/
theorem word_middle_eq_iff (i : ℕ) (as bs : List α) {xs ys : List α} (h : xs.length = ys.length) :
    word σ i (as ++ xs ++ bs) = word σ i (as ++ ys ++ bs) ↔
      word σ (i + as.length) xs = word σ (i + as.length) ys := by
  rw [word_append, word_append, word_append σ i (as ++ ys), word_append σ i as ys,
    List.length_append, List.length_append, h]
  constructor
  · intro heq
    exact mul_left_cancel (mul_right_cancel heq)
  · intro heq
    rw [heq]

/-- One digit in the place of another. -/
theorem word_replaced_iff (i : ℕ) (as bs : List α) (x y : α) :
    word σ i (as ++ x :: bs) = word σ i (as ++ y :: bs) ↔
      σ (i + as.length) x = σ (i + as.length) y := by
  have hmiddle := word_middle_eq_iff σ i as bs (show [x].length = [y].length from rfl)
  rw [List.append_assoc, List.append_assoc] at hmiddle
  exact hmiddle.trans (by simp only [word, mul_one])

/-- Two neighbours in the other order. -/
theorem word_swapped_iff (i : ℕ) (as bs : List α) (x y : α) :
    word σ i (as ++ x :: y :: bs) = word σ i (as ++ y :: x :: bs) ↔
      σ (i + as.length) x * σ (i + as.length + 1) y =
        σ (i + as.length) y * σ (i + as.length + 1) x := by
  have hmiddle := word_middle_eq_iff σ i as bs (show [x, y].length = [y, x].length from rfl)
  rw [List.append_assoc, List.append_assoc] at hmiddle
  exact hmiddle.trans (by simp only [word, mul_one])

/-! ### Two kinds of mistakes -/

/-- One digit stands in the place of another. -/
def Replaced (s t : List α) : Prop :=
  ∃ as bs x y, x ≠ y ∧ s = as ++ x :: bs ∧ t = as ++ y :: bs

/-- Two unequal neighbours stand in the other order. -/
def Swapped (s t : List α) : Prop :=
  ∃ as bs x y, x ≠ y ∧ s = as ++ x :: y :: bs ∧ t = as ++ y :: x :: bs

theorem Replaced.reverse {s t : List α} (h : Replaced s t) : Replaced s.reverse t.reverse := by
  obtain ⟨as, bs, x, y, hne, rfl, rfl⟩ := h
  exact ⟨bs.reverse, as.reverse, x, y, hne, by simp, by simp⟩

theorem Swapped.reverse {s t : List α} (h : Swapped s t) : Swapped s.reverse t.reverse := by
  obtain ⟨as, bs, x, y, hne, rfl, rfl⟩ := h
  exact ⟨bs.reverse, as.reverse, y, x, hne.symm, by simp, by simp⟩

theorem Replaced.map {s t : List α} {f : α → β} (h : Replaced s t)
    (hf : ∀ x ∈ s, ∀ y ∈ t, f x = f y → x = y) : Replaced (s.map f) (t.map f) := by
  obtain ⟨as, bs, x, y, hne, rfl, rfl⟩ := h
  refine ⟨as.map f, bs.map f, f x, f y, fun heq => hne ?_, by simp, by simp⟩
  exact hf x (by simp) y (by simp) heq

theorem Swapped.map {s t : List α} {f : α → β} (h : Swapped s t)
    (hf : ∀ x ∈ s, ∀ y ∈ t, f x = f y → x = y) : Swapped (s.map f) (t.map f) := by
  obtain ⟨as, bs, x, y, hne, rfl, rfl⟩ := h
  refine ⟨as.map f, bs.map f, f x, f y, fun heq => hne ?_, by simp, by simp⟩
  exact hf x (by simp) y (by simp) heq

theorem Replaced.symm {s t : List α} (h : Replaced s t) : Replaced t s := by
  obtain ⟨as, bs, x, y, hne, hs, ht⟩ := h
  exact ⟨as, bs, y, x, hne.symm, ht, hs⟩

theorem Replaced.length_eq {s t : List α} (h : Replaced s t) : s.length = t.length := by
  obtain ⟨as, bs, x, y, -, rfl, rfl⟩ := h
  simp

theorem Replaced.append_left {s t : List α} (h : Replaced s t) (a : List α) :
    Replaced (a ++ s) (a ++ t) := by
  obtain ⟨as, bs, x, y, hne, rfl, rfl⟩ := h
  exact ⟨a ++ as, bs, x, y, hne, by simp, by simp⟩

theorem Replaced.append_right {s t : List α} (h : Replaced s t) (a : List α) :
    Replaced (s ++ a) (t ++ a) := by
  obtain ⟨as, bs, x, y, hne, rfl, rfl⟩ := h
  exact ⟨as, bs ++ a, x, y, hne, by simp, by simp⟩

theorem replaced_cons {x y : α} {s t : List α} (h : Replaced (x :: s) (y :: t)) :
    x ≠ y ∧ s = t ∨ x = y ∧ Replaced s t := by
  obtain ⟨as, bs, u, v, hne, hs, ht⟩ := h
  cases as with
  | nil =>
    obtain ⟨rfl, rfl⟩ := List.cons.inj hs
    obtain ⟨rfl, rfl⟩ := List.cons.inj ht
    exact .inl ⟨hne, rfl⟩
  | cons a as =>
    obtain ⟨rfl, rfl⟩ := List.cons.inj hs
    obtain ⟨rfl, rfl⟩ := List.cons.inj ht
    exact .inr ⟨rfl, as, bs, u, v, hne, rfl, rfl⟩

/-- A text in two parts has the mistake in one of them. -/
theorem Replaced.split {s t : List α} (h : Replaced s t) (n : ℕ) :
    Replaced (s.take n) (t.take n) ∧ s.drop n = t.drop n ∨
      s.take n = t.take n ∧ Replaced (s.drop n) (t.drop n) := by
  obtain ⟨as, bs, x, y, hne, rfl, rfl⟩ := h
  by_cases hn : n ≤ as.length
  · refine .inr ⟨?_, as.drop n, bs, x, y, hne, ?_, ?_⟩
    · rw [List.take_append_of_le_length hn, List.take_append_of_le_length hn]
    · rw [List.drop_append_of_le_length hn]
    · rw [List.drop_append_of_le_length hn]
  · obtain ⟨k, rfl⟩ := Nat.exists_eq_add_of_lt (Nat.not_le.mp hn)
    refine .inl ⟨⟨as, bs.take k, x, y, hne, ?_, ?_⟩, ?_⟩
    · rw [Nat.add_assoc, List.take_length_add_append, List.take_succ_cons]
    · rw [Nat.add_assoc, List.take_length_add_append, List.take_succ_cons]
    · rw [Nat.add_assoc, List.drop_length_add_append, List.drop_length_add_append,
        List.drop_succ_cons, List.drop_succ_cons]

theorem not_replaced_self (s : List α) : ¬Replaced s s := by
  rintro ⟨as, bs, x, y, hne, rfl, h⟩
  exact hne (List.cons.inj (List.append_cancel_left h)).1

/-- Where the first part of a text determines the rest, and a mistake in it changes the rest, no
two texts differ in one digit. -/
theorem not_replaced_of_check {n : ℕ} {C : List α → List α → Prop}
    (hdetermines : ∀ b c d, C b c → C b d → c = d)
    (htells : ∀ b b' c, C b c → C b' c → ¬Replaced b b') {s t : List α}
    (hs : C (s.take n) (s.drop n)) (ht : C (t.take n) (t.drop n)) : ¬Replaced s t := by
  intro h
  rcases h.split n with ⟨hbody, hcheck⟩ | ⟨hbody, hcheck⟩
  · exact htells _ _ _ hs (hcheck ▸ ht) hbody
  · rw [hdetermines _ _ _ hs (hbody ▸ ht)] at hcheck
    exact not_replaced_self _ hcheck

variable {σ}

/-- Where every position tells the digits apart, a replaced digit changes the word. -/
theorem Replaced.word_ne {s t : List α} (h : Replaced s t) (i : ℕ)
    (hσ : ∀ i, ∀ x ∈ s, ∀ y ∈ t, σ i x = σ i y → x = y) : word σ i s ≠ word σ i t := by
  obtain ⟨as, bs, x, y, hne, rfl, rfl⟩ := h
  rw [Ne, word_replaced_iff]
  intro heq
  exact hne (hσ _ x (by simp) y (by simp) heq)

/-- Where neighbouring positions tell the orders apart, swapped neighbours change the word. -/
theorem Swapped.word_ne {s t : List α} (h : Swapped s t) (i : ℕ)
    (hσ : ∀ i, ∀ x ∈ s, ∀ y ∈ t, σ i x * σ (i + 1) y = σ i y * σ (i + 1) x → x = y) :
    word σ i s ≠ word σ i t := by
  obtain ⟨as, bs, x, y, hne, rfl, rfl⟩ := h
  rw [Ne, word_swapped_iff]
  intro heq
  exact hne (hσ _ x (by simp) y (by simp) heq)

/-! ### Running checks -/

section Running

variable {S : Type w} {step : S → α → S} {P : S → Prop} {D : α → Prop}

/-- States that a digit tells apart stay apart to the end. -/
theorem foldl_injective (hstep : ∀ s d, P s → D d → P (step s d))
    (hstate : ∀ d s t, D d → P s → P t → step s d = step t d → s = t)
    {ds : List α} (hds : ∀ d ∈ ds, D d) {s t : S} (hs : P s) (ht : P t)
    (h : ds.foldl step s = ds.foldl step t) : s = t := by
  induction ds generalizing s t with
  | nil => exact h
  | cons d ds ih =>
    obtain ⟨hd, hds⟩ := List.forall_mem_cons.mp hds
    exact hstate d s t hd hs ht (ih hds (hstep s d hs hd) (hstep t d ht hd) h)

theorem foldl_mem (hstep : ∀ s d, P s → D d → P (step s d)) {ds : List α}
    (hds : ∀ d ∈ ds, D d) {s : S} (hs : P s) : P (ds.foldl step s) := by
  induction ds generalizing s with
  | nil => exact hs
  | cons d ds ih =>
    obtain ⟨hd, hds⟩ := List.forall_mem_cons.mp hds
    exact ih hds (hstep s d hs hd)

/-- A check that runs through states which each digit permutes tells a replaced digit, where
each state tells the two digits apart. -/
theorem Replaced.foldl_ne (hstep : ∀ s d, P s → D d → P (step s d))
    (hstate : ∀ d s t, D d → P s → P t → step s d = step t d → s = t)
    {ds es : List α} (h : Replaced ds es)
    (hdigit : ∀ as bs x y, ds = as ++ x :: bs → es = as ++ y :: bs →
      ∀ s, P s → step s x = step s y → x = y)
    (hds : ∀ d ∈ ds, D d) (hes : ∀ e ∈ es, D e) {s : S} (hs : P s) :
    ds.foldl step s ≠ es.foldl step s := by
  obtain ⟨as, bs, x, y, hne, rfl, rfl⟩ := h
  have hx : D x := hds x (by simp)
  have hy : D y := hes y (by simp)
  have hbs : ∀ d ∈ bs, D d := fun d hd => hds d (by simp [hd])
  have hstart : P (as.foldl step s) := foldl_mem hstep (fun d hd => hds d (by simp [hd])) hs
  rw [List.foldl_append, List.foldl_append, List.foldl_cons, List.foldl_cons]
  intro heq
  exact hne (hdigit as bs x y rfl rfl _ hstart (foldl_injective hstep hstate hbs
    (hstep _ x hstart hx) (hstep _ y hstart hy) heq))

end Running

end Haechi.CheckDigit
