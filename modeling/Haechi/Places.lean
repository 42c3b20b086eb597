import Mathlib.Tactic

/-! Sequences that are compared place by place. At each place two elements are the same, or
one comes first, and the first place where two sequences are not the same decides. Proved:
the comparison is opposite in its two directions, and it goes round in a circle on three
sequences only if the elements do at the first place where the three differ. -/

namespace Haechi.Places

universe u

variable {α : Type u} (same less : α → α → Prop)

/-- A comparison of elements: of two that are not the same one comes first. -/
structure Compares : Prop where
  refl : ∀ a, same a a
  symm : ∀ {a b}, same a b → same b a
  trans : ∀ {a b c}, same a b → same b c → same a c
  irrefl : ∀ {a b}, less a b → ¬same a b
  asymm : ∀ {a b}, less a b → ¬less b a
  total : ∀ a b, same a b ∨ less a b ∨ less b a

/-- Up to a place the two sequences are the same, and there the first one's element comes
first. -/
def Before (x y : ℕ → α) : Prop := ∃ i, (∀ j < i, same (x j) (y j)) ∧ less (x i) (y i)

/-- One comes first, or they are the same there. -/
def Upto (a b : α) : Prop := same a b ∨ less a b

variable {same less} {x y z : ℕ → α} {i : ℕ}

theorem before_asymm (h : Compares same less) (hxy : Before same less x y) :
    ¬Before same less y x := by
  obtain ⟨i, hi, hless⟩ := hxy
  rintro ⟨j, hj, hless'⟩
  rcases Nat.lt_trichotomy i j with hij | rfl | hij
  · exact h.irrefl hless (h.symm (hj i hij))
  · exact h.asymm hless hless'
  · exact h.irrefl hless' (h.symm (hi j hij))

/-- Two sequences are the same everywhere, or one comes first. -/
theorem before_total (h : Compares same less) (x y : ℕ → α) :
    (∀ i, same (x i) (y i)) ∨ Before same less x y ∨ Before same less y x := by
  classical
  by_cases hsame : ∀ i, same (x i) (y i)
  · exact .inl hsame
  · have hdiffer := not_forall.mp hsame
    have hbefore : ∀ j < Nat.find hdiffer, same (x j) (y j) := fun j hj =>
      not_not.mp (Nat.find_min hdiffer hj)
    rcases h.total (x (Nat.find hdiffer)) (y (Nat.find hdiffer)) with heq | hless | hless
    · exact absurd heq (Nat.find_spec hdiffer)
    · exact .inr (.inl ⟨_, hbefore, hless⟩)
    · exact .inr (.inr ⟨_, fun j hj => h.symm (hbefore j hj), hless⟩)

/-- What does not come after is first, or the same, where the two were the same so far. -/
theorem upto_of_not_before (h : Compares same less) (hsame : ∀ j < i, same (x j) (y j))
    (hnot : ¬Before same less y x) : Upto same less (x i) (y i) := by
  rcases h.total (x i) (y i) with heq | hless | hless
  · exact .inl heq
  · exact .inr hless
  · exact absurd ⟨i, fun j hj => h.symm (hsame j hj), hless⟩ hnot

/-- Where three sequences go round, their elements go round at the first place where the three
are not all the same. -/
theorem exists_circle (h : Compares same less) (hxy : ¬Before same less y x)
    (hyz : ¬Before same less z y) (hzx : Before same less z x) :
    ∃ i, (∀ j < i, same (x j) (y j) ∧ same (y j) (z j)) ∧
      ¬(same (x i) (y i) ∧ same (y i) (z i)) ∧ Upto same less (x i) (y i) ∧
        Upto same less (y i) (z i) ∧ Upto same less (z i) (x i) := by
  classical
  have hdiffer : ∃ i, ¬(same (x i) (y i) ∧ same (y i) (z i)) := by
    obtain ⟨i, -, hless⟩ := hzx
    refine ⟨i, fun hall => h.irrefl hless ?_⟩
    exact h.symm (h.trans hall.1 hall.2)
  have hbefore : ∀ j < Nat.find hdiffer, same (x j) (y j) ∧ same (y j) (z j) := fun j hj =>
    not_not.mp (Nat.find_min hdiffer hj)
  refine ⟨Nat.find hdiffer, hbefore, Nat.find_spec hdiffer, ?_, ?_, ?_⟩
  · exact upto_of_not_before h (fun j hj => (hbefore j hj).1) hxy
  · exact upto_of_not_before h (fun j hj => (hbefore j hj).2) hyz
  · apply upto_of_not_before h _ (before_asymm h hzx)
    intro j hj
    exact h.symm (h.trans (hbefore j hj).1 (hbefore j hj).2)

end Haechi.Places
