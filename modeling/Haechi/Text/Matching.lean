import Haechi.Text.Regex

/-! What the matcher finds, without its continuations. `Matches` says that a pattern
can carry the cursor from one position to another; the matcher is sound and complete
for it. Below are the classes a pattern consumes, its matches in a text and the patterns
that a whole text matches. -/

namespace Haechi.Text.Regex

/-- `r` can carry the cursor from `x` to `y`. An optional iteration of a repetition moves. -/
inductive Matches (ic : Bool) : Regex → Direction → Cursor → Cursor → Prop where
  | empty {dir x} : Matches ic .empty dir x x
  | set {ranges negated dir x y} (h : takeUnit (inSet ic ranges negated) dir x = some y) :
      Matches ic (.set ranges negated) dir x y
  | seqForward {a b x y z} (ha : Matches ic a .forward x y) (hb : Matches ic b .forward y z) :
      Matches ic (.seq a b) .forward x z
  | seqBackward {a b x y z} (hb : Matches ic b .backward x y) (ha : Matches ic a .backward y z) :
      Matches ic (.seq a b) .backward x z
  | altLeft {a b dir x y} (h : Matches ic a dir x y) : Matches ic (.alt a b) dir x y
  | altRight {a b dir x y} (h : Matches ic b dir x y) : Matches ic (.alt a b) dir x y
  | repSpent {r min greedy dir x} : Matches ic (.rep r min (some 0) greedy) dir x x
  | repDone {r max greedy dir x} : Matches ic (.rep r 0 max greedy) dir x x
  | repMore {r min max greedy dir x y z} (hmax : max ≠ some 0) (h : Matches ic r dir x y)
      (hmove : min = 0 → y.left.length ≠ x.left.length)
      (hrest : Matches ic (.rep r (min - 1) (max.map (· - 1)) greedy) dir y z) :
      Matches ic (.rep r min max greedy) dir x z
  | wordBoundary {dir x} (h : headIsWord x.left ≠ headIsWord x.right) :
      Matches ic .wordBoundary dir x x
  | look {r dir' negated dir x} (h : (r.run ic dir' x some).isSome ≠ negated) :
      Matches ic (.look dir' negated r) dir x x

variable {ic : Bool} {dir : Direction} {r a b : Regex} {x y z : Cursor}

/-! ### The matcher looks at what it can reach -/

/-- A matcher gives the same result for continuations that agree on what it reaches. -/
def Local (dir : Direction) (m : Cursor → (Cursor → Option Cursor) → Option Cursor) : Prop :=
  ∀ x k k', (∀ y, Reaches dir x y → k y = k' y) → m x k = m x k'

theorem local_repeatMatch {m : Cursor → (Cursor → Option Cursor) → Option Cursor}
    (hm : Local dir m) (greedy : Bool) (fuel min : ℕ) (max : Option ℕ) :
    Local dir (repeatMatch m greedy fuel min max) := by
  induction fuel generalizing min max with
  | zero => exact fun x k k' h => h x (.refl dir x)
  | succ fuel ih =>
    intro x k k' h
    have hmore : (m x fun y => if min = 0 ∧ y.left.length = x.left.length then none
        else repeatMatch m greedy fuel (min - 1) (max.map (· - 1)) y k) =
        m x fun y => if min = 0 ∧ y.left.length = x.left.length then none
          else repeatMatch m greedy fuel (min - 1) (max.map (· - 1)) y k' := by
      refine hm _ _ _ fun y hxy => ?_
      split_ifs
      · rfl
      · exact ih _ _ _ _ _ fun u hyu => h u (hxy.trans hyu)
    simp only [repeatMatch, hmore, h x (.refl dir x)]

theorem local_run (ic : Bool) (r : Regex) (dir : Direction) : Local dir (r.run ic dir) := by
  induction r generalizing dir with
  | empty => exact fun x k k' h => h x (.refl dir x)
  | set ranges negated =>
    intro x k k' h
    rw [run, run]
    cases htake : takeUnit (inSet ic ranges negated) dir x with
    | none => rfl
    | some y => exact h y (reaches_takeUnit htake)
  | seq a b iha ihb =>
    intro x k k' h
    cases dir with
    | forward =>
      exact iha .forward _ _ _ fun y hxy => ihb .forward _ _ _ fun u hyu => h u (hxy.trans hyu)
    | backward =>
      exact ihb .backward _ _ _ fun y hxy => iha .backward _ _ _ fun u hyu => h u (hxy.trans hyu)
  | alt a b iha ihb =>
    intro x k k' h
    rw [run, run, iha dir x k k' h, ihb dir x k k' h]
  | rep r min max greedy ih =>
    exact fun x k k' h => local_repeatMatch (ih dir) greedy _ min max x k k' h
  | wordBoundary =>
    intro x k k' h
    rw [run, run, h x (.refl dir x)]
  | look dir' negated r _ =>
    intro x k k' h
    rw [run, run, h x (.refl dir x)]

/-- The units a cursor still has before it. -/
def ahead (dir : Direction) (x : Cursor) : ℕ :=
  match dir with
  | .forward => x.right.length
  | .backward => x.left.length

theorem Reaches.length_eq (h : Reaches dir x y) :
    y.left.length + y.right.length = x.left.length + x.right.length := by
  cases dir <;> obtain ⟨seg, hr, hl⟩ := h <;> rw [hr, hl] <;> simp <;> omega

theorem Reaches.ahead_le (h : Reaches dir x y) : ahead dir y ≤ ahead dir x := by
  cases dir <;> obtain ⟨seg, hr, hl⟩ := h <;> simp [ahead, hr, hl]

theorem Reaches.ahead_lt (h : Reaches dir x y) (hmove : y.left.length ≠ x.left.length) :
    ahead dir y < ahead dir x := by
  have hlen := h.length_eq
  have hle := h.ahead_le
  cases dir <;> simp only [ahead] at hle ⊢ <;> omega

theorem ahead_le (dir : Direction) (x : Cursor) : ahead dir x ≤ x.left.length + x.right.length := by
  cases dir <;> simp [ahead]

/-- The fuel of a repetition does not matter once it covers what is ahead. -/
theorem repeatMatch_fuel (ic greedy : Bool) (r : Regex) (dir : Direction) {fuel fuel' min : ℕ}
    (max : Option ℕ) (x : Cursor) (k : Cursor → Option Cursor) (h : min + ahead dir x < fuel)
    (h' : min + ahead dir x < fuel') :
    repeatMatch (r.run ic dir) greedy fuel min max x k =
      repeatMatch (r.run ic dir) greedy fuel' min max x k := by
  induction fuel generalizing fuel' min max x k with
  | zero => omega
  | succ fuel ih =>
    obtain _ | fuel' := fuel'
    · omega
    have hmore : (r.run ic dir x fun y => if min = 0 ∧ y.left.length = x.left.length then none
        else repeatMatch (r.run ic dir) greedy fuel (min - 1) (max.map (· - 1)) y k) =
        r.run ic dir x fun y => if min = 0 ∧ y.left.length = x.left.length then none
          else repeatMatch (r.run ic dir) greedy fuel' (min - 1) (max.map (· - 1)) y k := by
      refine local_run ic r dir _ _ _ fun y hxy => ?_
      split_ifs with hstay
      · rfl
      · have hle := hxy.ahead_le
        have hlt : min = 0 → ahead dir y < ahead dir x := fun hmin =>
          hxy.ahead_lt fun h => hstay ⟨hmin, h⟩
        exact ih _ _ _ (by omega) (by omega)
    simp only [repeatMatch, hmore]

/-- One iteration of a repetition and the rest of it. -/
def iterate (ic greedy : Bool) (r : Regex) (dir : Direction) (min : ℕ) (max : Option ℕ) (x : Cursor)
    (k : Cursor → Option Cursor) : Option Cursor :=
  r.run ic dir x fun y =>
    if min = 0 ∧ y.left.length = x.left.length then none
    else (Regex.rep r (min - 1) (max.map (· - 1)) greedy).run ic dir y k

/-- A repetition, without fuel. -/
theorem run_rep (ic greedy : Bool) (r : Regex) (dir : Direction) (min : ℕ) (max : Option ℕ)
    (x : Cursor) (k : Cursor → Option Cursor) :
    (Regex.rep r min max greedy).run ic dir x k =
      if max = some 0 then k x
      else if min ≠ 0 then iterate ic greedy r dir min max x k
      else if greedy then (iterate ic greedy r dir min max x k).orElse fun _ => k x
      else (k x).orElse fun _ => iterate ic greedy r dir min max x k := by
  have hmore : (r.run ic dir x fun y => if min = 0 ∧ y.left.length = x.left.length then none
      else repeatMatch (r.run ic dir) greedy (min + x.left.length + x.right.length) (min - 1)
        (max.map (· - 1)) y k) = iterate ic greedy r dir min max x k := by
    refine local_run ic r dir _ _ _ fun y hxy => ?_
    split_ifs with hstay
    · rfl
    · have hle := hxy.ahead_le
      have hx := ahead_le dir x
      have hy := ahead_le dir y
      have hlt : min = 0 → ahead dir y < ahead dir x := fun hmin =>
        hxy.ahead_lt fun h => hstay ⟨hmin, h⟩
      exact repeatMatch_fuel ic greedy r dir _ y k (by omega) (by omega)
  rw [run, repeatMatch]
  simp only [hmore]

/-! ### What a pattern matches -/

theorem Matches.reaches (h : Matches ic r dir x y) : Reaches dir x y := by
  induction h with
  | empty => exact .refl _ _
  | set h => exact reaches_takeUnit h
  | seqForward _ _ iha ihb => exact iha.trans ihb
  | seqBackward _ _ ihb iha => exact ihb.trans iha
  | altLeft _ ih => exact ih
  | altRight _ ih => exact ih
  | repSpent => exact .refl _ _
  | repDone => exact .refl _ _
  | repMore _ _ _ _ ih ihrest => exact ih.trans ihrest
  | wordBoundary _ => exact .refl _ _
  | look _ => exact .refl _ _

/-- A matcher that hands on positions the pattern matches. -/
def Finds (P : Cursor → Cursor → Prop) (m : Cursor → (Cursor → Option Cursor) → Option Cursor) :
    Prop :=
  ∀ x k z, m x k = some z → ∃ y, P x y ∧ k y = some z

theorem finds_rep (h : Finds (Matches ic r dir) (r.run ic dir)) (min : ℕ) (max : Option ℕ)
    (greedy : Bool) :
    Finds (Matches ic (.rep r min max greedy) dir) ((Regex.rep r min max greedy).run ic dir) := by
  intro x k z hz
  induction hn : min + ahead dir x using Nat.strong_induction_on generalizing min max x with
  | _ n ih =>
    have hmore : max ≠ some 0 → iterate ic greedy r dir min max x k = some z →
        ∃ y, Matches ic (.rep r min max greedy) dir x y ∧ k y = some z := by
      intro hmax hz
      obtain ⟨y, hxy, hz⟩ := h _ _ _ hz
      split_ifs at hz with hstay
      have hle := hxy.reaches.ahead_le
      have hmove : min = 0 → y.left.length ≠ x.left.length := fun hmin hlen => hstay ⟨hmin, hlen⟩
      have hlt : min = 0 → ahead dir y < ahead dir x := fun hmin =>
        hxy.reaches.ahead_lt (hmove hmin)
      obtain ⟨u, hyu, hu⟩ := ih (min - 1 + ahead dir y) (by omega) (min - 1) _ y hz rfl
      exact ⟨u, .repMore hmax hxy hmove hyu, hu⟩
    rw [run_rep] at hz
    split_ifs at hz with hmax hmin hgreedy
    · exact ⟨x, hmax ▸ .repSpent, hz⟩
    · exact hmore hmax hz
    · rcases orElse_eq_some hz with hz | hz
      · exact hmore hmax hz
      · exact ⟨x, not_not.mp hmin ▸ .repDone, hz⟩
    · rcases orElse_eq_some hz with hz | hz
      · exact ⟨x, not_not.mp hmin ▸ .repDone, hz⟩
      · exact hmore hmax hz

/-- The matcher is sound. -/
theorem finds_run (ic : Bool) (r : Regex) (dir : Direction) :
    Finds (Matches ic r dir) (r.run ic dir) := by
  induction r generalizing dir with
  | empty => exact fun x k z h => ⟨x, .empty, h⟩
  | set ranges negated =>
    intro x k z h
    obtain ⟨y, hy, hk⟩ := Option.bind_eq_some_iff.mp h
    exact ⟨y, .set hy, hk⟩
  | seq a b iha ihb =>
    intro x k z h
    cases dir with
    | forward =>
      obtain ⟨y, hxy, hy⟩ := iha .forward _ _ _ h
      obtain ⟨u, hyu, hu⟩ := ihb .forward _ _ _ hy
      exact ⟨u, .seqForward hxy hyu, hu⟩
    | backward =>
      obtain ⟨y, hxy, hy⟩ := ihb .backward _ _ _ h
      obtain ⟨u, hyu, hu⟩ := iha .backward _ _ _ hy
      exact ⟨u, .seqBackward hxy hyu, hu⟩
  | alt a b iha ihb =>
    intro x k z h
    rcases orElse_eq_some h with h | h
    · obtain ⟨y, hy, hk⟩ := iha dir _ _ _ h
      exact ⟨y, .altLeft hy, hk⟩
    · obtain ⟨y, hy, hk⟩ := ihb dir _ _ _ h
      exact ⟨y, .altRight hy, hk⟩
  | rep r min max greedy ih => exact finds_rep (ih dir) min max greedy
  | wordBoundary =>
    intro x k z h
    rw [run] at h
    split_ifs at h with hb
    exact ⟨x, .wordBoundary (bne_iff_ne.mp hb), h⟩
  | look dir' negated r _ =>
    intro x k z h
    rw [run] at h
    split_ifs at h with hl
    exact ⟨x, .look (bne_iff_ne.mp hl), h⟩

theorem isSome_orElse_left {o : Option Cursor} {o' : Unit → Option Cursor} (h : o.isSome = true) :
    (o.orElse o').isSome = true := by
  cases o with
  | none => cases h
  | some y => rfl

theorem isSome_orElse_right {o : Option Cursor} {o' : Unit → Option Cursor}
    (h : (o' ()).isSome = true) : (o.orElse o').isSome = true := by
  cases o with
  | none => exact h
  | some y => rfl

/-- The matcher is complete. -/
theorem Matches.isSome_run (h : Matches ic r dir x y) {k : Cursor → Option Cursor}
    (hk : (k y).isSome = true) : (r.run ic dir x k).isSome = true := by
  induction h generalizing k with
  | empty => exact hk
  | set h => rwa [run, h]
  | seqForward _ _ iha ihb => exact iha (ihb hk)
  | seqBackward _ _ ihb iha => exact ihb (iha hk)
  | altLeft _ ih => exact isSome_orElse_left (ih hk)
  | altRight _ ih => exact isSome_orElse_right (ih hk)
  | repSpent => rwa [run_rep, if_pos rfl]
  | repDone =>
    rw [run_rep, if_neg (not_not.mpr rfl)]
    split_ifs
    · exact hk
    · exact isSome_orElse_right hk
    · exact isSome_orElse_left hk
  | @repMore r min max greedy dir x y z hmax _ hmove _ ih ihrest =>
    have hmore : (iterate ic greedy r dir min max x k).isSome = true := by
      refine ih ?_
      rw [if_neg fun h => hmove h.1 h.2]
      exact ihrest hk
    rw [run_rep, if_neg hmax]
    split_ifs
    · exact hmore
    · exact isSome_orElse_left hmore
    · exact isSome_orElse_right hmore
  | wordBoundary h => rwa [run, if_pos (bne_iff_ne.mpr h)]
  | look h => rwa [run, if_pos (bne_iff_ne.mpr h)]

theorem matches_of_matchAt (h : r.matchAt ic x = some y) : Matches ic r .forward x y := by
  obtain ⟨u, hxu, hu⟩ := finds_run ic r .forward _ _ _ h
  exact Option.some.inj hu ▸ hxu

theorem Matches.exists_matchAt (h : Matches ic r .forward x y) : ∃ u, r.matchAt ic x = some u :=
  Option.isSome_iff_exists.mp (h.isSome_run rfl)

/-! ### What a pattern consumes -/

/-- Behind `left` the pattern can match `w`, with `rest` to follow. -/
def Consumes (ic : Bool) (r : Regex) (left w rest : JsString) : Prop :=
  Matches ic r .forward ⟨left, w ++ rest⟩ ⟨w.reverse ++ left, rest⟩

variable {left w rest : JsString} {ranges : List (UInt16 × UInt16)} {negated greedy : Bool}

theorem exists_consumes (h : Matches ic r .forward x y) :
    ∃ w, x.right = w ++ y.right ∧ y.left = w.reverse ++ x.left ∧
      Consumes ic r x.left w y.right := by
  obtain ⟨w, hr, hl⟩ := h.reaches
  refine ⟨w, hr, hl, ?_⟩
  rw [Consumes, ← hr, ← hl]
  exact h

/-- Where the cursor does not move, nothing is read. -/
theorem eq_nil_of_stays (h : (⟨left, w ++ rest⟩ : Cursor) = ⟨w.reverse ++ left, rest⟩) : w = [] := by
  rw [Cursor.mk.injEq] at h
  simpa using h.2

theorem consumes_empty : Consumes ic .empty left w rest ↔ w = [] := by
  constructor
  · intro h
    unfold Consumes at h
    generalize hx : (⟨left, w ++ rest⟩ : Cursor) = x at h
    generalize hy : (⟨w.reverse ++ left, rest⟩ : Cursor) = y at h
    cases h
    exact eq_nil_of_stays (hx.trans hy.symm)
  · rintro rfl
    exact .empty

theorem consumes_set : Consumes ic (.set ranges negated) left w rest ↔
    ∃ c, w = [c] ∧ inSet ic ranges negated c = true := by
  constructor
  · intro h
    cases h with
    | set h =>
      cases w with
      | nil =>
        cases rest with
        | nil => cases h
        | cons c rest =>
          simp only [List.nil_append, takeUnit] at h
          split_ifs at h
          simp at h
      | cons c w =>
        simp only [List.cons_append, takeUnit] at h
        split_ifs at h with hc
        rw [Option.some.injEq, Cursor.mk.injEq] at h
        exact ⟨c, by simpa using h.2, hc⟩
  · rintro ⟨c, rfl, hc⟩
    exact .set (by simp [takeUnit, hc])

theorem consumes_seq : Consumes ic (.seq a b) left w rest ↔
    ∃ u v, w = u ++ v ∧ Consumes ic a left u (v ++ rest) ∧
      Consumes ic b (u.reverse ++ left) v rest := by
  constructor
  · intro h
    cases h with
    | seqForward ha hb =>
      obtain ⟨u, hu, hleft, ha⟩ := exists_consumes ha
      obtain ⟨v, hv, -, hb⟩ := exists_consumes hb
      simp only at hu hleft hv ha hb
      rw [hv] at hu ha
      rw [hleft] at hb
      refine ⟨u, v, ?_, ha, hb⟩
      rw [← List.append_assoc] at hu
      exact List.append_cancel_right hu
  · rintro ⟨u, v, rfl, ha, hb⟩
    refine .seqForward (y := ⟨u.reverse ++ left, v ++ rest⟩) ?_ ?_
    · rw [List.append_assoc]
      exact ha
    · rw [List.reverse_append, List.append_assoc]
      exact hb

theorem consumes_alt : Consumes ic (.alt a b) left w rest ↔
    Consumes ic a left w rest ∨ Consumes ic b left w rest := by
  constructor
  · intro h
    cases h with
    | altLeft h => exact .inl h
    | altRight h => exact .inr h
  · rintro (h | h)
    · exact .altLeft h
    · exact .altRight h

theorem consumes_look {dir : Direction} : Consumes ic (.look dir negated r) left w rest ↔
    w = [] ∧ (r.run ic dir ⟨left, rest⟩ some).isSome ≠ negated := by
  constructor
  · intro h
    unfold Consumes at h
    generalize hx : (⟨left, w ++ rest⟩ : Cursor) = x at h
    generalize hy : (⟨w.reverse ++ left, rest⟩ : Cursor) = y at h
    cases h with
    | look h =>
      obtain rfl : w = [] := eq_nil_of_stays (hx.trans hy.symm)
      exact ⟨rfl, hx ▸ h⟩
  · rintro ⟨rfl, h⟩
    exact .look h

theorem consumes_after : Consumes ic (after r) left w rest ↔
    w = [] ∧ (r.run ic .backward ⟨left, rest⟩ some).isSome = true := by
  rw [after, consumes_look, ne_eq, Bool.not_eq_false]

/-- A repetition without upper bound is done, or makes one more iteration. -/
theorem matches_rep_cases {n : ℕ} (h : Matches ic (.rep r n none greedy) dir x z) :
    n = 0 ∧ x = z ∨ ∃ y, Matches ic r dir x y ∧ Matches ic (.rep r (n - 1) none greedy) dir y z := by
  cases h with
  | repDone => exact .inl ⟨rfl, rfl⟩
  | repMore _ h _ hrest => exact .inr ⟨_, h, hrest⟩

/-- A repeated class takes any run of its units that is long enough. -/
theorem consumes_rep_set {n : ℕ} : Consumes ic (.rep (.set ranges negated) n none greedy) left w rest ↔
    n ≤ w.length ∧ ∀ c ∈ w, inSet ic ranges negated c = true := by
  constructor
  · intro h
    induction w generalizing n left with
    | nil =>
      rcases matches_rep_cases h with ⟨rfl, -⟩ | ⟨y, h, hrest⟩
      · simp
      · obtain ⟨u, hu, -, h⟩ := exists_consumes h
        obtain ⟨v, hv, -⟩ := exists_consumes hrest
        obtain ⟨c, rfl, -⟩ := consumes_set.mp h
        simp only at hu hv
        have := congrArg List.length (hu.trans (congrArg _ hv))
        simp at this
        omega
    | cons c w ih =>
      rcases matches_rep_cases h with ⟨-, h⟩ | ⟨y, h, hrest⟩
      · have := congrArg (fun x => x.right.length) h
        simp at this
        omega
      · obtain ⟨u, hu, hleft, h⟩ := exists_consumes h
        obtain ⟨d, rfl, hd⟩ := consumes_set.mp h
        simp only [List.cons_append, List.nil_append, List.cons.injEq] at hu
        obtain ⟨rfl, hu⟩ := hu
        have hy : y = ⟨c :: left, w ++ rest⟩ := by
          rw [hu]
          exact Cursor.mk.injEq .. ▸ ⟨hleft, rfl⟩
        have hrest : Consumes ic (.rep (.set ranges negated) (n - 1) none greedy) (c :: left) w
            rest := by
          rw [hy, List.reverse_cons, List.append_assoc] at hrest
          exact hrest
        obtain ⟨hlen, hall⟩ := ih hrest
        refine ⟨by rw [List.length_cons]; omega, ?_⟩
        exact List.forall_mem_cons.mpr ⟨hd, hall⟩
  · rintro ⟨hlen, hall⟩
    induction w generalizing n left with
    | nil =>
      obtain rfl : n = 0 := Nat.le_zero.mp hlen
      exact .repDone
    | cons c w ih =>
      obtain ⟨hc, hall⟩ := List.forall_mem_cons.mp hall
      refine .repMore (y := ⟨c :: left, w ++ rest⟩) (by simp) (.set (by simp [takeUnit, hc]))
        (fun _ => by simp) ?_
      rw [List.reverse_cons, List.append_assoc]
      exact ih (n := n - 1) (by rw [List.length_cons] at hlen; omega) hall

/-- A repetition with bounds makes one more iteration, or stops within them. -/
theorem matches_rep_le_cases {m n : ℕ} (h : Matches ic (.rep r m (some n) greedy) dir x z) :
    (m = 0 ∨ n = 0) ∧ x = z ∨ 0 < n ∧ ∃ y, Matches ic r dir x y ∧
      Matches ic (.rep r (m - 1) (some (n - 1)) greedy) dir y z := by
  cases h with
  | repSpent => exact .inl ⟨.inr rfl, rfl⟩
  | repDone => exact .inl ⟨.inl rfl, rfl⟩
  | repMore hmax h _ hrest =>
    refine .inr ⟨Nat.pos_of_ne_zero fun hn => hmax (congrArg some hn), _, h, hrest⟩

/-- A class repeated within bounds takes as many of its units. -/
theorem consumes_rep_set_le {m n : ℕ} (hmn : m ≤ n) :
    Consumes ic (.rep (.set ranges negated) m (some n) greedy) left w rest ↔
      (m ≤ w.length ∧ w.length ≤ n) ∧ ∀ c ∈ w, inSet ic ranges negated c = true := by
  constructor
  · intro h
    induction w generalizing m n left with
    | nil =>
      rcases matches_rep_le_cases h with ⟨hstop, -⟩ | ⟨-, y, h, hrest⟩
      · have : m = 0 := by omega
        simp [this]
      · obtain ⟨u, hu, -, h⟩ := exists_consumes h
        obtain ⟨v, hv, -⟩ := exists_consumes hrest
        obtain ⟨c, rfl, -⟩ := consumes_set.mp h
        simp only at hu hv
        have := congrArg List.length (hu.trans (congrArg _ hv))
        simp at this
        omega
    | cons c w ih =>
      rcases matches_rep_le_cases h with ⟨-, h⟩ | ⟨hn, y, h, hrest⟩
      · have := congrArg (fun x => x.right.length) h
        simp at this
        omega
      · obtain ⟨u, hu, hleft, h⟩ := exists_consumes h
        obtain ⟨d, rfl, hd⟩ := consumes_set.mp h
        simp only [List.cons_append, List.nil_append, List.cons.injEq] at hu
        obtain ⟨rfl, hu⟩ := hu
        have hy : y = ⟨c :: left, w ++ rest⟩ := by
          rw [hu]
          exact Cursor.mk.injEq .. ▸ ⟨hleft, rfl⟩
        have hrest : Consumes ic (.rep (.set ranges negated) (m - 1) (some (n - 1)) greedy)
            (c :: left) w rest := by
          rw [hy, List.reverse_cons, List.append_assoc] at hrest
          exact hrest
        obtain ⟨⟨hmin, hmax⟩, hall⟩ := ih (by omega) hrest
        refine ⟨by rw [List.length_cons]; omega, ?_⟩
        exact List.forall_mem_cons.mpr ⟨hd, hall⟩
  · rintro ⟨⟨hmin, hmax⟩, hall⟩
    induction w generalizing m n left with
    | nil =>
      obtain rfl : m = 0 := Nat.le_zero.mp hmin
      exact .repDone
    | cons c w ih =>
      obtain ⟨hc, hall⟩ := List.forall_mem_cons.mp hall
      rw [List.length_cons] at hmin hmax
      refine .repMore (y := ⟨c :: left, w ++ rest⟩) (by simp; omega)
        (.set (by simp [takeUnit, hc])) (fun _ => by simp) ?_
      rw [List.reverse_cons, List.append_assoc]
      exact ih (m := m - 1) (n := n - 1) (by omega) hall (by omega) (by omega)

theorem consumes_cat_cons {rs : List Regex} : Consumes ic (cat (r :: rs)) left w rest ↔
    ∃ u v, w = u ++ v ∧ Consumes ic r left u (v ++ rest) ∧
      Consumes ic (cat rs) (u.reverse ++ left) v rest := consumes_seq

theorem consumes_cat_nil : Consumes ic (cat []) left w rest ↔ w = [] := consumes_empty

theorem consumes_cat_one : Consumes ic (cat [r]) left w rest ↔ Consumes ic r left w rest := by
  rw [consumes_cat_cons]
  constructor
  · rintro ⟨u, v, rfl, h, hv⟩
    obtain rfl := consumes_cat_nil.mp hv
    simpa using h
  · exact fun h => ⟨w, [], (List.append_nil w).symm, h, consumes_cat_nil.mpr rfl⟩

/-- A unit of one of the ranges is in the class. -/
theorem inSet_of_mem {lo hi c : UInt16} (h : (lo, hi) ∈ ranges) (hlo : lo ≤ c) (hhi : c ≤ hi) :
    inSet ic ranges false c = true := by
  have hrange : inRanges ranges c = true := List.any_eq_true.mpr ⟨(lo, hi), h, by simp [hlo, hhi]⟩
  simp [inSet, hrange]

theorem inSet_unit {c d : UInt16} : inSet false [(c, c)] false d = true ↔ d = c := by
  simp only [inSet, inRanges, List.any_cons, List.any_nil, Bool.or_false, Bool.false_and,
    Bool.bne_false, Bool.and_eq_true, decide_eq_true_eq]
  constructor
  · rintro ⟨h, h'⟩
    exact UInt16.le_antisymm h' h
  · rintro rfl
    exact ⟨UInt16.le_refl _, UInt16.le_refl _⟩

theorem consumes_unit {c : UInt16} : Consumes false (unit c) left w rest ↔ w = [c] := by
  rw [unit, consumes_set]
  constructor
  · rintro ⟨d, rfl, h⟩
    rw [inSet_unit.mp h]
  · rintro rfl
    exact ⟨c, rfl, inSet_unit.mpr rfl⟩

theorem consumes_text {s : JsString} : Consumes false (text s) left w rest ↔ w = s := by
  induction s generalizing left w with
  | nil => exact consumes_empty
  | cons c s ih =>
    rw [text, List.foldr_cons, consumes_seq]
    constructor
    · rintro ⟨u, v, rfl, hu, hv⟩
      rw [consumes_unit.mp hu, ih.mp hv]
      rfl
    · rintro rfl
      exact ⟨[c], s, rfl, consumes_unit.mpr rfl, ih.mpr rfl⟩

theorem consumes_oneOf {rs : List Regex} (hrs : rs ≠ []) :
    Consumes ic (oneOf rs) left w rest ↔ ∃ r ∈ rs, Consumes ic r left w rest := by
  induction rs with
  | nil => exact absurd rfl hrs
  | cons r rs ih =>
    cases rs with
    | nil => simp [oneOf]
    | cons r' rs =>
      rw [oneOf, consumes_alt, ih (List.cons_ne_nil r' rs)]
      · simp
      · simp

/-- No class of the pattern holds the unit. -/
def avoids (ic : Bool) (c : UInt16) : Regex → Bool
  | .set ranges negated => !inSet ic ranges negated c
  | .seq a b => avoids ic c a && avoids ic c b
  | .alt a b => avoids ic c a && avoids ic c b
  | .rep r _ _ _ => avoids ic c r
  | _ => true

/-- A pattern does not consume a unit that it avoids. -/
theorem Matches.notMem_of_avoids {c : UInt16} (h : Matches ic r .forward x y)
    (hr : r.avoids ic c = true) : ∃ w, x.right = w ++ y.right ∧ c ∉ w := by
  generalize hdir : Direction.forward = dir at h
  induction h with
  | @set ranges negated dir x y h =>
    subst hdir
    have hset : Matches ic (.set ranges negated) .forward x y := .set h
    obtain ⟨w, hx, -, h⟩ := exists_consumes hset
    obtain ⟨d, rfl, hd⟩ := consumes_set.mp h
    refine ⟨[d], hx, fun hc => ?_⟩
    rw [avoids, List.mem_singleton.mp hc, hd] at hr
    cases hr
  | seqForward _ _ iha ihb =>
    simp only [avoids, Bool.and_eq_true] at hr
    obtain ⟨u, hu, hcu⟩ := iha hr.1 hdir
    obtain ⟨v, hv, hcv⟩ := ihb hr.2 hdir
    exact ⟨u ++ v, by rw [hu, hv, List.append_assoc],
      fun h => (List.mem_append.mp h).elim hcu hcv⟩
  | seqBackward => cases hdir
  | altLeft _ ih =>
    simp only [avoids, Bool.and_eq_true] at hr
    exact ih hr.1 hdir
  | altRight _ ih =>
    simp only [avoids, Bool.and_eq_true] at hr
    exact ih hr.2 hdir
  | repMore _ _ _ _ ih ihrest =>
    obtain ⟨u, hu, hcu⟩ := ih hr hdir
    obtain ⟨v, hv, hcv⟩ := ihrest hr hdir
    exact ⟨u ++ v, by rw [hu, hv, List.append_assoc],
      fun h => (List.mem_append.mp h).elim hcu hcv⟩
  | _ => exact ⟨[], rfl, List.not_mem_nil⟩

theorem Consumes.notMem {c : UInt16} (h : Consumes ic r left w rest)
    (hr : r.avoids ic c = true) : c ∉ w := by
  obtain ⟨w', hw, hc⟩ := Matches.notMem_of_avoids h hr
  rwa [List.append_cancel_right hw]

/-! ### The matches in a text -/

theorem Reaches.pos_le (h : Reaches .forward x y) : x.pos ≤ y.pos := by
  obtain ⟨seg, -, hl⟩ := h
  simp [Cursor.pos, hl]

/-- Of two positions that are reached, the later is reached from the earlier. -/
theorem Reaches.of_pos_le (hy : Reaches .forward x y) (hz : Reaches .forward x z)
    (hle : y.pos ≤ z.pos) : Reaches .forward y z := by
  obtain ⟨s, hs, hsl⟩ := hy
  obtain ⟨t, ht, htl⟩ := hz
  have hlen : s.length ≤ t.length := by
    simp only [Cursor.pos, hsl, htl, List.length_append, List.length_reverse] at hle
    omega
  obtain ⟨u, rfl⟩ := List.prefix_of_prefix_length_le (List.prefix_append s y.right)
    (hs.symm.trans ht ▸ List.prefix_append t z.right) hlen
  refine ⟨u, ?_, ?_⟩
  · rw [hs, List.append_assoc] at ht
    exact List.append_cancel_left ht
  · rw [htl, hsl, List.reverse_append, List.append_assoc]

/-- A position that is reached is the same, or is reached from the next one. -/
theorem Reaches.eq_or_next (h : Reaches .forward x y) :
    x = y ∨ ∃ c s, x.right = c :: s ∧ Reaches .forward ⟨c :: x.left, s⟩ y := by
  obtain ⟨seg, hr, hl⟩ := h
  cases seg with
  | nil =>
    left
    cases x
    cases y
    simp_all
  | cons c seg =>
    exact .inr ⟨c, seg ++ y.right, hr, seg, rfl, by simp [hl]⟩

variable {m : Span}

theorem mem_matchesFrom {fuel : ℕ} (h : m ∈ matchesFrom ic r fuel x) :
    ∃ u v, Reaches .forward x u ∧ r.matchAt ic u = some v ∧ m = ⟨u.pos, v.pos⟩ := by
  induction fuel generalizing x with
  | zero => cases h
  | succ fuel ih =>
    have hskip : ∀ c s, x.right = c :: s → m ∈ matchesFrom ic r fuel ⟨c :: x.left, s⟩ →
        ∃ u v, Reaches .forward x u ∧ r.matchAt ic u = some v ∧ m = ⟨u.pos, v.pos⟩ := by
      intro c s hr h
      obtain ⟨u, v, hu, h⟩ := ih h
      have hnext : Reaches .forward x ⟨c :: x.left, s⟩ := ⟨[c], hr, rfl⟩
      exact ⟨u, v, hnext.trans hu, h⟩
    rw [matchesFrom] at h
    split at h
    · next y hy =>
      rcases List.mem_cons.mp h with rfl | h
      · exact ⟨x, y, .refl _ x, hy, rfl⟩
      · split_ifs at h
        · split at h
          · cases h
          · next c s hr => exact hskip c s hr h
        · obtain ⟨u, v, hu, h⟩ := ih h
          exact ⟨u, v, (reaches_matchAt hy).trans hu, h⟩
    · split at h
      · cases h
      · next c s hr => exact hskip c s hr h

theorem matchesFrom_pairwise (fuel : ℕ) (x : Cursor) :
    (matchesFrom ic r fuel x).Pairwise fun m m' => m.stop ≤ m'.start := by
  have hfrom : ∀ {fuel y m}, m ∈ matchesFrom ic r fuel y → y.pos ≤ m.start := by
    intro fuel y m h
    obtain ⟨u, v, hu, -, rfl⟩ := mem_matchesFrom h
    exact hu.pos_le
  induction fuel generalizing x with
  | zero => exact List.Pairwise.nil
  | succ fuel ih =>
    rw [matchesFrom]
    split
    · next y hy =>
      refine List.pairwise_cons.mpr ⟨fun m hm => ?_, ?_⟩
      · split_ifs at hm with hpos
        · split at hm
          · cases hm
          · have := hfrom hm
            simp only [Cursor.pos, List.length_cons] at this hpos ⊢
            omega
        · exact hfrom hm
      · split_ifs
        · split
          · exact List.Pairwise.nil
          · exact ih _
        · exact ih y
    · split
      · exact List.Pairwise.nil
      · exact ih _

/-- Where the pattern matches some units there is a match that holds the first of them. -/
theorem exists_mem_matchesFrom {fuel : ℕ} {u v : Cursor} (hfuel : x.right.length < fuel)
    (hu : Reaches .forward x u) (h : r.matchAt ic u = some v) (hpos : u.pos < v.pos) :
    ∃ m ∈ matchesFrom ic r fuel x, m.start ≤ u.pos ∧ u.pos < m.stop := by
  induction fuel generalizing x with
  | zero => omega
  | succ fuel ih =>
    have hskip : x ≠ u → ∃ c s, x.right = c :: s ∧
        ∃ m ∈ matchesFrom ic r fuel ⟨c :: x.left, s⟩, m.start ≤ u.pos ∧ u.pos < m.stop := by
      intro hne
      obtain ⟨c, s, hr, hu⟩ := hu.eq_or_next.resolve_left hne
      rw [hr] at hfuel
      exact ⟨c, s, hr, ih (by simpa using hfuel) hu⟩
    rw [matchesFrom]
    split
    · next y hy =>
      by_cases hlt : u.pos < y.pos
      · exact ⟨_, List.mem_cons_self, hu.pos_le, hlt⟩
      · split_ifs with hstay
        · have hne : x ≠ u := by
            rintro rfl
            rw [h] at hy
            exact hlt (Option.some.inj hy ▸ hpos)
          obtain ⟨c, s, hr, m, hm, hmu⟩ := hskip hne
          rw [hr]
          exact ⟨m, List.mem_cons_of_mem _ hm, hmu⟩
        · have hxy := reaches_matchAt hy
          have hlen := hxy.length_eq
          have hle := hxy.pos_le
          simp only [Cursor.pos] at hstay hle
          obtain ⟨m, hm, hmu⟩ := ih (by omega) (hxy.of_pos_le hu (not_lt.mp hlt))
          exact ⟨m, List.mem_cons_of_mem _ hm, hmu⟩
    · next hnone =>
      have hne : x ≠ u := by
        rintro rfl
        rw [h] at hnone
        cases hnone
      obtain ⟨c, s, hr, m, hm, hmu⟩ := hskip hne
      rw [hr]
      exact ⟨m, hm, hmu⟩

/-- A unit within a part of a text is one of that part. -/
theorem mem_of_getElem?_middle {a w b : JsString} {i : ℕ} {c : UInt16}
    (h : (a ++ w ++ b)[i]? = some c) (hle : a.length ≤ i) (hlt : i < a.length + w.length) :
    c ∈ w := by
  rw [List.append_assoc, List.getElem?_append_right hle, List.getElem?_append_left (by omega)] at h
  exact List.mem_of_getElem? h

/-- A match of a text is a part of it that the pattern consumes. -/
theorem exists_of_mem_matchAll {s : JsString} (h : m ∈ r.matchAll ic s) :
    ∃ a w b, s = a ++ w ++ b ∧ m = ⟨a.length, a.length + w.length⟩ ∧
      Consumes ic r a.reverse w b := by
  obtain ⟨u, v, ⟨a, hs, hl⟩, huv, rfl⟩ := mem_matchesFrom h
  obtain ⟨w, hr, hv, hw⟩ := exists_consumes (matches_of_matchAt huv)
  have hleft : u.left = a.reverse := by simpa [Cursor.start] using hl
  refine ⟨a, w, v.right, ?_, ?_, hleft ▸ hw⟩
  · rw [List.append_assoc, ← hr, ← hs]
    rfl
  · simp [Cursor.pos, hv, hleft, Nat.add_comm]

theorem matchAll_pairwise (ic : Bool) (r : Regex) (s : JsString) :
    (r.matchAll ic s).Pairwise fun m m' => m.stop ≤ m'.start := matchesFrom_pairwise _ _

theorem matchAll_disjoint {s : JsString} {m' : Span} (h : m ∈ r.matchAll ic s)
    (h' : m' ∈ r.matchAll ic s) (hne : m ≠ m') : m.stop ≤ m'.start ∨ m'.stop ≤ m.start := by
  have : Std.Symm fun m m' : Span => m.stop ≤ m'.start ∨ m'.stop ≤ m.start := ⟨fun _ _ => Or.symm⟩
  have hdisjoint : (r.matchAll ic s).Pairwise fun m m' => m.stop ≤ m'.start ∨ m'.stop ≤ m.start :=
    (matchAll_pairwise ic r s).imp Or.inl
  exact hdisjoint.forall h h' hne

/-- Where a pattern can consume something there is a match, or an earlier one reaches there. -/
theorem exists_mem_matchAll {a w b : JsString} (hr : ∀ left rest, ¬Consumes ic r left [] rest)
    (h : Consumes ic r a.reverse w b) :
    ∃ m ∈ r.matchAll ic (a ++ w ++ b), m.start ≤ a.length ∧ a.length < m.stop := by
  rw [← List.append_nil a.reverse] at h
  obtain ⟨v, hv⟩ := Matches.exists_matchAt h
  obtain ⟨w', -, hleft, hw'⟩ := exists_consumes (matches_of_matchAt hv)
  have hne : w' ≠ [] := fun heq => hr _ _ (heq ▸ hw')
  have hlen := List.length_pos_iff.mpr hne
  have hreach : Reaches .forward (Cursor.start (a ++ w ++ b)) ⟨a.reverse ++ [], w ++ b⟩ :=
    ⟨a, List.append_assoc a w b, rfl⟩
  have hpos : a.reverse.length < v.pos := by
    rw [Cursor.pos, hleft]
    simp
    omega
  obtain ⟨m, hm, hstart, hstop⟩ := exists_mem_matchesFrom (Nat.lt_succ_self _) hreach hv (by simpa)
  simp only [Cursor.pos, List.append_nil, List.length_reverse] at hstart hstop
  exact ⟨m, hm, hstart, hstop⟩

/-! ### Patterns of a whole text -/

theorem isMatch_iff {s : JsString} : r.isMatch s = true ↔ Consumes false r [] s [] := by
  rw [isMatch, Option.isSome_iff_exists]
  constructor
  · rintro ⟨z, hz⟩
    obtain ⟨y, hy, hk⟩ := finds_run false r .forward _ _ _ hz
    split_ifs at hk with hright
    obtain ⟨w, hr, -, hw⟩ := exists_consumes hy
    rw [List.isEmpty_iff.mp hright] at hr hw
    simp only [Cursor.start, List.append_nil] at hr hw
    exact hr ▸ hw
  · intro h
    have := Matches.isSome_run h (k := fun y => if y.right.isEmpty then some y else none) rfl
    rw [List.append_nil] at this
    exact Option.isSome_iff_exists.mp this

end Haechi.Text.Regex
