import Mathlib.Tactic

/-! Texts cut at a delimiter, each piece with the delimiter at its end: by searching the
text for it, as a reader does that keeps a buffer, and by one element after the other. Both
give the same, so a text may come in parts. -/

namespace Haechi.Delimited

variable {α : Type} [DecidableEq α] {delim cur buffer text xs ys : List α} {i n : ℕ}

/-- The place of the first delimiter. -/
def indexOf (delim : List α) : List α → Option ℕ
  | [] => if delim.isEmpty then some 0 else none
  | x :: xs => if delim.isPrefixOf (x :: xs) then some 0 else (indexOf delim xs).map (· + 1)

/-- Cut off one piece after the other; every delimiter that is found makes the buffer
shorter. -/
def cutFrom (delim : List α) : ℕ → List α → List (List α) × List α
  | 0, buffer => ([], buffer)
  | n + 1, buffer =>
    match indexOf delim buffer with
    | none => ([], buffer)
    | some i =>
      let rest := cutFrom delim n (buffer.drop (i + delim.length))
      (buffer.take (i + delim.length) :: rest.1, rest.2)

/-- The whole pieces of a buffer, and what is left of it. -/
def cut (delim buffer : List α) : List (List α) × List α := cutFrom delim buffer.length buffer

/-- One element after the other: the piece that is open, and a new one after a delimiter. -/
def feed (delim : List α) : List α → List α → List (List α) × List α
  | cur, [] => ([], cur)
  | cur, x :: xs =>
    if delim.isSuffixOf (cur ++ [x]) then ((cur ++ [x]) :: (feed delim [] xs).1, (feed delim [] xs).2)
    else feed delim (cur ++ [x]) xs

/-- What comes in two parts is cut as the whole. -/
theorem feed_append (delim cur xs ys : List α) :
    feed delim cur (xs ++ ys) =
      ((feed delim cur xs).1 ++ (feed delim (feed delim cur xs).2 ys).1,
        (feed delim (feed delim cur xs).2 ys).2) := by
  induction xs generalizing cur with
  | nil => rfl
  | cons x xs ih =>
    rw [List.cons_append, feed, feed]
    split
    · rw [ih]
      rfl
    · exact ih _

/-- Nothing is lost. -/
theorem feed_flatten (delim cur xs : List α) :
    (feed delim cur xs).1.flatten ++ (feed delim cur xs).2 = cur ++ xs := by
  induction xs generalizing cur with
  | nil => simp [feed]
  | cons x xs ih =>
    rw [feed]
    split
    · rw [List.flatten_cons, List.append_assoc, ih]
      simp
    · rw [ih]
      simp

/-! ### The search -/

theorem indexOf_spec (hne : delim ≠ []) (s : List α) :
    (indexOf delim s = none ∧ ∀ j, ¬delim <+: s.drop j) ∨
    ∃ i, indexOf delim s = some i ∧ delim <+: s.drop i ∧ ∀ j < i, ¬delim <+: s.drop j := by
  induction s with
  | nil =>
    refine .inl ⟨by simp [indexOf, hne], fun j => ?_⟩
    rw [List.drop_nil, List.prefix_nil]
    exact hne
  | cons x xs ih =>
    by_cases hpre : delim <+: x :: xs
    · refine .inr ⟨0, ?_, hpre, fun j hj => absurd hj (Nat.not_lt_zero j)⟩
      rw [indexOf, if_pos (List.isPrefixOf_iff_prefix.2 hpre)]
    · have hidx : indexOf delim (x :: xs) = (indexOf delim xs).map (· + 1) := by
        rw [indexOf, if_neg (mt List.isPrefixOf_iff_prefix.1 hpre)]
      rcases ih with ⟨hnone, hall⟩ | ⟨i, hsome, hat, hall⟩
      · refine .inl ⟨by rw [hidx, hnone]; rfl, fun j => ?_⟩
        cases j with
        | zero => exact hpre
        | succ j => exact hall j
      · refine .inr ⟨i + 1, by rw [hidx, hsome]; rfl, hat, fun j hj => ?_⟩
        cases j with
        | zero => exact hpre
        | succ j => exact hall j (Nat.lt_of_succ_lt_succ hj)

omit [DecidableEq α] in
/-- A delimiter at the end of the open piece is one at its place in the whole. -/
theorem prefix_drop_of_suffix {x : α} (h : delim <:+ cur ++ [x]) (rest : List α) :
    delim <+: (cur ++ x :: rest).drop (cur.length + 1 - delim.length) := by
  obtain ⟨pre, hpre⟩ := h
  have hlen : pre.length = cur.length + 1 - delim.length := by
    have := congrArg List.length hpre
    rw [List.length_append, List.length_append, List.length_singleton] at this
    omega
  rw [show cur ++ x :: rest = pre ++ (delim ++ rest) by
    rw [← List.append_assoc, hpre, List.append_assoc]; rfl, ← hlen, List.drop_left]
  exact List.prefix_append _ _

omit [DecidableEq α] in
theorem take_concat (cur : List α) (x : α) (rest : List α) :
    (cur ++ x :: rest).take (cur.length + 1) = cur ++ [x] := by
  rw [List.take_append, List.take_of_length_le (Nat.le_succ _)]
  simp

omit [DecidableEq α] in
theorem suffix_of_prefix_drop {x : α} {rest : List α} (hi : i + delim.length = cur.length + 1)
    (h : delim <+: (cur ++ x :: rest).drop i) : delim <:+ cur ++ [x] := by
  rw [← take_concat cur x rest, ← hi, List.take_add, ← List.prefix_iff_eq_take.1 h]
  exact List.suffix_append _ _

/-- Where there is no delimiter the piece stays open. -/
theorem feed_of_none (cur text : List α) (h : ∀ j, ¬delim <+: (cur ++ text).drop j) :
    feed delim cur text = ([], cur ++ text) := by
  induction text generalizing cur with
  | nil => rw [feed, List.append_nil]
  | cons x xs ih =>
    have hsuf : ¬delim.isSuffixOf (cur ++ [x]) := fun hsuf =>
      h _ (prefix_drop_of_suffix (List.isSuffixOf_iff_suffix.1 hsuf) xs)
    have happ : cur ++ [x] ++ xs = cur ++ x :: xs := by simp
    rw [feed, if_neg hsuf, ih _ (by rwa [happ]), happ]

/-- The piece ends with the first delimiter. -/
theorem feed_of_first (hne : delim ≠ []) (cur text : List α)
    (hat : delim <+: (cur ++ text).drop i)
    (hfirst : ∀ j < i, ¬delim <+: (cur ++ text).drop j) (hlt : cur.length < i + delim.length) :
    feed delim cur text =
      ((cur ++ text).take (i + delim.length) ::
          (feed delim [] ((cur ++ text).drop (i + delim.length))).1,
        (feed delim [] ((cur ++ text).drop (i + delim.length))).2) := by
  induction text generalizing cur with
  | nil =>
    have hle := hat.length_le
    have hpos := List.length_pos_iff.2 hne
    rw [List.append_nil, List.length_drop] at hle
    omega
  | cons x xs ih =>
    rw [feed]
    by_cases hend : i + delim.length = cur.length + 1
    · have hsuf := suffix_of_prefix_drop hend hat
      rw [if_pos (List.isSuffixOf_iff_suffix.2 hsuf), hend, take_concat]
      have hdrop : (cur ++ x :: xs).drop (cur.length + 1) = xs := by
        rw [List.drop_append, List.drop_of_length_le (Nat.le_succ _)]
        simp
      rw [hdrop]
    · have hsuf : ¬delim.isSuffixOf (cur ++ [x]) := fun hsuf => by
        have hsuf := List.isSuffixOf_iff_suffix.1 hsuf
        have hle := hsuf.length_le
        rw [List.length_append, List.length_singleton] at hle
        exact hfirst (cur.length + 1 - delim.length) (by omega) (prefix_drop_of_suffix hsuf xs)
      have happ : cur ++ [x] ++ xs = cur ++ x :: xs := by simp
      rw [if_neg hsuf]
      have hrest := ih (cur ++ [x]) (by rwa [happ]) (by rwa [happ])
        (by rw [List.length_append, List.length_singleton]; omega)
      rwa [happ] at hrest

/-- The search finds the pieces, if it may look often enough. -/
theorem cutFrom_eq_feed (hne : delim ≠ []) (hn : buffer.length ≤ n) :
    cutFrom delim n buffer = feed delim [] buffer := by
  induction n generalizing buffer with
  | zero =>
    rw [List.length_eq_zero_iff.1 (Nat.le_zero.1 hn)]
    rfl
  | succ n ih =>
    have hpos : 0 < delim.length := List.length_pos_iff.2 hne
    rcases indexOf_spec hne buffer with ⟨hidx, hall⟩ | ⟨i, hidx, hat, hfirst⟩
    · rw [cutFrom, hidx, feed_of_none [] buffer hall]
      rfl
    · have hshort : (buffer.drop (i + delim.length)).length ≤ n := by
        rw [List.length_drop]
        omega
      rw [cutFrom, hidx, feed_of_first hne [] buffer hat hfirst (by simp; omega)]
      simp only [ih hshort, List.nil_append]

theorem cut_eq_feed (hne : delim ≠ []) (buffer : List α) : cut delim buffer = feed delim [] buffer :=
  cutFrom_eq_feed hne le_rfl

/-- There is no delimiter in what is left. -/
theorem feed_left (hcur : feed delim [] cur = ([], cur)) (xs : List α) :
    feed delim [] (feed delim cur xs).2 = ([], (feed delim cur xs).2) := by
  induction xs generalizing cur with
  | nil => exact hcur
  | cons x xs ih =>
    rw [feed]
    split
    next => exact ih rfl
    next hsuf =>
      refine ih ?_
      rw [feed_append, hcur, feed, if_neg hsuf]
      rfl

/-- The pieces of what comes in two parts. -/
theorem cut_append (hne : delim ≠ []) (xs ys : List α) :
    cut delim (xs ++ ys) =
      ((cut delim xs).1 ++ (cut delim ((cut delim xs).2 ++ ys)).1,
        (cut delim ((cut delim xs).2 ++ ys)).2) := by
  rw [cut_eq_feed hne, cut_eq_feed hne, cut_eq_feed hne, feed_append, feed_append _ [] _ ys,
    feed_left rfl, List.nil_append]

/-- The pieces and what is left are the whole. -/
theorem cut_flatten (hne : delim ≠ []) (buffer : List α) :
    (cut delim buffer).1.flatten ++ (cut delim buffer).2 = buffer := by
  rw [cut_eq_feed hne]
  exact feed_flatten delim [] buffer

end Haechi.Delimited
