import Haechi.Text.Units

/-! Bracketed markers in a text. Two markers overlap in no text, so the occurrences of
one can be counted apart in what stands before and behind a bracket, and replacing them
all is replacing them one by one. -/

namespace Haechi.Text

/-- A text in brackets that holds no bracket itself. -/
def IsMarker (w : JsString) : Prop := ∃ body, w = 91 :: (body ++ [93]) ∧ 91 ∉ body ∧ 93 ∉ body

/-- How often a marker stands in a text. -/
def occurrences (w : JsString) : JsString → ℕ
  | [] => 0
  | c :: s => (if w.isPrefixOf (c :: s) then 1 else 0) + occurrences w s

/-- The loop of `s.split(w).join(p)`, with the units of a marker still to be skipped. -/
def replaceFrom (w p : JsString) : ℕ → JsString → JsString
  | _, [] => []
  | skip + 1, _ :: s => replaceFrom w p skip s
  | 0, c :: s =>
    if w.isPrefixOf (c :: s) then p ++ replaceFrom w p (w.length - 1) s
    else c :: replaceFrom w p 0 s

/-- `s.split(w).join(p)`. -/
def replaceAll (w p s : JsString) : JsString := replaceFrom w p 0 s

variable {w u : JsString}

namespace IsMarker

theorem ne_nil (h : IsMarker w) : w ≠ [] := by
  obtain ⟨body, rfl, -⟩ := h
  simp

theorem length_pos (h : IsMarker w) : 0 < w.length := List.length_pos_iff.mpr h.ne_nil

/-- A marker opens once. -/
theorem eq_zero_of_open (h : IsMarker w) {i : ℕ} (hi : w[i]? = some 91) : i = 0 := by
  obtain ⟨body, rfl, hopen, -⟩ := h
  cases i with
  | zero => rfl
  | succ i =>
    have hmem := List.mem_of_getElem? (List.getElem?_cons_succ ▸ hi)
    rw [List.mem_append, List.mem_singleton] at hmem
    exact absurd (hmem.resolve_right (by decide)) hopen

theorem head (h : IsMarker w) : ∃ t, w = 91 :: t := by
  obtain ⟨body, rfl, -⟩ := h
  exact ⟨_, rfl⟩

/-- A marker is no proper prefix of another one. -/
theorem eq_of_prefix (hw : IsMarker w) (hu : IsMarker u) {s : JsString} (h : w <+: u ++ s) :
    w = u := by
  obtain ⟨bw, rfl, -, hcw⟩ := hw
  obtain ⟨bu, rfl, -, hcu⟩ := hu
  obtain ⟨t, ht⟩ := h
  simp only [List.cons_append, List.append_assoc, List.nil_append, List.cons.injEq,
    true_and] at ht
  have hbody : bw = bu := by
    rcases List.append_eq_append_iff.mp ht with ⟨m, hm, hm'⟩ | ⟨m, hm, hm'⟩
    · cases m with
      | nil => simpa using hm.symm
      | cons c m =>
        rw [List.cons_append, List.cons.injEq] at hm'
        exact absurd (by rw [hm, ← hm'.1]; simp) hcu
    · cases m with
      | nil => simpa using hm
      | cons c m =>
        rw [List.cons_append, List.cons.injEq] at hm'
        exact absurd (by rw [hm, ← hm'.1]; simp) hcw
  rw [hbody]

/-- A marker that starts before another one in a text ends before it. -/
theorem le_of_lt_stop (hw : IsMarker w) (hu : IsMarker u) {a b c d : JsString}
    (h : a ++ w ++ b = c ++ u ++ d) (hlt : c.length < a.length + w.length) :
    c.length ≤ a.length := by
  by_contra hle
  obtain ⟨s, rfl⟩ := hu.head
  have hopen : (a ++ w ++ b)[c.length]? = some 91 := by
    rw [h, List.append_assoc, List.getElem?_append_right le_rfl, Nat.sub_self]
    rfl
  rw [List.append_assoc, List.getElem?_append_right (by omega),
    List.getElem?_append_left (by omega)] at hopen
  have := hw.eq_zero_of_open hopen
  omega

/-- Two markers of a text that overlap are the same. -/
theorem eq_of_overlap (hw : IsMarker w) (hu : IsMarker u) {a b c d : JsString}
    (h : a ++ w ++ b = c ++ u ++ d) (hlt : c.length < a.length + w.length)
    (hlt' : a.length < c.length + u.length) : a = c ∧ w = u := by
  have hlen : a.length = c.length :=
    le_antisymm (hu.le_of_lt_stop hw h.symm hlt') (hw.le_of_lt_stop hu h hlt)
  rw [List.append_assoc, List.append_assoc] at h
  obtain ⟨rfl, hrest⟩ := List.append_inj h hlen
  exact ⟨rfl, hw.eq_of_prefix hu (hrest ▸ List.prefix_append w b)⟩

end IsMarker

/-! ### Counting -/

theorem occurrences_cons (c : UInt16) (s : JsString) :
    occurrences w (c :: s) = (if w <+: c :: s then 1 else 0) + occurrences w s := by
  simp only [occurrences, List.isPrefixOf_iff_prefix]

/-- A marker that starts in front of a bracket ends in front of it. -/
theorem prefix_append_open (hw : IsMarker w) {x : JsString} (hx : x ≠ []) (y : JsString) :
    w <+: x ++ 91 :: y ↔ w <+: x := by
  refine ⟨fun h => ?_, fun h => h.trans (List.prefix_append _ _)⟩
  by_contra hnot
  have hlen : x.length < w.length := by
    by_contra hle
    exact hnot (List.prefix_of_prefix_length_le h (List.prefix_append _ _) (not_lt.mp hle))
  have hopen : w[x.length]? = some 91 := by
    obtain ⟨t, ht⟩ := h
    have hget : (w ++ t)[x.length]? = some 91 := by rw [ht]; simp
    rwa [List.getElem?_append_left hlen] at hget
  exact hx (List.length_eq_zero_iff.mp (hw.eq_zero_of_open hopen))

theorem occurrences_append_open (hw : IsMarker w) (x y : JsString) :
    occurrences w (x ++ 91 :: y) = occurrences w x + occurrences w (91 :: y) := by
  induction x with
  | nil => simp [occurrences]
  | cons c x ih =>
    have hiff := prefix_append_open hw (List.cons_ne_nil c x) y
    rw [List.cons_append] at hiff
    rw [List.cons_append, occurrences_cons, occurrences_cons, ih]
    simp only [hiff, Nat.add_assoc]

/-- Joining texts makes no marker go away. -/
theorem occurrences_append_le (x y : JsString) :
    occurrences w x + occurrences w y ≤ occurrences w (x ++ y) := by
  induction x with
  | nil => simp [occurrences]
  | cons c x ih =>
    rw [List.cons_append, occurrences_cons, occurrences_cons]
    have himp : w <+: c :: x → w <+: c :: (x ++ y) := fun h =>
      h.trans (List.prefix_append (c :: x) y)
    split_ifs with h h' <;> first | omega | exact absurd (himp h) h'

/-- Nothing starts inside a marker. -/
theorem occurrences_of_no_open (hw : IsMarker w) {x : JsString} (hx : 91 ∉ x) (y : JsString) :
    occurrences w (x ++ y) = occurrences w y := by
  induction x with
  | nil => rfl
  | cons c x ih =>
    rw [List.mem_cons, not_or] at hx
    obtain ⟨t, ht⟩ := hw.head
    have hnot : ¬w <+: c :: (x ++ y) := by
      rw [ht, List.cons_prefix_cons]
      exact fun h => hx.1 h.1
    rw [List.cons_append, occurrences_cons, if_neg hnot, ih hx.2, Nat.zero_add]

theorem occurrences_marker (hw : IsMarker w) (hu : IsMarker u) (y : JsString) :
    occurrences w (u ++ y) = (if w = u then 1 else 0) + occurrences w y := by
  have hpre : w <+: u ++ y ↔ w = u :=
    ⟨hw.eq_of_prefix hu, fun h => h ▸ List.prefix_append _ _⟩
  obtain ⟨body, hbody, hopen, -⟩ := id hu
  have hrest : 91 ∉ body ++ [93] := by simpa using hopen
  rw [hbody] at hpre ⊢
  rw [List.cons_append] at hpre ⊢
  rw [occurrences_cons, occurrences_of_no_open hw hrest]
  simp only [hpre]

/-! ### Replacing -/

theorem replaceFrom_eq_drop (p : JsString) (n : ℕ) (s : JsString) :
    replaceFrom w p n s = replaceAll w p (s.drop n) := by
  induction s generalizing n with
  | nil => simp [replaceAll, replaceFrom]
  | cons c s ih =>
    cases n with
    | zero => rfl
    | succ n => rw [replaceFrom, ih, List.drop_succ_cons]

@[simp] theorem replaceAll_nil (p : JsString) : replaceAll w p [] = [] := rfl

theorem replaceAll_cons {c : UInt16} {s : JsString} (h : ¬w <+: c :: s) (p : JsString) :
    replaceAll w p (c :: s) = c :: replaceAll w p s := by
  rw [replaceAll, replaceFrom, if_neg (by rwa [List.isPrefixOf_iff_prefix]), replaceAll]

theorem replaceAll_marker (hw : w ≠ []) (p y : JsString) :
    replaceAll w p (w ++ y) = p ++ replaceAll w p y := by
  cases w with
  | nil => exact absurd rfl hw
  | cons c t =>
    have hpre : List.isPrefixOf (c :: t) (c :: (t ++ y)) = true := by
      rw [List.isPrefixOf_iff_prefix]
      exact List.prefix_append (c :: t) y
    rw [List.cons_append, replaceAll, replaceFrom, if_pos hpre, replaceFrom_eq_drop]
    simp

/-- A text without the marker stays. -/
theorem replaceAll_of_occurrences {s : JsString} (h : occurrences w s = 0) (p : JsString) :
    replaceAll w p s = s := by
  induction s with
  | nil => rfl
  | cons c s ih =>
    rw [occurrences_cons, Nat.add_eq_zero_iff] at h
    have hnot : ¬w <+: c :: s := by
      intro hpre
      simp [hpre] at h
    rw [replaceAll_cons hnot, ih h.2]

/-- What stands in front of a bracket is replaced on its own. -/
theorem replaceAll_append_open (hw : IsMarker w) (p x y : JsString) :
    replaceAll w p (x ++ 91 :: y) = replaceAll w p x ++ replaceAll w p (91 :: y) := by
  induction hn : x.length using Nat.strong_induction_on generalizing x with
  | _ n ih =>
    cases x with
    | nil => rfl
    | cons c x =>
      by_cases hpre : w <+: c :: x
      · obtain ⟨t, ht⟩ := hpre
        have hlt : t.length < n := by
          have hlen := congrArg List.length ht
          rw [List.length_append, hn] at hlen
          have := hw.length_pos
          omega
        rw [← ht, List.append_assoc, replaceAll_marker hw.ne_nil, replaceAll_marker hw.ne_nil,
          ih _ hlt t rfl, List.append_assoc]
      · have hnot : ¬w <+: c :: (x ++ 91 :: y) := by
          rwa [← List.cons_append, prefix_append_open hw (List.cons_ne_nil c x)]
        rw [List.cons_append, replaceAll_cons hnot, replaceAll_cons hpre,
          ih x.length (by rw [← hn]; simp) x rfl, List.cons_append]

end Haechi.Text
