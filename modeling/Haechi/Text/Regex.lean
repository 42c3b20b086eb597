import Haechi.Text.Units

/-! Regular expressions as ECMAScript matches them: a backtracking matcher that
passes what remains to be matched as a continuation, in the order of priority of
the alternatives. The matcher moves a cursor in either direction, so that a
lookbehind reads its own pattern backwards. Proved: a match never leaves the
text it is about. -/

namespace Haechi.Text

/-- A position in a text: what is before it, nearest unit first, and what is after. -/
structure Cursor where
  left : JsString
  right : JsString
deriving DecidableEq

namespace Cursor

/-- The start of a text. -/
def start (s : JsString) : Cursor := ⟨[], s⟩

def pos (x : Cursor) : ℕ := x.left.length

end Cursor

inductive Direction where
  | forward
  | backward
deriving DecidableEq

/-- Patterns without captures. A class is a list of ranges; `rep` carries its
bounds and whether it is greedy. -/
inductive Regex where
  | empty
  | set (ranges : List (UInt16 × UInt16)) (negated : Bool)
  | seq (a b : Regex)
  | alt (a b : Regex)
  | rep (r : Regex) (min : ℕ) (max : Option ℕ) (greedy : Bool)
  | wordBoundary
  | look (dir : Direction) (negated : Bool) (r : Regex)

/-- The other case of an ASCII letter. -/
def swapCase (c : UInt16) : UInt16 :=
  if 65 ≤ c && c ≤ 90 then c + 32 else if 97 ≤ c && c ≤ 122 then c - 32 else c

def inRanges (ranges : List (UInt16 × UInt16)) (c : UInt16) : Bool :=
  ranges.any fun r => r.1 ≤ c && c ≤ r.2

/-- A character against a class; with the `i` flag ASCII letters fold. -/
def inSet (ignoreCase : Bool) (ranges : List (UInt16 × UInt16)) (negated : Bool) (c : UInt16) :
    Bool :=
  (inRanges ranges c || (ignoreCase && inRanges ranges (swapCase c))) != negated

/-- The class `\w`. -/
def isWord (c : UInt16) : Bool :=
  (48 ≤ c && c ≤ 57) || (65 ≤ c && c ≤ 90) || (97 ≤ c && c ≤ 122) || c == 95

def headIsWord : JsString → Bool
  | [] => false
  | c :: _ => isWord c

namespace Regex

/-- Take one unit that satisfies `p`. -/
def takeUnit (p : UInt16 → Bool) (dir : Direction) (x : Cursor) : Option Cursor :=
  match dir with
  | .forward =>
    match x.right with
    | c :: rest => if p c then some ⟨c :: x.left, rest⟩ else none
    | [] => none
  | .backward =>
    match x.left with
    | c :: rest => if p c then some ⟨rest, c :: x.right⟩ else none
    | [] => none

/-- The `RepeatMatcher` of the language: an optional iteration must move. -/
def repeatMatch (m : Cursor → (Cursor → Option Cursor) → Option Cursor) (greedy : Bool) :
    ℕ → ℕ → Option ℕ → Cursor → (Cursor → Option Cursor) → Option Cursor
  | 0, _, _, x, k => k x
  | fuel + 1, min, max, x, k =>
    if max = some 0 then k x
    else
      let more := fun _ : Unit => m x fun y =>
        if min = 0 ∧ y.left.length = x.left.length then none
        else repeatMatch m greedy fuel (min - 1) (max.map (· - 1)) y k
      if min ≠ 0 then more ()
      else if greedy then (more ()).orElse fun _ => k x
      else (k x).orElse more

/-- Match `r` from a cursor, then whatever the continuation matches. -/
def run (ignoreCase : Bool) :
    Regex → Direction → Cursor → (Cursor → Option Cursor) → Option Cursor
  | .empty, _, x, k => k x
  | .set ranges negated, dir, x, k => (takeUnit (inSet ignoreCase ranges negated) dir x).bind k
  | .seq a b, dir, x, k =>
    match dir with
    | .forward => run ignoreCase a .forward x fun y => run ignoreCase b .forward y k
    | .backward => run ignoreCase b .backward x fun y => run ignoreCase a .backward y k
  | .alt a b, dir, x, k => (run ignoreCase a dir x k).orElse fun _ => run ignoreCase b dir x k
  | .rep r min max greedy, dir, x, k =>
    repeatMatch (run ignoreCase r dir) greedy (min + x.left.length + x.right.length + 1) min max x k
  | .wordBoundary, _, x, k => if headIsWord x.left != headIsWord x.right then k x else none
  | .look dir negated r, _, x, k =>
    if (run ignoreCase r dir x some).isSome != negated then k x else none

/-- The end of the match that starts here, if there is one. -/
def matchAt (ignoreCase : Bool) (r : Regex) (x : Cursor) : Option Cursor :=
  r.run ignoreCase .forward x some

end Regex

/-- A part of a text, by its offsets. -/
structure Span where
  start : ℕ
  stop : ℕ
deriving DecidableEq

namespace Regex

/-- `String.prototype.matchAll` with a global pattern, from a cursor on. -/
def matchesFrom (ignoreCase : Bool) (r : Regex) : ℕ → Cursor → List Span
  | 0, _ => []
  | fuel + 1, x =>
    match r.matchAt ignoreCase x with
    | some y =>
      ⟨x.pos, y.pos⟩ ::
        if y.pos = x.pos then
          match x.right with
          | [] => []
          | c :: rest => matchesFrom ignoreCase r fuel ⟨c :: x.left, rest⟩
        else matchesFrom ignoreCase r fuel y
    | none =>
      match x.right with
      | [] => []
      | c :: rest => matchesFrom ignoreCase r fuel ⟨c :: x.left, rest⟩

def matchAll (ignoreCase : Bool) (r : Regex) (s : JsString) : List Span :=
  matchesFrom ignoreCase r (s.length + 1) (Cursor.start s)

/-! ### A match stays in its text -/

/-- `y` is reached from `x` by moving in the direction. -/
def Reaches (dir : Direction) (x y : Cursor) : Prop :=
  match dir with
  | .forward => ∃ seg, x.right = seg ++ y.right ∧ y.left = seg.reverse ++ x.left
  | .backward => ∃ seg, y.right = seg ++ x.right ∧ x.left = seg.reverse ++ y.left

theorem Reaches.refl (dir : Direction) (x : Cursor) : Reaches dir x x := by
  cases dir <;> exact ⟨[], rfl, rfl⟩

theorem Reaches.trans {dir : Direction} {x y z : Cursor} (h : Reaches dir x y)
    (h' : Reaches dir y z) : Reaches dir x z := by
  cases dir with
  | forward =>
    obtain ⟨s, hs, hl⟩ := h
    obtain ⟨t, ht, hl'⟩ := h'
    exact ⟨s ++ t, by rw [hs, ht, List.append_assoc],
      by rw [hl', hl, List.reverse_append, List.append_assoc]⟩
  | backward =>
    obtain ⟨s, hs, hl⟩ := h
    obtain ⟨t, ht, hl'⟩ := h'
    exact ⟨t ++ s, by rw [ht, hs, List.append_assoc],
      by rw [hl, hl', List.reverse_append, List.append_assoc]⟩

theorem reaches_takeUnit {p : UInt16 → Bool} {dir : Direction} {x y : Cursor}
    (h : takeUnit p dir x = some y) : Reaches dir x y := by
  obtain ⟨left, right⟩ := x
  cases dir with
  | forward =>
    cases right with
    | nil => cases h
    | cons c rest =>
      simp only [takeUnit] at h
      split_ifs at h
      cases h
      exact ⟨[c], rfl, rfl⟩
  | backward =>
    cases left with
    | nil => cases h
    | cons c rest =>
      simp only [takeUnit] at h
      split_ifs at h
      cases h
      exact ⟨[c], rfl, rfl⟩

theorem orElse_eq_some {o : Option Cursor} {o' : Unit → Option Cursor} {z : Cursor}
    (h : o.orElse o' = some z) : o = some z ∨ o' () = some z := by
  cases o with
  | none => exact .inr h
  | some y => exact .inl h

/-- A matcher hands a position it reached to its continuation. -/
def Sound (dir : Direction) (m : Cursor → (Cursor → Option Cursor) → Option Cursor) : Prop :=
  ∀ x k z, m x k = some z → ∃ y, Reaches dir x y ∧ k y = some z

theorem sound_repeatMatch {dir : Direction}
    {m : Cursor → (Cursor → Option Cursor) → Option Cursor} (hm : Sound dir m) (greedy : Bool)
    (fuel min : ℕ) (max : Option ℕ) : Sound dir (repeatMatch m greedy fuel min max) := by
  induction fuel generalizing min max with
  | zero => exact fun x k z h => ⟨x, .refl dir x, h⟩
  | succ fuel ih =>
    intro x k z h
    have hmore : ∀ w, (m x fun y => if min = 0 ∧ y.left.length = x.left.length then none
        else repeatMatch m greedy fuel (min - 1) (max.map (· - 1)) y k) = some w →
        ∃ y, Reaches dir x y ∧ k y = some w := by
      intro w hw
      obtain ⟨y, hxy, hy⟩ := hm _ _ _ hw
      split_ifs at hy
      obtain ⟨u, hyu, hu⟩ := ih _ _ _ _ _ hy
      exact ⟨u, hxy.trans hyu, hu⟩
    rw [repeatMatch] at h
    simp only at h
    split_ifs at h with hmax hmin hgreedy
    · exact ⟨x, .refl dir x, h⟩
    · exact hmore z h
    · rcases orElse_eq_some h with h | h
      · exact hmore z h
      · exact ⟨x, .refl dir x, h⟩
    · rcases orElse_eq_some h with h | h
      · exact ⟨x, .refl dir x, h⟩
      · exact hmore z h

theorem sound_run (ignoreCase : Bool) (r : Regex) (dir : Direction) :
    Sound dir (r.run ignoreCase dir) := by
  induction r generalizing dir with
  | empty => exact fun x k z h => ⟨x, .refl dir x, h⟩
  | set ranges negated =>
    intro x k z h
    obtain ⟨y, hy, hk⟩ := Option.bind_eq_some_iff.mp h
    exact ⟨y, reaches_takeUnit hy, hk⟩
  | seq a b iha ihb =>
    intro x k z h
    cases dir with
    | forward =>
      obtain ⟨y, hxy, hy⟩ := iha .forward _ _ _ h
      obtain ⟨u, hyu, hu⟩ := ihb .forward _ _ _ hy
      exact ⟨u, hxy.trans hyu, hu⟩
    | backward =>
      obtain ⟨y, hxy, hy⟩ := ihb .backward _ _ _ h
      obtain ⟨u, hyu, hu⟩ := iha .backward _ _ _ hy
      exact ⟨u, hxy.trans hyu, hu⟩
  | alt a b iha ihb =>
    intro x k z h
    rcases orElse_eq_some h with h | h
    · exact iha dir _ _ _ h
    · exact ihb dir _ _ _ h
  | rep r min max greedy ih =>
    intro x k z h
    exact sound_repeatMatch (ih dir) greedy _ min max x k z h
  | wordBoundary =>
    intro x k z h
    rw [run] at h
    split_ifs at h
    exact ⟨x, .refl dir x, h⟩
  | look dir' negated r _ =>
    intro x k z h
    rw [run] at h
    split_ifs at h
    exact ⟨x, .refl dir x, h⟩

theorem reaches_matchAt {ignoreCase : Bool} {r : Regex} {x y : Cursor}
    (h : r.matchAt ignoreCase x = some y) : Reaches .forward x y := by
  obtain ⟨u, hxu, hu⟩ := sound_run ignoreCase r .forward _ _ _ h
  obtain rfl := Option.some.inj hu
  exact hxu

theorem matchesFrom_inRange {ignoreCase : Bool} {r : Regex} (fuel : ℕ) (x : Cursor) :
    ∀ m ∈ matchesFrom ignoreCase r fuel x,
      m.start ≤ m.stop ∧ m.stop ≤ x.left.length + x.right.length := by
  induction fuel generalizing x with
  | zero => simp [matchesFrom]
  | succ fuel ih =>
    have hskip : ∀ m ∈ (match x.right with
        | [] => []
        | c :: rest => matchesFrom ignoreCase r fuel ⟨c :: x.left, rest⟩),
        m.start ≤ m.stop ∧ m.stop ≤ x.left.length + x.right.length := by
      intro m hm
      split at hm
      · cases hm
      · next c rest hr =>
        have := ih _ m hm
        rw [hr]
        simp only [List.length_cons] at this ⊢
        omega
    intro m hm
    rw [matchesFrom] at hm
    split at hm
    · next y hy =>
      obtain ⟨seg, hright, hleft⟩ := reaches_matchAt hy
      have hl : y.left.length = x.left.length + seg.length := by
        rw [hleft, List.length_append, List.length_reverse, Nat.add_comm]
      have hr : x.right.length = seg.length + y.right.length := by
        rw [hright, List.length_append]
      rcases List.mem_cons.mp hm with rfl | hm
      · simp only [Cursor.pos]
        omega
      · split_ifs at hm
        · exact hskip m hm
        · have := ih y m hm
          omega
    · exact hskip m hm

/-- Matches are parts of the text. -/
theorem matchAll_inRange (ignoreCase : Bool) (r : Regex) (s : JsString) :
    ∀ m ∈ r.matchAll ignoreCase s, m.start ≤ m.stop ∧ m.stop ≤ s.length := by
  intro m hm
  have := matchesFrom_inRange _ _ m hm
  simpa [Cursor.start] using this

/-! ### Abbreviations for patterns -/

/-- One given unit. -/
def unit (c : UInt16) : Regex := .set [(c, c)] false

/-- A literal text. -/
def text (s : JsString) : Regex := s.foldr (fun c r => .seq (unit c) r) .empty

/-- A class given by pairs of bounds. -/
def cls (ranges : List (UInt16 × UInt16)) : Regex := .set ranges false

def cat (rs : List Regex) : Regex := rs.foldr .seq .empty

/-- Alternatives in order of priority. -/
def oneOf : List Regex → Regex
  | [] => .set [] false
  | [r] => r
  | r :: rs => .alt r (oneOf rs)

def opt (r : Regex) : Regex := .rep r 0 (some 1) true

def plus (r : Regex) : Regex := .rep r 1 none true

def many (r : Regex) : Regex := .rep r 0 none true

/-- `r{n}`. -/
def times (n : ℕ) (r : Regex) : Regex := .rep r n (some n) true

/-- `r{m,n}`. -/
def between (m n : ℕ) (r : Regex) : Regex := .rep r m (some n) true

/-- `r{n,}`. -/
def atLeast (n : ℕ) (r : Regex) : Regex := .rep r n none true

def notBefore (r : Regex) : Regex := .look .forward true r

def notAfter (r : Regex) : Regex := .look .backward true r

def after (r : Regex) : Regex := .look .backward false r

/-- `/^…$/.test(s)`. -/
def isMatch (r : Regex) (s : JsString) : Bool :=
  (r.run false .forward (Cursor.start s) fun y => if y.right.isEmpty then some y else none).isSome

end Regex

end Haechi.Text
