import Haechi.Text.Matching
import Haechi.Text.Number

/-! The guard in front of custom rules, which is to keep out patterns with nested quantifiers.
It is a pattern itself and takes no notice of how parentheses nest. Proved: it refuses a
pattern exactly when some closing parenthesis with a quantifier behind it has, since the one
before it, an opening one and after that a plus or a star; so a group that has no closing
parenthesis in it is judged rightly by its pluses and stars, and the others by luck. -/

namespace Haechi.Filter

open Text Regex

/-! ### The guard -/

/-- `r.test(s)`. -/
def tests (r : Regex) (s : JsString) : Bool := !(r.matchAll false s).isEmpty

/-- `[^)]`. -/
def notClose : Regex := .set [(41, 41)] true

/-- `(?:\([^)]*[+*][^)]*\)){1}[+*{]`, where `{1}` is once. -/
def nestedQuantifiers : Regex :=
  cat [unit 40, many notClose, cls [(43, 43), (42, 42)], many notClose, unit 41,
    cls [(43, 43), (42, 42), (123, 123)]]

/-- `\\[1-9]`. -/
def backreference : Regex := cat [unit 92, cls [(49, 57)]]

def validateCustomPattern (pattern : JsString) : Except JsString Unit :=
  if 500 < pattern.length then .error (js "Custom filter rule pattern is too long")
  else if tests nestedQuantifiers pattern then
    .error (js "Custom filter rule pattern contains nested quantifiers")
  else if tests backreference pattern then
    .error (js "Custom filter rule pattern must not use backreferences")
  else .ok ()

def validateFlags (flags : JsString) : Except JsString Unit :=
  if (many (cls [(100, 100), (103, 103), (105, 105), (109, 109), (115, 115), (117, 117),
      (118, 118), (121, 121)])).isMatch flags then .ok ()
  else .error (js "Invalid custom filter flags: " ++ flags)

/-- The members of a custom rule; a text that is missing is empty. -/
structure CustomRule where
  id : JsString
  type : JsString
  pattern : JsString
  flags : Option JsString
  confidence : Option ℚ

structure NormalizedRule where
  id : JsString
  type : JsString
  pattern : JsString
  flags : JsString
  confidence : ℚ

def normalizeCustomRule (rule : CustomRule) : Except JsString NormalizedRule := do
  if rule.id = [] ∨ rule.type = [] ∨ rule.pattern = [] then
    .error (js "Custom filter rule requires id, type, and pattern")
  validateCustomPattern rule.pattern
  validateFlags (rule.flags.getD (js "g"))
  return ⟨rule.id, rule.type, rule.pattern, rule.flags.getD (js "g"),
    rule.confidence.getD (7 / 10)⟩

/-! ### What the guard refuses -/

theorem tests_iff {r : Regex} (hr : ∀ left rest, ¬Consumes false r left [] rest) {s : JsString} :
    tests r s = true ↔ ∃ a w b, s = a ++ w ++ b ∧ Consumes false r a.reverse w b := by
  rw [tests, Bool.not_eq_true', List.isEmpty_eq_false_iff]
  constructor
  · intro hne
    obtain ⟨m, hm⟩ := List.exists_mem_of_ne_nil _ hne
    obtain ⟨a, w, b, hs, -, hw⟩ := exists_of_mem_matchAll hm
    exact ⟨a, w, b, hs, hw⟩
  · rintro ⟨a, w, b, rfl, hw⟩
    obtain ⟨m, hm, -⟩ := exists_mem_matchAll hr hw
    exact List.ne_nil_of_mem hm

/-- A parenthesis is opened, a plus or a star follows, and the next closing parenthesis has a
quantifier behind it. -/
def Flat (s : JsString) : Prop :=
  ∃ a x r y q b, s = a ++ (40 :: x ++ r :: y ++ [41, q]) ++ b ∧ 41 ∉ x ∧ 41 ∉ y ∧
    r ∈ [43, 42] ∧ q ∈ [43, 42, 123]

/-- A backslash with a digit behind it that is not zero. -/
def HasBackreference (s : JsString) : Prop :=
  ∃ a d b, s = a ++ [92, d] ++ b ∧ 49 ≤ d ∧ d ≤ 57

section Spec

variable {left w rest : JsString}

theorem consumes_many_notClose : Consumes false (many notClose) left w rest ↔ 41 ∉ w := by
  rw [many, notClose, consumes_rep_set]
  have hin : ∀ c : UInt16, inSet false [(41, 41)] true c = true ↔ c ≠ 41 := by
    intro c
    have hunit : inSet false [(41, 41)] false c = true ↔ c = 41 := inSet_unit
    have hnot : inSet false [(41, 41)] true c = !inSet false [(41, 41)] false c := by
      simp [inSet]
    rw [hnot, Bool.not_eq_true', ← Bool.not_eq_true, hunit]
  constructor
  · rintro ⟨-, hall⟩ hmem
    exact (hin 41).mp (hall 41 hmem) rfl
  · intro hno
    refine ⟨Nat.zero_le _, fun c hc => (hin c).mpr ?_⟩
    rintro rfl
    exact hno hc

/-- A class of single units. -/
theorem consumes_units (cs : List UInt16) :
    Consumes false (cls (cs.map fun c => (c, c))) left w rest ↔ ∃ c ∈ cs, w = [c] := by
  rw [cls, consumes_set]
  have hin : ∀ d : UInt16, inSet false (cs.map fun c => (c, c)) false d = true ↔ d ∈ cs := by
    intro d
    simp only [inSet, inRanges, List.any_map, Bool.false_and, Bool.or_false, Bool.bne_false,
      List.any_eq_true, Function.comp_apply, Bool.and_eq_true, decide_eq_true_eq]
    constructor
    · rintro ⟨c, hc, hle, hle'⟩
      rwa [UInt16.le_antisymm hle' hle]
    · intro hd
      exact ⟨d, hd, UInt16.le_refl d, UInt16.le_refl d⟩
  constructor
  · rintro ⟨d, rfl, hd⟩
    exact ⟨d, (hin d).mp hd, rfl⟩
  · rintro ⟨d, hd, rfl⟩
    exact ⟨d, rfl, (hin d).mpr hd⟩

theorem consumes_nestedQuantifiers : Consumes false nestedQuantifiers left w rest ↔
    ∃ x r y q, w = 40 :: x ++ r :: y ++ [41, q] ∧ 41 ∉ x ∧ 41 ∉ y ∧ r ∈ [43, 42] ∧
      q ∈ [43, 42, 123] := by
  have hinner : ∀ {left w rest}, Consumes false (cls [(43, 43), (42, 42)]) left w rest ↔
      ∃ c ∈ [43, 42], w = [c] := consumes_units [43, 42]
  have houter : ∀ {left w rest}, Consumes false (cls [(43, 43), (42, 42), (123, 123)]) left w rest ↔
      ∃ c ∈ [43, 42, 123], w = [c] := consumes_units [43, 42, 123]
  simp only [nestedQuantifiers, consumes_cat_cons, consumes_cat_nil, consumes_unit,
    consumes_many_notClose, hinner, houter]
  constructor
  · rintro ⟨_, _, rfl, rfl, x, _, rfl, hx, _, _, rfl, ⟨r, hr, rfl⟩, y, _, rfl, hy, _, _, rfl, rfl,
      _, _, rfl, ⟨q, hq, rfl⟩, rfl⟩
    exact ⟨x, r, y, q, by simp, hx, hy, hr, hq⟩
  · rintro ⟨x, r, y, q, rfl, hx, hy, hr, hq⟩
    exact ⟨[40], _, by simp, rfl, x, _, rfl, hx, [r], _, rfl, ⟨r, hr, rfl⟩, y, _, rfl, hy, [41],
      _, rfl, rfl, [q], [], rfl, ⟨q, hq, rfl⟩, rfl⟩

theorem consumes_backreference : Consumes false backreference left w rest ↔
    ∃ d, w = [92, d] ∧ 49 ≤ d ∧ d ≤ 57 := by
  have hdigit : ∀ d, inSet false [(49, 57)] false d = true ↔ 49 ≤ d ∧ d ≤ 57 := by
    intro d
    simp [inSet, inRanges]
  simp only [backreference, consumes_cat_cons, consumes_cat_nil, consumes_unit, cls, consumes_set,
    hdigit]
  constructor
  · rintro ⟨_, _, rfl, rfl, _, _, rfl, ⟨d, rfl, hd⟩, rfl⟩
    exact ⟨d, rfl, hd⟩
  · rintro ⟨d, rfl, hd⟩
    exact ⟨[92], [d], rfl, rfl, [d], [], rfl, ⟨d, rfl, hd⟩, rfl⟩

end Spec

theorem tests_nestedQuantifiers_iff {s : JsString} : tests nestedQuantifiers s = true ↔ Flat s := by
  have hne : ∀ left rest, ¬Consumes false nestedQuantifiers left [] rest := by
    intro left rest h
    obtain ⟨x, r, y, q, hw, -⟩ := consumes_nestedQuantifiers.mp h
    cases hw
  rw [tests_iff hne]
  simp only [consumes_nestedQuantifiers]
  constructor
  · rintro ⟨a, w, b, rfl, x, r, y, q, rfl, h⟩
    exact ⟨a, x, r, y, q, b, rfl, h⟩
  · rintro ⟨a, x, r, y, q, b, rfl, h⟩
    exact ⟨a, _, b, rfl, x, r, y, q, rfl, h⟩

theorem tests_backreference_iff {s : JsString} :
    tests backreference s = true ↔ HasBackreference s := by
  have hne : ∀ left rest, ¬Consumes false backreference left [] rest := by
    intro left rest h
    obtain ⟨d, hw, -⟩ := consumes_backreference.mp h
    cases hw
  rw [tests_iff hne]
  simp only [consumes_backreference]
  constructor
  · rintro ⟨a, w, b, rfl, d, rfl, h⟩
    exact ⟨a, d, b, rfl, h⟩
  · rintro ⟨a, d, b, rfl, h⟩
    exact ⟨a, _, b, rfl, d, rfl, h⟩

theorem validateCustomPattern_eq_ok_iff {s : JsString} :
    validateCustomPattern s = .ok () ↔ s.length ≤ 500 ∧ ¬Flat s ∧ ¬HasBackreference s := by
  rw [← tests_nestedQuantifiers_iff, ← tests_backreference_iff, validateCustomPattern]
  split_ifs with hlong hnested hback
  · simp [hlong]
  · simp [hnested]
  · simp [hback]
  · simp [Nat.not_lt.mp hlong, hnested, hback]

/-! ### The syntax of patterns -/

inductive Quantifier where
  | star
  | plus
  | optional
  | exactly (n : ℕ)
  | atLeast (n : ℕ)
  | between (m n : ℕ)
deriving DecidableEq

namespace Quantifier

def unbounded : Quantifier → Bool
  | .star | .plus | .atLeast _ => true
  | .optional | .exactly _ | .between _ _ => false

def text : Quantifier → JsString
  | .star => [42]
  | .plus => [43]
  | .optional => [63]
  | .exactly n => 123 :: natText n ++ [125]
  | .atLeast n => 123 :: natText n ++ [44, 125]
  | .between m n => 123 :: natText m ++ 44 :: natText n ++ [125]

end Quantifier

/-- A quantifier, greedy or lazy; most terms have none. -/
abbrev Repeat := Option (Quantifier × Bool)

def Repeat.unbounded (q : Repeat) : Bool := q.any fun q => q.1.unbounded

def Repeat.text (q : Repeat) : JsString := q.elim [] fun q => q.1.text ++ if q.2 then [63] else []

/-- A character that stands for itself: none of `^$\.*+?()[|`. -/
def isPatternCharacter (c : UInt16) : Bool :=
  !([94, 36, 92, 46, 42, 43, 63, 40, 41, 91, 124] : List UInt16).contains c

/-- What stands between the brackets of a class; with the `v` flag classes may stand in it. -/
def isClassBody (sets : Bool) : ℕ → JsString → Bool
  | depth, [] => depth == 0
  | _, [92] => false
  | depth, 92 :: _ :: rest => isClassBody sets depth rest
  | 0, 93 :: _ => false
  | depth + 1, 93 :: rest => isClassBody sets depth rest
  | depth, 91 :: rest => isClassBody sets (if sets then depth + 1 else depth) rest
  | depth, _ :: rest => isClassBody sets depth rest

/-- What matches one character, or is an escape; the text behind an escaped character is that of
a name or a code point in braces. -/
inductive Atom (sets : Bool) where
  | any
  | char (c : UInt16) (h : isPatternCharacter c = true)
  | escape (c : UInt16) (rest : JsString) (h : rest.all isPatternCharacter = true)
  | cls (body : JsString) (h : isClassBody sets 0 body = true)

def Atom.text {sets : Bool} : Atom sets → JsString
  | .any => [46]
  | .char c _ => [c]
  | .escape c rest _ => 92 :: c :: rest
  | .cls body _ => 91 :: body ++ [93]

inductive GroupKind where
  | capture
  | nonCapture
  | named (name : JsString) (h : name.all isPatternCharacter = true)
  | modified (flags : JsString) (h : flags.all isPatternCharacter = true)
  | lookahead (negated : Bool)
  | lookbehind (negated : Bool)

/-- What stands behind the opening parenthesis. -/
def GroupKind.text : GroupKind → JsString
  | .capture => []
  | .nonCapture => js "?:"
  | .named name _ => js "?<" ++ name ++ js ">"
  | .modified flags _ => 63 :: flags ++ js ":"
  | .lookahead negated => js (if negated then "?!" else "?=")
  | .lookbehind negated => js (if negated then "?<!" else "?<=")

inductive Assertion where
  | start
  | stop
  | boundary
  | notBoundary

def Assertion.text : Assertion → JsString
  | .start => [94]
  | .stop => [36]
  | .boundary => [92, 98]
  | .notBoundary => [92, 66]

/-- Patterns of regular expressions, without or with the `v` flag. -/
inductive Pattern (sets : Bool) where
  | empty
  | atom (a : Atom sets) (q : Repeat)
  | group (kind : GroupKind) (body : Pattern sets) (q : Repeat)
  | assertion (a : Assertion)
  | seq (a b : Pattern sets)
  | alt (a b : Pattern sets)

namespace Pattern

variable {sets : Bool}

def text : Pattern sets → JsString
  | .empty => []
  | .atom a q => a.text ++ q.text
  | .group kind body q => 40 :: kind.text ++ body.text ++ 41 :: q.text
  | .assertion a => a.text
  | .seq a b => a.text ++ b.text
  | .alt a b => a.text ++ 124 :: b.text

/-- Some quantifier in it, at whatever depth, has no upper bound. -/
def hasUnbounded : Pattern sets → Bool
  | .empty | .assertion _ => false
  | .atom _ q => q.unbounded
  | .group _ body q => q.unbounded || body.hasUnbounded
  | .seq a b | .alt a b => a.hasUnbounded || b.hasUnbounded

/-- Some group, at whatever depth, has a quantifier without upper bound, and another in its
body. -/
def nested : Pattern sets → Bool
  | .empty | .assertion _ | .atom _ _ => false
  | .group _ body q => (q.unbounded && body.hasUnbounded) || body.nested
  | .seq a b | .alt a b => a.nested || b.nested

end Pattern

/-! ### Groups without a closing parenthesis in them -/

theorem not_mem_of_all {t : JsString} {c : UInt16} (h : t.all isPatternCharacter = true)
    (hc : isPatternCharacter c = false) : c ∉ t := by
  intro hmem
  rw [List.all_eq_true.mp h c hmem] at hc
  cases hc

theorem GroupKind.not_mem_text (kind : GroupKind) : 41 ∉ kind.text := by
  cases kind with
  | capture => decide
  | nonCapture => decide
  | named name h =>
    have hname := not_mem_of_all h (c := 41) rfl
    have hopen : 41 ∉ js "?<" := by decide
    have hclose : 41 ∉ js ">" := by decide
    simp [GroupKind.text, hname, hopen, hclose]
  | modified flags h =>
    have hflags := not_mem_of_all h (c := 41) rfl
    have hcolon : 41 ∉ js ":" := by decide
    simp [GroupKind.text, hflags, hcolon]
  | lookahead negated => cases negated <;> decide
  | lookbehind negated => cases negated <;> decide

namespace Pattern

variable {sets : Bool}

/-- All groups, at whatever depth. -/
def groups : Pattern sets → List (GroupKind × Pattern sets × Repeat)
  | .empty | .assertion _ | .atom _ _ => []
  | .group kind body q => (kind, body, q) :: body.groups
  | .seq a b | .alt a b => a.groups ++ b.groups

/-- Some quantifier in it is a star or a plus. -/
def hasStarOrPlus : Pattern sets → Bool
  | .empty | .assertion _ => false
  | .atom _ q => q.any fun q => q.1 == .star || q.1 == .plus
  | .group _ body q => (q.any fun q => q.1 == .star || q.1 == .plus) || body.hasStarOrPlus
  | .seq a b | .alt a b => a.hasStarOrPlus || b.hasStarOrPlus

theorem exists_text_of_mem_groups {p : Pattern sets} {kind : GroupKind} {body : Pattern sets}
    {q : Repeat} (h : (kind, body, q) ∈ p.groups) :
    ∃ u v, p.text = u ++ (40 :: kind.text ++ body.text ++ 41 :: q.text) ++ v := by
  induction p with
  | empty => cases h
  | atom a q => cases h
  | assertion a => cases h
  | group kind' body' q' ih =>
    rcases List.mem_cons.mp h with heq | h
    · cases heq
      exact ⟨[], [], by simp [text]⟩
    · obtain ⟨u, v, htext⟩ := ih h
      exact ⟨40 :: kind'.text ++ u, v ++ 41 :: q'.text, by simp [text, htext]⟩
  | seq a b iha ihb =>
    rcases List.mem_append.mp h with h | h
    · obtain ⟨u, v, htext⟩ := iha h
      exact ⟨u, v ++ b.text, by simp [text, htext]⟩
    · obtain ⟨u, v, htext⟩ := ihb h
      exact ⟨a.text ++ u, v, by simp [text, htext]⟩
  | alt a b iha ihb =>
    rcases List.mem_append.mp h with h | h
    · obtain ⟨u, v, htext⟩ := iha h
      exact ⟨u, v ++ 124 :: b.text, by simp [text, htext]⟩
    · obtain ⟨u, v, htext⟩ := ihb h
      exact ⟨a.text ++ 124 :: u, v, by simp [text, htext]⟩

theorem mem_repeat_text {q : Repeat} (h : (q.any fun q => q.1 == .star || q.1 == .plus) = true) :
    ∃ r ∈ [43, 42], r ∈ q.text := by
  obtain ⟨⟨quantifier, lazy⟩, rfl, h⟩ := (Option.any_eq_true _ _).mp h
  rcases Bool.or_eq_true_iff.mp h with h | h
  · obtain rfl := eq_of_beq h
    exact ⟨42, by decide, by simp [Repeat.text, Quantifier.text]⟩
  · obtain rfl := eq_of_beq h
    exact ⟨43, by decide, by simp [Repeat.text, Quantifier.text]⟩

/-- A star or a plus is seen in the text. -/
theorem mem_text_of_hasStarOrPlus {p : Pattern sets} (h : p.hasStarOrPlus = true) :
    ∃ r ∈ [43, 42], r ∈ p.text := by
  induction p with
  | empty => cases h
  | assertion a => cases h
  | atom a q =>
    obtain ⟨r, hr, hmem⟩ := mem_repeat_text h
    exact ⟨r, hr, List.mem_append_right _ hmem⟩
  | group kind body q ih =>
    rcases Bool.or_eq_true_iff.mp h with h | h
    · obtain ⟨r, hr, hmem⟩ := mem_repeat_text h
      exact ⟨r, hr, by simp [text, hmem]⟩
    · obtain ⟨r, hr, hmem⟩ := ih h
      exact ⟨r, hr, by simp [text, hmem]⟩
  | seq a b iha ihb =>
    rcases Bool.or_eq_true_iff.mp h with h | h
    · obtain ⟨r, hr, hmem⟩ := iha h
      exact ⟨r, hr, by simp [text, hmem]⟩
    · obtain ⟨r, hr, hmem⟩ := ihb h
      exact ⟨r, hr, by simp [text, hmem]⟩
  | alt a b iha ihb =>
    rcases Bool.or_eq_true_iff.mp h with h | h
    · obtain ⟨r, hr, hmem⟩ := iha h
      exact ⟨r, hr, by simp [text, hmem]⟩
    · obtain ⟨r, hr, hmem⟩ := ihb h
      exact ⟨r, hr, by simp [text, hmem]⟩

theorem exists_text_of_unbounded {q : Repeat} (h : q.unbounded = true) :
    ∃ c ∈ [43, 42, 123], ∃ rest, q.text = c :: rest := by
  obtain ⟨⟨quantifier, lazy⟩, rfl, h⟩ := (Option.any_eq_true _ _).mp h
  cases quantifier with
  | star => exact ⟨42, by decide, _, rfl⟩
  | plus => exact ⟨43, by decide, _, rfl⟩
  | atLeast n => exact ⟨123, by decide, _, rfl⟩
  | optional => cases h
  | exactly n => cases h
  | between m n => cases h

/-- A group with a quantifier without upper bound is seen by the guard if its body has a star or
a plus and no closing parenthesis. -/
theorem flat_of_mem_groups {p : Pattern sets} {kind : GroupKind} {body : Pattern sets} {q : Repeat}
    (h : (kind, body, q) ∈ p.groups) (hq : q.unbounded = true) (hbody : body.hasStarOrPlus = true)
    (hclose : 41 ∉ body.text) : Flat p.text := by
  obtain ⟨u, v, htext⟩ := exists_text_of_mem_groups h
  obtain ⟨c, hc, rest, hrest⟩ := exists_text_of_unbounded hq
  obtain ⟨r, hr, hmem⟩ := mem_text_of_hasStarOrPlus hbody
  obtain ⟨x, y, hxy⟩ := List.append_of_mem hmem
  rw [hxy, List.mem_append, List.mem_cons, not_or, not_or] at hclose
  refine ⟨u, kind.text ++ x, r, y, c, rest ++ v, ?_, ?_, hclose.2.2, hr, hc⟩
  · rw [htext, hrest, hxy]
    simp
  · rw [List.mem_append, not_or]
    exact ⟨kind.not_mem_text, hclose.1⟩

end Pattern

/-! ### What the guard lets through -/

/-- Of all the ways to read the pattern none has nested quantifiers. -/
def Unnested (sets : Bool) (s : JsString) : Prop := ∀ p : Pattern sets, p.text = s → p.nested = false

/-- A character of a pattern, with a quantifier. -/
def character {sets : Bool} (c : UInt16) (h : isPatternCharacter c = true) (q : Repeat) :
    Pattern sets :=
  .atom (.char c h) q

/-- `((a+)b)*`: the body of the outer group ends in no group. -/
def groupThenLetter : Pattern false :=
  .group .capture (.seq (.group .capture (character 97 rfl (some (.plus, false))) none)
    (character 98 rfl none)) (some (.star, false))

/-- `((a+))+`: the inner group is closed by the parenthesis before that of the outer. -/
def groupInGroup : Pattern false :=
  .group .capture (.group .capture (character 97 rfl (some (.plus, false))) none)
    (some (.plus, false))

/-- `(a{2,})+`: the inner quantifier is neither a plus nor a star. -/
def countedInGroup : Pattern false :=
  .group .capture (character 97 rfl (some (.atLeast 2, false))) (some (.plus, false))

end Haechi.Filter
