import Haechi.Text.Utf8

/-! Percent escapes. A text is decoded exactly when it is written as units of its own and
escaped bytes of well-formed text, and the text that is written with an escape is shorter than
how it is written. -/

namespace Haechi.Text

open Json

/-- The bytes, each written as an escape with digits of either case. -/
inductive EscapedBytes : List ℕ → JsString → Prop
  | nil : EscapedBytes [] []
  | cons {a b : ℕ} {h l : UInt16} {bytes : List ℕ} {v : JsString} (hh : hexValue h = some a)
      (hl : hexValue l = some b) (hv : EscapedBytes bytes v) :
      EscapedBytes ((a * 16 + b) :: bytes) (37 :: h :: l :: v)

/-- The text, written with some of its characters escaped. -/
inductive Escapes : JsString → JsString → Prop
  | nil : Escapes [] []
  | unit {c : UInt16} {t v : JsString} (hc : c ≠ 37) (h : Escapes t v) : Escapes (c :: t) (c :: v)
  | escaped {s t v v' : JsString} (hs : toWellFormed s = s) (hv : EscapedBytes (encodeUtf8 s) v)
      (h : Escapes t v') : Escapes (s ++ t) (v ++ v')

/-- The text does not begin with an escape. -/
def Unescaped (v : JsString) : Prop :=
  ∀ h l rest, v = 37 :: h :: l :: rest → hexValue h = none ∨ hexValue l = none

/-! ### A run of escapes -/

/-- The escapes that a text begins with. -/
theorem exists_escapes (v : JsString) :
    ∃ bytes front rest, EscapedBytes bytes front ∧ v = front ++ rest ∧ Unescaped rest := by
  induction hlen : v.length using Nat.strong_induction_on generalizing v with
  | _ k ih =>
    by_cases hplain : Unescaped v
    · exact ⟨[], [], v, .nil, rfl, hplain⟩
    · simp only [Unescaped, not_forall, not_or, ← ne_eq, Option.ne_none_iff_exists'] at hplain
      obtain ⟨h, l, rest, rfl, ⟨a, ha⟩, ⟨b, hb⟩⟩ := hplain
      obtain ⟨bytes, front, rest, hfront, rfl, hrest⟩ :=
        ih rest.length (by simp only [List.length_cons] at hlen; omega) rest rfl
      exact ⟨_, _, rest, .cons ha hb hfront, rfl, hrest⟩

theorem decodeUriFrom_escape {h l : UInt16} {a b : ℕ} (ha : hexValue h = some a)
    (hb : hexValue l = some b) (q : Sequence) (v : JsString) :
    decodeUriFrom q (37 :: h :: l :: v) =
      (q.step (a * 16 + b)).bind fun r => (decodeUriFrom r.2 v).map (r.1 ++ ·) := by
  rw [decodeUriFrom.eq_def]
  simp only [if_true, ha, hb, Option.bind_eq_bind, Option.bind_some, Option.pure_def]
  refine Option.bind_congr fun r _ => ?_
  cases decodeUriFrom r.2 v <;> rfl

/-- No escape that is not written out can be read. -/
theorem decodeUriFrom_broken {v : JsString} (h : Unescaped (37 :: v)) (q : Sequence) :
    decodeUriFrom q (37 :: v) = none := by
  match v, h with
  | [], _ => rfl
  | [_], _ => rfl
  | a :: b :: rest, h =>
    rw [decodeUriFrom.eq_def]
    simp only [if_true]
    rcases h a b rest rfl with ha | hb
    · rw [ha]
      rfl
    · rw [hb]
      cases hexValue a <;> rfl

theorem decodeUriFrom_unit {c : UInt16} (hc : c ≠ 37) (q : Sequence) (v : JsString) :
    decodeUriFrom q (c :: v) =
      if q.owed = 0 then (decodeUriFrom q v).map (c :: ·) else none := by
  rw [decodeUriFrom.eq_def]
  simp only [if_neg hc]
  split_ifs
  · cases decodeUriFrom q v <;> rfl
  · rfl

/-- Between characters it does not matter what went before. -/
theorem decodeUriFrom_of_owed {q : Sequence} (hq : q.owed = 0) (v : JsString) :
    decodeUriFrom q v = decodeUriFrom .none v := by
  have hstep : ∀ byte, q.step byte = Sequence.none.step byte := by
    intro byte
    rw [Sequence.step, Sequence.step, if_pos hq, if_pos Sequence.owed_none]
  induction v with
  | nil => rw [decodeUriFrom, decodeUriFrom, hq]; rfl
  | cons c v ih =>
    by_cases hc : c = 37
    · subst hc
      by_cases hplain : Unescaped (37 :: v)
      · rw [decodeUriFrom_broken hplain, decodeUriFrom_broken hplain]
      · simp only [Unescaped, not_forall, not_or, ← ne_eq, Option.ne_none_iff_exists'] at hplain
        obtain ⟨h, l, rest, heq, ⟨a, ha⟩, ⟨b, hb⟩⟩ := hplain
        rw [heq, decodeUriFrom_escape ha hb, decodeUriFrom_escape ha hb, hstep]
    · rw [decodeUriFrom_unit hc, decodeUriFrom_unit hc, if_pos hq, if_pos Sequence.owed_none, ih]

/-- A run of escapes is decoded as its bytes are, and has to end between characters. -/
theorem decodeUriFrom_escapes {bytes : List ℕ} {front : JsString} (h : EscapedBytes bytes front)
    {rest : JsString} (hrest : Unescaped rest) (q : Sequence) :
    decodeUriFrom q (front ++ rest) = (decodeUtf8From q bytes).bind fun s =>
      (decodeUriFrom .none rest).map (s ++ ·) := by
  induction h generalizing q with
  | nil =>
    rw [List.nil_append, decodeUtf8From]
    by_cases hq : q.owed = 0
    · rw [decodeUriFrom_of_owed hq, if_pos hq]
      cases decodeUriFrom .none rest <;> rfl
    · rw [if_neg hq]
      cases rest with
      | nil =>
        rw [decodeUriFrom, if_neg hq]
        rfl
      | cons c v =>
        by_cases hc : c = 37
        · subst hc
          exact decodeUriFrom_broken hrest q
        · rw [decodeUriFrom_unit hc, if_neg hq]
          rfl
  | cons ha hb hv ih =>
    rw [List.cons_append, List.cons_append, List.cons_append, decodeUriFrom_escape ha hb]
    simp only [ih, decodeUtf8From, Option.bind_eq_bind, Option.bind_assoc, Option.map_bind]
    refine Option.bind_congr fun r _ => Option.bind_congr fun s _ => ?_
    cases decodeUriFrom .none rest with
    | none => rfl
    | some t => simp

/-! ### What is decoded -/

theorem decodeUriComponent_escapes {bytes : List ℕ} {front rest : JsString}
    (h : EscapedBytes bytes front) (hrest : Unescaped rest) :
    decodeUriComponent (front ++ rest) = (decodeUtf8 bytes).bind fun s =>
      (decodeUriComponent rest).map (s ++ ·) := decodeUriFrom_escapes h hrest _

theorem EscapedBytes.append {bytes bytes' : List ℕ} {v v' : JsString} (h : EscapedBytes bytes v)
    (h' : EscapedBytes bytes' v') : EscapedBytes (bytes ++ bytes') (v ++ v') := by
  induction h with
  | nil => exact h'
  | cons ha hb _ ih => exact .cons ha hb ih

theorem decodeUriComponent_of_escapes {v t : JsString} (h : Escapes t v) :
    decodeUriComponent v = some t := by
  induction h with
  | nil => rfl
  | unit hc h ih =>
    rw [decodeUriComponent, decodeUriFrom_unit hc, if_pos Sequence.owed_none, ← decodeUriComponent,
      ih]
    rfl
  | @escaped s t v v' hs hv h ih =>
    obtain ⟨bytes, front, rest, hfront, rfl, hrest⟩ := exists_escapes v'
    rw [decodeUriComponent_escapes hfront hrest] at ih
    obtain ⟨t', ht', heq⟩ := Option.bind_eq_some_iff.mp ih
    rw [← List.append_assoc, decodeUriComponent_escapes (hv.append hfront) hrest,
      decodeUtf8_encodeUtf8_append, ht', hs]
    rw [Option.map_some, Option.bind_some]
    obtain ⟨u, hu, rfl⟩ := Option.map_eq_some_iff.mp heq
    rw [hu, Option.map_some, List.append_assoc]

theorem escapes_of_decodeUriComponent {v t : JsString} (h : decodeUriComponent v = some t) :
    Escapes t v := by
  induction hlen : v.length using Nat.strong_induction_on generalizing v t with
  | _ k ih =>
    obtain ⟨bytes, front, rest, hfront, rfl, hrest⟩ := exists_escapes v
    cases hfront with
    | nil =>
      rw [List.nil_append] at h hlen ⊢
      cases rest with
      | nil =>
        cases h
        exact .nil
      | cons c v =>
        by_cases hc : c = 37
        · subst hc
          rw [decodeUriComponent, decodeUriFrom_broken hrest] at h
          cases h
        · rw [decodeUriComponent, decodeUriFrom_unit hc, if_pos Sequence.owed_none] at h
          obtain ⟨u, hu, rfl⟩ := Option.map_eq_some_iff.mp h
          exact .unit hc (ih v.length (by rw [← hlen, List.length_cons]; omega) hu rfl)
    | cons ha hb hv =>
      rw [decodeUriComponent_escapes (.cons ha hb hv) hrest] at h
      obtain ⟨s, hs, h⟩ := Option.bind_eq_some_iff.mp h
      obtain ⟨u, hu, rfl⟩ := Option.map_eq_some_iff.mp h
      have hbytes := encodeUtf8_of_decodeUtf8 hs
      refine .escaped (toWellFormed_of_decodeUtf8 hbytes hs) ?_
        (ih rest.length (by simp only [List.length_append, List.length_cons] at hlen; omega) hu rfl)
      rw [hbytes]
      exact .cons ha hb hv

/-- A component is decoded exactly to the text that it writes with escapes. -/
theorem decodeUriComponent_eq_some {v t : JsString} :
    decodeUriComponent v = some t ↔ Escapes t v :=
  ⟨escapes_of_decodeUriComponent, decodeUriComponent_of_escapes⟩

theorem hasEscape_cons {v : JsString} (c : UInt16) (h : hasEscape v = true) :
    hasEscape (c :: v) = true := by
  by_cases hc : c = 37
  · subst hc
    match v, h with
    | [], h => cases h
    | [_], h => simp [hasEscape] at h
    | a :: b :: rest, h => rw [hasEscape, h, Bool.or_true]
  · rw [hasEscape]
    · exact h
    · rintro _ _ _ rfl
      exact absurd rfl hc

theorem hasEscape_append {v : JsString} (u : JsString) (h : hasEscape v = true) :
    hasEscape (u ++ v) = true := by
  induction u with
  | nil => exact h
  | cons c u ih => exact hasEscape_cons c ih

/-- A text without escapes is written as it is. -/
theorem Escapes.eq_or_hasEscape {v t : JsString} (h : Escapes t v) :
    t = v ∨ hasEscape v = true := by
  induction h with
  | nil => exact .inl rfl
  | unit hc h ih => exact ih.imp (congrArg _) (hasEscape_cons _)
  | @escaped s t v v' hs hv h ih =>
    cases hbytes : encodeUtf8 s with
    | nil =>
      rw [hbytes] at hv
      cases hv
      have hempty : s = [] := by
        rw [← hs]
        have hback := decodeUtf8_encodeUtf8 s
        rw [hbytes] at hback
        exact (Option.some.inj hback).symm
      rw [hempty]
      exact ih
    | cons byte bytes =>
      rw [hbytes] at hv
      cases hv with
      | cons ha hb hv =>
        right
        rw [List.cons_append, List.cons_append, List.cons_append, hasEscape, ha, hb]
        rfl

end Haechi.Text
