import Haechi.Text.Lines

/-! Reading does not look past what it reads: a value that is read from a text is read from
the text with more behind it, where the rest begins with a character that can belong to no
value. So a JSON text cut short before such a character is no JSON text, and a line of JSON
that the line reader breaks in two is not read. -/

namespace Haechi.Json

open Text

variable {ν : Type} [JsNumber ν]

/-- The text begins with a character that is neither blank nor part of a number. -/
def BeginsFresh (t : JsString) : Prop :=
  ∃ c rest, t = c :: rest ∧ isNumberChar c = false ∧ isJsonSpace c = false

variable {t : JsString}

theorem skipSpace_append {s r : JsString} {c : UInt16} (h : skipSpace s = c :: r) (t : JsString) :
    skipSpace (s ++ t) = c :: (r ++ t) := by
  unfold skipSpace at *
  rw [List.dropWhile_append, h]
  rfl

theorem readString_append {s k r : JsString} (h : readString s = some (k, r)) (t : JsString) :
    readString (s ++ t) = some (k, r ++ t) := by
  fun_induction readString s generalizing k r with
  | case1 => cases h
  | case2 rest =>
    cases h
    rw [List.cons_append, readString_quote]
  | case3 => cases h
  | case4 w x y z rest _ ih =>
    obtain ⟨u, hu, h⟩ := Option.bind_eq_some_iff.mp h
    obtain ⟨p, hp, heq⟩ := Option.map_eq_some_iff.mp h
    cases heq
    rw [List.cons_append, List.cons_append, readString.eq_def]
    simp [hu, ih hp]
  | case5 => cases h
  | case6 e rest he _ ih =>
    obtain ⟨u, hu, h⟩ := Option.bind_eq_some_iff.mp h
    obtain ⟨p, hp, heq⟩ := Option.map_eq_some_iff.mp h
    cases heq
    rw [List.cons_append, List.cons_append, readString_simpleEscape _ he hu, ih hp]
    rfl
  | case7 => cases h
  | case8 c rest h₁ h₂ h₃ ih =>
    obtain ⟨p, hp, heq⟩ := Option.map_eq_some_iff.mp h
    cases heq
    rw [List.cons_append, readString_raw _ h₁ h₂ h₃, ih hp]
    rfl

theorem readNumber_append {s r : JsString} {v : JsValue ν} (ht : BeginsFresh t)
    (h : readNumber s = some (v, r)) : readNumber (s ++ t) = some (v, r ++ t) := by
  obtain ⟨c, rest, rfl, hc, -⟩ := ht
  have htake : (s ++ c :: rest).takeWhile isNumberChar = s.takeWhile isNumberChar := by
    rw [List.takeWhile_append]
    split_ifs with hall
    · rw [List.takeWhile_cons_of_neg (by simp [hc]), List.append_nil]
      exact ((List.takeWhile_prefix isNumberChar).eq_of_length hall).symm
    · rfl
  have hdrop : (s ++ c :: rest).dropWhile isNumberChar = s.dropWhile isNumberChar ++ c :: rest := by
    rw [List.dropWhile_append]
    split_ifs with hall
    · rw [List.dropWhile_cons_of_neg (by simp [hc]), List.isEmpty_iff.mp hall, List.nil_append]
    · rfl
  unfold readNumber at h ⊢
  simp only [htake, hdrop]
  simp only at h
  split_ifs at h with htoken
  cases h
  rw [if_pos htoken]

omit [JsNumber ν] in
theorem readLiteral_append {s r : JsString} {v : JsValue ν} (h : readLiteral s = some (v, r))
    (t : JsString) : readLiteral (s ++ t) = some (v, r ++ t) := by
  unfold readLiteral at h
  split at h
  · next r' heq =>
    cases h
    obtain rfl := stripPrefix_eq_some.mp heq
    simp [readLiteral, List.append_assoc]
  · next r' heq _ =>
    cases h
    obtain rfl := stripPrefix_eq_some.mp heq
    simp [readLiteral, stripPrefix, js]
  · next r' heq _ _ =>
    cases h
    obtain rfl := stripPrefix_eq_some.mp heq
    simp [readLiteral, stripPrefix, js]
  · cases h

/-- With the fuel `n` or more, what is read of a text is read of the longer text. -/
structure Extends (ν : Type) [JsNumber ν] (t : JsString) (n : ℕ) : Prop where
  value : ∀ m, n ≤ m → ∀ s (v : JsValue ν) r, parseValue n s = some (v, r) →
    parseValue m (s ++ t) = some (v, r ++ t)
  items : ∀ m, n ≤ m → ∀ s (items : List (JsValue ν)) r, parseItems n s = some (items, r) →
    parseItems m (s ++ t) = some (items, r ++ t)
  fields : ∀ m, n ≤ m → ∀ s (fields : List (JsString × JsValue ν)) r,
    parseFields n s = some (fields, r) → parseFields m (s ++ t) = some (fields, r ++ t)

theorem Extends.succ_value {n : ℕ} (h : Extends ν t n) (ht : BeginsFresh t) {m : ℕ}
    (hm : n + 1 ≤ m) {s r : JsString} {v : JsValue ν} (hv : parseValue (n + 1) s = some (v, r)) :
    parseValue m (s ++ t) = some (v, r ++ t) := by
  obtain ⟨m, rfl⟩ := Nat.exists_eq_add_of_le' hm
  rw [← Nat.add_assoc, parseValue]
  rw [parseValue] at hv
  split at hv
  · cases hv
  · next c rest hskip =>
    rw [skipSpace_append hskip]
    simp only
    split_ifs at hv ⊢
    · obtain ⟨p, hp, heq⟩ := Option.map_eq_some_iff.mp hv
      cases heq
      rw [readString_append hp]
      rfl
    · split at hv
      · cases hv
      · next d rest' hskip' =>
        rw [skipSpace_append hskip']
        simp only
        split_ifs at hv ⊢
        · cases hv
          rfl
        · obtain ⟨p, hp, heq⟩ := Option.map_eq_some_iff.mp hv
          cases heq
          rw [← List.cons_append, h.items (m + n) (by omega) _ _ _ hp]
          rfl
    · split at hv
      · cases hv
      · next d rest' hskip' =>
        rw [skipSpace_append hskip']
        simp only
        split_ifs at hv ⊢
        · cases hv
          rfl
        · obtain ⟨p, hp, heq⟩ := Option.map_eq_some_iff.mp hv
          cases heq
          rw [← List.cons_append, h.fields (m + n) (by omega) _ _ _ hp]
          rfl
    · rw [← List.cons_append, readNumber_append ht hv]
    · rw [← List.cons_append, readLiteral_append hv]

theorem Extends.succ_items {n : ℕ} (h : Extends ν t n) {m : ℕ} (hm : n + 1 ≤ m)
    {s r : JsString} {items : List (JsValue ν)} (hv : parseItems (n + 1) s = some (items, r)) :
    parseItems m (s ++ t) = some (items, r ++ t) := by
  obtain ⟨m, rfl⟩ := Nat.exists_eq_add_of_le' hm
  rw [← Nat.add_assoc, parseItems]
  rw [parseItems] at hv
  obtain ⟨p, hp, hv⟩ := Option.bind_eq_some_iff.mp hv
  rw [h.value (m + n) (by omega) _ _ _ hp, Option.bind_some]
  split at hv
  · cases hv
  · next c rest hskip =>
    rw [skipSpace_append hskip]
    simp only
    split_ifs at hv ⊢
    · obtain ⟨q, hq, heq⟩ := Option.map_eq_some_iff.mp hv
      cases heq
      rw [h.items (m + n) (by omega) _ _ _ hq]
      rfl
    · cases hv
      rfl

theorem Extends.succ_fields {n : ℕ} (h : Extends ν t n) {m : ℕ} (hm : n + 1 ≤ m)
    {s r : JsString} {fields : List (JsString × JsValue ν)}
    (hv : parseFields (n + 1) s = some (fields, r)) :
    parseFields m (s ++ t) = some (fields, r ++ t) := by
  obtain ⟨m, rfl⟩ := Nat.exists_eq_add_of_le' hm
  rw [← Nat.add_assoc, parseFields]
  rw [parseFields] at hv
  split at hv
  · cases hv
  · next c rest hskip =>
    rw [skipSpace_append hskip]
    simp only
    split_ifs at hv ⊢
    obtain ⟨key, hkey, hv⟩ := Option.bind_eq_some_iff.mp hv
    rw [readString_append hkey, Option.bind_some]
    split at hv
    · cases hv
    · next d rest' hskip' =>
      simp only [skipSpace_append hskip']
      split_ifs at hv ⊢
      obtain ⟨p, hp, hv⟩ := Option.bind_eq_some_iff.mp hv
      rw [h.value (m + n) (by omega) _ _ _ hp, Option.bind_some]
      split at hv
      · cases hv
      · next e rest'' hskip'' =>
        simp only [skipSpace_append hskip'']
        split_ifs at hv ⊢
        · obtain ⟨q, hq, heq⟩ := Option.map_eq_some_iff.mp hv
          cases heq
          rw [h.fields (m + n) (by omega) _ _ _ hq]
          rfl
        · cases hv
          rfl

theorem extends_all (ht : BeginsFresh t) (n : ℕ) : Extends ν t n := by
  induction n with
  | zero => constructor <;> intro m _ s v r h <;> cases h
  | succ n ih =>
    exact ⟨fun m hm s v r h => ih.succ_value ht hm h, fun m hm s v r h => ih.succ_items hm h,
      fun m hm s v r h => ih.succ_fields hm h⟩

/-- A JSON text with more behind it, where that begins with a character that can belong to no
value, is not a JSON text. -/
theorem parse_append_eq_none {s : JsString} {v : JsValue ν} (h : parse s = some v)
    (ht : BeginsFresh t) : (parse (s ++ t) : Option (JsValue ν)) = none := by
  unfold parse at h
  split at h
  · next w r hread =>
    have hextends := (extends_all ht (s.length + 1)).value ((s ++ t).length + 1)
      (by rw [List.length_append]; omega) s w r hread
    obtain ⟨c, rest, rfl, -, hc⟩ := ht
    split_ifs at h with hr
    have hskip : skipSpace (r ++ c :: rest) ≠ [] := by
      unfold skipSpace at *
      rw [List.dropWhile_append, hr]
      simp [List.dropWhile_cons_of_neg, hc]
    simp only [parse, hextends]
    rw [if_neg hskip]
  · cases h

/-- The first piece of a broken line is among the lines of the file. -/
theorem exists_piece {ls : List JsString} {l : JsString} (hl : l ∈ ls) (hbroken : ¬OneLine l) :
    ∃ s c t, l = s ++ c :: t ∧ isTerminator c = true ∧ s ∈ readLines (unlines ls) := by
  have hpiece : ∃ s c t, l = s ++ c :: t ∧ isTerminator c = true ∧ OneLine s := by
    clear hl
    induction l with
    | nil => exact absurd (List.forall_mem_nil _) hbroken
    | cons d l ih =>
      by_cases hd : isTerminator d = true
      · exact ⟨[], d, l, rfl, hd, List.forall_mem_nil _⟩
      · rw [Bool.not_eq_true] at hd
        have hrest : ¬OneLine l := fun h => hbroken (List.forall_mem_cons.mpr ⟨hd, h⟩)
        obtain ⟨s, c, t, rfl, hc, hs⟩ := ih hrest
        exact ⟨d :: s, c, t, rfl, hc, List.forall_mem_cons.mpr ⟨hd, hs⟩⟩
  obtain ⟨s, c, t, rfl, hc, hs⟩ := hpiece
  refine ⟨s, c, t, rfl, hc, ?_⟩
  obtain ⟨before, after, rfl⟩ := List.append_of_mem hl
  have htext : unlines (before ++ (s ++ c :: t) :: after) =
      unlines before ++ (s ++ c :: (t ++ 10 :: unlines after)) := by
    simp [unlines]
  rw [htext]
  have hmem : s ∈ readLines (s ++ c :: (t ++ 10 :: unlines after)) := by
    rw [readLines, List.splitOnP_append_cons_of_forall_mem hs c hc]
    exact List.mem_cons_self
  cases hbefore : before.reverse with
  | nil =>
    obtain rfl : before = [] := List.reverse_eq_nil_iff.mp hbefore
    exact hmem
  | cons m ms =>
    obtain rfl : before = ms.reverse ++ [m] := by
      rw [← List.reverse_reverse before, hbefore, List.reverse_cons]
    rw [unlines_append, unlines_singleton, List.append_assoc, List.append_assoc, readLines,
      ← List.append_assoc, List.singleton_append, List.splitOnP_append_cons _ _ (by decide)]
    exact List.mem_append_right _ hmem

/-- The piece of a line of JSON before a terminator is not a JSON text. -/
theorem parse_piece {v w : JsValue ν} {s t : JsString} {c : UInt16}
    (hline : jsonLine v = s ++ c :: t) (hread : parse (jsonLine v) = some w)
    (hc : isTerminator c = true) : (parse s : Option (JsValue ν)) = none := by
  have hbreak := jsonLine_not_break v c (by rw [hline]; simp)
  have hfresh : BeginsFresh (c :: t) := by
    refine ⟨c, t, rfl, ?_⟩
    rcases isTerminator_iff.mp hc with rfl | rfl | rfl | rfl
    · exact absurd rfl hbreak.1
    · exact absurd rfl hbreak.2
    · exact ⟨by decide, by decide⟩
    · exact ⟨by decide, by decide⟩
  rw [Option.eq_none_iff_forall_ne_some]
  intro u hu
  have hnone : (parse (s ++ c :: t) : Option (JsValue ν)) = none := parse_append_eq_none hu hfresh
  rw [← hline, hread] at hnone
  cases hnone

end Haechi.Json
