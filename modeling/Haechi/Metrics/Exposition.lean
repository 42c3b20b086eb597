import Haechi.OrderedMap
import Haechi.Text.Lines

/-! The text format of metrics: a line for each sample, with its name, its labels in quotes
and its value, between comment lines. Proved: the labels of a series are read back from its
key, so that two series of a metric have one key only if they have the same labels; and a
text of comments and samples is read as its samples. -/

namespace Haechi.Metrics

open Text

/-! ### Escapes -/

/-- `s.replace(/c/g, r)` for one unit. -/
def replaceUnit (c : UInt16) (r s : JsString) : JsString :=
  s.flatMap fun x => if x = c then r else [x]

/-- `escapeLabel`: the backslash, the line feed and the quote. -/
def escapeLabel (s : JsString) : JsString :=
  replaceUnit 34 [92, 34] (replaceUnit 10 [92, 110] (replaceUnit 92 [92, 92] s))

/-- What `escapeLabel` makes of one unit. -/
def escapeUnit (c : UInt16) : JsString :=
  if c = 92 then [92, 92] else if c = 10 then [92, 110] else if c = 34 then [92, 34] else [c]

theorem escapeLabel_eq_flatMap (s : JsString) : escapeLabel s = s.flatMap escapeUnit := by
  rw [escapeLabel, replaceUnit, replaceUnit, replaceUnit, List.flatMap_assoc, List.flatMap_assoc]
  congr 1
  funext c
  rw [escapeUnit]
  by_cases hslash : c = 92
  · subst hslash
    rfl
  · by_cases hfeed : c = 10
    · subst hfeed
      rfl
    · simp [hslash, hfeed]

theorem feed_notMem_escapeLabel (s : JsString) : 10 ∉ escapeLabel s := by
  rw [escapeLabel_eq_flatMap, List.mem_flatMap]
  rintro ⟨c, -, hc⟩
  rw [escapeUnit] at hc
  split_ifs at hc with _ hfeed
  · revert hc
    decide
  · revert hc
    decide
  · revert hc
    decide
  · exact hfeed (List.mem_singleton.mp hc).symm

/-- What is in front of the closing quote, without its escapes, and what is behind it. -/
def readQuoted : JsString → Option (JsString × JsString)
  | [] => none
  | c :: s =>
    if c = 34 then some ([], s)
    else if c = 92 then
      match s with
      | [] => none
      | d :: s =>
        if d = 110 then (readQuoted s).map fun r => (10 :: r.1, r.2)
        else if d = 92 ∨ d = 34 then (readQuoted s).map fun r => (d :: r.1, r.2)
        else none
    else (readQuoted s).map fun r => (c :: r.1, r.2)

theorem readQuoted_escapeUnit (c : UInt16) (s : JsString) :
    readQuoted (escapeUnit c ++ s) = (readQuoted s).map fun r => (c :: r.1, r.2) := by
  rw [escapeUnit]
  split_ifs with hslash hfeed hquote
  · subst hslash
    simp [readQuoted]
  · subst hfeed
    simp [readQuoted]
  · subst hquote
    simp [readQuoted]
  · rw [List.singleton_append, readQuoted.eq_def]
    simp [hslash, hquote]

theorem readQuoted_escapeLabel (s rest : JsString) :
    readQuoted (escapeLabel s ++ 34 :: rest) = some (s, rest) := by
  rw [escapeLabel_eq_flatMap]
  induction s with
  | nil =>
    rw [List.flatMap_nil, List.nil_append, readQuoted.eq_def]
    rfl
  | cons c s ih =>
    rw [List.flatMap_cons, List.append_assoc, readQuoted_escapeUnit, ih]
    rfl

/-! ### Labels -/

/-- The labels of a series. -/
abbrev Labels := OrderedMap JsString JsString

/-- The order `Array.prototype.sort` puts names in. -/
def NameLe (a b : JsString) : Prop := a.map UInt16.toNat ≤ b.map UInt16.toNat

instance : DecidableRel NameLe := fun a b =>
  inferInstanceAs (Decidable (a.map UInt16.toNat ≤ b.map UInt16.toNat))

/-- The labels in the order of their names. -/
def Labels.sorted (labels : Labels) : List (JsString × JsString) :=
  (labels.keys.insertionSort NameLe).map fun name => (name, (labels.get name).getD [])

/-- `name="value"`. -/
def labelText (label : JsString × JsString) : JsString :=
  label.1 ++ 61 :: 34 :: (escapeLabel label.2 ++ [34])

def joinLabels : List (JsString × JsString) → JsString
  | [] => []
  | [label] => labelText label
  | label :: labels => labelText label ++ 44 :: joinLabels labels

/-- A name with these labels. -/
def seriesText (name : JsString) (labels : List (JsString × JsString)) : JsString :=
  if labels = [] then name else name ++ 123 :: (joinLabels labels ++ [125])

/-- `seriesKey`. -/
def seriesKey (name : JsString) (labels : Labels) : JsString := seriesText name labels.sorted

/-- The labels in front of the closing brace, and what is behind it. -/
def readLabels : ℕ → JsString → Option (List (JsString × JsString) × JsString)
  | 0, _ => none
  | n + 1, s =>
    match cutAt 61 s with
    | (name, some (34 :: s)) =>
      match readQuoted s with
      | some (value, 44 :: s) => (readLabels n s).map fun r => ((name, value) :: r.1, r.2)
      | some (value, 125 :: s) => some ([(name, value)], s)
      | _ => none
    | _ => none

/-- The name of each label has no equals sign. -/
def Named (labels : List (JsString × JsString)) : Prop := ∀ label ∈ labels, 61 ∉ label.1

theorem readLabels_joinLabels {labels : List (JsString × JsString)} (hne : labels ≠ [])
    (hnamed : Named labels) {n : ℕ} (hn : labels.length ≤ n) (rest : JsString) :
    readLabels n (joinLabels labels ++ 125 :: rest) = some (labels, rest) := by
  induction labels generalizing n with
  | nil => exact absurd rfl hne
  | cons label labels ih =>
    obtain ⟨n, rfl⟩ : ∃ m, n = m + 1 := ⟨n - 1, by rw [List.length_cons] at hn; omega⟩
    obtain ⟨hname, hrest⟩ := List.forall_mem_cons.mp hnamed
    cases labels with
    | nil =>
      rw [joinLabels, labelText, readLabels]
      simp only [List.append_assoc, List.cons_append]
      rw [cutAt_append hname]
      simp only [List.nil_append, readQuoted_escapeLabel]
    | cons next labels =>
      rw [joinLabels, labelText, readLabels]
      · simp only [List.append_assoc, List.cons_append]
        rw [cutAt_append hname]
        simp only [List.nil_append, readQuoted_escapeLabel]
        rw [ih (List.cons_ne_nil _ _) hrest (by rw [List.length_cons] at hn; omega)]
        rfl
      · exact List.cons_ne_nil _ _

theorem length_le_joinLabels (labels : List (JsString × JsString)) :
    labels.length ≤ (joinLabels labels).length := by
  induction labels with
  | nil => exact Nat.zero_le _
  | cons label labels ih =>
    cases labels with
    | nil =>
      simp only [joinLabels, labelText, List.length_append, List.length_cons]
      omega
    | cons next labels =>
      simp only [joinLabels, List.length_append, List.length_cons] at ih ⊢
      omega

/-- The key of a series gives its labels. -/
theorem seriesText_injective {name : JsString} {labels labels' : List (JsString × JsString)}
    (hlabels : Named labels) (hlabels' : Named labels')
    (h : seriesText name labels = seriesText name labels') : labels = labels' := by
  rw [seriesText, seriesText] at h
  split_ifs at h with hnil hnil' hnil'
  · rw [hnil, hnil']
  · exact absurd h (by simp)
  · exact absurd h (by simp)
  · have hjoin := (List.cons.inj (List.append_cancel_left h)).2
    have hread := readLabels_joinLabels hnil hlabels (Nat.le_max_left _ labels'.length) []
    rw [hjoin, readLabels_joinLabels hnil' hlabels' (Nat.le_max_right _ _)] at hread
    exact (congrArg Prod.fst (Option.some.inj hread)).symm

/-! ### Samples -/

structure Sample where
  name : JsString
  labels : List (JsString × JsString)
  value : JsString
deriving DecidableEq

/-- The line of a sample. -/
def Sample.line (x : Sample) : JsString := seriesText x.name x.labels ++ 32 :: x.value

/-- A unit that a name may have. -/
def isNameUnit (c : UInt16) : Bool := c ≠ 123 && c ≠ 32 && c ≠ 10

/-- The name and the labels are written as such, and the value is on the line. -/
structure Sample.Plain (x : Sample) : Prop where
  ne_nil : x.name ≠ []
  head : x.name.head? ≠ some 35
  name : x.name.all isNameUnit = true
  labels : ∀ label ∈ x.labels, 61 ∉ label.1 ∧ 10 ∉ label.1
  value : 10 ∉ x.value

def readSample (line : JsString) : Option Sample :=
  match line.dropWhile isNameUnit with
  | 32 :: value => some ⟨line.takeWhile isNameUnit, [], value⟩
  | 123 :: s =>
    match readLabels s.length s with
    | some (labels, 32 :: value) => some ⟨line.takeWhile isNameUnit, labels, value⟩
    | _ => none
  | _ => none

theorem readSample_line {x : Sample} (h : x.Plain) : readSample x.line = some x := by
  have hall : ∀ c ∈ x.name, isNameUnit c = true := List.all_eq_true.mp h.name
  obtain ⟨name, labels, value⟩ := x
  by_cases hnil : labels = []
  · subst hnil
    rw [Sample.line, seriesText, if_pos rfl, readSample,
      List.dropWhile_append_of_pos hall, List.takeWhile_append_of_pos hall]
    simp [isNameUnit]
  · have hread := readLabels_joinLabels hnil (fun label hlabel => (h.labels label hlabel).1)
      (n := (joinLabels labels ++ 125 :: 32 :: value).length)
      (by have := length_le_joinLabels labels; rw [List.length_append]; omega) (32 :: value)
    rw [Sample.line, seriesText, if_neg hnil, readSample]
    simp only [List.append_assoc, List.cons_append, List.nil_append]
    rw [List.dropWhile_append_of_pos hall, List.takeWhile_append_of_pos hall,
      List.dropWhile_cons_of_neg (by decide), List.takeWhile_cons_of_neg (by decide)]
    simp only [hread, List.append_nil]

/-- A line of a text of metrics. -/
inductive Line where
  /-- What follows the mark of a comment. -/
  | comment (text : JsString)
  | sample (x : Sample)

namespace Line

def text : Line → JsString
  | comment text => 35 :: 32 :: text
  | sample x => x.line

def sample? : Line → Option Sample
  | comment _ => none
  | sample x => some x

def Plain : Line → Prop
  | comment text => 10 ∉ text
  | sample x => x.Plain

end Line

/-- The line is no comment, and not empty. -/
def isSampleLine (line : JsString) : Bool := line ≠ [] && line.head? ≠ some 35

/-- The samples of a text. -/
def scrape (text : JsString) : Option (List Sample) :=
  ((splitLines text).filter isSampleLine).mapM readSample

theorem feed_notMem_joinLabels {labels : List (JsString × JsString)}
    (h : ∀ label ∈ labels, 10 ∉ label.1) : 10 ∉ joinLabels labels := by
  have hlabel : ∀ label ∈ labels, 10 ∉ labelText label := by
    intro label hlabel
    simp [labelText, h label hlabel, feed_notMem_escapeLabel]
  induction labels with
  | nil => exact List.not_mem_nil
  | cons label labels ih =>
    obtain ⟨hfirst, hrest⟩ := List.forall_mem_cons.mp hlabel
    cases labels with
    | nil => exact hfirst
    | cons next labels =>
      have := ih (List.forall_mem_cons.mp h).2 hrest
      simp only [joinLabels, List.mem_append, List.mem_cons, not_or] at this ⊢
      exact ⟨hfirst, by decide, this⟩

theorem feed_notMem_text {l : Line} (h : l.Plain) : 10 ∉ l.text := by
  cases l with
  | comment text =>
    simp only [Line.text, List.mem_cons, not_or]
    exact ⟨by decide, by decide, h⟩
  | sample x =>
    have hname : 10 ∉ x.name := by
      intro hmem
      have := List.all_eq_true.mp h.name 10 hmem
      revert this
      decide
    have hlabels := feed_notMem_joinLabels fun label hlabel => (h.labels label hlabel).2
    rw [Line.text, Sample.line, seriesText]
    split_ifs <;> simp [hname, hlabels, h.value]

theorem Sample.Plain.isSampleLine {x : Sample} (h : x.Plain) : isSampleLine x.line = true := by
  obtain ⟨c, name, hname⟩ := List.exists_cons_of_ne_nil h.ne_nil
  have hhead := h.head
  rw [hname, List.head?_cons] at hhead
  have hline : ∃ rest, x.line = c :: rest := by
    rw [Sample.line, seriesText]
    split_ifs <;> exact ⟨_, by rw [hname]; rfl⟩
  obtain ⟨rest, hrest⟩ := hline
  rw [Metrics.isSampleLine, hrest, List.head?_cons]
  simpa using hhead

/-- A text of lines has the samples among them. -/
theorem scrape_lines {ls : List Line} (hne : ls ≠ []) (h : ∀ l ∈ ls, l.Plain) :
    scrape (joinLines (ls.map Line.text) ++ [10]) = some (ls.filterMap Line.sample?) := by
  have hsplit : splitLines (joinLines (ls.map Line.text) ++ [10]) = ls.map Line.text ++ [[]] := by
    rw [splitLines, List.splitOn_append_cons_self, joinLines, List.splitOn_intercalate]
    · rfl
    · intro text htext
      obtain ⟨l, hl, rfl⟩ := List.mem_map.mp htext
      exact feed_notMem_text (h l hl)
    · exact mt List.map_eq_nil_iff.mp hne
  rw [scrape, hsplit, List.filter_append, List.filter_cons_of_neg (by decide), List.filter_nil,
    List.append_nil]
  clear hne hsplit
  induction ls with
  | nil => rfl
  | cons l ls ih =>
    obtain ⟨hl, hls⟩ := List.forall_mem_cons.mp h
    cases l with
    | comment text =>
      rw [List.map_cons, List.filter_cons_of_neg (by simp [Line.text, isSampleLine]), ih hls]
      rfl
    | sample x =>
      rw [List.map_cons, Line.text, List.filter_cons_of_pos (Sample.Plain.isSampleLine hl),
        List.mapM_cons, ih hls, readSample_line hl]
      rfl

end Haechi.Metrics
