import Haechi.Text.Json

/-! Lines of a file as its two readers cut them. The line reader of the runtime
breaks at every ECMAScript line terminator; the tail reader breaks at `\r?\n`
and looks at the end of the file only. A file written as lines without
terminators reads back as these lines. -/

namespace Haechi.Text

/-- The lines of the runtime's line reader. The pair `\r\n` leaves an empty line
between its halves, which every reader skips as blank. -/
def readLines (s : JsString) : List JsString := s.splitOnP isTerminator

/-- `split(/\r?\n/)`. A carriage return goes with the line feed it precedes. -/
def splitCrLf : JsString → List JsString
  | [] => [[]]
  | c :: cs =>
    if c = 10 then [] :: splitCrLf cs
    else if c = 13 ∧ cs.head? = some 10 then splitCrLf cs
    else (splitCrLf cs).modifyHead (c :: ·)

/-- `lines.filter((line) => line.trim())`. -/
def nonBlank (ls : List JsString) : List JsString := ls.filter fun l => !(trim l).isEmpty

/-- A file made of lines, each ended by a line feed. -/
def unlines (ls : List JsString) : JsString := ls.flatMap fun l => l ++ [10]

theorem unlines_append (ls ms : List JsString) : unlines (ls ++ ms) = unlines ls ++ unlines ms :=
  List.flatMap_append

@[simp] theorem unlines_singleton (l : JsString) : unlines [l] = l ++ [10] := by
  simp [unlines]

/-- No character of the line ends a line. -/
def OneLine (l : JsString) : Prop := ∀ c ∈ l, isTerminator c = false

theorem readLines_unlines {ls : List JsString} (h : ∀ l ∈ ls, OneLine l) :
    readLines (unlines ls) = ls ++ [[]] := by
  induction ls with
  | nil => rfl
  | cons l ls ih =>
    have hl : unlines (l :: ls) = l ++ 10 :: unlines ls := by simp [unlines]
    rw [hl, readLines, List.splitOnP_append_cons_of_forall_mem (h l (by simp)) 10 rfl,
      List.cons_append, ← ih fun m hm => h m (by simp [hm])]
    rfl

theorem splitCrLf_ne_nil (s : JsString) : splitCrLf s ≠ [] := by
  fun_induction splitCrLf s with
  | case4 c cs _ _ ih => simpa [List.modifyHead_eq_nil_iff] using ih
  | _ => simp_all

/-- Breaks never reach over a carriage return or line feed that is not there. -/
theorem splitCrLf_line {l : JsString} (h : ∀ c ∈ l, c ≠ 10 ∧ c ≠ 13) (rest : JsString) :
    splitCrLf (l ++ 10 :: rest) = l :: splitCrLf rest := by
  induction l with
  | nil => simp [splitCrLf]
  | cons c l ih =>
    have hc := h c (by simp)
    rw [List.cons_append, splitCrLf, if_neg hc.1, if_neg fun h' => hc.2 h'.1,
      ih fun d hd => h d (by simp [hd])]
    rfl

theorem splitCrLf_unlines {ls : List JsString} (h : ∀ l ∈ ls, ∀ c ∈ l, c ≠ 10 ∧ c ≠ 13) :
    splitCrLf (unlines ls) = ls ++ [[]] := by
  induction ls with
  | nil => rfl
  | cons l ls ih =>
    have hl : unlines (l :: ls) = l ++ 10 :: unlines ls := by simp [unlines]
    rw [hl, splitCrLf_line (h l (by simp)), ih fun m hm => h m (by simp [hm]), List.cons_append]

/-- All lines of a suffix but its first are lines of the whole text, and its last ones. -/
theorem splitCrLf_append (pre suf : JsString) :
    ∃ ls, ls ≠ [] ∧ splitCrLf (pre ++ suf) = ls ++ (splitCrLf suf).tail := by
  induction pre with
  | nil =>
    rcases hs : splitCrLf suf with _ | ⟨l, ls⟩
    · exact absurd hs (splitCrLf_ne_nil suf)
    · exact ⟨[l], by simp, by simpa using hs⟩
  | cons c pre ih =>
    obtain ⟨ls, hne, h⟩ := ih
    rw [List.cons_append, splitCrLf, h]
    split_ifs
    · exact ⟨[] :: ls, by simp, rfl⟩
    · exact ⟨ls, hne, rfl⟩
    · cases ls with
      | nil => exact absurd rfl hne
      | cons l ls => exact ⟨(c :: l) :: ls, by simp, rfl⟩

/-- The tail of a file is read in chunks of doubling size, until the last line
in the chunk is known to be complete. Sizes count code units here. -/
def readTail (text : JsString) : ℕ → ℕ → Option JsString
  | 0, _ => none
  | fuel + 1, chunkSize =>
    let start := text.length - chunkSize
    let lines := nonBlank (splitCrLf (text.drop start))
    if 0 < lines.length ∧ (start = 0 ∨ 1 < lines.length) then lines.getLast?
    else if start = 0 then none
    else readTail text fuel (2 * chunkSize)

/-- The chunk that the first read of the tail asks for. -/
def chunkSize : ℕ := 65536

/-- The last line that is not blank. -/
def lastLine (text : JsString) : Option JsString := readTail text (text.length + 1) chunkSize

/-- A chunk with two lines in it holds the last line of the file whole. -/
theorem getLast?_nonBlank_drop {text : JsString} {start : ℕ}
    (h : 1 < (nonBlank (splitCrLf (text.drop start))).length) :
    (nonBlank (splitCrLf (text.drop start))).getLast? = (nonBlank (splitCrLf text)).getLast? := by
  obtain ⟨ls, -, hls⟩ := splitCrLf_append (text.take start) (text.drop start)
  rw [List.take_append_drop] at hls
  rcases hs : splitCrLf (text.drop start) with _ | ⟨l, tail⟩
  · exact absurd hs (splitCrLf_ne_nil _)
  · rw [hs] at h hls
    have hcons : nonBlank (l :: tail) = nonBlank [l] ++ nonBlank tail := by
      rw [nonBlank, ← List.singleton_append, List.filter_append]
      rfl
    have hsingle : (nonBlank [l]).length ≤ 1 := List.length_filter_le _ [l]
    have htail : nonBlank tail ≠ [] := by
      intro hnil
      rw [hcons, hnil, List.append_nil] at h
      omega
    have hwhole : nonBlank (splitCrLf text) = nonBlank ls ++ nonBlank tail := by
      rw [hls, List.tail_cons, nonBlank, List.filter_append]
      rfl
    rw [hcons, hwhole, List.getLast?_append_of_ne_nil _ htail,
      List.getLast?_append_of_ne_nil _ htail]

theorem readTail_eq (text : JsString) (fuel chunk : ℕ) (hc : 0 < chunk)
    (hf : text.length - chunk < fuel) :
    readTail text fuel chunk = (nonBlank (splitCrLf text)).getLast? := by
  induction fuel generalizing chunk with
  | zero => omega
  | succ fuel ih =>
    rw [readTail]
    split_ifs with h hstart
    · rcases h.2 with h0 | h1
      · rw [h0, List.drop_zero]
      · exact getLast?_nonBlank_drop h1
    · rw [hstart] at h
      simp only [List.drop_zero, true_or, and_true, not_lt, nonpos_iff_eq_zero,
        List.length_eq_zero_iff] at h
      rw [h, List.getLast?_nil]
    · exact ih (2 * chunk) (by omega) (by omega)

/-- Reading the tail finds the last line of the whole file. -/
theorem lastLine_eq (text : JsString) : lastLine text = (nonBlank (splitCrLf text)).getLast? :=
  readTail_eq text _ _ (by decide) (by omega)

/-! ### One JSON text a line -/

section JsonLines

variable {ν : Type} [JsNumber ν]

/-- The line a value is written as. -/
def jsonLine (v : JsValue ν) : JsString := (Json.stringify v).getD []

theorem jsonLine_not_break (v : JsValue ν) : ∀ c ∈ jsonLine v, c ≠ 10 ∧ c ≠ 13 := by
  intro c hc
  have h := Json.not_control_stringify v c hc
  constructor <;> rintro rfl <;> exact h (by decide)

/-- A JSON text is one line for every reader when its strings hold no separator. -/
theorem jsonLine_oneLine {v : JsValue ν} (h : Json.AllTexts (∀ c ∈ ·, ¬ isSeparator c) v) :
    OneLine (jsonLine v) := by
  intro c hc
  obtain ⟨h10, h13⟩ := jsonLine_not_break v c hc
  rw [← Bool.not_eq_true, isTerminator_iff]
  rintro (rfl | rfl | hs)
  · exact h10 rfl
  · exact h13 rfl
  · rcases Json.mem_stringify h c hc with hp | hp
    · rcases hs with rfl | rfl <;> exact absurd hp (by decide)
    · exact hp.1 hs

theorem jsonLine_obj (fields : List (JsString × JsValue ν)) :
    ∃ t, jsonLine (.obj fields) = 123 :: t := ⟨_, rfl⟩

theorem trim_ne_nil {c : UInt16} (t : JsString) (h : isSpace c = false) : trim (c :: t) ≠ [] := by
  rw [trim, List.dropWhile_cons_of_neg (by simp [h]), ne_eq, List.rdropWhile_eq_nil_iff]
  intro hall
  simp [hall c (by simp)] at h

/-- Lines that hold objects are never skipped as blank. -/
theorem nonBlank_jsonLines {ls : List JsString}
    (h : ∀ l ∈ ls, ∃ fields : List (JsString × JsValue ν), l = jsonLine (.obj fields)) :
    nonBlank (ls ++ [[]]) = ls := by
  have hls : nonBlank ls = ls := by
    rw [nonBlank, List.filter_eq_self]
    intro l hl
    obtain ⟨fields, rfl⟩ := h l hl
    obtain ⟨t, ht⟩ := jsonLine_obj fields
    rw [ht]
    simpa using trim_ne_nil t (by decide)
  have happ : nonBlank (ls ++ [[]]) = nonBlank ls ++ nonBlank [[]] := List.filter_append ..
  rw [happ, hls]
  exact List.append_nil ls

/-- The last object of a file is found from its tail. -/
theorem lastLine_unlines {ls : List JsString} {l : JsString}
    (h : ∀ m ∈ ls ++ [l], ∃ fields : List (JsString × JsValue ν), m = jsonLine (.obj fields)) :
    lastLine (unlines (ls ++ [l])) = some l := by
  have hbreak : ∀ m ∈ ls ++ [l], ∀ c ∈ m, c ≠ 10 ∧ c ≠ 13 := by
    intro m hm
    obtain ⟨fields, rfl⟩ := h m hm
    exact jsonLine_not_break _
  rw [lastLine_eq, splitCrLf_unlines hbreak, nonBlank_jsonLines h, List.getLast?_concat]

end JsonLines

/-! ### Cutting at a unit -/

/-- The text in front of the first such unit, and what is behind it. -/
def cutAt (c : UInt16) : JsString → JsString × Option JsString
  | [] => ([], none)
  | x :: s => if x = c then ([], some s) else (x :: (cutAt c s).1, (cutAt c s).2)

theorem cutAt_of_notMem {c : UInt16} {s : JsString} (h : c ∉ s) : cutAt c s = (s, none) := by
  induction s with
  | nil => rfl
  | cons x s ih =>
    rw [List.mem_cons, not_or] at h
    rw [cutAt, if_neg (Ne.symm h.1), ih h.2]

theorem cutAt_append {c : UInt16} {s : JsString} (h : c ∉ s) (rest : JsString) :
    cutAt c (s ++ c :: rest) = (s, some rest) := by
  induction s with
  | nil => simp [cutAt]
  | cons x s ih =>
    rw [List.mem_cons, not_or] at h
    rw [List.cons_append, cutAt, if_neg (Ne.symm h.1), ih h.2]

theorem cut_cases (c : UInt16) (s : JsString) :
    c ∉ s ∨ ∃ front rest, s = front ++ c :: rest ∧ c ∉ front :=
  or_iff_not_imp_left.mpr fun h => List.eq_append_cons_of_mem (not_not.mp h)

end Haechi.Text
