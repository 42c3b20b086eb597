import Haechi.Stream.Inspect
import Haechi.Text.Lines

/-! Which frames pass as they are. The parser and the serializers look for data lines in
one way each, and in the text of a frame with and without the white space around it. Proved:
they agree on a line that no other line terminator follows `data:` in, they agree on a frame
whose first line starts with blanks and tabs only, and a frame that passes as it is has
nothing in it if it has no field of another name. -/

namespace Haechi.Stream

open Text Proxy

/-! ### Lines -/

/-- The lines that the parser sees. -/
def bodyLines (raw : JsString) : List JsString := splitLines (trim raw)

/-- What follows `data:`. -/
def dataValue (line : JsString) : JsString := (line.dropWhile isBlank).drop 5

def fieldNames : List JsString := [js "event", js "id", js "retry"]

/-- A blank line, a comment, or a field that says nothing of the content. -/
def benignLine (line : JsString) : Bool :=
  let line := trim line
  line.isEmpty || line.head? == some 58 ||
    fieldNames.any fun name => line == name || (name ++ [58]).isPrefixOf line

theorem sseDataPayload_isSome (line : JsString) :
    (sseDataPayload line).isSome = (sseDataLine line && !(dataValue line).any isTerminator) := by
  unfold sseDataPayload sseDataLine dataValue
  simp only
  split
  next hdata =>
    rw [hdata, Bool.true_and]
    split
    next hterm => rw [hterm]; rfl
    next hterm =>
      rw [Bool.not_eq_true] at hterm
      rw [hterm]
      split <;> rfl
  next hdata =>
    rw [Bool.not_eq_true] at hdata
    rw [hdata]
    rfl

/-- The parser and the serializers agree on a line unless a terminator follows `data:`. -/
theorem sseDataLine_eq_iff (line : JsString) :
    sseDataLine line = (sseDataPayload line).isSome ↔
      (sseDataLine line → OneLine (dataValue line)) := by
  rw [sseDataPayload_isSome]
  cases sseDataLine line with
  | false => simp
  | true => simp [OneLine]

/-! ### White space around a text -/

/-- How many data lines a text has. -/
def dataCount (text : JsString) : ℕ := (splitLines text).countP sseDataLine

/-- The white space before the first character is, on its line, blanks and tabs; `blank` is
whether that holds of the line so far. -/
def leadBlank (blank : Bool) : JsString → Bool
  | [] => blank
  | c :: rest =>
    if c = 10 then leadBlank true rest
    else if isBlank c then leadBlank blank rest
    else if isSpace c then leadBlank false rest
    else blank

theorem splitLines_append {w : JsString} (hw : 10 ∉ w) (text : JsString) :
    ∃ l ls, splitLines text = l :: ls ∧ splitLines (w ++ text) = (w ++ l) :: ls := by
  induction w with
  | nil =>
    obtain ⟨l, ls, h⟩ := List.exists_cons_of_ne_nil (List.splitOn_ne_nil (10 : UInt16) text)
    exact ⟨l, ls, h, h⟩
  | cons c w ih =>
    rw [List.mem_cons, not_or] at hw
    obtain ⟨l, ls, h, hsplit⟩ := ih hw.2
    refine ⟨l, ls, h, ?_⟩
    rw [List.cons_append, splitLines, List.splitOn_cons_eq_if_modifyHead,
      if_neg (by simpa using Ne.symm hw.1)]
    rw [splitLines] at hsplit
    rw [hsplit]
    rfl

theorem splitLines_concat {c : UInt16} (hc : c ≠ 10) (text : JsString) :
    ∃ ls l, splitLines text = ls ++ [l] ∧ splitLines (text ++ [c]) = ls ++ [l ++ [c]] := by
  induction text with
  | nil =>
    refine ⟨[], [], rfl, ?_⟩
    exact List.splitOn_eq_singleton (by simpa using Ne.symm hc)
  | cons d text ih =>
    obtain ⟨ls, l, h, hsplit⟩ := ih
    rw [splitLines] at h hsplit
    rw [List.cons_append, splitLines, splitLines, List.splitOn_cons_eq_if_modifyHead,
      List.splitOn_cons_eq_if_modifyHead, h, hsplit]
    by_cases hd : (d == 10) = true
    · exact ⟨[] :: ls, l, by rw [if_pos hd]; rfl, by rw [if_pos hd]; rfl⟩
    · rw [if_neg hd, if_neg hd]
      cases ls with
      | nil => exact ⟨[], d :: l, rfl, rfl⟩
      | cons l' ls => exact ⟨(d :: l') :: ls, l, rfl, rfl⟩

/-- A line of white space is no data line. -/
theorem sseDataLine_of_space {w : JsString} (hw : ∀ c ∈ w, isSpace c = true) (line : JsString)
    (hblank : w.all isBlank = false) : sseDataLine (w ++ line) = false := by
  induction w with
  | nil => cases hblank
  | cons c w ih =>
    rw [List.all_cons] at hblank
    rw [sseDataLine, List.cons_append, List.dropWhile_cons]
    split
    next hc =>
      rw [hc, Bool.true_and] at hblank
      exact ih (fun d hd => hw d (List.mem_cons_of_mem c hd)) hblank
    next =>
      have hspace := hw c List.mem_cons_self
      have hd : (100 == c) = false := by
        rw [beq_eq_false_iff_ne]
        rintro rfl
        exact absurd hspace (by decide)
      show (100 == c && _) = false
      rw [hd, Bool.false_and]

theorem sseDataLine_append_blank {w : JsString} (hw : w.all isBlank = true) (line : JsString) :
    sseDataLine (w ++ line) = sseDataLine line := by
  rw [sseDataLine, List.dropWhile_append_of_pos fun c hc => List.all_eq_true.1 hw c hc]
  rfl

/-- White space at the end of a line does not matter. -/
theorem sseDataLine_concat {c : UInt16} (hc : isSpace c = true) (line : JsString) :
    sseDataLine (line ++ [c]) = sseDataLine line := by
  have hcolon : ∀ m : JsString, js "data:" ≠ m ++ [c] := by
    intro m h
    have hlast : (js "data:").getLast? = some c := by rw [h, List.getLast?_concat]
    obtain rfl : 58 = c := Option.some.inj hlast
    exact absurd hc (by decide)
  rw [sseDataLine, sseDataLine, List.dropWhile_append, Bool.eq_iff_iff, List.isPrefixOf_iff_prefix,
    List.isPrefixOf_iff_prefix]
  split
  next hnil =>
    rw [List.isEmpty_iff.1 hnil, List.dropWhile_cons]
    split
    · rfl
    · rw [← List.nil_append [c], List.prefix_concat_iff, or_iff_right (hcolon [])]
  next => rw [List.prefix_concat_iff, or_iff_right (hcolon _)]

/-- White space at the end of a text does not matter. -/
theorem dataCount_concat {c : UInt16} (hc : isSpace c = true) (text : JsString) :
    dataCount (text ++ [c]) = dataCount text := by
  unfold dataCount
  by_cases hnl : c = 10
  · rw [hnl, splitLines, List.splitOn_append_cons_self, List.countP_append]
    rfl
  · obtain ⟨ls, l, h, hsplit⟩ := splitLines_concat hnl text
    rw [h, hsplit, List.countP_append, List.countP_append, List.countP_singleton,
      List.countP_singleton, sseDataLine_concat hc]

theorem dataCount_rdropWhile {p : UInt16 → Bool} (hp : ∀ c, p c = true → isSpace c = true)
    (text : JsString) : dataCount (text.rdropWhile p) = dataCount text := by
  induction text using List.reverseRecOn with
  | nil => rfl
  | append_singleton text c ih =>
    by_cases hc : p c = true
    · rw [List.rdropWhile_concat_pos _ _ _ hc, ih, dataCount_concat (hp c hc)]
    · rw [List.rdropWhile_concat_neg _ _ _ hc]

theorem head_splitLines {text l : JsString} {ls : List JsString} (h : splitLines text = l :: ls) :
    l = text.takeWhile (· != 10) := by
  induction text generalizing l ls with
  | nil => exact (List.cons.inj h).1.symm
  | cons c text ih =>
    rw [splitLines, List.splitOn_cons_eq_if_modifyHead] at h
    rw [List.takeWhile_cons, bne]
    cases hc : c == 10 with
    | true =>
      rw [hc, if_pos rfl] at h
      exact (List.cons.inj h).1.symm
    | false =>
      rw [hc, if_neg Bool.false_ne_true] at h
      obtain ⟨l', ls', hsplit⟩ :=
        List.exists_cons_of_ne_nil (List.splitOn_ne_nil (10 : UInt16) text)
      rw [hsplit] at h
      rw [← ih hsplit]
      exact (List.cons.inj h).1.symm

/-- A text that starts with a character is a data line first if it starts with `data:`. -/
theorem sseDataLine_head {c : UInt16} (hc : isSpace c = false) {text l : JsString}
    {ls : List JsString} (h : splitLines (c :: text) = l :: ls) :
    sseDataLine l = (js "data:").isPrefixOf (c :: text) := by
  have hnl : (c != 10) = true := by
    rw [bne_iff_ne]
    rintro rfl
    exact absurd hc (by decide)
  have hblank : isBlank c = false := by
    by_contra h
    rw [Bool.not_eq_false] at h
    rw [isSpace_of_isBlank h] at hc
    cases hc
  have hl := head_splitLines h
  have hsplit : l ++ (c :: text).dropWhile (· != 10) = c :: text := by
    rw [hl, List.takeWhile_append_dropWhile]
  have hdrop : l.dropWhile isBlank = l := by
    rw [hl, List.takeWhile_cons, if_pos hnl, List.dropWhile_cons, hblank, if_neg Bool.false_ne_true]
  rw [sseDataLine, hdrop, Bool.eq_iff_iff, List.isPrefixOf_iff_prefix, List.isPrefixOf_iff_prefix,
    ← hsplit]
  refine ⟨fun h => h.trans (List.prefix_append _ _), fun h => ?_⟩
  obtain ⟨rest, hrest⟩ := h
  rw [hsplit] at hrest
  rw [hl, ← hrest, List.takeWhile_append_of_pos (by decide)]
  exact List.prefix_append _ _

theorem sseDataLine_space {w : JsString} (hw : ∀ c ∈ w, isSpace c = true) :
    sseDataLine w = false := by
  rw [← List.append_nil w]
  cases hblank : w.all isBlank with
  | true => rw [sseDataLine_append_blank hblank]; rfl
  | false => exact sseDataLine_of_space hw [] hblank

/-- White space before a text: a line that it is on is a data line no longer, if it is not
blanks and tabs. -/
theorem dataCount_dropWhile {w : JsString} (hw : ∀ c ∈ w, isSpace c = true) (hnl : 10 ∉ w)
    (text : JsString) :
    dataCount (text.dropWhile isSpace) = dataCount (w ++ text) +
      if (js "data:").isPrefixOf (text.dropWhile isSpace) && !leadBlank (w.all isBlank) text
      then 1 else 0 := by
  induction text generalizing w with
  | nil =>
    have hline : splitLines w = [w] := List.splitOn_eq_singleton hnl
    rw [List.append_nil, dataCount, dataCount, hline, List.countP_singleton, sseDataLine_space hw]
    rfl
  | cons c text ih =>
    rw [List.dropWhile_cons, leadBlank]
    by_cases hten : c = 10
    · subst hten
      rw [if_pos (by decide), if_pos rfl, ih (w := []) (by simp) (by simp), List.nil_append,
        dataCount, dataCount, splitLines, splitLines, List.splitOn_append_cons_self_of_not_mem hnl,
        List.countP_cons_of_neg (by rw [sseDataLine_space hw]; exact Bool.false_ne_true)]
      rfl
    · rw [if_neg hten]
      by_cases hspace : isSpace c = true
      · have hw' : ∀ d ∈ w ++ [c], isSpace d = true := List.forall_mem_append.2 ⟨hw, by simpa using hspace⟩
        have hnl' : (10 : UInt16) ∉ w ++ [c] := by simp [hnl, Ne.symm hten]
        have hlead : leadBlank ((w ++ [c]).all isBlank) text =
            if isBlank c = true then leadBlank (w.all isBlank) text else leadBlank false text := by
          rw [List.all_append, List.all_cons, List.all_nil, Bool.and_true]
          cases isBlank c with
          | true => rw [Bool.and_true, if_pos rfl]
          | false => rw [Bool.and_false, if_neg Bool.false_ne_true]
        rw [if_pos hspace, if_pos hspace, ih hw' hnl', hlead, List.append_assoc,
          List.singleton_append]
      · have hblank : ¬isBlank c = true := fun h => hspace (isSpace_of_isBlank h)
        obtain ⟨l, ls, h, hsplit⟩ := splitLines_append hnl (c :: text)
        rw [if_neg hspace, if_neg hblank, if_neg hspace, dataCount, dataCount, h, hsplit,
          List.countP_cons, List.countP_cons, ← sseDataLine_head (Bool.not_eq_true _ ▸ hspace) h]
        cases hall : w.all isBlank with
        | true =>
          rw [sseDataLine_append_blank hall]
          simp
        | false =>
          rw [sseDataLine_of_space hw l hall]
          simp

/-- The parser finds more data lines than the serializers only where white space that is no
blank and no tab stands before the first one. -/
theorem count_bodyLines (raw : JsString) :
    (bodyLines raw).countP sseDataLine = (frameLines raw).countP sseDataLine +
      if (js "data:").isPrefixOf (raw.dropWhile isSpace) && !leadBlank true raw then 1 else 0 := by
  have hbody : (bodyLines raw).countP sseDataLine = dataCount (raw.dropWhile isSpace) :=
    dataCount_rdropWhile (fun _ h => h) _
  have hframe : (frameLines raw).countP sseDataLine = dataCount raw :=
    dataCount_rdropWhile (fun c h => by rw [beq_iff_eq.1 h]; decide) raw
  rw [hbody, hframe]
  exact dataCount_dropWhile (w := []) (by simp) (by simp) raw

/-! ### Frames -/

/-- Nothing in the frame is content, or it is the sentinel. -/
def Harmless (raw : JsString) : Prop :=
  (∀ line ∈ bodyLines raw, benignLine line = true) ∨
    joinLines ((bodyLines raw).filterMap sseDataPayload) = sseDone

/-- A frame is written as it is only if it is harmless, and the serializers replace the lines
that the parser has read. -/
structure Guarded (ν : Type) [JsNumber ν] (format : Format) (raw : JsString) : Prop where
  inspected : (parseFrame format (trim raw) : Parsed ν) = .control → Harmless raw
  lines : format = .sse → ∀ line ∈ bodyLines raw, sseDataLine line = (sseDataPayload line).isSome
  replaced : format = .sse →
    (bodyLines raw).countP sseDataLine = (frameLines raw).countP sseDataLine

/-- The frames of events that the parser and the serializers understand alike. -/
structure PlainLines (raw : JsString) : Prop where
  /-- No carriage return or line separator follows `data:`. -/
  oneLine : ∀ line ∈ bodyLines raw, sseDataLine line = true → OneLine (dataValue line)
  /-- There is a data line, or no field of an unknown name. -/
  known : (∃ line ∈ bodyLines raw, sseDataLine line = true) ∨
    ∀ line ∈ bodyLines raw, benignLine line = true
  lead : (js "data:").isPrefixOf (raw.dropWhile isSpace) = true → leadBlank true raw = true

variable {ν : Type} [JsNumber ν] {raw : JsString}

theorem parsePayload_ne_control (payload : JsString) :
    (parsePayload payload : Parsed ν) ≠ .control := by
  unfold parsePayload
  split <;> exact fun h => by cases h

/-- An event is not inspected if it has no payload, or the sentinel for one. -/
theorem parseFrame_sse_control :
    (parseFrame .sse (trim raw) : Parsed ν) = .control ↔
      (bodyLines raw).filterMap sseDataPayload = [] ∨
        joinLines ((bodyLines raw).filterMap sseDataPayload) = sseDone := by
  show (if (trim raw).isEmpty then (.control : Parsed ν)
    else if ((bodyLines raw).filterMap sseDataPayload).isEmpty then .control
    else if joinLines ((bodyLines raw).filterMap sseDataPayload) = sseDone then .control
    else parsePayload (joinLines ((bodyLines raw).filterMap sseDataPayload))) = .control ↔ _
  split
  next hempty =>
    have hnil : bodyLines raw = [[]] := by rw [bodyLines, List.isEmpty_iff.1 hempty]; rfl
    rw [hnil]
    exact ⟨fun _ => .inl (by decide), fun _ => rfl⟩
  next =>
    split
    next hnone => exact ⟨fun _ => .inl (List.isEmpty_iff.1 hnone), fun _ => rfl⟩
    next hsome =>
      split
      next hdone => exact ⟨fun _ => .inr hdone, fun _ => rfl⟩
      next hdone =>
        refine ⟨fun h => absurd h (parsePayload_ne_control _), fun h => ?_⟩
        rcases h with h | h
        · exact absurd (List.isEmpty_iff.2 h) hsome
        · exact absurd h hdone

theorem guarded_ndjson (raw : JsString) : Guarded ν .ndjson raw := by
  refine ⟨fun h => .inl ?_, fun h => (by cases h), fun h => (by cases h)⟩
  rw [parseFrame] at h
  split at h
  next hempty =>
    rw [bodyLines, List.isEmpty_iff.1 hempty]
    decide
  next => exact absurd h (parsePayload_ne_control _)

theorem guarded_sse_iff (raw : JsString) : Guarded ν .sse raw ↔ PlainLines raw := by
  constructor
  · intro h
    refine ⟨fun line hline => (sseDataLine_eq_iff line).1 (h.lines rfl line hline), ?_, fun hdata => ?_⟩
    · by_contra hnone
      rw [not_or] at hnone
      have hpayload : (bodyLines raw).filterMap sseDataPayload = [] := by
        rw [List.filterMap_eq_nil_iff]
        intro line hline
        have hno : sseDataLine line = false := by
          by_contra hyes
          rw [Bool.not_eq_false] at hyes
          exact hnone.1 ⟨line, hline, hyes⟩
        have := h.lines rfl line hline
        rw [hno] at this
        exact Option.isSome_eq_false_iff.1 this.symm |> Option.isNone_iff_eq_none.1
      rcases h.inspected (parseFrame_sse_control.2 (.inl hpayload)) with hharmless | hdone
      · exact hnone.2 hharmless
      · rw [hpayload] at hdone
        cases hdone
    · have hcount := count_bodyLines raw
      rw [h.replaced rfl, hdata, Bool.true_and] at hcount
      by_contra hlead
      rw [Bool.not_eq_true] at hlead
      rw [hlead, Bool.not_false, if_pos rfl] at hcount
      omega
  · intro h
    refine ⟨fun hcontrol => ?_, fun _ line hline => ?_, fun _ => ?_⟩
    · rcases parseFrame_sse_control.1 hcontrol with hnone | hdone
      · refine .inl (h.known.resolve_left ?_)
        rintro ⟨line, hline, hdata⟩
        have hsome := (sseDataLine_eq_iff line).2 (h.oneLine line hline)
        rw [List.filterMap_eq_nil_iff.1 hnone line hline, hdata] at hsome
        cases hsome
      · exact .inr hdone
    · exact (sseDataLine_eq_iff line).2 (h.oneLine line hline)
    · rw [count_bodyLines, if_neg, Nat.add_zero]
      rw [Bool.and_eq_true, Bool.not_eq_true']
      rintro ⟨hdata, hlead⟩
      rw [h.lead hdata] at hlead
      cases hlead

/-- An event of an upstream that ends its lines with a carriage return and a line feed. -/
def crlfFrame : JsString :=
  js "data: see bob@example.com" ++ [13, 10] ++ js "id: 7" ++ [13, 10, 13, 10]

end Haechi.Stream
