import Mathlib.Data.List.ReduceOption
import Haechi.Core.Overlaps
import Haechi.Core.StreamJson
import Haechi.Mcp.Coverage
import Haechi.Text.Lines

/-! The error output of a wrapped server. Its chunks are cut at line feeds; a line is
protected by a task of its own, which starts when the task of the line before is done, and
a task that throws stops all later ones. Proved, however the output is chunked and whenever
the tasks come to their end: the lines are handled in their order and none is lost, what is
written is each of them protected, and a character of a line is replaced exactly when the
detections of this line reach it. -/

namespace Haechi.Mcp.Stderr

open Text Haechi.Core

/-! ### One line -/

/-- What becomes of a line. -/
inductive Verdict where
  | threw
  | dropped
  | safe (text : JsString)

/-- What is written of the line. -/
def Verdict.text? : Verdict → Option JsString
  | .safe text => some text
  | _ => none

/-- The protector that a line gets: one for responses, with no state from other lines. -/
def protector (c : Setup) (p : Replacer) : Setup := { facing c .response with replacer := p }

/-- An empty line is written as it is. Without a replacer a call of the crypto provider or of
the vault throws. -/
def protectStderrLine (c : Setup) (draw : Option Replacer) (line : JsString) : Verdict :=
  if line.isEmpty then .safe line
  else
    match draw with
    | none => .threw
    | some p =>
      let result := ((protector c p).protectText .start line).1
      if result.blocked then .dropped else .safe result.text

/-! ### The stream -/

/-- The `while` loop over the buffer: the lines that it completes, and what stays in it. -/
def takeLines (buffer : JsString) : List JsString × JsString :=
  match _h : cutAt 10 buffer with
  | (line, some rest) => (line :: (takeLines rest).1, (takeLines rest).2)
  | (_, none) => ([], buffer)
termination_by buffer.length
decreasing_by
  all_goals
    rcases cut_cases 10 buffer with hnl | ⟨front, back, rfl, hnl⟩
    · rw [cutAt_of_notMem hnl] at _h
      cases _h
    · rw [cutAt_append hnl] at _h
      cases _h
      simp only [List.length_append, List.length_cons]
      omega

/-- What the crypto provider and the vault give to the n-th task, or that a call of them
throws. -/
abbrev Draws := ℕ → Option Replacer

/-- The stream, the chain of tasks and what has been written. `fed` and `handled` keep what
has been received and processed; the first line of `queue` is the one in work. -/
structure Pipe where
  fed : JsString
  buffer : JsString
  ended : Bool
  queue : List JsString
  rejected : Bool
  handled : List JsString
  written : List JsString

/-- What happens next: the child's output comes and ends, and tasks come to their end, in any
order. -/
inductive Event where
  | data (chunk : JsString)
  | streamEnd
  | settle

/-- The task of the first line comes to its end. A chain that is rejected runs no task. -/
def settle (c : Setup) (draws : Draws) (s : Pipe) : Pipe :=
  match s.rejected, s.queue with
  | false, line :: rest =>
    match protectStderrLine c (draws s.handled.length) line with
    | .threw => { s with rejected := true }
    | .dropped => { s with queue := rest, handled := s.handled ++ [line] }
    | .safe text =>
      { s with
        queue := rest
        handled := s.handled ++ [line]
        written := s.written ++ [text ++ [10]] }
  | _, _ => s

/-- `pipeFilteredStderr`. -/
def step (c : Setup) (draws : Draws) (s : Pipe) : Event → Pipe
  | .data chunk =>
    if s.ended then s
    else
      { s with
        fed := s.fed ++ chunk
        buffer := (takeLines (s.buffer ++ chunk)).2
        queue := s.queue ++ (takeLines (s.buffer ++ chunk)).1 }
  | .streamEnd =>
    if s.ended then s
    else
      { s with
        ended := true
        buffer := []
        queue := s.queue ++ if s.buffer.isEmpty then [] else [s.buffer] }
  | .settle => settle c draws s

def start : Pipe := ⟨[], [], false, [], false, [], []⟩

/-! ### Lines of a text -/

/-- The text is these lines, each with its line feed, and an unfinished one. -/
structure Cut (text : JsString) (lines : List JsString) (last : JsString) : Prop where
  whole : text = unlines lines ++ last
  free : ∀ l ∈ lines, 10 ∉ l
  rest : 10 ∉ last

theorem cut_takeLines (buffer : JsString) :
    Cut buffer (takeLines buffer).1 (takeLines buffer).2 := by
  fun_induction takeLines buffer with
  | case1 buffer line rest h ih =>
    rcases cut_cases 10 buffer with hnl | ⟨front, back, rfl, hnl⟩
    · rw [cutAt_of_notMem hnl] at h
      cases h
    · rw [cutAt_append hnl] at h
      cases h
      refine ⟨?_, List.forall_mem_cons.mpr ⟨hnl, ih.free⟩, ih.rest⟩
      conv_lhs => rw [ih.whole]
      simp [unlines]
  | case2 buffer line h =>
    rcases cut_cases 10 buffer with hnl | ⟨front, back, rfl, hnl⟩
    · exact ⟨rfl, fun l hl => absurd hl List.not_mem_nil, hnl⟩
    · rw [cutAt_append hnl] at h
      cases h

/-- More of the text goes on from the unfinished line. -/
theorem Cut.append {text last chunk rest : JsString} {lines more : List JsString}
    (h : Cut text lines last) (h' : Cut (last ++ chunk) more rest) :
    Cut (text ++ chunk) (lines ++ more) rest := by
  refine ⟨?_, fun l hl => ?_, h'.rest⟩
  · rw [h.whole, List.append_assoc, h'.whole, unlines_append, List.append_assoc]
  · rcases List.mem_append.mp hl with hl | hl
    · exact h.free l hl
    · exact h'.free l hl

theorem Cut.splitLines {text last : JsString} {lines : List JsString} (h : Cut text lines last) :
    Text.splitLines text = lines ++ [last] := by
  obtain ⟨rfl, hfree, hopen⟩ := h
  induction lines with
  | nil => exact List.splitOn_eq_singleton hopen
  | cons l ls ih =>
    obtain ⟨hl, hfree⟩ := List.forall_mem_cons.mp hfree
    have hcons : unlines (l :: ls) ++ last = l ++ 10 :: (unlines ls ++ last) := by simp [unlines]
    rw [hcons, Text.splitLines, List.splitOn_append_cons_self_of_not_mem hl, List.cons_append,
      ← ih hfree]
    rfl

/-- The lines of what has been received: the unfinished one counts at the end of the stream,
unless it is empty. -/
def linesOf (text : JsString) (ended : Bool) : List JsString :=
  (Text.splitLines text).dropLast ++
    if ended then (Text.splitLines text).getLast?.toList.filter (!·.isEmpty) else []

theorem Cut.linesOf {text last : JsString} {lines : List JsString} (h : Cut text lines last)
    (ended : Bool) :
    Stderr.linesOf text ended =
      lines ++ if ended then (if last.isEmpty then [] else [last]) else [] := by
  rw [Stderr.linesOf, h.splitLines, List.dropLast_concat, List.getLast?_concat, Option.toList_some]
  congr 2
  cases hlast : last.isEmpty with
  | true => rw [List.filter_cons_of_neg (by simp [hlast])]; rfl
  | false => rw [List.filter_cons_of_pos (by simp [hlast])]; rfl

/-! ### What a task does -/

variable {c : Setup} {draws : Draws}

/-- The detections of a line, each with its decision. -/
def items (c : Setup) (p : Replacer) (line : JsString) : List Item :=
  (protector c p).decideAll ((protector c p).scanned line)

/-- The text is the line with some of its parts replaced: the characters that its detections
reach, in a mode that enforces. -/
def Shields (c : Setup) (p : Replacer) (line text : JsString) : Prop :=
  ∃ ps, outputOf ps = text ∧ sourceOf ps = line ∧
    ∀ i : ℕ, (marks ps)[i]? = some true ↔
      c.enforced = true ∧ Reached (items c p line) line.length i

theorem scanned_of_ne_nil {line : JsString} (hne : line.isEmpty = false) (p : Replacer) :
    (protector c p).scanned line = (protector c p).scan line := by
  rw [Setup.scanned, if_neg (by simp [hne])]

theorem layered_items (c : Setup) (p : Replacer) {line : JsString} (hne : line.isEmpty = false) :
    Layered (items c p line) line.length := by
  rw [items, scanned_of_ne_nil hne, Setup.scan, Engine.detect, Filter.detect,
    List.flatMap_singleton]
  exact layered_detectEntry (protector c p).engine.nfkc (protector c p).engine.decodeAndRescan
    ((protector c p).textEntry line) (protector c p).engine.rules (protector c p).context
    (protector c p).decide

theorem shields_clear (p : Replacer) (line : JsString)
    (h : c.enforced = false ∨ items c p line = []) : Shields c p line line := by
  refine ⟨[.clear line], by simp [outputOf, Piece.output], by simp [sourceOf, Piece.source],
    fun i => iff_of_false ?_ ?_⟩
  · simp [marks, Piece.isReplaced, List.getElem?_replicate]
  · rintro ⟨henforced, hreached⟩
    rcases h with h | h
    · rw [henforced] at h
      cases h
    · rw [h] at hreached
      obtain ⟨b, hb, -⟩ := hreached
      cases hb

/-- The protected line is dropped when a detection blocks, and else shields it. -/
theorem protectText_eq (p : Replacer) {line : JsString} (hne : line.isEmpty = false) :
    ((protector c p).protectText .start line).1.blocked =
        (protector c p).blocks (items c p line) ∧
      ((protector c p).blocks (items c p line) = false →
        Shields c p line ((protector c p).protectText .start line).1.text) := by
  have hitems : (protector c p).decideAll ((protector c p).scan line) = items c p line := by
    rw [items, scanned_of_ne_nil hne]
  rw [Setup.protectText, if_neg (by simp [hne]), Setup.transformSegment, hitems]
  cases hblocked : (protector c p).blocks (items c p line) with
  | true => simp
  | false =>
    by_cases hclear : (!(protector c p).enforced || (items c p line).isEmpty) = true
    · rw [if_neg Bool.false_ne_true, if_pos hclear]
      refine ⟨rfl, fun _ => ?_⟩
      have htext : StreamResult.text ⟨[.clear line], false⟩ = line := by
        simp [StreamResult.text, outputOf, Piece.output]
      rw [htext]
      refine shields_clear p line ?_
      simpa [protector, facing] using hclear
    · rw [if_neg Bool.false_ne_true, if_neg hclear]
      refine ⟨rfl, fun _ => ?_⟩
      have hlayered := layered_items c p hne
      obtain ⟨hsource, hmarks⟩ := marks_transformPieces (p := p) hlayered.1
      refine ⟨_, rfl, hsource, fun i => (hmarks i).trans ?_⟩
      have henforced : c.enforced = true := by
        by_contra hoff
        exact hclear (by simp [protector, facing, hoff])
      rw [and_iff_right henforced]
      exact hlayered.reached_iff i

/-- What each verdict on a line means. -/
def Means (c : Setup) (draw : Option Replacer) (line : JsString) : Verdict → Prop
  | .threw => draw = none ∧ line ≠ []
  | .dropped => ∃ p, draw = some p ∧ (protector c p).blocks (items c p line) = true
  | .safe text => line = [] ∧ text = [] ∨ ∃ p, draw = some p ∧
      (protector c p).blocks (items c p line) = false ∧ Shields c p line text

theorem means_protectStderrLine (draw : Option Replacer) (line : JsString) :
    Means c draw line (protectStderrLine c draw line) := by
  unfold protectStderrLine
  cases hne : line.isEmpty with
  | true =>
    rw [if_pos rfl]
    exact .inl ⟨List.isEmpty_iff.mp hne, List.isEmpty_iff.mp hne⟩
  | false =>
    rw [if_neg Bool.false_ne_true]
    cases draw with
    | none => exact ⟨rfl, List.isEmpty_eq_false_iff.mp hne⟩
    | some p =>
      obtain ⟨hblocked, hshields⟩ := protectText_eq (c := c) p hne
      simp only [hblocked]
      cases hblocks : (protector c p).blocks (items c p line) with
      | true => exact ⟨p, rfl, hblocks⟩
      | false => exact .inr ⟨p, rfl, hblocks, hshields hblocks⟩

/-! ### Runs -/

/-- What is written for consecutive lines. -/
def safeLines (c : Setup) (draws : Draws) (lines : List JsString) : List JsString :=
  (lines.mapIdx fun n line => (protectStderrLine c (draws n) line).text?).reduceOption.map
    (· ++ [10])

theorem safeLines_concat (lines : List JsString) (line : JsString) :
    safeLines c draws (lines ++ [line]) = safeLines c draws lines ++
      ((protectStderrLine c (draws lines.length) line).text?.map (· ++ [10])).toList := by
  rw [safeLines, List.mapIdx_concat, List.reduceOption_append, List.map_append, ← safeLines]
  cases (protectStderrLine c (draws lines.length) line).text? <;> rfl

/-- The lines that are handled and those that wait are the lines received, and what has been
written is what the handled ones come to. -/
structure Orderly (c : Setup) (draws : Draws) (s : Pipe) : Prop where
  lines : ∃ lines last, Cut s.fed lines last ∧ (s.ended = false → s.buffer = last) ∧
    s.handled ++ s.queue = lines ++ if s.ended then (if last.isEmpty then [] else [last]) else []
  written : s.written = safeLines c draws s.handled
  passed : ∀ n line, s.handled[n]? = some line → protectStderrLine c (draws n) line ≠ .threw
  stuck : s.rejected = true →
    ∃ line ∈ s.queue.head?, protectStderrLine c (draws s.handled.length) line = .threw

variable {s : Pipe}

theorem Orderly.data (h : Orderly c draws s) (hopen : s.ended = false) (chunk : JsString) :
    Orderly c draws
      { s with
        fed := s.fed ++ chunk
        buffer := (takeLines (s.buffer ++ chunk)).2
        queue := s.queue ++ (takeLines (s.buffer ++ chunk)).1 } := by
  obtain ⟨lines, last, hcut, hbuffer, hlines⟩ := h.lines
  obtain rfl := hbuffer hopen
  refine ⟨⟨_, _, hcut.append (cut_takeLines _), fun _ => rfl, ?_⟩, h.written, h.passed,
    fun hr => ?_⟩
  · simp only [hopen, Bool.false_eq_true, if_false, List.append_nil] at hlines ⊢
    rw [← List.append_assoc, hlines]
  · obtain ⟨line, hline, hthrew⟩ := h.stuck hr
    exact ⟨line, List.mem_head?_append_of_mem_head? hline, hthrew⟩

theorem Orderly.streamEnd (h : Orderly c draws s) (hopen : s.ended = false) :
    Orderly c draws
      { s with
        ended := true
        buffer := []
        queue := s.queue ++ if s.buffer.isEmpty then [] else [s.buffer] } := by
  obtain ⟨lines, last, hcut, hbuffer, hlines⟩ := h.lines
  obtain rfl := hbuffer hopen
  refine ⟨⟨lines, s.buffer, hcut, fun hf => (by cases hf), ?_⟩, h.written, h.passed, fun hr => ?_⟩
  · rw [hopen, if_neg Bool.false_ne_true, List.append_nil] at hlines
    rw [if_pos rfl, ← List.append_assoc, hlines]
  · obtain ⟨line, hline, hthrew⟩ := h.stuck hr
    exact ⟨line, List.mem_head?_append_of_mem_head? hline, hthrew⟩

/-- The first line that waits is handled. -/
theorem Orderly.handle (h : Orderly c draws s) (hgoing : s.rejected = false) {line : JsString}
    {rest : List JsString} (hq : s.queue = line :: rest)
    (hpassed : protectStderrLine c (draws s.handled.length) line ≠ .threw) {written : List JsString}
    (hwritten : written = s.written ++
      ((protectStderrLine c (draws s.handled.length) line).text?.map (· ++ [10])).toList) :
    Orderly c draws
      { s with queue := rest, handled := s.handled ++ [line], written := written } := by
  refine ⟨?_, ?_, fun n l hl => ?_, fun hr => ?_⟩
  · obtain ⟨lines, last, hcut, hbuffer, hlines⟩ := h.lines
    rw [hq] at hlines
    exact ⟨lines, last, hcut, hbuffer, by simpa using hlines⟩
  · rw [hwritten, h.written, safeLines_concat]
  · rcases getElem?_concat_eq_some.mp hl with hl | ⟨rfl, rfl⟩
    · exact h.passed n l hl
    · exact hpassed
  · rw [show s.rejected = true from hr] at hgoing
    cases hgoing

theorem Orderly.settle (h : Orderly c draws s) : Orderly c draws (settle c draws s) := by
  unfold Stderr.settle
  split
  · next line rest hgoing hq =>
    split
    · next hthrew =>
      exact ⟨h.lines, h.written, h.passed, fun _ => ⟨line, by rw [hq]; rfl, hthrew⟩⟩
    · next hdropped =>
      exact h.handle hgoing hq (by rw [hdropped]; simp) (by rw [hdropped]; simp [Verdict.text?])
    · next text hsafe =>
      exact h.handle hgoing hq (by rw [hsafe]; simp) (by rw [hsafe]; simp [Verdict.text?])
  · exact h

theorem Orderly.step (h : Orderly c draws s) (e : Event) : Orderly c draws (step c draws s e) := by
  cases e with
  | data chunk =>
    rw [Stderr.step]
    split_ifs with hended
    · exact h
    · exact h.data (by simpa using hended) chunk
  | streamEnd =>
    rw [Stderr.step]
    cases hended : s.ended with
    | true => exact h
    | false => exact h.streamEnd hended
  | settle => exact h.settle

theorem orderly_run (c : Setup) (draws : Draws) (es : List Event) :
    Orderly c draws (es.foldl (step c draws) start) := by
  refine invariant_run (I := Orderly c draws) (fun _ e h => h.step e) ?_ es
  have hcut : Cut [] [] [] := ⟨rfl, fun l hl => absurd hl List.not_mem_nil, List.not_mem_nil⟩
  exact ⟨⟨[], [], hcut, fun _ => rfl, rfl⟩, rfl, fun _ _ hl => (by cases hl), fun hr => (by cases hr)⟩

/-- A chain that is rejected writes nothing more. -/
theorem rejected_step (e : Event) (h : s.rejected = true) :
    (step c draws s e).rejected = true ∧ (step c draws s e).written = s.written := by
  cases e with
  | data chunk =>
    rw [Stderr.step]
    split_ifs <;> exact ⟨h, rfl⟩
  | streamEnd =>
    rw [Stderr.step]
    cases s.ended <;> exact ⟨h, rfl⟩
  | settle =>
    rw [Stderr.step, Stderr.settle, h]
    exact ⟨h, rfl⟩

/-- **No line is lost, reordered or let through.** In every run the lines handled and those
that wait are the lines received, in order and whatever the chunks; what has been written is
what the handled lines come to, each protected or dropped; and a task that throws lets its
line and all later ones wait for ever. -/
theorem stderr_filtered (c : Setup) (draws : Draws) (es : List Event) :
    let s := es.foldl (step c draws) start
    s.handled ++ s.queue = linesOf s.fed s.ended ∧
      s.written = safeLines c draws s.handled ∧
      (∀ n line, s.handled[n]? = some line → protectStderrLine c (draws n) line ≠ .threw ∧
        Means c (draws n) line (protectStderrLine c (draws n) line)) ∧
      (s.rejected = true →
        (∃ line ∈ s.queue.head?, line ≠ [] ∧ draws s.handled.length = none) ∧
          ∀ later : List Event, (later.foldl (step c draws) s).written = s.written) := by
  intro s
  have h : Orderly c draws s := orderly_run c draws es
  refine ⟨?_, h.written, fun n line hl => ⟨h.passed n line hl, means_protectStderrLine _ _⟩,
    fun hr => ⟨?_, fun later => ?_⟩⟩
  · obtain ⟨lines, last, hcut, -, hlines⟩ := h.lines
    rw [hlines, hcut.linesOf]
  · obtain ⟨line, hline, hthrew⟩ := h.stuck hr
    have hmeans := means_protectStderrLine (c := c) (draws s.handled.length) line
    rw [hthrew] at hmeans
    exact ⟨line, hline, hmeans.2, hmeans.1⟩
  · exact (invariant_run (I := fun t : Pipe => t.rejected = true ∧ t.written = s.written)
      (fun t e ht => ⟨(rejected_step e ht.1).1, (rejected_step e ht.1).2.trans ht.2⟩)
      ⟨hr, rfl⟩ later).2

end Haechi.Mcp.Stderr
