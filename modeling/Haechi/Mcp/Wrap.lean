import Mathlib.Data.List.ReduceOption
import Haechi.Mcp.Bridge

/-! The end of a wrapped server. The child's output goes through a pipe, is read in
chunks, cut into lines and processed line by line; the exit of the child is an event of
its own, and it closes the line reader whatever is still in the pipe. -/

namespace Haechi.Mcp.Child

open Text

variable {ν : Type} [JsNumber ν]

/-! ### Cutting chunks into lines -/

/-- What a chunk adds to the unfinished line: the lines it completes, and what is
then unfinished. -/
def feed (buffer chunk : JsString) : List JsString × JsString :=
  ((readLines (buffer ++ chunk)).dropLast, ((readLines (buffer ++ chunk)).getLast?).getD [])

theorem readLines_ne_nil (s : JsString) : readLines s ≠ [] := List.splitOnP_ne_nil _ _

/-- The lines of a text and what is left unfinished at its end. -/
theorem readLines_eq (s : JsString) :
    readLines s = (readLines s).dropLast ++ [((readLines s).getLast?).getD []] := by
  rw [List.getLast?_eq_some_getLast (readLines_ne_nil s), Option.getD_some,
    List.dropLast_append_getLast]

theorem readLines_cons (c : UInt16) (s : JsString) :
    readLines (c :: s) =
      if isTerminator c then [] :: readLines s else (readLines s).modifyHead (c :: ·) :=
  List.splitOnP_cons_eq_if_modifyHead ..

/-- Cutting a text after more of it has come goes on from the unfinished line. -/
theorem readLines_append (s t : JsString) :
    readLines (s ++ t) =
      (readLines s).dropLast ++ readLines (((readLines s).getLast?).getD [] ++ t) := by
  induction s with
  | nil => rfl
  | cons c s ih =>
    rw [List.cons_append, readLines_cons, readLines_cons, ih]
    rcases hs : readLines s with _ | ⟨l, ls⟩
    · exact absurd hs (readLines_ne_nil s)
    · by_cases hc : isTerminator c = true
      · rw [if_pos hc, if_pos hc]
        rfl
      · rw [if_neg hc, if_neg hc]
        cases ls with
        | nil =>
          show (readLines (l ++ t)).modifyHead (c :: ·) = readLines (c :: (l ++ t))
          rw [readLines_cons, if_neg hc]
        | cons l' ls => rfl

/-- Feeding chunk by chunk cuts the whole text. -/
theorem feed_spec {fed buffer : JsString} {lines : List JsString} (chunk : JsString)
    (h : readLines fed = lines ++ [buffer]) :
    readLines (fed ++ chunk) = lines ++ (feed buffer chunk).1 ++ [(feed buffer chunk).2] := by
  rw [readLines_append, h, List.dropLast_concat, List.getLast?_concat, Option.getD_some,
    List.append_assoc]
  exact congrArg _ (readLines_eq _)

/-! ### The wrap -/

/-- What the bridge meets while it processes the n-th line of the server. -/
abbrev Surroundings (ν : Type) := ℕ → ProtectJson ν × JsString

/-- What the n-th line makes the bridge write to the client. -/
def reply (policy : McpPolicy) (env : Surroundings ν) (n : ℕ) (line : JsString) :
    Option (JsValue ν) :=
  (serverLine policy ⟨line, (env n).1, (env n).2, true⟩).toClient

/-- How `wrapMcpChild` settles. -/
inductive Settled where
  | resolved
  | rejected
deriving DecidableEq

/-- The child, its pipe, the line reader, the pump and the client's output. `fed` and
`handled` keep what has been read and processed. -/
structure Wrap (ν : Type) where
  alive : Bool
  wrote : JsString
  pipe : JsString
  fed : JsString
  buffer : JsString
  closed : Bool
  exited : Bool
  queue : List JsString
  current : Option JsString
  handled : List JsString
  output : List (JsValue ν)
  settled : Option Settled

/-- What happens next. Data, end and exit are delivered in any order the pipe allows. -/
inductive Event where
  | write (text : JsString)
  | die
  | read (n : ℕ)
  | endOfOutput
  | exit
  | error
  | take
  | finish
  | settle

/-- The stream delivers a chunk. A closed reader drops it. -/
def read (s : Wrap ν) (n : ℕ) : Wrap ν :=
  let chunk := s.pipe.take n
  let rest := s.pipe.drop n
  if s.closed then { s with pipe := rest }
  else
    { s with
      pipe := rest
      fed := s.fed ++ chunk
      queue := s.queue ++ (feed s.buffer chunk).1
      buffer := (feed s.buffer chunk).2 }

/-- The end of the stream: the unfinished line is a line, unless it is empty. -/
def endOfOutput (s : Wrap ν) : Wrap ν :=
  if !s.alive && s.pipe.isEmpty && !s.closed then
    { s with closed := true, queue := s.queue ++ if s.buffer = [] then [] else [s.buffer] }
  else s

/-- `serverLines.close()`. -/
def exit (s : Wrap ν) : Wrap ν :=
  if !s.alive && !s.exited then { s with exited := true, closed := true } else s

def step (policy : McpPolicy) (env : Surroundings ν) (s : Wrap ν) : Event → Wrap ν
  | .write text =>
    if s.alive then { s with wrote := s.wrote ++ text, pipe := s.pipe ++ text } else s
  | .die => { s with alive := false }
  | .read n => read s n
  | .endOfOutput => endOfOutput s
  | .exit => exit s
  | .error => if s.settled.isNone then { s with settled := some .rejected } else s
  | .take =>
    match s.current, s.queue with
    | none, line :: rest => { s with current := some line, queue := rest }
    | _, _ => s
  | .finish =>
    match s.current with
    | some line =>
      { s with
        current := none
        handled := s.handled ++ [line]
        output := s.output ++ (reply policy env s.handled.length line).toList }
    | none => s
  | .settle =>
    if s.exited && s.queue.isEmpty && s.current.isNone && s.settled.isNone then
      { s with settled := some .resolved }
    else s

def start : Wrap ν := ⟨true, [], [], [], [], false, false, [], none, [], [], none⟩

/-! ### What has been read is processed in order -/

/-- The replies to consecutive lines. -/
def replies (policy : McpPolicy) (env : Surroundings ν) (lines : List JsString) : List (JsValue ν) :=
  (lines.mapIdx (reply policy env)).reduceOption

/-- The reader has emitted the lines it has cut, and at the end of the stream the
unfinished one; the pump takes them in order. -/
structure Ordered (policy : McpPolicy) (env : Surroundings ν) (s : Wrap ν) : Prop where
  output : s.output = replies policy env s.handled
  dead : s.closed = true → s.alive = false
  emitted : ∃ lines last, readLines s.fed = lines ++ [s.buffer] ∧
    s.handled ++ s.current.toList ++ s.queue = lines ++ last ∧
    (last = [] ∨ s.closed = true ∧ last = [s.buffer] ∧ s.wrote = s.fed)
  stopped : s.exited = true → s.closed = true
  done : s.settled = some .resolved → s.closed = true ∧ s.queue = [] ∧ s.current = none

/-- What is still unread when the exit closes the reader completes no line. -/
def Drained (s : Wrap ν) : Event → Prop
  | .exit => s.alive = false → s.closed = false → (feed s.buffer s.pipe).1 = []
  | _ => True

/-- No complete line is lost: what is not read is in the pipe, or completes none. -/
structure Kept (s : Wrap ν) : Prop where
  piped : s.closed = false → s.wrote = s.fed ++ s.pipe
  lines : s.closed = true → (readLines s.wrote).dropLast = (readLines s.fed).dropLast

variable {policy : McpPolicy} {env : Surroundings ν} {s : Wrap ν}

theorem replies_concat (lines : List JsString) (line : JsString) :
    replies policy env (lines ++ [line]) =
      replies policy env lines ++ (reply policy env lines.length line).toList := by
  rw [replies, List.mapIdx_concat, List.reduceOption_append]
  cases reply policy env lines.length line <;> rfl

theorem Ordered.read (h : Ordered policy env s) (hk : Kept s) (n : ℕ) :
    Ordered policy env (read s n) ∧ Kept (read s n) := by
  unfold Child.read
  split_ifs with hclosed
  · exact ⟨⟨h.output, h.dead, h.emitted, h.stopped, h.done⟩,
      ⟨fun hf => absurd hclosed (by simpa using hf), hk.lines⟩⟩
  · have hopen : s.closed = false := by simpa using hclosed
    refine ⟨⟨h.output, h.dead, ?_, h.stopped, fun hs => absurd (h.done hs).1 hclosed⟩, ?_, ?_⟩
    · obtain ⟨lines, last, hlines, hemitted, hlast⟩ := h.emitted
      obtain rfl : last = [] := hlast.resolve_right fun hl => hclosed hl.1
      refine ⟨lines ++ (feed s.buffer (s.pipe.take n)).1, [], feed_spec _ hlines, ?_, .inl rfl⟩
      rw [List.append_nil] at hemitted ⊢
      rw [← hemitted]
      exact (List.append_assoc ..).symm
    · intro _
      show s.wrote = s.fed ++ s.pipe.take n ++ s.pipe.drop n
      rw [hk.piped hopen, List.append_assoc, List.take_append_drop]
    · exact fun ht => absurd ht hclosed

theorem Ordered.endOfOutput (h : Ordered policy env s) (hk : Kept s) :
    Ordered policy env (endOfOutput s) ∧ Kept (endOfOutput s) := by
  unfold Child.endOfOutput
  by_cases hend : (!s.alive && s.pipe.isEmpty && !s.closed) = true
  · rw [if_pos hend]
    simp only [Bool.and_eq_true, Bool.not_eq_true', List.isEmpty_iff] at hend
    obtain ⟨⟨hdead, hpipe⟩, hopen⟩ := hend
    have hwrote : s.wrote = s.fed := by rw [hk.piped hopen, hpipe, List.append_nil]
    obtain ⟨lines, last, hlines, hemitted, hlast⟩ := h.emitted
    obtain rfl : last = [] := hlast.resolve_right fun hl => by simp [hopen] at hl
    refine ⟨⟨h.output, fun _ => hdead, ?_, fun _ => rfl, fun hs => ?_⟩, fun hf => (by cases hf), fun _ => ?_⟩
    · refine ⟨lines, if s.buffer = [] then [] else [s.buffer], hlines, ?_, ?_⟩
      · rw [List.append_nil] at hemitted
        rw [← hemitted]
        exact (List.append_assoc ..).symm
      · split_ifs
        · exact .inl rfl
        · exact .inr ⟨rfl, rfl, hwrote⟩
    · have := (h.done hs).1
      rw [hopen] at this
      cases this
    · rw [hwrote]
  · rw [if_neg hend]
    exact ⟨h, hk⟩

theorem Ordered.exit (h : Ordered policy env s) (hk : Kept s) (hd : Drained s .exit) :
    Ordered policy env (exit s) ∧ Kept (exit s) := by
  unfold Child.exit
  split_ifs with hexit
  · simp only [Bool.and_eq_true, Bool.not_eq_true'] at hexit
    obtain ⟨lines, last, hlines, hemitted, hlast⟩ := h.emitted
    refine ⟨⟨h.output, fun _ => hexit.1, ⟨lines, last, hlines, hemitted, ?_⟩, fun _ => rfl,
        fun hs => ?_⟩, fun hf => (by cases hf), fun _ => ?_⟩
    · exact hlast.imp_right fun hl => ⟨rfl, hl.2⟩
    · exact ⟨rfl, (h.done hs).2⟩
    · cases hopen : s.closed with
      | true => exact hk.lines hopen
      | false =>
        have hnone := hd hexit.1 hopen
        rw [hk.piped hopen, feed_spec s.pipe hlines, hnone, List.append_nil, hlines,
          List.dropLast_concat, List.dropLast_concat]
  · exact ⟨h, hk⟩

theorem Ordered.finish (h : Ordered policy env s) {line : JsString} (hc : s.current = some line) :
    Ordered policy env
      { s with
        current := none
        handled := s.handled ++ [line]
        output := s.output ++ (reply policy env s.handled.length line).toList } := by
  refine ⟨?_, h.dead, ?_, h.stopped, fun hs => ?_⟩
  · rw [h.output, replies_concat]
  · obtain ⟨lines, last, hlines, hemitted, hlast⟩ := h.emitted
    rw [hc] at hemitted
    exact ⟨lines, last, hlines, by simpa using hemitted, hlast⟩
  · have := (h.done hs).2.2
    rw [hc] at this
    cases this

theorem Ordered.take (h : Ordered policy env s) {line : JsString} {rest : List JsString}
    (hc : s.current = none) (hq : s.queue = line :: rest) :
    Ordered policy env { s with current := some line, queue := rest } := by
  refine ⟨h.output, h.dead, ?_, h.stopped, fun hs => ?_⟩
  · obtain ⟨lines, last, hlines, hemitted, hlast⟩ := h.emitted
    rw [hc, hq] at hemitted
    exact ⟨lines, last, hlines, by simpa using hemitted, hlast⟩
  · have := (h.done hs).2.1
    rw [hq] at this
    cases this

theorem Ordered.step (h : Ordered policy env s) (hk : Kept s) (e : Event) (hd : Drained s e) :
    Ordered policy env (step policy env s e) ∧ Kept (step policy env s e) := by
  cases e with
  | write text =>
    rw [Child.step]
    split_ifs with halive
    · have hopen : s.closed = false := by
        by_contra hc
        have := h.dead (by simpa using hc)
        rw [halive] at this
        cases this
      obtain ⟨lines, last, hlines, hemitted, hlast⟩ := h.emitted
      obtain rfl : last = [] := hlast.resolve_right fun hl => by simp [hopen] at hl
      refine ⟨⟨h.output, h.dead, ⟨lines, [], hlines, hemitted, .inl rfl⟩, h.stopped,
        h.done⟩, fun _ => ?_,
        fun ht => ?_⟩
      · rw [hk.piped hopen, List.append_assoc]
      · have ht : s.closed = true := ht
        rw [hopen] at ht
        cases ht
    · exact ⟨h, hk⟩
  | die => exact ⟨⟨h.output, fun _ => rfl, h.emitted, h.stopped, h.done⟩, ⟨hk.piped, hk.lines⟩⟩
  | read n => exact h.read hk n
  | endOfOutput => exact h.endOfOutput hk
  | exit => exact h.exit hk hd
  | error =>
    rw [Child.step]
    split_ifs
    · exact ⟨⟨h.output, h.dead, h.emitted, h.stopped, fun hs => (by cases hs)⟩, ⟨hk.piped, hk.lines⟩⟩
    · exact ⟨h, hk⟩
  | take =>
    rw [Child.step]
    split
    · next line rest hc hq => exact ⟨h.take hc hq, ⟨hk.piped, hk.lines⟩⟩
    · exact ⟨h, hk⟩
  | finish =>
    rw [Child.step]
    split
    · next line hc => exact ⟨h.finish hc, ⟨hk.piped, hk.lines⟩⟩
    · exact ⟨h, hk⟩
  | settle =>
    rw [Child.step]
    split_ifs with hs
    · simp only [Bool.and_eq_true, List.isEmpty_iff, Option.isNone_iff_eq_none] at hs
      obtain ⟨⟨⟨hexited, hqueue⟩, hcurrent⟩, -⟩ := hs
      exact ⟨⟨h.output, h.dead, h.emitted, h.stopped,
        fun _ => ⟨h.stopped hexited, hqueue, hcurrent⟩⟩, ⟨hk.piped, hk.lines⟩⟩
    · exact ⟨h, hk⟩

/-! ### Whole runs -/

theorem ordered_run (policy : McpPolicy) (env : Surroundings ν) {as : List Event}
    (hall : Allowed (Child.step policy env) Drained start as) :
    Ordered policy env (as.foldl (Child.step policy env) start) ∧
      Kept (as.foldl (Child.step policy env) start) := by
  refine @Allowed.invariant _ _ _ _ (fun s => Ordered policy env s ∧ Kept s)
    (fun _ e h he => h.1.step h.2 e he) _ _ ?_ hall
  exact ⟨⟨rfl, fun hc => (by cases hc), ⟨[], [], rfl, rfl, .inl rfl⟩, fun he => (by cases he),
    fun hs => (by cases hs)⟩, ⟨fun _ => rfl, fun _ => rfl⟩⟩

/-- What has been processed is what was written, from its first line on. -/
theorem Ordered.handled_prefix (h : Ordered policy env s) (hk : Kept s) :
    s.handled <+: readLines s.wrote := by
  obtain ⟨lines, last, hlines, hemitted, hlast⟩ := h.emitted
  have hhandled : s.handled <+: lines ++ last := by
    rw [← hemitted, List.append_assoc]
    exact List.prefix_append _ _
  rcases hlast with rfl | ⟨-, rfl, hwrote⟩
  · rw [List.append_nil] at hhandled
    refine hhandled.trans ?_
    cases hclosed : s.closed with
    | false =>
      rw [hk.piped hclosed, readLines_append, hlines, List.dropLast_concat]
      exact List.prefix_append _ _
    | true =>
      rw [readLines_eq s.wrote, hk.lines hclosed, hlines, List.dropLast_concat]
      exact List.prefix_append _ _
  · rw [hwrote, hlines]
    exact hhandled

/-- Once the wrap has resolved, every complete line has been processed, and at most the
unfinished one after them. -/
theorem Ordered.resolved (h : Ordered policy env s) (hk : Kept s)
    (hs : s.settled = some .resolved) :
    ∃ last, s.handled = (readLines s.wrote).dropLast ++ last ∧
      (last = [] ∨ last = [((readLines s.wrote).getLast?).getD []]) := by
  obtain ⟨hclosed, hqueue, hcurrent⟩ := h.done hs
  obtain ⟨lines, last, hlines, hemitted, hlast⟩ := h.emitted
  refine ⟨last, ?_, hlast.imp_right fun hl => ?_⟩
  · rw [hk.lines hclosed, hlines, List.dropLast_concat, ← hemitted, hqueue, hcurrent]
    simp
  · rw [hl.2.2, hlines, List.getLast?_concat, Option.getD_some]
    exact hl.2.1

/-- **No line is lost.** In every run in which the exit of the child never finds a
complete line unread: at any time the lines processed are the first of those written, and
the client has received the reply to each, once and in order; and when the wrap resolves
every complete line has been processed. -/
theorem wrap_keeps_lines (policy : McpPolicy) (env : Surroundings ν) (as : List Event)
    (hall : Allowed (Child.step policy env) Drained start as) :
    let s := as.foldl (Child.step policy env) start
    s.handled <+: readLines s.wrote ∧ s.output = replies policy env s.handled ∧
      (s.settled = some .resolved →
        ∃ last, s.handled = (readLines s.wrote).dropLast ++ last ∧
          (last = [] ∨ last = [((readLines s.wrote).getLast?).getD []])) := by
  intro s
  obtain ⟨h, hk⟩ := ordered_run policy env hall
  exact ⟨h.handled_prefix hk, h.output, h.resolved hk⟩

instance decidableDrained (s : Wrap ν) (e : Event) : Decidable (Drained s e) := by
  unfold Drained
  split <;> infer_instance

/-- A server that writes one line and ends. -/
def answered : List Event :=
  [.write (js "\x7b\"id\":1,\"result\":2\x7d\n"), .die, .read 30, .exit, .take, .finish, .settle]

/-- The same server, whose exit is noticed before its output is read. -/
def unread : List Event :=
  [.write (js "\x7b\"id\":1,\"result\":2\x7d\n"), .die, .exit, .read 30, .settle]

/-- Nothing is rejected, and protection changes nothing. -/
def permissive : McpPolicy := ⟨true, [], true, true⟩

def unchanged : Surroundings NumberToken := fun _ => (fun _ _ v => .passed v, [])

/-- A line that is read before the exit is delivered. -/
theorem answered_delivered :
    let s := answered.foldl (Child.step permissive unchanged) start
    s.handled <+: readLines s.wrote ∧ s.output = replies permissive unchanged s.handled ∧
      (s.settled = some .resolved →
        ∃ last, s.handled = (readLines s.wrote).dropLast ++ last ∧
          (last = [] ∨ last = [((readLines s.wrote).getLast?).getD []])) :=
  wrap_keeps_lines permissive unchanged answered (by decide +kernel)

/-- A line that is still in the pipe at the exit is lost. -/
theorem unread_lost : ¬∀ (policy : McpPolicy) (env : Surroundings NumberToken) (as : List Event),
    let s := as.foldl (Child.step policy env) start
    s.settled = some .resolved → (readLines s.wrote).dropLast <+: s.handled := by
  intro h
  have h := h permissive unchanged unread
  revert h
  decide +kernel

end Haechi.Mcp.Child
