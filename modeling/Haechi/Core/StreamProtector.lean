import Haechi.Core.Payload
import Haechi.Runs

/-! The stateful protector of a text stream. It holds back the end of what it has
received, so that a match that is still growing is not emitted in part, commits
what lies before the held part, and drains it at the end. Proved: a span no longer
than the held part is never emitted in clear as long as every text that is scanned
with the span in it reports the span. -/

namespace Haechi.Core

open Text Haechi.Filter

/-! ### The protector -/

/-- The counts of a stream's detections. -/
structure StreamSummary where
  detectionCount : ℕ
  byType : Counts
  byAction : List (Action × ℕ)

structure StreamState where
  pending : JsString
  summary : StreamSummary

/-- `counts[action] = (counts[action] ?? 0) + 1`; no action has an inherited name. -/
def bump (action : Action) (counts : List (Action × ℕ)) : List (Action × ℕ) :=
  if counts.any (·.1 == action) then
    counts.map fun e => if e.1 = action then (e.1, e.2 + 1) else e
  else counts ++ [(action, 1)]

def StreamState.start : StreamState := ⟨[], 0, [], []⟩

/-- What a call gives back: the text, in pieces, or that the stream is blocked. -/
structure StreamResult where
  pieces : List Piece
  blocked : Bool

def StreamResult.text (r : StreamResult) : JsString := outputOf r.pieces

def StreamResult.nothing : StreamResult := ⟨[], false⟩

def StreamSummary.tally (s : StreamSummary) (items : List Item) : StreamSummary :=
  items.foldl (fun s item =>
    ⟨s.detectionCount + 1, bumpName item.1.type s.byType, bump item.2 s.byAction⟩) s

namespace Setup

variable (c : Setup)

/-- The entry of a text that is protected on its own. -/
def textEntry (text : JsString) : Entry := entryAt c.replacer.shortHash [] text .value

/-- The detections of a text. -/
def scan (text : JsString) : List Detection := c.engine.detect [c.textEntry text] c.context

/-- Scan a complete text, decide, count, and rewrite it. -/
def transformSegment (st : StreamState) (text : JsString) : StreamResult × StreamState :=
  let items := c.decideAll (c.scan text)
  let st := { st with summary := st.summary.tally items }
  if c.blocks items then (⟨[], true⟩, st)
  else if !c.enforced || items.isEmpty then (⟨[.clear text], false⟩, st)
  else (⟨transformPieces c.replacer text items, false⟩, st)

/-- How much of the held text may go: all but the last `maxMatchBytes` characters,
and nothing of a detection that reaches into these. -/
def commitPoint (held : JsString) (detections : List Detection) : ℕ :=
  let commit := held.length - c.maxMatchBytes
  let straddlers := detections.filter fun d => commit < d.stop
  (straddlers.map Detection.start).foldl min commit

def push (st : StreamState) (text : JsString) : StreamResult × StreamState :=
  let held := st.pending ++ text
  let commit := c.commitPoint held (c.scan held)
  if commit = 0 then (.nothing, { st with pending := held })
  else c.transformSegment { st with pending := held.drop commit } (held.take commit)

def flush (st : StreamState) : StreamResult × StreamState :=
  if st.pending.isEmpty then (.nothing, st)
  else c.transformSegment { st with pending := [] } st.pending

/-- Protect a text that is no part of the stream's own. -/
def protectText (st : StreamState) (text : JsString) : StreamResult × StreamState :=
  if text.isEmpty then (.nothing, st) else c.transformSegment st text

/-- The other leaves of a frame. The second component says that the frame is
blocked; a frame that is nested too deeply throws. -/
def protectFrameExtras {ν : Type} [JsNumber ν] (st : StreamState) (value : JsValue ν) :
    Option (Option (JsValue ν) × StreamState) := do
  let items := c.decideAll (c.engine.detect (← c.entries value) c.context)
  let st' := { st with summary := st.summary.tally items }
  if items.isEmpty then return (some value, st)
  else if c.blocks items then return (none, st')
  else return (some (← transformPayload c.replacer c.enforced value items), st')

end Setup

/-! ### Runs -/

/-- A call of the protector. -/
inductive StreamCall where
  | push (text : JsString)
  | flush

/-- A protector with everything it has given back so far. -/
structure StreamRun where
  state : StreamState
  emitted : List Piece
  blocked : Bool

def StreamRun.start : StreamRun := ⟨.start, [], false⟩

/-- A blocked stream takes no more calls. -/
def StreamRun.step (c : Setup) (s : StreamRun) (call : StreamCall) : StreamRun :=
  if s.blocked then s
  else
    let (result, state) := match call with
      | .push text => c.push s.state text
      | .flush => c.flush s.state
    ⟨state, s.emitted ++ result.pieces, result.blocked⟩

/-- The deltas one after the other, then the end of the stream. -/
def streamCalls (deltas : List JsString) : List StreamCall := deltas.map .push ++ [.flush]

def protectStream (c : Setup) (deltas : List JsString) : StreamRun :=
  (streamCalls deltas).foldl (StreamRun.step c) .start

/-! ### One segment -/

variable {c : Setup} {st : StreamState} {text : JsString}

/-- Without the decoding pass one scan reports disjoint spans of the text, or the text. -/
theorem exact_scan (hdecode : c.engine.decodeAndRescan = false) (text : JsString) :
    Exact (c.scan text) text.length := by
  have h := exact_scanEntry c.engine.nfkc (c.textEntry text) c.engine.rules c.context
  simpa [Setup.scan, Engine.detect, Filter.detect, detectEntry, hdecode, Setup.textEntry, entryAt]
    using h

theorem map_fst_decideAll (ds : List Detection) : (c.decideAll ds).map Prod.fst = ds := by
  simp [Setup.decideAll, Function.comp_def]

theorem transformSegment_pending : (c.transformSegment st text).2.pending = st.pending := by
  unfold Setup.transformSegment
  simp only
  split_ifs <;> rfl

/-- A push keeps what it does not commit. -/
theorem push_pending (st : StreamState) (delta : JsString) :
    (c.push st delta).2.pending = (st.pending ++ delta).drop
      (c.commitPoint (st.pending ++ delta) (c.scan (st.pending ++ delta))) := by
  rw [Setup.push]
  split_ifs with hzero
  · rw [hzero, List.drop_zero]
  · exact transformSegment_pending

/-- A segment that is not blocked keeps every character, and replaces those that a
detection covers which is not allowed. -/
theorem transformSegment_marks (hdecode : c.engine.decodeAndRescan = false)
    (hblocked : (c.transformSegment st text).1.blocked = false) :
    sourceOf (c.transformSegment st text).1.pieces = text ∧
      (c.enforced = true → ∀ d ∈ c.scan text, c.decide d ≠ .allow →
        ∀ i, d.start ≤ i → i < d.stop →
          (marks (c.transformSegment st text).1.pieces)[i]? = some true) := by
  have hexact : Exact ((c.decideAll (c.scan text)).map Prod.fst) text.length := by
    rw [map_fst_decideAll]
    exact exact_scan hdecode text
  unfold Setup.transformSegment at hblocked ⊢
  simp only at hblocked ⊢
  split_ifs at hblocked ⊢ with hblocks hclear
  · refine ⟨by simp [sourceOf, Piece.source], fun henforced d hd => ?_⟩
    have hempty : c.scan text = [] := by
      simpa [henforced, Setup.decideAll, List.isEmpty_iff] using hclear
    rw [hempty] at hd
    cases hd
  · obtain ⟨hsource, hmarks⟩ := marks_transformPieces_of_exact (p := c.replacer) hexact
    refine ⟨hsource, fun henforced d hd hallow => ?_⟩
    have hitem : (d, c.decide d) ∈ c.decideAll (c.scan text) := List.mem_map_of_mem hd
    have hblock : c.decide d ≠ .block := by
      intro h
      refine hblocks ?_
      simp only [Setup.blocks, henforced, Bool.true_and, List.any_eq_true, beq_iff_eq]
      exact ⟨_, hitem, h⟩
    exact hmarks _ hitem (by simp [rewrites, hallow, hblock])

/-! ### The commit point -/

theorem foldl_min_le (n : ℕ) (ns : List ℕ) :
    ns.foldl min n ≤ n ∧ ∀ m ∈ ns, ns.foldl min n ≤ m := by
  induction ns generalizing n with
  | nil => simp
  | cons k ns ih =>
    obtain ⟨hn, hns⟩ := ih (min n k)
    refine ⟨hn.trans (min_le_left n k), List.forall_mem_cons.mpr ⟨hn.trans (min_le_right n k), hns⟩⟩

theorem foldl_min_mem (n : ℕ) (ns : List ℕ) : ns.foldl min n = n ∨ ns.foldl min n ∈ ns := by
  induction ns generalizing n with
  | nil => exact .inl rfl
  | cons k ns ih =>
    rw [List.foldl_cons, List.mem_cons]
    rcases ih (min n k) with h | h
    · rcases min_choice n k with hmin | hmin
      · exact .inl (h.trans hmin)
      · exact .inr (.inl (h.trans hmin))
    · exact .inr (.inr h)

theorem commitPoint_le (held : JsString) (ds : List Detection) :
    c.commitPoint held ds ≤ held.length - c.maxMatchBytes := (foldl_min_le _ _).1

/-- The commit point cuts no detection of the held text. -/
theorem commitPoint_cuts {held : JsString} {ds : List Detection} (h : Exact ds held.length)
    {d : Detection} (hd : d ∈ ds) :
    d.stop ≤ c.commitPoint held ds ∨ c.commitPoint held ds ≤ d.start := by
  rw [Setup.commitPoint]
  by_cases hlt : held.length - c.maxMatchBytes < d.stop
  · exact .inr ((foldl_min_le _ _).2 _ (List.mem_map_of_mem (by simp [hd, hlt])))
  · rcases foldl_min_mem (held.length - c.maxMatchBytes)
      ((ds.filter fun d => held.length - c.maxMatchBytes < d.stop).map Detection.start) with h' | h'
    · omega
    · obtain ⟨e, he, heq⟩ := List.mem_map.mp h'
      obtain ⟨he, helt⟩ := List.mem_filter.mp he
      simp only [decide_eq_true_eq] at helt
      rw [← heq]
      -- the detection ends before the straddling one does, so the latter does not start in it
      by_contra! hcross
      have := h.stop_le he hd (by omega) (by omega)
      omega

/-! ### Spans of a stream -/

/-- A detection that is not allowed covers the span. -/
def Reports (c : Setup) (text : JsString) (start stop : ℕ) : Prop :=
  ∃ d ∈ c.scan text, c.decide d ≠ .allow ∧ d.start ≤ start ∧ stop ≤ d.stop

/-- The span of the stream, wherever the call finds it whole in the held text, is
reported: in the held text, and in each prefix of it that holds the span and may
be committed. -/
def SpanReported (c : Setup) (start stop : ℕ) (s : StreamRun) (call : StreamCall) : Prop :=
  let offset := (sourceOf s.emitted).length
  match call with
  | .push text =>
    let held := s.state.pending ++ text
    offset ≤ start → stop ≤ offset + held.length →
      Reports c held (start - offset) (stop - offset) ∧
        ∀ n < held.length + 1 - c.maxMatchBytes, stop ≤ offset + n →
          Reports c (held.take n) (start - offset) (stop - offset)
  | .flush =>
    offset ≤ start → stop ≤ offset + s.state.pending.length →
      Reports c s.state.pending (start - offset) (stop - offset)

instance (c : Setup) (text : JsString) (start stop : ℕ) : Decidable (Reports c text start stop) :=
  inferInstanceAs (Decidable (∃ d ∈ c.scan text, _ ∧ _))

instance (c : Setup) (start stop : ℕ) (s : StreamRun) (call : StreamCall) :
    Decidable (SpanReported c start stop s call) :=
  match call with
  | .push _ => inferInstanceAs (Decidable (_ → _ → _ ∧ _))
  | .flush => inferInstanceAs (Decidable (_ → _ → _))

/-- The characters that have been given back and what is held are all the stream
received, and the span was not cut: what was given back of it was replaced. -/
structure SpanKept (start stop : ℕ) (received : JsString) (s : StreamRun) : Prop where
  conserved : sourceOf s.emitted ++ s.state.pending = received
  whole : (sourceOf s.emitted).length ≤ start ∨ stop ≤ (sourceOf s.emitted).length
  replaced : stop ≤ (sourceOf s.emitted).length →
    ∀ i, start ≤ i → i < stop → (marks s.emitted)[i]? = some true

variable {start stop : ℕ} {received : JsString} {s : StreamRun}

theorem spanKept_start (start stop : ℕ) : SpanKept start stop [] .start := by
  refine ⟨rfl, .inl (Nat.zero_le _), fun hstop i hi hi' => ?_⟩
  simp only [StreamRun.start, sourceOf, List.flatMap_nil, List.length_nil] at hstop
  omega

/-- Emitting a prefix of the held text keeps the span, if the prefix ends before
the span starts or reports it. -/
theorem SpanKept.segment (h : SpanKept start stop received s)
    (hdecode : c.engine.decodeAndRescan = false) (henforced : c.enforced = true)
    {st : StreamState} {held rest : JsString} (hst : st.pending = rest)
    (hblocked : (c.transformSegment st held).1.blocked = false)
    (hcut : (sourceOf s.emitted).length ≤ start →
      (sourceOf s.emitted).length + held.length ≤ start ∨
        stop ≤ (sourceOf s.emitted).length + held.length ∧
          Reports c held (start - (sourceOf s.emitted).length)
            (stop - (sourceOf s.emitted).length)) :
    SpanKept start stop (sourceOf s.emitted ++ held ++ rest)
      ⟨(c.transformSegment st held).2, s.emitted ++ (c.transformSegment st held).1.pieces, false⟩ := by
  obtain ⟨hsource, hmarks⟩ := transformSegment_marks hdecode hblocked
  have hlen : (sourceOf (s.emitted ++ (c.transformSegment st held).1.pieces)).length =
      (sourceOf s.emitted).length + held.length := by
    rw [sourceOf_append, hsource, List.length_append]
  refine ⟨?_, ?_, ?_⟩
  · rw [sourceOf_append, hsource, transformSegment_pending, hst]
  · rw [hlen]
    rcases h.whole with h | h
    · exact (hcut h).imp_right And.left
    · exact .inr (by omega)
  · rw [hlen]
    intro hstop i hi hi'
    rw [marks_append]
    rcases h.whole with hbefore | hafter
    · rcases hcut hbefore with hout | ⟨-, d, hd, hallow, hstart, hstop'⟩
      · omega
      · rw [List.getElem?_append_right (by rw [length_marks]; omega), length_marks]
        exact hmarks henforced d hd hallow _ (by omega) (by omega)
    · have hi'' : i < (marks s.emitted).length := by rw [length_marks]; omega
      rw [List.getElem?_append_left hi'']
      exact h.replaced hafter i hi hi'

/-- A push keeps a span no longer than the held part. -/
theorem SpanKept.push (h : SpanKept start stop received s)
    (hdecode : c.engine.decodeAndRescan = false) (henforced : c.enforced = true)
    (hlong : stop ≤ start + c.maxMatchBytes) (hle : start ≤ stop) (text : JsString)
    (hspan : SpanReported c start stop s (.push text)) (hs : s.blocked = false)
    (hblocked : (s.step c (.push text)).blocked = false) :
    SpanKept start stop (received ++ text) (s.step c (.push text)) := by
  have hreceived : received ++ text = sourceOf s.emitted ++ (s.state.pending ++ text) := by
    rw [← h.conserved, List.append_assoc]
  simp only [StreamRun.step, hs, Bool.false_eq_true, if_false, Setup.push] at hblocked ⊢
  generalize hheld : s.state.pending ++ text = held at *
  have hcommit := commitPoint_le (c := c) held (c.scan held)
  split_ifs at hblocked ⊢ with hzero
  · refine ⟨?_, ?_, ?_⟩
    · simpa [StreamResult.nothing] using hreceived.symm
    · simpa [StreamResult.nothing] using h.whole
    · simpa [StreamResult.nothing] using h.replaced
  · rw [hblocked]
    have htake : (held.take (c.commitPoint held (c.scan held))).length =
        c.commitPoint held (c.scan held) := by
      rw [List.length_take]
      omega
    rw [hreceived, ← List.take_append_drop (c.commitPoint held (c.scan held)) held,
      ← List.append_assoc, List.take_append_drop]
    refine h.segment hdecode henforced rfl hblocked ?_
    · intro hbefore
      rw [htake]
      by_cases hin : stop ≤ (sourceOf s.emitted).length + held.length
      · obtain ⟨⟨d, hd, -, hstart, hstop⟩, hpre⟩ := hspan hbefore (hheld ▸ hin)
        rw [hheld] at hpre hd
        rcases commitPoint_cuts (c := c) (exact_scan hdecode held) hd with hcut | hcut
        · exact .inr ⟨by omega, hpre _ (by omega) (by omega)⟩
        · exact .inl (by omega)
      · exact .inl (by omega)

theorem SpanKept.flush (h : SpanKept start stop received s)
    (hdecode : c.engine.decodeAndRescan = false) (henforced : c.enforced = true)
    (hin : stop ≤ received.length) (hspan : SpanReported c start stop s .flush)
    (hs : s.blocked = false) (hblocked : (s.step c .flush).blocked = false) :
    SpanKept start stop received (s.step c .flush) ∧ (s.step c .flush).state.pending = [] := by
  have hlen : received.length = (sourceOf s.emitted).length + s.state.pending.length := by
    rw [← h.conserved, List.length_append]
  simp only [StreamRun.step, hs, Bool.false_eq_true, if_false, Setup.flush] at hblocked ⊢
  split_ifs at hblocked ⊢ with hempty
  · refine ⟨⟨?_, ?_, ?_⟩, List.isEmpty_iff.mp hempty⟩
    · simpa [StreamResult.nothing] using h.conserved
    · simpa [StreamResult.nothing] using h.whole
    · simpa [StreamResult.nothing] using h.replaced
  · rw [hblocked]
    have := h.segment hdecode henforced rfl hblocked
      fun hbefore => .inr ⟨by omega, hspan hbefore (by omega)⟩
    rw [List.append_nil, h.conserved] at this
    exact ⟨this, transformSegment_pending⟩

theorem step_of_blocked (hs : s.blocked = true) (call : StreamCall) : s.step c call = s := by
  simp [StreamRun.step, hs]

theorem foldl_step_of_blocked (hs : s.blocked = true) (calls : List StreamCall) :
    calls.foldl (StreamRun.step c) s = s := by
  induction calls with
  | nil => rfl
  | cons call calls ih => rw [List.foldl_cons, step_of_blocked hs, ih]

/-- A run of pushes keeps the span, or is blocked. -/
theorem SpanKept.pushes (h : SpanKept start stop received s)
    (hdecode : c.engine.decodeAndRescan = false) (henforced : c.enforced = true)
    (hlong : stop ≤ start + c.maxMatchBytes) (hle : start ≤ stop) (hs : s.blocked = false)
    {deltas : List JsString}
    (hspan : Allowed (StreamRun.step c) (SpanReported c start stop) s (deltas.map .push)) :
    ((deltas.map .push).foldl (StreamRun.step c) s).blocked = true ∨
      SpanKept start stop (received ++ deltas.flatten)
        ((deltas.map .push).foldl (StreamRun.step c) s) := by
  induction deltas generalizing s received with
  | nil => exact .inr (by simpa using h)
  | cons delta deltas ih =>
    obtain ⟨hnow, hlater⟩ := hspan
    rw [List.map_cons, List.foldl_cons, List.flatten_cons, ← List.append_assoc]
    by_cases hblocked : (s.step c (.push delta)).blocked = true
    · rw [foldl_step_of_blocked hblocked]
      exact .inl hblocked
    · rw [Bool.not_eq_true] at hblocked
      exact ih (h.push hdecode henforced hlong hle delta hnow hs hblocked) hblocked hlater

/-- Streaming covers what whole-text protection covers: in every run in which each
scanned text that holds a span reports it, the stream is blocked, or it gives back
the whole text with a replacement at every character of the span. -/
theorem protectStream_covers (c : Setup) (hdecode : c.engine.decodeAndRescan = false)
    (henforced : c.enforced = true) (deltas : List JsString) (d : Detection)
    (hd : d ∈ c.scan deltas.flatten) (hlong : d.stop - d.start ≤ c.maxMatchBytes)
    (hspan : Allowed (StreamRun.step c) (SpanReported c d.start d.stop) .start
      (streamCalls deltas)) :
    (protectStream c deltas).blocked = true ∨
      sourceOf (protectStream c deltas).emitted = deltas.flatten ∧
        ∀ i, d.start ≤ i → i < d.stop → (marks (protectStream c deltas).emitted)[i]? = some true := by
  obtain ⟨hle, hin⟩ := (exact_scan hdecode deltas.flatten).1 d hd
  rw [streamCalls, Allowed.append] at hspan
  rw [protectStream, streamCalls, List.foldl_append, List.foldl_cons, List.foldl_nil]
  rcases (spanKept_start d.start d.stop).pushes hdecode henforced (by omega) hle rfl hspan.1 with
    hblocked | hkept
  · rw [step_of_blocked hblocked]
    exact .inl hblocked
  · rw [List.nil_append] at hkept
    generalize (deltas.map StreamCall.push).foldl (StreamRun.step c) .start = s at *
    cases hs : s.blocked with
    | true =>
      rw [step_of_blocked hs]
      exact .inl hs
    | false =>
      cases hblocked : (s.step c .flush).blocked with
      | true => exact .inl rfl
      | false =>
        obtain ⟨hflushed, hpending⟩ := hkept.flush hdecode henforced hin hspan.2.1 hs hblocked
        have hsource := hflushed.conserved
        rw [hpending, List.append_nil] at hsource
        exact .inr ⟨hsource, hflushed.replaced (by rw [hsource]; exact hin)⟩

/-- Everything the default rules find in a response is redacted, and sixteen
characters are held back. -/
def redacting : Setup where
  engine := ⟨.plain, false, defaultRules⟩
  context := ⟨some .response, false⟩
  decide _ := .redact
  replacer := ⟨id, none, fun _ _ => []⟩
  enforced := true
  maxNestingDepth := 256
  minConfidence := 0
  allowlist := []
  maxMatchBytes := 16

/-- The address `bob@example.com` in two deltas. -/
def addressDeltas : List JsString := [js "bob@ex", js "ample.com will be there."]

/-- The detection of the address. -/
def addressDetection : Detection :=
  ⟨js "email", js "email", [], [], .value, 0, 15, some (95 / 100), js "bob@example.com"⟩

theorem protectStream_covers_address :
    addressDetection ∈ redacting.scan addressDeltas.flatten ∧
      ∀ i < 15, (marks (protectStream redacting addressDeltas).emitted)[i]? = some true := by
  have hd : addressDetection ∈ redacting.scan addressDeltas.flatten := by decide +kernel
  refine ⟨hd, ?_⟩
  rcases protectStream_covers redacting rfl rfl addressDeltas _ hd (by decide)
    (by decide +kernel) with hblocked | ⟨-, hcovered⟩
  · have : (protectStream redacting addressDeltas).blocked = false := by decide +kernel
    rw [this] at hblocked
    cases hblocked
  · exact fun i hi => hcovered i (Nat.zero_le _) hi

/-- A password whose name is committed before it. -/
def passwordDeltas : List JsString := [js "password=Abcdef123456    ", js "            "]

/-- The name that makes it a secret goes first; what is held is then scanned
without it, so the password that the whole text would have redacted is emitted. -/
theorem protectStream_leaks :
    (∃ d ∈ redacting.scan passwordDeltas.flatten, redacting.decide d ≠ .allow ∧ d.start = 9 ∧
        d.stop = 21 ∧ d.stop - d.start ≤ redacting.maxMatchBytes) ∧
      (protectStream redacting passwordDeltas).blocked = false ∧
      outputOf (protectStream redacting passwordDeltas).emitted = passwordDeltas.flatten ∧
      ∀ i < 37, (marks (protectStream redacting passwordDeltas).emitted)[i]? = some false := by
  decide +kernel

end Haechi.Core
