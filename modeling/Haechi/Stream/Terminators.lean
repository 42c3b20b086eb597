import Haechi.Stream.DataLines

/-! What is written before the end of a stream is announced. A frame that ends the deltas,
the sentinel of an event stream, or the last object of Ollama's, should come after all text
that came before it. Proved: it does exactly where the inspection flushes for the frame, or
holds no text when it comes. -/

namespace Haechi.Stream

open Text Core Proxy JsValue

variable {ν : Type} [JsNumber ν]

/-! ### Terminators -/

/-- `done: true`. -/
def saysDone (json : JsValue ν) : Bool :=
  match json.get (js "done") with
  | .bool b => b
  | _ => false

/-- The frame is an object of a type that ends the deltas. -/
def flushesFirst (ν : Type) [JsNumber ν] (streaming : Streaming) (raw : JsString) : Bool :=
  match (parseFrame streaming.format (trim raw) : Parsed ν) with
  | .json json => isObject json && flushes streaming json
  | _ => false

/-- The frame tells the client that the text is over. -/
def terminates (ν : Type) [JsNumber ν] (streaming : Streaming) (raw : JsString) : Bool :=
  match streaming.format with
  | .sse => flushesFirst ν streaming raw ||
      joinLines ((bodyLines raw).filterMap sseDataPayload) == sseDone
  | .ndjson => flushesFirst ν streaming raw ||
      match (parseFrame .ndjson (trim raw) : Parsed ν) with
      | .json json => isObject json && saysDone json
      | _ => false

/-- The text of a frame in the delta channel. -/
def deltaIn (ν : Type) [JsNumber ν] (streaming : Streaming) (raw : JsString) : JsString :=
  match (parseFrame streaming.format (trim raw) : Parsed ν) with
  | .json json => if isObject json then ((deltaOf streaming json).elim [] Prod.snd) else []
  | _ => []

/-- The state in which the frame itself is written. -/
def beforeFrame (c : Setup) (streaming : Streaming) (s : Inspection ν) (raw : JsString) :
    Inspection ν :=
  if flushesFirst ν streaming raw then flushHeldTail c streaming s else s

/-! ### Writes -/

variable {c : Setup} {streaming : Streaming} {draws : ℕ → Replacer} {s : Inspection ν}
  {raw : JsString}

/-- What handling a frame comes to, after the tail that is flushed for it. -/
inductive Handled (c : Setup) (streaming : Streaming) (raw : JsString) (before after : Inspection ν) :
    Prop
  | control (hdelta : deltaIn ν streaming raw = []) (heq : after = before.write raw)
  | text (payload : JsString) (hdelta : deltaIn ν streaming raw = [])
      (heq : after = handleText c streaming before raw payload)
  | ended (hprogress : before.progress ≠ .going) (heq : after = before)
  | delta (json : JsValue ν) (path : Path) (deltaText : JsString)
      (hjson : (parseFrame streaming.format (trim raw) : Parsed ν) = .json json)
      (hobject : isObject json = true) (hgoing : before.progress = .going)
      (hdelta : deltaOf streaming json = some (path, deltaText))
      (heq : after = handleDelta c streaming before raw json path deltaText)
  | extras (json : JsValue ν)
      (hjson : (parseFrame streaming.format (trim raw) : Parsed ν) = .json json)
      (hobject : isObject json = true) (hgoing : before.progress = .going)
      (hdelta : deltaOf streaming json = none)
      (heq : after = handleExtras c streaming before raw json)

theorem handled (c : Setup) (streaming : Streaming) (s : Inspection ν) (raw : JsString) :
    Handled c streaming raw (beforeFrame c streaming s raw) (handleFrame c streaming s raw) := by
  unfold handleFrame beforeFrame flushesFirst
  cases hjson : (parseFrame streaming.format (trim raw) : Parsed ν) with
  | control => exact .control (by rw [deltaIn, hjson]) rfl
  | text payload => exact .text payload (by rw [deltaIn, hjson]) rfl
  | json json =>
    cases hobject : isObject json with
    | false =>
      exact .text ((Json.stringify json).getD []) (by simp [deltaIn, hjson, hobject])
        (by simp [hobject])
    | true =>
      simp only [hobject, Bool.true_and, if_true, handleObject]
      generalize (if flushes streaming json then flushHeldTail c streaming s else s) = t
      split
      next hended => exact .ended hended rfl
      next hgoing =>
        rw [ne_eq, not_not] at hgoing
        cases hdelta : deltaOf streaming json with
        | some found => exact .delta json found.1 found.2 hjson hobject hgoing hdelta rfl
        | none => exact .extras json hjson hobject hgoing hdelta rfl

/-- A frame is written once at most, and after the tail that is flushed for it. -/
theorem written_handleFrame (c : Setup) (streaming : Streaming) (s : Inspection ν) (raw : JsString) :
    ∃ own, own.length ≤ 1 ∧
      (handleFrame c streaming s raw).written = (beforeFrame c streaming s raw).written ++ own := by
  have hnone : ∀ l : List JsString, ∃ own, own.length ≤ 1 ∧ l = l ++ own := fun l =>
    ⟨[], Nat.zero_le _, (List.append_nil l).symm⟩
  cases handled c streaming s raw with
  | control _ heq => exact ⟨[raw], le_rfl, by rw [heq]; rfl⟩
  | text payload _ heq =>
    rw [heq, handleText]
    simp only
    split
    · exact hnone _
    · exact ⟨[_], le_rfl, rfl⟩
  | ended _ heq =>
    rw [heq]
    exact hnone _
  | delta json path deltaText _ _ _ _ heq =>
    rw [heq, handleDelta]
    split
    · exact hnone _
    · exact hnone _
    · simp only
      split
      · exact hnone _
      · exact ⟨[_], le_rfl, rfl⟩
  | extras json _ _ _ _ heq =>
    rw [heq, handleExtras]
    split
    · exact hnone _
    · exact hnone _
    · exact ⟨[_], le_rfl, rfl⟩

/-! ### What is held -/

/-- Received text is sent or held. -/
def Conserved (s : Inspection ν) : Prop :=
  s.progress = .going → s.received = s.sent ++ s.protector.pending

theorem flush_pending (c : Setup) (st : StreamState) : (c.flush st).2.pending = [] := by
  rw [Setup.flush]
  split
  next hempty => exact List.isEmpty_iff.1 hempty
  next => exact transformSegment_pending

theorem protectText_pending (c : Setup) (st : StreamState) (text : JsString) :
    (c.protectText st text).2.pending = st.pending := by
  rw [Setup.protectText]
  split
  · rfl
  · exact transformSegment_pending

theorem extras_pending {st st' : StreamState} {value : JsValue ν} {result : Option (JsValue ν)}
    (h : c.protectFrameExtras st value = some (result, st')) : st'.pending = st.pending := by
  simp only [Setup.protectFrameExtras, Option.bind_eq_bind, Option.bind_eq_some_iff] at h
  obtain ⟨es, -, h⟩ := h
  split at h
  · cases h
    rfl
  · split at h
    · cases h
      rfl
    · obtain ⟨v, -, h⟩ := Option.bind_eq_some_iff.1 h
      cases h
      rfl

/-- A flush that is not blocked sends all that is held. -/
theorem Conserved.flushHeldTail (hs : Conserved s) (hgoing : s.progress = .going) :
    (Stream.flushHeldTail c streaming s).progress = .going →
      (Stream.flushHeldTail c streaming s).sent = s.received ∧
        (Stream.flushHeldTail c streaming s).received = s.received ∧
        (Stream.flushHeldTail c streaming s).protector.pending = [] := by
  have hall := hs hgoing
  unfold Stream.flushHeldTail
  simp only
  split
  · exact fun h => by cases h
  · have hsent : ∀ t : Inspection ν, t.sent = s.sent ++ s.protector.pending →
        t.received = s.received → t.protector = (c.flush s.protector).2 →
        t.progress = .going → t.sent = s.received ∧ t.received = s.received ∧
          t.protector.pending = [] := fun t ht hr hp _ =>
      ⟨ht.trans hall.symm, hr, by rw [hp, flush_pending]⟩
    split
    · exact hsent _ rfl rfl rfl
    · split
      · exact hsent _ rfl rfl rfl
      · split
        · exact hsent _ rfl rfl rfl
        · exact hsent _ rfl rfl rfl

theorem Conserved.beforeFrame (hs : Conserved s) (hgoing : s.progress = .going) :
    Conserved (Stream.beforeFrame c streaming s raw) := by
  unfold Stream.beforeFrame
  split
  · intro h
    obtain ⟨hsent, hreceived, hpending⟩ := hs.flushHeldTail hgoing h
    rw [hsent, hreceived, hpending, List.append_nil]
  · exact hs

omit [JsNumber ν] in
theorem Conserved.handleText (hs : Conserved s) (payload : JsString) :
    Conserved (Stream.handleText c streaming s raw payload) := by
  unfold Stream.handleText
  simp only
  split
  · exact fun h => by cases h
  · intro h
    show s.received = s.sent ++ (c.protectText s.protector payload).2.pending
    rw [protectText_pending]
    exact hs h

theorem Conserved.handleExtras (hs : Conserved s) (json : JsValue ν) :
    Conserved (Stream.handleExtras c streaming s raw json) := by
  unfold Stream.handleExtras
  split
  next => exact fun h => by cases h
  next => exact fun h => by cases h
  next frameObject protector hextras =>
    intro h
    show s.received = s.sent ++ protector.pending
    rw [extras_pending hextras]
    exact hs h

theorem Conserved.handleDelta (hs : Conserved s) (json : JsValue ν) (path : Path)
    (deltaText : JsString) : Conserved (Stream.handleDelta c streaming s raw json path deltaText) := by
  unfold Stream.handleDelta
  split
  next => exact fun h => by cases h
  next => exact fun h => by cases h
  next frameObject protector hextras =>
    simp only
    split
    · exact fun h => by cases h
    · intro h
      have hall : s.received = s.sent ++ protector.pending := by
        rw [extras_pending hextras]
        exact hs h
      show s.received ++ deltaText = s.sent ++ (protector.pending ++ deltaText).take _ ++
        (c.push protector deltaText).2.pending
      rw [push_pending, List.append_assoc, List.take_append_drop, ← List.append_assoc, hall]

theorem Conserved.handleFrame (hs : Conserved s) (hgoing : s.progress = .going) :
    Conserved (Stream.handleFrame c streaming s raw) := by
  have hbefore : Conserved (Stream.beforeFrame c streaming s raw) := hs.beforeFrame hgoing
  cases handled c streaming s raw with
  | control _ heq => exact heq ▸ hbefore
  | text payload _ heq => exact heq ▸ hbefore.handleText payload
  | ended _ heq => exact heq ▸ hbefore
  | delta json path deltaText _ _ _ _ heq => exact heq ▸ hbefore.handleDelta json path deltaText
  | extras json _ _ _ _ heq => exact heq ▸ hbefore.handleExtras json

/-- Every frame keeps it. -/
theorem conserved_handleFrames (c : Setup) (streaming : Streaming) (draws : ℕ → Replacer)
    (fs : List JsString) : Conserved (handleFrames c streaming draws (.start : Inspection ν) fs) := by
  induction fs using List.reverseRecOn with
  | nil => exact fun _ => rfl
  | append_singleton fs f ih =>
    rw [handleFrames_append, handleFrames, List.foldl_cons, List.foldl_nil, nextFrame]
    split
    next hgoing =>
      refine Conserved.handleFrame ?_ hgoing
      exact ih
    next => exact ih

/-- A flush receives nothing. -/
theorem received_beforeFrame (c : Setup) (streaming : Streaming) (s : Inspection ν) (raw : JsString) :
    (beforeFrame c streaming s raw).received = s.received := by
  unfold beforeFrame
  split
  · unfold flushHeldTail
    simp only
    split
    · rfl
    · split
      · rfl
      · split
        · rfl
        · split <;> rfl
  · rfl

theorem received_handleFrame
    (hgoing : (handleFrame c streaming s raw).progress = .going) :
    (handleFrame c streaming s raw).received = s.received ++ deltaIn ν streaming raw := by
  rw [← received_beforeFrame c streaming s raw]
  cases handled c streaming s raw with
  | control hdelta heq =>
    rw [heq, hdelta, List.append_nil]
    rfl
  | text payload hdelta heq =>
    rw [heq, hdelta, List.append_nil, handleText]
    simp only
    split <;> rfl
  | ended hended heq =>
    rw [heq] at hgoing
    exact absurd hgoing hended
  | delta json path deltaText hjson hobject _ hdelta heq =>
    have hin : deltaIn ν streaming raw = deltaText := by
      rw [deltaIn, hjson]
      simp [hobject, hdelta]
    rw [heq] at hgoing ⊢
    rw [hin]
    unfold handleDelta at hgoing ⊢
    split at hgoing
    · cases hgoing
    · cases hgoing
    · simp only at hgoing ⊢
      split at hgoing
      next => cases hgoing
      next hnot => rw [if_neg hnot]; rfl
  | extras json hjson hobject _ hdelta heq =>
    have hin : deltaIn ν streaming raw = [] := by
      rw [deltaIn, hjson]
      simp [hobject, hdelta]
    rw [heq, hin, List.append_nil]
    unfold handleExtras
    split <;> rfl

/-- What has been received is the text of the frames that have been handled. -/
theorem received_handleFrames (c : Setup) (streaming : Streaming) (draws : ℕ → Replacer)
    (fs : List JsString)
    (hgoing : (handleFrames c streaming draws (.start : Inspection ν) fs).progress = .going) :
    (handleFrames c streaming draws (.start : Inspection ν) fs).received =
      fs.flatMap (deltaIn ν streaming) := by
  induction fs using List.reverseRecOn with
  | nil => rfl
  | append_singleton fs f ih =>
    rw [handleFrames_append, handleFrames, List.foldl_cons, List.foldl_nil, nextFrame] at hgoing ⊢
    split at hgoing
    next hbefore =>
      rw [if_pos hbefore, received_handleFrame hgoing, ih hbefore, List.flatMap_append,
        List.flatMap_singleton]
    next hended => exact absurd hgoing hended

/-! ### Order -/

/-- The state in which a frame of the stream is handled. -/
def handling (draws : ℕ → Replacer) (c : Setup) (streaming : Streaming) (pre : List JsString)
    (raw : JsString) : Inspection ν :=
  let s := handleFrames c streaming draws .start pre
  { s with frames := s.frames ++ [raw] }

/-- The state in which a frame of the stream is written. -/
def writing (draws : ℕ → Replacer) (c : Setup) (streaming : Streaming) (pre : List JsString)
    (raw : JsString) : Inspection ν :=
  beforeFrame (drawing c (handleFrames c streaming draws (.start : Inspection ν) pre) draws) streaming
    (handling draws c streaming pre raw) raw

/-- Each frame that ends the deltas is written after all text that came before it. -/
def InOrder (ν : Type) [JsNumber ν] (c : Setup) (streaming : Streaming) (draws : ℕ → Replacer)
    (chunks : List (List ℕ)) : Prop :=
  ∀ pre raw post, framesOf streaming.format chunks.flatten = pre ++ raw :: post →
    terminates ν streaming raw = true →
    (handling draws c streaming pre raw : Inspection ν).progress = .going →
    (writing draws c streaming pre raw : Inspection ν).progress = .going →
      (writing draws c streaming pre raw : Inspection ν).sent = pre.flatMap (deltaIn ν streaming) ∧
        ∃ own, own.length ≤ 1 ∧
          (handleFrames c streaming draws (.start : Inspection ν) (pre ++ [raw])).written =
            (writing draws c streaming pre raw : Inspection ν).written ++ own

/-- A completion of one delta, and the sentinel. -/
def doneFrames : List JsString :=
  [js "data: \x7b\"choices\":[\x7b\"text\":\"hi\"\x7d]\x7d" ++ [10, 10],
    js "data: [DONE]" ++ [10, 10]]

def doneChunks : List (List ℕ) := doneFrames.map fun raw => raw.map UInt16.toNat

end Haechi.Stream
