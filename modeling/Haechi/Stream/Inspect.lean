import Haechi.Core.StreamProtector
import Haechi.Stream.Frames

/-! The inspection of a response stream: bytes are decoded, cut into frames, and each
frame is parsed, protected and written again. The text of the delta channel goes through
the protector's held buffer; what is left of it is written in a copy of the last frame
that carried some. Proved: where the upstream cuts its bytes changes nothing, and the
frames are the decoded input without the blank ones. -/

namespace Haechi.Stream

open Text Core Proxy JsValue

variable {ν : Type}

/-! ### Paths -/

/-- `typeof value === "object"`, and not null. -/
def isObject : JsValue ν → Bool
  | .obj _ | .arr _ => true
  | _ => false

/-- `setByPath`; a path that leads through no object changes nothing. -/
def setByPath : JsValue ν → Path → JsValue ν → JsValue ν
  | v, [], _ => v
  | v, [part], next => (v.assign part next).getD v
  | v, part :: rest, next =>
    if isObject (v.prop part) then (v.assign part (setByPath (v.prop part) rest next)).getD v else v

/-- `buildPathObject`. -/
def buildPathObject : Path → JsValue ν → JsValue ν
  | [], leaf => leaf
  | .key k :: rest, leaf => .obj [(k, buildPathObject rest leaf)]
  | .index n :: rest, leaf => .arr (List.replicate n .undef ++ [buildPathObject rest leaf])

/-! ### State -/

inductive Progress where
  | going
  | blocked
  /-- An error was thrown. -/
  | failed
deriving DecidableEq

/-- The frame that the held text is written in. -/
structure DeltaTemplate (ν : Type) where
  object : JsValue ν
  original : JsString

/-- An inspection: the protector, the template, and what the sink has been given. -/
structure Inspection (ν : Type) where
  protector : StreamState
  lastDeltaTemplate : Option (DeltaTemplate ν)
  written : List JsString
  progress : Progress
  /-- The frames that have been handled. -/
  frames : List JsString
  /-- The objects among what has been written. -/
  objects : List (JsValue ν)
  /-- The text of the delta channel so far, and how much of it is in what has been written. -/
  received : JsString
  sent : JsString

namespace Inspection

def start : Inspection ν := ⟨.start, none, [], .going, [], [], [], []⟩

def write (s : Inspection ν) (text : JsString) : Inspection ν := { s with written := s.written ++ [text] }

def writeFrame [JsNumber ν] (s : Inspection ν) (object : JsValue ν) (format : Format)
    (original : Option JsString) : Inspection ν :=
  { s.write (serializeFrame object format original) with objects := s.objects ++ [object] }

def block (s : Inspection ν) : Inspection ν := { s with progress := .blocked }

def fail (s : Inspection ν) : Inspection ν := { s with progress := .failed }

end Inspection

variable [JsNumber ν] (c : Setup) (streaming : Streaming) (s : Inspection ν)

/-- The held text is written as one more delta. -/
def flushHeldTail : Inspection ν :=
  let (flushed, protector) := c.flush s.protector
  if flushed.blocked then { s with protector }.block
  else
    let s := { s with protector, sent := s.sent ++ s.protector.pending }
    match streaming.deltaPath with
    | none => s
    | some path =>
      if flushed.text.isEmpty then s
      else
        match s.lastDeltaTemplate with
        | some template => s.writeFrame (setByPath template.object path (.str flushed.text))
            streaming.format (some template.original)
        | none => s.writeFrame (buildPathObject path (.str flushed.text)) streaming.format none

/-- Content that is no JSON object is protected as text. -/
def handleText (raw payload : JsString) : Inspection ν :=
  let (result, protector) := c.protectText s.protector payload
  let s := { s with protector }
  if result.blocked then s.block
  else s.write (serializeTextFrame result.text streaming.format raw)

/-- `flushOnType.values.includes(getByPath(json, flushOnType.path))`. -/
def flushes (json : JsValue ν) : Bool :=
  match streaming.flushOnType with
  | none => false
  | some on =>
    match json.getByPath on.path with
    | .str type => type ∈ on.values
    | _ => false

/-- The path of the delta channel and the text of a frame in it. -/
def deltaOf (json : JsValue ν) : Option (Path × JsString) :=
  match streaming.deltaPath with
  | none => none
  | some path =>
    match json.getByPath path with
    | .str text => some (path, text)
    | _ => none

/-- A frame with a delta: the rest of it is protected in place, the delta in its turn. -/
def handleDelta (raw : JsString) (json : JsValue ν) (path : Path) (deltaText : JsString) :
    Inspection ν :=
  match c.protectFrameExtras s.protector (setByPath json path (.str [])) with
  | none => s.fail
  | some (none, protector) => { s with protector }.block
  | some (some frameObject, protector) =>
    let held := protector.pending ++ deltaText
    let (pushed, protector) := c.push protector deltaText
    if pushed.blocked then { s with protector }.block
    else
      let frameObject := setByPath frameObject path (.str pushed.text)
      let s := { s with
        protector
        lastDeltaTemplate := some ⟨frameObject, raw⟩
        received := s.received ++ deltaText
        sent := s.sent ++ held.take (c.commitPoint held (c.scan held)) }
      s.writeFrame frameObject streaming.format (some raw)

/-- A frame without a delta. -/
def handleExtras (raw : JsString) (json : JsValue ν) : Inspection ν :=
  match c.protectFrameExtras s.protector json with
  | none => s.fail
  | some (none, protector) => { s with protector }.block
  | some (some frameObject, protector) =>
    { s with protector }.writeFrame frameObject streaming.format (some raw)

/-- A frame whose payload is an object. -/
def handleObject (raw : JsString) (json : JsValue ν) : Inspection ν :=
  let s := if flushes streaming json then flushHeldTail c streaming s else s
  if s.progress ≠ .going then s
  else
    match deltaOf streaming json with
    | some (path, deltaText) => handleDelta c streaming s raw json path deltaText
    | none => handleExtras c streaming s raw json

/-- `handleFrame`. -/
def handleFrame (raw : JsString) : Inspection ν :=
  match (parseFrame streaming.format (trim raw) : Parsed ν) with
  | .control => s.write raw
  | .text payload => handleText c streaming s raw payload
  | .json json =>
    if isObject json then handleObject c streaming s raw json
    else handleText c streaming s raw ((Json.stringify json).getD [])

/-! ### The loops -/

/-- What the crypto provider and the token vault give is drawn anew for every frame. -/
def drawing (draws : ℕ → Replacer) : Setup := { c with replacer := draws s.frames.length }

variable (draws : ℕ → Replacer)

/-- One turn of the loop over frames, which a block or an error ends. -/
def nextFrame (s : Inspection ν) (raw : JsString) : Inspection ν :=
  if s.progress = .going then
    handleFrame (drawing c s draws) streaming { s with frames := s.frames ++ [raw] } raw
  else s

def handleFrames (s : Inspection ν) (frames : List JsString) : Inspection ν :=
  frames.foldl (nextFrame c streaming draws) s

/-- The decoder, the buffer of the splitter, and the inspection. -/
structure Reading (ν : Type) where
  decoder : TextDecoder
  buffer : JsString
  inspection : Inspection ν

/-- One turn of the loop over chunks. -/
def nextChunk (r : Reading ν) (chunk : List ℕ) : Reading ν :=
  if r.inspection.progress = .going then
    let (text, decoder) := r.decoder.decode chunk
    let (frames, buffer) := pushText streaming.format r.buffer text
    ⟨decoder, buffer, handleFrames c streaming draws r.inspection frames⟩
  else r

def readChunks (chunks : List (List ℕ)) : Reading ν :=
  chunks.foldl (nextChunk c streaming draws) ⟨.start, [], .start⟩

/-- The tail at the end of the stream. -/
def flushAtEnd (s : Inspection ν) : Inspection ν :=
  if s.progress = .going then flushHeldTail (drawing c s draws) streaming s else s

/-- `inspectResponseStream`. -/
def inspectResponseStream (chunks : List (List ℕ)) : Inspection ν :=
  let r : Reading ν := readChunks c streaming draws chunks
  flushAtEnd c streaming draws
    (handleFrames c streaming draws r.inspection (endText r.buffer r.decoder.finish))

/-! ### Where the bytes are cut -/

section Chunks

variable {c streaming draws s}

/-- The whole frames in the bytes, without the blank ones. -/
def wholeFrames (format : Format) (bytes : List ℕ) : List JsString :=
  (Delimited.cut (Format.delimiter format) (TextDecoder.start.decode bytes).1).1.filter notBlank

/-- What follows the last delimiter. -/
def openFrame (format : Format) (bytes : List ℕ) : JsString :=
  (Delimited.cut (Format.delimiter format) (TextDecoder.start.decode bytes).1).2

/-- The frames of a stream that has ended. -/
def framesOf (format : Format) (bytes : List ℕ) : List JsString :=
  wholeFrames format bytes ++ endText (openFrame format bytes) (TextDecoder.start.decode bytes).2.finish

theorem delimiter_ne_nil (format : Format) : Format.delimiter format ≠ [] := by
  cases format <;> exact List.cons_ne_nil _ _

theorem wholeFrames_nil (format : Format) : wholeFrames format [] = [] := by cases format <;> rfl

theorem openFrame_nil (format : Format) : openFrame format [] = [] := by cases format <;> rfl

/-- More bytes: the whole frames that they complete. -/
theorem pushText_openFrame (format : Format) (bytes chunk : List ℕ) :
    (pushText format (openFrame format bytes) ((TextDecoder.start.decode bytes).2.decode chunk).1).2 =
      openFrame format (bytes ++ chunk) ∧
    wholeFrames format (bytes ++ chunk) = wholeFrames format bytes ++
      (pushText format (openFrame format bytes)
        ((TextDecoder.start.decode bytes).2.decode chunk).1).1 := by
  have hcut := Delimited.cut_append (delimiter_ne_nil format) (TextDecoder.start.decode bytes).1
    ((TextDecoder.start.decode bytes).2.decode chunk).1
  refine ⟨?_, ?_⟩
  · rw [openFrame, openFrame, TextDecoder.decode_append, hcut]
    rfl
  · rw [wholeFrames, TextDecoder.decode_append, hcut, List.filter_append]
    rfl

theorem handleFrames_append (s : Inspection ν) (fs gs : List JsString) :
    handleFrames c streaming draws s (fs ++ gs) =
      handleFrames c streaming draws (handleFrames c streaming draws s fs) gs :=
  List.foldl_append

/-- After a block or an error no frame is handled. -/
theorem handleFrames_of_ended (h : s.progress ≠ .going) (fs : List JsString) :
    handleFrames c streaming draws s fs = s := by
  induction fs with
  | nil => rfl
  | cons f fs ih =>
    rw [handleFrames, List.foldl_cons, nextFrame, if_neg h]
    exact ih

/-- What the loop over chunks has come to after these bytes. -/
structure Follows (c : Setup) (streaming : Streaming) (draws : ℕ → Replacer) (bytes : List ℕ)
    (r : Reading ν) : Prop where
  inspection : r.inspection =
    handleFrames c streaming draws .start (wholeFrames streaming.format bytes)
  rest : r.inspection.progress = .going →
    r.decoder = (TextDecoder.start.decode bytes).2 ∧ r.buffer = openFrame streaming.format bytes

theorem Follows.next {bytes : List ℕ} {r : Reading ν} (h : Follows c streaming draws bytes r)
    (chunk : List ℕ) :
    Follows c streaming draws (bytes ++ chunk) (nextChunk c streaming draws r chunk) := by
  obtain ⟨hopen, hwhole⟩ := pushText_openFrame streaming.format bytes chunk
  unfold nextChunk
  split
  next hgoing =>
    obtain ⟨hdecoder, hbuffer⟩ := h.rest hgoing
    refine ⟨?_, fun _ => ⟨?_, ?_⟩⟩
    · rw [hwhole, handleFrames_append, ← h.inspection, hdecoder, hbuffer]
    · rw [hdecoder, TextDecoder.decode_append]
    · rw [hdecoder, hbuffer]
      exact hopen
  next hended =>
    refine ⟨?_, fun hgoing => absurd hgoing hended⟩
    rw [hwhole, handleFrames_append, ← h.inspection, handleFrames_of_ended hended]

theorem follows_readChunks (c : Setup) (streaming : Streaming) (draws : ℕ → Replacer)
    (chunks : List (List ℕ)) :
    Follows c streaming draws chunks.flatten (readChunks c streaming draws chunks : Reading ν) := by
  induction chunks using List.reverseRecOn with
  | nil =>
    refine ⟨?_, fun _ => ⟨rfl, ?_⟩⟩
    · rw [List.flatten_nil, wholeFrames_nil]
      rfl
    · rw [List.flatten_nil, openFrame_nil]
      rfl
  | append_singleton chunks chunk ih =>
    rw [List.flatten_append, List.flatten_singleton, readChunks, List.foldl_concat]
    exact ih.next chunk

/-- The inspection is one of the frames of all bytes. -/
theorem inspectResponseStream_eq (chunks : List (List ℕ)) :
    (inspectResponseStream c streaming draws chunks : Inspection ν) =
      flushAtEnd c streaming draws
        (handleFrames c streaming draws .start (framesOf streaming.format chunks.flatten)) := by
  have h := follows_readChunks (ν := ν) c streaming draws chunks
  rw [inspectResponseStream, framesOf, handleFrames_append, ← h.inspection]
  by_cases hgoing : (readChunks c streaming draws chunks : Reading ν).inspection.progress = .going
  · obtain ⟨hdecoder, hbuffer⟩ := h.rest hgoing
    rw [hdecoder, hbuffer]
  · rw [handleFrames_of_ended hgoing, handleFrames_of_ended hgoing]

/-- The text between the delimiters, blank or not. -/
def piecesOf (format : Format) (bytes : List ℕ) : List JsString :=
  (Delimited.cut (Format.delimiter format) (TextDecoder.start.decode bytes).1).1 ++
    [openFrame format bytes ++ (TextDecoder.start.decode bytes).2.finish]

theorem piecesOf_flatten (format : Format) (bytes : List ℕ) :
    (piecesOf format bytes).flatten = decodeStream bytes := by
  rw [piecesOf, List.flatten_append, List.flatten_singleton, ← List.append_assoc, openFrame,
    Delimited.cut_flatten (delimiter_ne_nil format)]
  rfl

theorem framesOf_eq_filter (format : Format) (bytes : List ℕ) :
    framesOf format bytes = (piecesOf format bytes).filter notBlank := by
  rw [framesOf, piecesOf, List.filter_append, List.filter_singleton, endText]
  cases notBlank (openFrame format bytes ++ (TextDecoder.start.decode bytes).2.finish) <;> rfl

/-! ### The frames that are handled -/

theorem frames_flushHeldTail (c : Setup) (streaming : Streaming) (s : Inspection ν) :
    (flushHeldTail c streaming s).frames = s.frames := by
  unfold flushHeldTail
  simp only
  split
  · rfl
  · split
    · rfl
    · split
      · rfl
      · split <;> rfl

omit [JsNumber ν] in
theorem frames_handleText (c : Setup) (streaming : Streaming) (s : Inspection ν)
    (raw payload : JsString) : (handleText c streaming s raw payload).frames = s.frames := by
  unfold handleText
  simp only
  split <;> rfl

theorem frames_handleDelta (c : Setup) (streaming : Streaming) (s : Inspection ν) (raw : JsString)
    (json : JsValue ν) (path : Path) (deltaText : JsString) :
    (handleDelta c streaming s raw json path deltaText).frames = s.frames := by
  unfold handleDelta
  split
  · rfl
  · rfl
  · simp only
    split <;> rfl

theorem frames_handleExtras (c : Setup) (streaming : Streaming) (s : Inspection ν) (raw : JsString)
    (json : JsValue ν) : (handleExtras c streaming s raw json).frames = s.frames := by
  unfold handleExtras
  split <;> rfl

theorem frames_handleObject (c : Setup) (streaming : Streaming) (s : Inspection ν) (raw : JsString)
    (json : JsValue ν) : (handleObject c streaming s raw json).frames = s.frames := by
  have hflush : (if flushes streaming json then flushHeldTail c streaming s else s).frames =
      s.frames := by
    split
    · exact frames_flushHeldTail c streaming s
    · rfl
  simp only [handleObject]
  generalize (if flushes streaming json then flushHeldTail c streaming s else s) = t at hflush ⊢
  split
  · exact hflush
  · split
    · rw [frames_handleDelta, hflush]
    · rw [frames_handleExtras, hflush]

theorem frames_handleFrame (c : Setup) (streaming : Streaming) (s : Inspection ν) (raw : JsString) :
    (handleFrame c streaming s raw).frames = s.frames := by
  unfold handleFrame
  split
  · rfl
  · exact frames_handleText c streaming s raw _
  · split
    · exact frames_handleObject c streaming s raw _
    · exact frames_handleText c streaming s raw _

/-- The frames are handled from the first on, and all of them unless one ends the stream. -/
theorem frames_handleFrames (c : Setup) (streaming : Streaming) (draws : ℕ → Replacer)
    (s : Inspection ν) (fs : List JsString) :
    (handleFrames c streaming draws s fs).frames <+: s.frames ++ fs ∧
      ((handleFrames c streaming draws s fs).progress = .going →
        (handleFrames c streaming draws s fs).frames = s.frames ++ fs) := by
  induction fs generalizing s with
  | nil =>
    rw [List.append_nil]
    exact ⟨List.prefix_refl _, fun _ => rfl⟩
  | cons f fs ih =>
    rw [handleFrames, List.foldl_cons, nextFrame]
    split
    next =>
      have h := ih (handleFrame (drawing c s draws) streaming
        { s with frames := s.frames ++ [f] } f)
      rwa [frames_handleFrame, List.append_assoc, List.singleton_append] at h
    next hended =>
      have h : handleFrames c streaming draws s fs = s := handleFrames_of_ended hended fs
      rw [handleFrames] at h
      rw [h]
      exact ⟨List.prefix_append _ _, fun hgoing => absurd hgoing hended⟩

theorem frames_flushAtEnd (c : Setup) (streaming : Streaming) (draws : ℕ → Replacer)
    (s : Inspection ν) :
    (flushAtEnd c streaming draws s).frames = s.frames ∧
      ((flushAtEnd c streaming draws s).progress = .going → s.progress = .going) := by
  unfold flushAtEnd
  split
  next hgoing => exact ⟨frames_flushHeldTail _ _ _, fun _ => hgoing⟩
  next => exact ⟨rfl, id⟩

end Chunks

/-- An event with an accented letter, cut inside the letter and inside the delimiter. -/
def accentChunks : List (List ℕ) := [[100, 97, 116, 97, 58, 32, 0xc3], [0xa9, 10], [10]]

end Haechi.Stream
