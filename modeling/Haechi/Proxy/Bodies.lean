import Haechi.Proxy.Handler
import Haechi.Runs
import Haechi.Text.Utf8

/-! The two readers of bodies, event by event. `readBody` collects the request's body;
in whatever order the events come, it gives a text exactly when the bytes before the end
are within the limit and are the UTF-8 of that text. `pipeUpstreamBodyBounded` passes an
upstream body on; its events, with the disconnections and drains of the client in any
order, are those the handler's model leaves, and whatever ends the pipe lets go of the
upstream and of the listeners. -/

namespace Haechi.Proxy

open Text Act

/-! ### The request body -/

inductive BodyEvent where
  | data (chunk : List ℕ)
  | ended
  | failed (e : Thrown)

/-- The variables of `readBody`, and its promise. -/
structure BodyReader where
  raw : List ℕ
  received : ℕ
  rejected : Bool
  settled : Option (Except Thrown JsString)

def startBody : BodyReader := ⟨[], 0, false, none⟩

/-- A promise is settled once. -/
def BodyReader.settle (b : BodyReader) (x : Except Thrown JsString) : BodyReader :=
  { b with settled := b.settled.or (some x) }

/-- The `end` listener: bytes that are not UTF-8 are refused. -/
def bodyText (raw : List ℕ) : Except Thrown JsString :=
  match decodeUtf8 raw with
  | some text => .ok text
  | none => .error (proxyError 400 "haechi_request_body_not_utf8")

/-- `readBody`: a listener runs. -/
def stepBody (maxBytes : ℕ) (b : BodyReader) : BodyEvent → BodyReader
  | .data chunk =>
    if b.rejected then b
    else if maxBytes < b.received + chunk.length then
      { b with received := b.received + chunk.length, rejected := true }.settle
        (.error (proxyError 413 "haechi_request_body_too_large"))
    else { b with received := b.received + chunk.length, raw := b.raw ++ chunk }
  | .ended => if b.rejected then b else b.settle (bodyText b.raw)
  | .failed e => if b.rejected then b else b.settle (.error e)

/-- The reader after chunks within the limit. -/
def reading (raw : List ℕ) : BodyReader := ⟨raw, raw.length, false, none⟩

theorem settled_stays {maxBytes : ℕ} {b : BodyReader} {x : Except Thrown JsString}
    (h : b.settled = some x) (as : List BodyEvent) :
    (as.foldl (stepBody maxBytes) b).settled = some x := by
  induction as generalizing b with
  | nil => exact h
  | cons a as ih =>
    apply ih
    cases a with
    | data chunk =>
      rw [stepBody]
      split_ifs
      · exact h
      · simp [BodyReader.settle, h]
      · exact h
    | ended =>
      rw [stepBody]
      split_ifs
      · exact h
      · simp [BodyReader.settle, h]
    | failed e =>
      rw [stepBody]
      split_ifs
      · exact h
      · simp [BodyReader.settle, h]

theorem foldl_data {maxBytes : ℕ} (chunks : List (List ℕ)) (raw : List ℕ)
    (h : (raw ++ chunks.flatten).length ≤ maxBytes) :
    (chunks.map BodyEvent.data).foldl (stepBody maxBytes) (reading raw) =
      reading (raw ++ chunks.flatten) := by
  induction chunks generalizing raw with
  | nil => simp
  | cons chunk chunks ih =>
    rw [List.flatten_cons, ← List.append_assoc] at h ⊢
    have hle : ¬maxBytes < raw.length + chunk.length := by
      rw [List.length_append, List.length_append] at h
      omega
    have hstep : stepBody maxBytes (reading raw) (.data chunk) = reading (raw ++ chunk) := by
      simp [stepBody, reading, hle]
    rw [List.map_cons, List.foldl_cons, hstep, ih _ h]

theorem bodyText_eq_ok {raw : List ℕ} {text : JsString} :
    bodyText raw = .ok text ↔ decodeUtf8 raw = some text := by
  rw [bodyText]
  cases decodeUtf8 raw <;> simp

/-- What a text comes from, the reader having collected some bytes. -/
theorem settled_ok {maxBytes : ℕ} {text : JsString} (as : List BodyEvent) (raw : List ℕ)
    (hraw : raw.length ≤ maxBytes)
    (h : (as.foldl (stepBody maxBytes) (reading raw)).settled = some (.ok text)) :
    ∃ (chunks : List (List ℕ)) (rest : List BodyEvent),
      as = chunks.map BodyEvent.data ++ .ended :: rest ∧
      (raw ++ chunks.flatten).length ≤ maxBytes ∧
      decodeUtf8 (raw ++ chunks.flatten) = some text := by
  induction as generalizing raw with
  | nil => cases h
  | cons a as ih =>
    rw [List.foldl_cons] at h
    -- once the promise is settled, nothing that follows matters
    have hfixed : ∀ {x}, (stepBody maxBytes (reading raw) a).settled = some x → x = .ok text :=
      fun hx => Option.some.inj ((settled_stays hx as).symm.trans h)
    cases a with
    | data chunk =>
      by_cases hover : maxBytes < raw.length + chunk.length
      · have := hfixed (x := .error (proxyError 413 "haechi_request_body_too_large"))
          (by simp [stepBody, reading, hover, BodyReader.settle])
        cases this
      · have hstep : stepBody maxBytes (reading raw) (.data chunk) = reading (raw ++ chunk) := by
          simp [stepBody, reading, hover]
        rw [hstep] at h
        obtain ⟨chunks, rest, rfl, hlength, htext⟩ := ih (raw ++ chunk) (by simp; omega) h
        rw [List.append_assoc] at hlength htext
        exact ⟨chunk :: chunks, rest, rfl, hlength, htext⟩
    | ended =>
      have htext := hfixed (x := bodyText raw) rfl
      exact ⟨[], as, rfl, by simpa using hraw, by simpa using bodyText_eq_ok.mp htext⟩
    | failed e =>
      have := hfixed (x := .error e) rfl
      cases this

/-- **The request body.** In every order of events a text is given exactly when chunks within the
limit came first and then the end, and the bytes of the chunks are the UTF-8 of that text. -/
theorem readBody_exact (maxBytes : ℕ) (as : List BodyEvent) (text : JsString) :
    (as.foldl (stepBody maxBytes) startBody).settled = some (.ok text) ↔
      toWellFormed text = text ∧ (encodeUtf8 text).length ≤ maxBytes ∧
        ∃ (chunks : List (List ℕ)) (rest : List BodyEvent),
      as = chunks.map BodyEvent.data ++ .ended :: rest ∧
          chunks.flatten = encodeUtf8 text := by
  constructor
  · intro h
    obtain ⟨chunks, rest, rfl, hlength, htext⟩ := settled_ok as [] (Nat.zero_le _) h
    rw [List.nil_append] at hlength htext
    have hbytes := encodeUtf8_of_decodeUtf8 htext
    rw [← hbytes, decodeUtf8_encodeUtf8] at htext
    exact ⟨Option.some.inj htext, by rwa [hbytes], chunks, rest, rfl, hbytes.symm⟩
  · rintro ⟨hwell, hlength, chunks, rest, rfl, hbytes⟩
    rw [← hbytes] at hlength
    have hdata := foldl_data chunks [] hlength
    rw [List.nil_append, hbytes] at hdata
    rw [List.foldl_append, List.foldl_cons]
    refine settled_stays ?_ rest
    rw [show startBody = reading [] from rfl, hdata]
    show some (bodyText (encodeUtf8 text)) = _
    rw [bodyText_eq_ok.mpr (by rw [decodeUtf8_encodeUtf8, hwell])]

/-! ### The piped body -/

/-- Where `pipeUpstreamBodyBounded` waits. -/
inductive PipePhase where
  | reading
  | draining
  | ended
deriving DecidableEq

inductive PipeEvent where
  /-- A read gives a chunk, which the client takes at once or not. -/
  | chunk (bytes : ℕ) (taken : Bool)
  | done
  | failed
  | drain
  /-- The response emits `error`. -/
  | error
  /-- The response or the request emits `close` or `aborted`. -/
  | gone

structure Pipe (τ : Type) where
  phase : PipePhase
  received : ℕ
  disconnected : Bool
  /-- The reader is cancelled and the upstream call aborted. -/
  released : Bool
  /-- The listeners on the response and the request are there. -/
  listening : Bool
  events : List (Event τ)

variable {τ : Type}

def startPipe : Pipe τ := ⟨.reading, 0, false, false, true, []⟩

/-- The function returns, through its `finally` block. -/
def Pipe.finish (p : Pipe τ) (es : List (Event τ)) : Pipe τ :=
  { p with phase := .ended, listening := false, events := p.events ++ es }

/-- It stops early. -/
def Pipe.abandon (p : Pipe τ) (es : List (Event τ)) : Pipe τ :=
  { p with released := true }.finish es

/-- `streamingPassThroughMaxBytes`. -/
def streamingPassThroughMaxBytes : Option ℕ → ℕ
  | some cap => if 0 < cap then cap else 1048576
  | none => 1048576

/-- `pipeUpstreamBodyBounded`. Cancelling the reader ends a pending read, so that the response is
ended, which the client does not see any more. -/
def stepPipe (maxBytes : ℕ) (p : Pipe τ) : PipeEvent → Pipe τ
  | .chunk n taken =>
    if p.phase = .reading then
      let p := { p with received := p.received + n }
      if maxBytes ≠ 0 ∧ maxBytes < p.received then p.abandon [.destroy]
      else
        { p with
          phase := if taken then PipePhase.reading else .draining
          events := p.events ++ [.write n] }
    else p
  | .done => if p.phase = .reading then p.finish [.finish] else p
  | .failed => if p.phase = .reading then p.abandon [.destroy] else p
  | .drain => if p.phase = .draining then { p with phase := .reading } else p
  | .error => if p.phase = .draining then p.abandon [.destroy] else p
  | .gone =>
    if p.listening then
      { p with disconnected := true }.abandon
        (if p.phase = PipePhase.reading then [.destroy, .finish] else [.destroy])
    else p

theorem streamingPassThroughMaxBytes_pos :
    ∀ cap : Option ℕ, 0 < streamingPassThroughMaxBytes cap
  | none => by decide
  | some cap => by
    rw [streamingPassThroughMaxBytes]
    split <;> omega

/-- What holds of a pipe between its events: until it returns it has written all that it received,
and then it has let go of the upstream unless that was read to its end. -/
structure Pipes (maxBytes : ℕ) (p : Pipe τ) : Prop where
  listening : p.listening = true ↔ p.phase ≠ .ended
  running : p.phase ≠ .ended → ∃ ns : List ℕ, p.events = ns.map .write ∧ ns.sum = p.received ∧
    ns.sum ≤ maxBytes
  returned : p.phase = .ended → ∃ ns : List ℕ, ns.sum ≤ maxBytes ∧
    ((p.released = true ∧ (p.events = ns.map .write ++ [.destroy] ∨
        p.disconnected = true ∧ p.events = ns.map .write ++ [.destroy, .finish])) ∨
      p.events = ns.map .write ++ [.finish] ∧ ns.sum = p.received)

variable {maxBytes : ℕ} {p : Pipe τ}

/-- A pipe that runs returns and lets go. -/
theorem Pipes.abandon (h : Pipes maxBytes p) (hp : p.phase ≠ .ended) (q : Pipe τ)
    (hevents : q.events = p.events) {es : List (Event τ)}
    (hes : es = [.destroy] ∨ q.disconnected = true ∧ es = [.destroy, .finish]) :
    Pipes maxBytes (q.abandon es) where
  listening := by simp [Pipe.abandon, Pipe.finish]
  running hne := absurd rfl hne
  returned _ := by
    obtain ⟨ns, hns, -, hle⟩ := h.running hp
    refine ⟨ns, hle, .inl ⟨rfl, ?_⟩⟩
    show q.events ++ es = _ ∨ q.disconnected = true ∧ q.events ++ es = _
    rw [hevents, hns]
    rcases hes with rfl | ⟨hgone, rfl⟩
    · exact .inl rfl
    · exact .inr ⟨hgone, rfl⟩

theorem Pipes.step (hpos : 0 < maxBytes) (h : Pipes maxBytes p) (a : PipeEvent) :
    Pipes maxBytes (stepPipe maxBytes p a) := by
  cases a with
  | chunk n taken =>
    rw [stepPipe]
    split
    · next hp =>
      have hne : p.phase ≠ .ended := by rw [hp]; simp
      simp only
      split
      · exact h.abandon hne { p with received := p.received + n } rfl (.inl rfl)
      · next hle =>
        obtain ⟨ns, hns, hsum, -⟩ := h.running hne
        refine ⟨?_, fun _ => ⟨ns ++ [n], ?_, ?_, ?_⟩, ?_⟩
        · cases taken <;> simp [h.listening, hne]
        · simp [hns]
        · simp [hsum]
        · simp only [List.sum_append, List.sum_singleton, hsum]
          omega
        · cases taken <;> simp
    · exact h
  | done =>
    rw [stepPipe]
    split
    · next hp =>
      obtain ⟨ns, hns, hsum, hle⟩ := h.running (by rw [hp]; simp)
      exact ⟨by simp [Pipe.finish], fun hne => absurd rfl hne,
        fun _ => ⟨ns, hle, .inr ⟨by simp [Pipe.finish, hns], hsum⟩⟩⟩
    · exact h
  | failed =>
    rw [stepPipe]
    split
    · next hp => exact h.abandon (by rw [hp]; simp) p rfl (.inl rfl)
    · exact h
  | drain =>
    rw [stepPipe]
    split
    · next hp =>
      have hne : p.phase ≠ .ended := by rw [hp]; simp
      exact ⟨by simp [h.listening, hne], fun _ => h.running hne, by simp⟩
    · exact h
  | error =>
    rw [stepPipe]
    split
    · next hp => exact h.abandon (by rw [hp]; simp) p rfl (.inl rfl)
    · exact h
  | gone =>
    rw [stepPipe]
    split
    · next hp =>
      refine h.abandon (h.listening.mp hp) { p with disconnected := true } rfl ?_
      split
      · exact .inr ⟨rfl, rfl⟩
      · exact .inl rfl
    · exact h

/-- Nothing happens once the pipe has returned. -/
theorem stepPipe_ended (h : p.phase = .ended) (hlistening : p.listening = false) (a : PipeEvent) :
    stepPipe maxBytes p a = p := by
  cases a <;> simp [stepPipe, h, hlistening]

theorem foldl_ended (h : p.phase = .ended) (hlistening : p.listening = false)
    (as : List PipeEvent) : as.foldl (stepPipe maxBytes) p = p := by
  induction as with
  | nil => rfl
  | cons a as ih => rw [List.foldl_cons, stepPipe_ended h hlistening, ih]

/-- With so many bytes received, the model of the handler can leave these events. -/
def Leaves (maxBytes received : ℕ) (before after : List (Event τ)) : Prop :=
  ∃ reads client, ∀ es : List (Event τ),
    (pipeChunks maxBytes reads received client (es ++ before)).2 = es ++ after

section Leaves

variable {received n : ℕ} {before after : List (Event τ)}

theorem leaves_chunk (h : received + n ≤ maxBytes)
    (hrest : Leaves maxBytes (received + n) (before ++ [.write n]) after) :
    Leaves maxBytes received before after := by
  obtain ⟨reads, client, hrest⟩ := hrest
  refine ⟨.chunk n :: reads, .reads :: client, fun es => ?_⟩
  rw [← hrest es, ← List.append_assoc]
  simp [pipeChunks, unlessGone, emit_bind_apply, not_lt.mpr h]

theorem leaves_gone_writing (h : received + n ≤ maxBytes) :
    Leaves maxBytes received before (before ++ [.write n] ++ [.destroy]) :=
  ⟨[.chunk n], [.closedWriting], fun es => by
    simp [pipeChunks, unlessGone, emit_bind_apply, emit, not_lt.mpr h]⟩

theorem leaves_over (h : maxBytes < received + n) :
    Leaves maxBytes received before (before ++ [.destroy]) :=
  ⟨[.chunk n], [], fun es => by simp [pipeChunks, unlessGone, emit, h]⟩

theorem leaves_done : Leaves maxBytes received before (before ++ [.finish]) :=
  ⟨[], [], fun es => by simp [pipeChunks, unlessGone, emit]⟩

theorem leaves_failed : Leaves maxBytes received before (before ++ [.destroy]) :=
  ⟨[.failed .nullish], [], fun es => by simp [pipeChunks, unlessGone, emit]⟩

theorem leaves_gone_reading : Leaves maxBytes received before (before ++ [.destroy, .finish]) :=
  ⟨[], [.closedReading], fun es => by simp [pipeChunks, unlessGone, emit_bind_apply, emit]⟩

end Leaves

theorem foldl_abandon (es : List (Event τ)) (as : List PipeEvent) :
    (as.foldl (stepPipe maxBytes) (p.abandon es)).events = p.events ++ es := by
  rw [foldl_ended rfl rfl]
  rfl

/-- What the rest of a run leaves is what the model of the handler leaves, for some reads and
some client: from a read on, or with the answer to a write still out. -/
theorem leaves_run (hpos : 0 < maxBytes) (as : List PipeEvent) (p : Pipe τ)
    (hp : p.listening = true)
    (hended : (as.foldl (stepPipe maxBytes) p).phase = .ended) :
    (p.phase = .reading →
        Leaves maxBytes p.received p.events (as.foldl (stepPipe maxBytes) p).events) ∧
      (p.phase = .draining →
        (as.foldl (stepPipe maxBytes) p).events = p.events ++ [.destroy] ∨
        Leaves maxBytes p.received p.events (as.foldl (stepPipe maxBytes) p).events) := by
  induction as generalizing p with
  | nil =>
    have hended : p.phase = .ended := hended
    rw [hended]
    exact ⟨fun h => (by cases h), fun h => (by cases h)⟩
  | cons a as ih =>
    rw [List.foldl_cons] at hended ⊢
    constructor
    · intro hreading
      cases a with
      | chunk n taken =>
        simp only [stepPipe, hreading, if_true] at hended ⊢
        split_ifs at hended ⊢ with hover htaken
        · rw [foldl_abandon]
          exact leaves_over hover.2
        · exact leaves_chunk (by omega)
            ((ih ⟨.reading, p.received + n, _, _, _, p.events ++ [.write n]⟩ hp hended).1 rfl)
        · have hle : p.received + n ≤ maxBytes := by omega
          rcases (ih ⟨.draining, p.received + n, _, _, _, p.events ++ [.write n]⟩ hp hended).2 rfl
            with hevents | hrest
          · rw [hevents]
            exact leaves_gone_writing hle
          · exact leaves_chunk hle hrest
      | done =>
        simp only [stepPipe, hreading, if_true] at hended ⊢
        rw [foldl_ended rfl rfl]
        exact leaves_done
      | failed =>
        simp only [stepPipe, hreading, if_true] at hended ⊢
        rw [foldl_abandon]
        exact leaves_failed
      | drain =>
        simp only [stepPipe, hreading, reduceCtorEq, if_false] at hended ⊢
        exact (ih p hp hended).1 hreading
      | error =>
        simp only [stepPipe, hreading, reduceCtorEq, if_false] at hended ⊢
        exact (ih p hp hended).1 hreading
      | gone =>
        simp only [stepPipe, hp, hreading, if_true] at hended ⊢
        rw [foldl_abandon]
        exact leaves_gone_reading
    · intro hdraining
      cases a with
      | chunk n taken =>
        simp only [stepPipe, hdraining, reduceCtorEq, if_false] at hended ⊢
        exact (ih p hp hended).2 hdraining
      | done =>
        simp only [stepPipe, hdraining, reduceCtorEq, if_false] at hended ⊢
        exact (ih p hp hended).2 hdraining
      | failed =>
        simp only [stepPipe, hdraining, reduceCtorEq, if_false] at hended ⊢
        exact (ih p hp hended).2 hdraining
      | drain =>
        simp only [stepPipe, hdraining, if_true] at hended ⊢
        exact .inr ((ih { p with phase := .reading } hp hended).1 rfl)
      | error =>
        simp only [stepPipe, hdraining, if_true] at hended ⊢
        rw [foldl_abandon]
        exact .inl rfl
      | gone =>
        simp only [stepPipe, hp, hdraining, reduceCtorEq, if_true, if_false] at hended ⊢
        rw [foldl_abandon]
        exact .inl rfl

/-- **The piped body.** In every order of reads, drains, failures and disconnections the bytes
written stay within the limit; while the pipe runs, a client that goes makes it return; and once
it has returned no listener is left, either the upstream was let go of or its whole body was
written and the response ended, and the events are such as the model of the handler leaves. -/
theorem pipe_bounded (cap : Option ℕ) (as : List PipeEvent) :
    let maxBytes := streamingPassThroughMaxBytes cap
    let p : Pipe τ := as.foldl (stepPipe maxBytes) startPipe
    (p.phase ≠ .ended → (∃ ns : List ℕ, p.events = ns.map .write ∧ ns.sum = p.received ∧
        ns.sum ≤ maxBytes) ∧
      (stepPipe maxBytes p .gone).phase = .ended ∧ (stepPipe maxBytes p .gone).released = true) ∧
    (p.phase = .ended → p.listening = false ∧
      (∃ ns : List ℕ, ns.sum ≤ maxBytes ∧
        ((p.released = true ∧ (p.events = ns.map .write ++ [.destroy] ∨
            p.disconnected = true ∧ p.events = ns.map .write ++ [.destroy, .finish])) ∨
          p.events = ns.map .write ++ [.finish] ∧ ns.sum = p.received)) ∧
      ∃ reads client, ∀ es, (pipeChunks maxBytes reads 0 client es).2 = es ++ p.events) := by
  intro maxBytes p
  have hpos : 0 < maxBytes := streamingPassThroughMaxBytes_pos cap
  have hstart : Pipes maxBytes (startPipe : Pipe τ) :=
    ⟨by simp [startPipe], fun _ => ⟨[], rfl, rfl, Nat.zero_le _⟩, by simp [startPipe]⟩
  have h : Pipes maxBytes p :=
    invariant_run (fun _ a h => h.step hpos a) hstart as
  refine ⟨fun hp => ⟨h.running hp, ?_, ?_⟩, fun hp => ⟨?_, h.returned hp, ?_⟩⟩
  · rw [stepPipe, if_pos (h.listening.mpr hp)]
    rfl
  · rw [stepPipe, if_pos (h.listening.mpr hp)]
    rfl
  · exact Bool.eq_false_iff.mpr fun hlistening => h.listening.mp hlistening hp
  · obtain ⟨reads, client, hleaves⟩ := (leaves_run hpos as startPipe rfl hp).1 rfl
    refine ⟨reads, client, fun es => ?_⟩
    have hevents := hleaves es
    rwa [show es ++ (startPipe : Pipe τ).events = es from List.append_nil es] at hevents

end Haechi.Proxy
