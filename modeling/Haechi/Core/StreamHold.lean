import Haechi.Core.StreamProtector

/-! What the stream protector holds back. Every push commits a head of the held text
and keeps the rest, so nothing is lost; it keeps the start of a detection that reaches
into the last `maxMatchBytes` characters. Proved: the heads and the held tail are the
stream, and the tail is no longer than `maxMatchBytes` and one match, in every run in
which no scanned text is reported as a whole. A text that is, is held entire. -/

namespace Haechi.Core

open Text Haechi.Filter

/-! ### Pushes with what they commit -/

/-- A protector with the heads it committed and the results it gave back. -/
structure PushLog where
  state : StreamState
  heads : List JsString
  results : List StreamResult

namespace PushLog

def start : PushLog := ⟨.start, [], []⟩

/-- The text that the scan of a push sees. -/
def held (s : PushLog) (delta : JsString) : JsString := s.state.pending ++ delta

def push (c : Setup) (s : PushLog) (delta : JsString) : PushLog where
  state := (c.push s.state delta).2
  heads := s.heads ++ [(s.held delta).take (c.commitPoint (s.held delta) (c.scan (s.held delta)))]
  results := s.results ++ [(c.push s.state delta).1]

end PushLog

def pushAll (c : Setup) (deltas : List JsString) : PushLog := deltas.foldl (PushLog.push c) .start

/-- No match that a rule accepts in the text, or in its folding, is longer than `L`. -/
def LongestMatch (c : Setup) (L : ℕ) (text : JsString) : Prop :=
  ∀ r ∈ c.engine.rules, r.applies c.context = true →
    ∀ m ∈ r.hits text ++ r.hits (c.engine.nfkc.normalize text), m.stop - m.start ≤ L

/-- The text is not reported as a whole: a folding that moves offsets matches nothing,
and neither does a decoded text. -/
def InParts (c : Setup) (text : JsString) : Prop :=
  (isAligned c.engine.nfkc text = true ∨ ∀ r ∈ c.engine.rules, r.applies c.context = true →
    r.hits (c.engine.nfkc.normalize text) = []) ∧
  (c.engine.decodeAndRescan = true →
    decodeAndRescanEntry (c.textEntry text) c.engine.rules c.context = [])

/-- A push within the bound, or of a text that is not reported as a whole. -/
def HeldInParts (c : Setup) (L : ℕ) (s : PushLog) (delta : JsString) : Prop :=
  LongestMatch c L (s.held delta) ∧
    ((s.held delta).length ≤ c.maxMatchBytes + L ∨ InParts c (s.held delta))

instance (c : Setup) (L : ℕ) (text : JsString) : Decidable (LongestMatch c L text) :=
  inferInstanceAs (Decidable (∀ r ∈ c.engine.rules, _ → ∀ m ∈ r.hits text ++ _, _))

instance (c : Setup) (text : JsString) : Decidable (InParts c text) :=
  inferInstanceAs (Decidable ((_ ∨ ∀ r ∈ c.engine.rules, _) ∧ (_ → _)))

instance (c : Setup) (L : ℕ) (s : PushLog) (delta : JsString) : Decidable (HeldInParts c L s delta) :=
  inferInstanceAs (Decidable (_ ∧ _))

variable {c : Setup} {s : PushLog} {L : ℕ}

/-! ### One push -/

/-- In a text that is not reported as a whole a detection is as long as a match. -/
theorem length_le_of_mem_scan {text : JsString} (hlong : LongestMatch c L text) (hparts : InParts c text)
    {d : Detection} (hd : d ∈ c.scan text) : d.stop - d.start ≤ L := by
  rw [Setup.scan, Engine.detect, Filter.detect, List.flatMap_singleton, detectEntry] at hd
  rcases List.mem_append.mp hd with hd | hd
  · rw [scanEntry] at hd
    split_ifs at hd with hskip haligned
    · cases hd
    · obtain ⟨r, hr, happlies, m, hm, -, rfl⟩ := mem_scanForDetections.mp (removeOverlaps_subset hd)
      exact hlong r hr happlies m (List.mem_append_right _ hm)
    · obtain ⟨r, hr, happlies, -, hhits, -⟩ := of_mem_wholeLeafFrom hd
      rcases hparts.1 with h | h
      · exact absurd h haligned
      · exact absurd (h r hr happlies) hhits
  · split_ifs at hd with hdecode
    · rw [hparts.2 hdecode] at hd
      cases hd
    · cases hd

/-- What is kept back of a text: `maxMatchBytes` characters, and the detections that
reach into them. -/
theorem length_sub_commitPoint {held : JsString} {ds : List Detection}
    (h : ∀ d ∈ ds, d.stop - d.start ≤ L) :
    held.length - c.commitPoint held ds ≤ c.maxMatchBytes + L := by
  rw [Setup.commitPoint]
  rcases foldl_min_mem (held.length - c.maxMatchBytes)
    ((ds.filter fun d => held.length - c.maxMatchBytes < d.stop).map Detection.start) with h' | h'
  · rw [h']
    omega
  · obtain ⟨d, hd, heq⟩ := List.mem_map.mp h'
    obtain ⟨hd, hlt⟩ := List.mem_filter.mp hd
    have hlen := h d hd
    rw [decide_eq_true_eq] at hlt
    rw [← heq]
    omega

theorem push_bounded {delta : JsString} (h : HeldInParts c L s delta) :
    (s.push c delta).state.pending.length ≤ c.maxMatchBytes + L := by
  have hpending : (s.push c delta).state.pending = (s.held delta).drop
      (c.commitPoint (s.held delta) (c.scan (s.held delta))) := push_pending s.state delta
  rw [hpending, List.length_drop]
  rcases h.2 with hshort | hparts
  · exact le_trans (Nat.sub_le _ _) hshort
  · exact length_sub_commitPoint fun d hd => length_le_of_mem_scan h.1 hparts hd

/-! ### Runs -/

/-- The heads and the held tail are what was received. -/
def Conserved (received : JsString) (s : PushLog) : Prop :=
  s.heads.flatten ++ s.state.pending = received

theorem Conserved.push {received : JsString} (h : Conserved received s) (delta : JsString) :
    Conserved (received ++ delta) (s.push c delta) := by
  have hpending : (s.push c delta).state.pending = (s.held delta).drop
      (c.commitPoint (s.held delta) (c.scan (s.held delta))) := push_pending s.state delta
  rw [Conserved, hpending, PushLog.push]
  simp only [List.flatten_append, List.flatten_singleton, List.append_assoc]
  rw [List.take_append_drop, PushLog.held, ← List.append_assoc, h]

theorem conserved_pushAll (c : Setup) (deltas : List JsString) :
    Conserved deltas.flatten (pushAll c deltas) := by
  induction deltas using List.reverseRecOn with
  | nil => rfl
  | append_singleton deltas delta ih =>
    rw [pushAll, List.foldl_append, List.foldl_cons, List.foldl_nil, List.flatten_append,
      List.flatten_singleton]
    exact ih.push delta

/-- Nothing is blocked or rewritten when decisions are not enforced. -/
theorem transformSegment_reportOnly (h : c.enforced = false) (st : StreamState) (text : JsString) :
    (c.transformSegment st text).1.text = text ∧ (c.transformSegment st text).1.blocked = false := by
  simp [Setup.transformSegment, Setup.blocks, h, StreamResult.text, outputOf, Piece.output]

theorem push_reportOnly (h : c.enforced = false) (st : StreamState) (delta : JsString) :
    (c.push st delta).1.text = (st.pending ++ delta).take
        (c.commitPoint (st.pending ++ delta) (c.scan (st.pending ++ delta))) ∧
      (c.push st delta).1.blocked = false := by
  rw [Setup.push]
  split_ifs with hzero
  · rw [hzero]
    exact ⟨rfl, rfl⟩
  · exact transformSegment_reportOnly h _ _

/-- The results of the pushes are the heads, unchanged. -/
theorem results_reportOnly (h : c.enforced = false) (deltas : List JsString) :
    (pushAll c deltas).results.map StreamResult.text = (pushAll c deltas).heads ∧
      ∀ r ∈ (pushAll c deltas).results, r.blocked = false := by
  induction deltas using List.reverseRecOn with
  | nil => exact ⟨rfl, fun r hr => (by cases hr)⟩
  | append_singleton deltas delta ih =>
    rw [pushAll, List.foldl_append, List.foldl_cons, List.foldl_nil, ← pushAll]
    obtain ⟨htext, hblocked⟩ := push_reportOnly h (pushAll c deltas).state delta
    constructor
    · rw [PushLog.push, List.map_append, ih.1, List.map_singleton, htext]
      rfl
    · intro r hr
      rcases List.mem_append.mp hr with hr | hr
      · exact ih.2 r hr
      · rw [List.mem_singleton.mp hr]
        exact hblocked

/-- The text of the pushes and of the flush after them is the text received, and
nothing is blocked. -/
def Reproduces (c : Setup) (deltas : List JsString) : Prop :=
  ((pushAll c deltas).results.map StreamResult.text).flatten ++
      (c.flush (pushAll c deltas).state).1.text = deltas.flatten ∧
    ∀ r ∈ (pushAll c deltas).results ++ [(c.flush (pushAll c deltas).state).1], r.blocked = false

theorem reproduces (h : c.enforced = false) (deltas : List JsString) : Reproduces c deltas := by
  have hflush : (c.flush (pushAll c deltas).state).1.text = (pushAll c deltas).state.pending ∧
      (c.flush (pushAll c deltas).state).1.blocked = false := by
    rw [Setup.flush]
    split_ifs with hempty
    · rw [List.isEmpty_iff.mp hempty]
      exact ⟨rfl, rfl⟩
    · exact transformSegment_reportOnly h _ _
  obtain ⟨hheads, hblocked⟩ := results_reportOnly h deltas
  constructor
  · rw [hheads, hflush.1]
    exact conserved_pushAll c deltas
  · intro r hr
    rcases List.mem_append.mp hr with hr | hr
    · exact hblocked r hr
    · rw [List.mem_singleton.mp hr]
      exact hflush.2

/-- The protector loses nothing, and in a run that is held in parts the tail stays
within `maxMatchBytes` and one match after every push. -/
theorem pushAll_bounded (c : Setup) (L : ℕ) (deltas : List JsString) :
    Conserved deltas.flatten (pushAll c deltas) ∧
      (c.enforced = false → Reproduces c deltas) ∧
        (Allowed (PushLog.push c) (HeldInParts c L) .start deltas →
          (pushAll c deltas).state.pending.length ≤ c.maxMatchBytes + L) := by
  refine ⟨conserved_pushAll c deltas, fun h => reproduces h deltas, fun h => ?_⟩
  exact h.invariant (I := fun s => s.state.pending.length ≤ c.maxMatchBytes + L)
    (fun s delta _ hok => push_bounded hok) (Nat.zero_le _)

/-- An address is held in whole while it may still grow, and no more than that. -/
theorem pushAll_bounded_address :
    (pushAll redacting addressDeltas).state.pending.length ≤ redacting.maxMatchBytes + 15 :=
  (pushAll_bounded redacting 15 addressDeltas).2.2 (by decide +kernel)

/-- A folding that writes the ligature U+FB01 as its two letters. -/
def foldsLigature : Nfkc where
  normalize s := s.flatMap fun u => if u = 0xfb01 then js "fi" else [u]
  ascii s hs := by
    induction s with
    | nil => rfl
    | cons u s ih =>
      obtain ⟨hu, hs⟩ := List.forall_mem_cons.mp hs
      have hne : u ≠ 0xfb01 := by
        rintro rfl
        exact absurd hu (by decide)
      rw [List.flatMap_cons, if_neg hne, ih hs]
      rfl

/-- The setup of the examples, on a platform that folds the ligature. -/
def redactingLigature : Setup := { redacting with engine := ⟨foldsLigature, false, defaultRules⟩ }

/-- The address behind a ligature, and what is written after it. -/
def ligatureDeltas : List JsString :=
  [0xfb01 :: js " bob@example.com ", js "wrote this a while ago"]

/-- Nothing longer than the address matches, and the ligature makes every scan report
the held text as a whole: it starts at its start, so nothing of it is committed. -/
theorem ligature_held :
    LongestMatch redactingLigature 15 ligatureDeltas.flatten ∧
      (pushAll redactingLigature ligatureDeltas).state.pending = ligatureDeltas.flatten ∧
      ¬(pushAll redactingLigature ligatureDeltas).state.pending.length ≤
        redactingLigature.maxMatchBytes + 15 := by
  decide +kernel

end Haechi.Core
