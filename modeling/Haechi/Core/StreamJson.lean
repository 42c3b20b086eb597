import Haechi.Core.Protect
import Haechi.Core.StreamProtector

/-! The stream path against the JSON path: one text, protected as a segment of a
stream and as a leaf of a payload. The scans differ in the place of the leaf only;
the precision dials turn on the JSON path alone, and a push scans the head it commits
and the rest apart. Proved: the two ways of streaming agree with `protectJson`, up to
fresh tokens and nonces, exactly when the dials leave all detections of the text, its
two parts have the detections of the whole, and a root is not assigned to. -/

namespace Haechi.Core

open Text Haechi.Filter JsValue

/-! ### Detections without their place -/

/-- The detection with the place of a leaf. -/
def placeAt (e : Entry) (d : Detection) : Detection :=
  { d with path := e.path, pathText := e.pathText, kind := e.kind }

section Places

variable {nfkc : Nfkc} {decodeAndRescan : Bool} {rules : List Rule} {ctx : Context} {e e' : Entry}

theorem placeAt_detection (r : Rule) (m : Span) (value : JsString) :
    placeAt e' (e.detection r m value) = e'.detection r m value := rfl

theorem placeAt_scanForDetections (scanText value : JsString) (spans : List Span) :
    (scanForDetections scanText rules ctx spans e value).map (placeAt e') =
      scanForDetections scanText rules ctx spans e' value := by
  rw [scanForDetections, scanForDetections, List.map_flatMap]
  refine List.flatMap_congr fun r _ => ?_
  split_ifs
  · rw [List.map_map]
    rfl
  · rfl

theorem placeAt_wholeLeafFrom (text value : JsString) (ok : Rule → Bool) (seen : List JsString) :
    (wholeLeafFrom text ctx e value ok seen rules).map (placeAt e') =
      wholeLeafFrom text ctx e' value ok seen rules := by
  induction rules generalizing seen with
  | nil => rfl
  | cons r rules ih =>
    rw [wholeLeafFrom, wholeLeafFrom]
    split_ifs
    · rw [List.map_cons, ih, placeAt_detection]
    · exact ih seen

theorem placeAt_removeOverlaps (ds : List Detection) :
    (removeOverlaps ds).map (placeAt e') = removeOverlaps (ds.map (placeAt e')) := by
  have hsort : (ds.insertionSort (Select.Precedes Detection.start Detection.stop)).map (placeAt e') =
      (ds.map (placeAt e')).insertionSort (Select.Precedes Detection.start Detection.stop) :=
    List.map_insertionSort _ _ (placeAt e') ds fun _ _ _ _ => Iff.rfl
  rw [removeOverlaps, removeOverlaps, Select.select, Select.select, ← hsort]
  have hchosen : (Select.acceptFrom (Detection.start ∘ placeAt e') (Detection.stop ∘ placeAt e') 0
      (ds.insertionSort (Select.Precedes Detection.start Detection.stop))).map (placeAt e') =
        Select.acceptFrom Detection.start Detection.stop 0
          ((ds.insertionSort (Select.Precedes Detection.start Detection.stop)).map (placeAt e')) :=
    Select.map_acceptFrom (placeAt e') 0 _
  exact hchosen

/-- Two leaves of one text have the same detections, each at its place. -/
theorem placeAt_detectEntry (hvalue : e'.value = e.value) (hkind : e'.kind = e.kind) :
    (detectEntry nfkc decodeAndRescan e rules ctx).map (placeAt e') =
      detectEntry nfkc decodeAndRescan e' rules ctx := by
  have hscan : (scanEntry nfkc e rules ctx).map (placeAt e') = scanEntry nfkc e' rules ctx := by
    rw [scanEntry, scanEntry, skipsNumber, skipsNumber, markerSpans, markerSpans, hvalue, hkind]
    split_ifs
    · rfl
    · rw [placeAt_removeOverlaps, placeAt_scanForDetections]
    · rw [placeAt_removeOverlaps, placeAt_scanForDetections]
    · exact placeAt_wholeLeafFrom _ _ _ _
  have hdecode : (decodeAndRescanEntry e rules ctx).map (placeAt e') =
      decodeAndRescanEntry e' rules ctx := by
    rw [decodeAndRescanEntry, decodeAndRescanEntry, hvalue, hkind]
    split_ifs
    · rfl
    · split
      · rfl
      · exact placeAt_wholeLeafFrom _ _ _ _
  rw [detectEntry, detectEntry, List.map_append, hscan]
  split_ifs
  · rw [hdecode]
  · rfl

end Places

/-- A detection without the place of its leaf. -/
def unplaced (d : Detection) : Detection := { d with path := [], pathText := [], kind := .value }

def Item.unplaced (x : Item) : Item := (Core.unplaced x.1, x.2)

/-! ### Texts up to what is fresh -/

/-- A token or an envelope is told by the name of its marker. -/
def upToFresh (output : JsString) : JsString :=
  if (js "[TOKEN:").isPrefixOf output then js "[TOKEN:"
  else if (js "[HAECHI_ENC:").isPrefixOf output then js "[HAECHI_ENC:"
  else output

/-- A character in clear, or a replaced segment. -/
inductive Shown where
  | char (u : UInt16)
  | replaced (source output : JsString)
deriving DecidableEq

def shown (ps : List Piece) : List Shown :=
  ps.flatMap fun
    | .clear text => text.map .char
    | .replaced source output => [.replaced source (upToFresh output)]

/-- The text has the pieces, with other tokens and envelopes perhaps. -/
def SameUpToFresh (ps : List Piece) (text : JsString) : Prop :=
  ∃ qs, outputOf qs = text ∧ shown qs = shown ps

variable {p : Replacer} {value : JsString}

theorem shown_nil : shown [] = [] := rfl

theorem shown_append (ps qs : List Piece) : shown (ps ++ qs) = shown ps ++ shown qs := by
  simp [shown]

theorem shown_clear_cons (text : JsString) (ps : List Piece) :
    shown (.clear text :: ps) = text.map .char ++ shown ps := by simp [shown]

theorem shown_replaced_cons (source output : JsString) (ps : List Piece) :
    shown (.replaced source output :: ps) = .replaced source (upToFresh output) :: shown ps := by
  simp [shown]

theorem upToFresh_marker {name : String} (inner : JsString)
    (h : name = "TOKEN" ∨ name = "HAECHI_ENC") :
    upToFresh (marker name inner) = 91 :: js name ++ [58] := by
  rcases h with rfl | rfl
  · have hpre : (js "[TOKEN:").isPrefixOf (marker "TOKEN" inner) = true :=
      List.isPrefixOf_iff_prefix.mpr ⟨inner ++ [93], rfl⟩
    rw [upToFresh, if_pos hpre]
    rfl
  · have hpre : (js "[HAECHI_ENC:").isPrefixOf (marker "HAECHI_ENC" inner) = true :=
      List.isPrefixOf_iff_prefix.mpr ⟨inner ++ [93], rfl⟩
    have hnot : (js "[TOKEN:").isPrefixOf (marker "HAECHI_ENC" inner) = false := rfl
    rw [upToFresh, if_neg (by rw [hnot]; decide), if_pos hpre]
    rfl

/-- Up to fresh tokens a replacement depends on the type, the segment and the action. -/
theorem upToFresh_replacementFor {d d' : Detection} (h : d'.type = d.type) (segment : JsString)
    (a : Action) :
    upToFresh (replacementFor p segment d' a) = upToFresh (replacementFor p segment d a) := by
  have htoken : ∀ d : Detection, upToFresh (replacementFor p segment d .tokenize) =
      91 :: js "TOKEN" ++ [58] := by
    intro d
    rw [replacementFor]
    split <;> exact upToFresh_marker _ (.inl rfl)
  cases a with
  | redact => rw [replacementFor, replacementFor, h]
  | mask => rfl
  | allow => rfl
  | block => rfl
  | tokenize => rw [htoken, htoken]
  | encrypt => exact (upToFresh_marker _ (.inr rfl)).trans (upToFresh_marker _ (.inr rfl)).symm

theorem shown_piecesFrom_unplaced (cursor : ℕ) (items : List Item) :
    shown (piecesFrom p value cursor (items.map Item.unplaced)) =
      shown (piecesFrom p value cursor items) := by
  induction items generalizing cursor with
  | nil => rfl
  | cons x items ih =>
    obtain ⟨d, a⟩ := x
    rw [List.map_cons, Item.unplaced, piecesFrom, piecesFrom]
    by_cases hlt : d.start < cursor
    · rw [if_pos hlt, if_pos (show (unplaced d).start < cursor from hlt)]
      exact ih cursor
    · rw [if_neg hlt, if_neg (show ¬(unplaced d).start < cursor from hlt), shown_clear_cons,
        shown_clear_cons, shown_replaced_cons, shown_replaced_cons]
      have hout := upToFresh_replacementFor (p := p) (show (unplaced d).type = d.type from rfl)
        (slice value d.start d.stop) a
      have hrest := ih d.stop
      change _ ++ .replaced (slice value d.start d.stop)
        (upToFresh (replacementFor p (slice value d.start d.stop) (unplaced d) a)) ::
          shown (piecesFrom p value d.stop (items.map Item.unplaced)) = _
      rw [hout, hrest]
      rfl

theorem sortedItems_unplaced (items : List Item) :
    sortedItems (items.map Item.unplaced) = (sortedItems items).map Item.unplaced := by
  have hsort := List.map_insertionSort (fun a b : Item => a.1.start ≤ b.1.start)
    (fun a b : Item => a.1.start ≤ b.1.start) Item.unplaced (items.filter fun x => rewrites x.2)
    fun _ _ _ _ => Iff.rfl
  rw [sortedItems, sortedItems, hsort, List.filter_map]
  rfl

theorem shown_transformPieces_unplaced (items : List Item) :
    shown (transformPieces p value (items.map Item.unplaced)) =
      shown (transformPieces p value items) := by
  rw [transformPieces, sortedItems_unplaced]
  exact shown_piecesFrom_unplaced 0 _

/-! ### Two parts of a text -/

/-- The detection of a part that starts at `n`, in the whole. -/
def shift (n : ℕ) (d : Detection) : Detection := { d with start := d.start + n, stop := d.stop + n }

def Item.shift (n : ℕ) (x : Item) : Item := (Core.shift n x.1, x.2)

theorem slice_drop (s : JsString) (n a b : ℕ) : slice s (a + n) (b + n) = slice (s.drop n) a b := by
  rw [slice, slice, List.take_drop, List.drop_drop, Nat.add_comm n b, Nat.add_comm n a]

/-- Behind the first part the walk is the walk of the second. -/
theorem shown_piecesFrom_shift (n cursor : ℕ) (items : List Item) :
    shown (piecesFrom p value (cursor + n) (items.map (Item.shift n))) =
      shown (piecesFrom p (value.drop n) cursor items) := by
  induction items generalizing cursor with
  | nil => rw [List.map_nil, piecesFrom, piecesFrom, List.drop_drop, Nat.add_comm]
  | cons x items ih =>
    obtain ⟨d, a⟩ := x
    rw [List.map_cons, Item.shift, piecesFrom, piecesFrom]
    by_cases hlt : d.start < cursor
    · rw [if_pos hlt, if_pos (show (Core.shift n d).start < cursor + n from Nat.add_lt_add_right hlt n)]
      exact ih cursor
    · have hge : ¬(Core.shift n d).start < cursor + n := fun h => hlt (Nat.lt_of_add_lt_add_right h)
      rw [if_neg hlt, if_neg hge, shown_clear_cons, shown_clear_cons, shown_replaced_cons,
        shown_replaced_cons]
      have hrest : shown (piecesFrom p value (Core.shift n d).stop (items.map (Item.shift n))) =
          shown (piecesFrom p (value.drop n) d.stop items) := ih d.stop
      have hclear : slice value (cursor + n) (Core.shift n d).start =
          slice (value.drop n) cursor d.start := slice_drop value n cursor d.start
      have hsegment : slice value (Core.shift n d).start (Core.shift n d).stop =
          slice (value.drop n) d.start d.stop := slice_drop value n d.start d.stop
      have hout := upToFresh_replacementFor (p := p) (show (Core.shift n d).type = d.type from rfl)
        (slice (value.drop n) d.start d.stop) a
      rw [hrest, hclear, hsegment, hout]

/-- The walk of a text is that of its first part and that of its second. -/
theorem shown_piecesFrom_append {n cursor : ℕ} {A B : List Item} (hA : InRange A n)
    (hc : cursor ≤ n) :
    shown (piecesFrom p value cursor (A ++ B.map (Item.shift n))) =
      shown (piecesFrom p (value.take n) cursor A) ++ shown (piecesFrom p (value.drop n) 0 B) := by
  induction A generalizing cursor with
  | nil =>
    have hfirst : (value.take n).drop cursor = slice value cursor n := rfl
    rw [List.nil_append, piecesFrom, hfirst]
    cases B with
    | nil =>
      have hrest : piecesFrom p value cursor [] = [.clear (value.drop cursor)] := rfl
      have hlast : piecesFrom p (value.drop n) 0 [] = [.clear ((value.drop n).drop 0)] := rfl
      have hsplit : value.drop cursor = slice value cursor n ++ value.drop n := by
        have := List.take_append_drop (n - cursor) (value.drop cursor)
        rw [List.drop_drop, show cursor + (n - cursor) = n by omega] at this
        rw [slice, List.drop_take, this]
      rw [List.map_nil, hrest, hlast, List.drop_zero, hsplit]
      simp [shown]
    | cons x B =>
      obtain ⟨d, a⟩ := x
      have hge : ¬(Core.shift n d).start < cursor := by
        simp only [Core.shift]
        omega
      have hfirst : slice value cursor (Core.shift n d).start =
          slice value cursor n ++ slice (value.drop n) 0 d.start := by
        rw [← slice_drop, Nat.zero_add]
        exact (slice_append_slice value hc (Nat.le_add_left n d.start)).symm
      have hsegment : slice value (Core.shift n d).start (Core.shift n d).stop =
          slice (value.drop n) d.start d.stop := slice_drop value n d.start d.stop
      have hrest : shown (piecesFrom p value (Core.shift n d).stop (B.map (Item.shift n))) =
          shown (piecesFrom p (value.drop n) d.stop B) := shown_piecesFrom_shift n d.stop B
      have hout := upToFresh_replacementFor (p := p) (show (Core.shift n d).type = d.type from rfl)
        (slice (value.drop n) d.start d.stop) a
      rw [List.map_cons, Item.shift, piecesFrom, piecesFrom, if_neg hge, if_neg (Nat.not_lt_zero _),
        shown_clear_cons, shown_clear_cons, shown_clear_cons, shown_replaced_cons,
        shown_replaced_cons, hrest, hfirst, hsegment, hout, List.map_append, List.append_assoc, shown_nil,
        List.append_nil]
  | cons x A ih =>
    obtain ⟨d, a⟩ := x
    obtain ⟨hd, hA⟩ := List.forall_mem_cons.mp hA
    simp only [Item.start, Item.stop] at hd
    rw [List.cons_append, piecesFrom, piecesFrom]
    by_cases hlt : d.start < cursor
    · rw [if_pos hlt, if_pos hlt]
      exact ih hA hc
    · have htake : ∀ a b : ℕ, b ≤ n → slice (value.take n) a b = slice value a b := by
        intro a b hb
        rw [slice, slice, List.take_take, Nat.min_eq_left hb]
      rw [if_neg hlt, if_neg hlt, shown_clear_cons, shown_clear_cons, shown_replaced_cons,
        shown_replaced_cons, ih hA hd.2, htake _ _ (le_trans hd.1 hd.2), htake _ _ hd.2,
        List.append_assoc, List.cons_append]

/-- Sorting keeps apart what is in order already. -/
theorem insertionSort_append {α : Type} {r : α → α → Prop} [DecidableRel r] {A B : List α}
    (h : ∀ a ∈ A, ∀ b ∈ B, r a b) : (A ++ B).insertionSort r = A.insertionSort r ++ B.insertionSort r := by
  have insert : ∀ (a : α) (A B : List α), (∀ b ∈ B, r a b) →
      (A ++ B).orderedInsert r a = A.orderedInsert r a ++ B := by
    intro a A B hB
    induction A with
    | nil =>
      cases B with
      | nil => rfl
      | cons b B => exact List.orderedInsert_cons_of_le r B (hB b List.mem_cons_self)
    | cons x A ih =>
      by_cases hx : r a x
      · rw [List.cons_append, List.orderedInsert_cons_of_le r _ hx, List.orderedInsert_cons_of_le r _ hx]
        rfl
      · rw [List.cons_append, List.orderedInsert_of_not_le r _ hx, List.orderedInsert_of_not_le r _ hx, ih]
        rfl
  induction A with
  | nil => rfl
  | cons a A ih =>
    obtain ⟨ha, hA⟩ := List.forall_mem_cons.mp h
    rw [List.cons_append, List.insertionSort_cons, ih hA, List.insertionSort_cons]
    exact insert a _ _ fun b hb => ha b ((List.mem_insertionSort _).mp hb)

theorem sortedItems_append_shift {n : ℕ} {A B : List Item} (hA : InRange A n) :
    sortedItems (A ++ B.map (Item.shift n)) = sortedItems A ++ (sortedItems B).map (Item.shift n) := by
  have hsort := List.map_insertionSort (fun a b : Item => a.1.start ≤ b.1.start)
    (fun a b : Item => a.1.start ≤ b.1.start) (Item.shift n) (B.filter fun x => rewrites x.2)
    fun a _ b _ => (Nat.add_le_add_iff_right (n := n)).symm
  rw [sortedItems, sortedItems, sortedItems, hsort, List.filter_append, insertionSort_append, List.filter_map]
  · rfl
  · intro a ha b hb
    obtain ⟨b', -, rfl⟩ := List.mem_map.mp (List.mem_filter.mp hb).1
    have := hA a (List.mem_filter.mp ha).1
    simp only [Item.start, Item.stop] at this
    simp only [Item.shift, Core.shift]
    omega

theorem shown_transformPieces_append {n : ℕ} {A B : List Item} (hA : InRange A n) :
    shown (transformPieces p value (A ++ B.map (Item.shift n))) =
      shown (transformPieces p (value.take n) A) ++ shown (transformPieces p (value.drop n) B) := by
  rw [transformPieces, sortedItems_append_shift hA]
  exact shown_piecesFrom_append (fun x hx => hA x (mem_sortedItems.mp hx).1) (Nat.zero_le n)

/-! ### The two paths -/

/-- What protecting a text gives: its detections decided, the flag, and the text. -/
structure Outcome where
  items : List Item
  blocked : Bool
  pieces : List Piece

namespace Setup

variable (c : Setup)

/-- The detections of a segment; an empty text is not scanned. -/
def scanned (text : JsString) : List Detection := if text.isEmpty then [] else c.scan text

/-- Where a push of the whole text cuts it. -/
def cut (text : JsString) : ℕ := c.commitPoint text (c.scan text)

/-- The detections of the head and of the rest, scanned apart. -/
def scannedApart (text : JsString) : List Detection :=
  c.scanned (text.take (c.cut text)) ++ (c.scanned (text.drop (c.cut text))).map (shift (c.cut text))

/-- `protectText` of a text. -/
def textOutcome (s : StreamSummary) (text : JsString) : Outcome where
  items := c.decideAll (c.scanned text)
  blocked := (c.protectText ⟨[], s⟩ text).1.blocked
  pieces := (c.protectText ⟨[], s⟩ text).1.pieces

/-- A push of the whole text, then a flush. -/
def pushOutcome (s : StreamSummary) (text : JsString) : Outcome :=
  let pushed := c.push ⟨[], s⟩ text
  let flushed := c.flush pushed.2
  { items := c.decideAll (c.scannedApart text)
    blocked := pushed.1.blocked || flushed.1.blocked
    pieces := pushed.1.pieces ++ flushed.1.pieces }

/-- The detections of the text as a leaf of a payload. -/
def scanLeaf (path : Path) (text : JsString) : List Detection :=
  detectEntry c.engine.nfkc c.engine.decodeAndRescan (c.entryOf path text .value) c.engine.rules
    c.context

end Setup

/-- The payload with another text at one leaf, but for the order of members. -/
def LeafBecomes {ν : Type} (path : Path) (text : JsString) (v w : JsValue ν) : Prop :=
  Related (fun at' u u' => (at' = path → u' = .str text) ∧ (at' ≠ path → u' = u))
    (fun _ names => ∀ kk ∈ names, kk.2 = kk.1) [] v w

/-- `protectJson` keeps the same detections, decides the same, and makes the same of
the text at the leaf. -/
def Outcome.Agrees {ν : Type} [JsNumber ν] (o : Outcome) (c : Setup) (payload : JsValue ν)
    (path : Path) : Prop :=
  ∃ r, protectJson c payload = some r ∧ r.items.map Item.unplaced = o.items ∧ r.blocked = o.blocked ∧
    (r.blocked = false → ∃ q text, r.payload = some q ∧ LeafBecomes path text payload q ∧
      SameUpToFresh o.pieces text)

variable {c : Setup} {s : StreamSummary} {text : JsString}

/-! ### A segment -/

/-- The pieces of a segment that is not blocked. -/
def segmentPieces (c : Setup) (text : JsString) (items : List Item) : List Piece :=
  if c.enforced then transformPieces c.replacer text items else [.clear text]

theorem transformSegment_eq (st : StreamState) (text : JsString) :
    (c.transformSegment st text).1.blocked = c.blocks (c.decideAll (c.scan text)) ∧
      (c.blocks (c.decideAll (c.scan text)) = false → shown (c.transformSegment st text).1.pieces =
        shown (segmentPieces c text (c.decideAll (c.scan text)))) := by
  rw [Setup.transformSegment, segmentPieces]
  cases hblocks : c.blocks (c.decideAll (c.scan text)) with
  | true => simp
  | false =>
    cases henforced : c.enforced with
    | false => simp
    | true =>
      by_cases hempty : (c.decideAll (c.scan text)).isEmpty = true
      · have hnil := List.isEmpty_iff.mp hempty
        rw [hnil]
        simp [transformPieces, sortedItems, piecesFrom]
      · simp [hempty]

theorem blocks_nil : c.blocks [] = false := by simp [Setup.blocks]

theorem shown_segmentPieces_nil : shown (segmentPieces c [] []) = [] := by
  rw [segmentPieces]
  split_ifs <;> rfl

/-- A segment, or nothing at all for an empty one. -/
theorem textOutcome_eq (s : StreamSummary) (text : JsString) :
    (c.textOutcome s text).blocked = c.blocks (c.decideAll (c.scanned text)) ∧
      (c.blocks (c.decideAll (c.scanned text)) = false → shown (c.textOutcome s text).pieces =
        shown (segmentPieces c text (c.decideAll (c.scanned text)))) := by
  rw [Setup.textOutcome, Setup.protectText, Setup.scanned]
  split_ifs with hempty
  · rw [List.isEmpty_iff.mp hempty]
    exact ⟨blocks_nil.symm, fun _ => shown_segmentPieces_nil.symm⟩
  · exact transformSegment_eq _ text

theorem flush_eq (s : StreamSummary) (text : JsString) :
    (c.flush ⟨text, s⟩).1.blocked = c.blocks (c.decideAll (c.scanned text)) ∧
      (c.blocks (c.decideAll (c.scanned text)) = false → shown (c.flush ⟨text, s⟩).1.pieces =
        shown (segmentPieces c text (c.decideAll (c.scanned text)))) := by
  rw [Setup.flush, Setup.scanned]
  split_ifs with hempty
  · have hnil : text = [] := List.isEmpty_iff.mp hempty
    rw [hnil]
    exact ⟨blocks_nil.symm, fun _ => shown_segmentPieces_nil.symm⟩
  · exact transformSegment_eq _ text

theorem decideAll_append (ds ds' : List Detection) :
    c.decideAll (ds ++ ds') = c.decideAll ds ++ c.decideAll ds' := List.map_append

theorem blocks_append (items items' : List Item) :
    c.blocks (items ++ items') = (c.blocks items || c.blocks items') := by
  simp only [Setup.blocks, List.any_append, Bool.and_or_distrib_left]

theorem inRange_scanned (text : JsString) : InRange (c.decideAll (c.scanned text)) text.length := by
  rw [Setup.scanned]
  split_ifs
  · exact fun x hx => (by cases hx)
  · rw [Setup.scan, Engine.detect, Filter.detect, List.flatMap_singleton]
    exact (layered_detectEntry c.engine.nfkc c.engine.decodeAndRescan (c.textEntry text) c.engine.rules
      c.context c.decide).1

theorem cut_le (text : JsString) : c.cut text ≤ text.length :=
  (commitPoint_le text _).trans (Nat.sub_le _ _)

/-- What a push of the whole text gives back: its head, protected. -/
theorem push_eq (s : StreamSummary) (text : JsString) :
    (c.push ⟨[], s⟩ text).1.blocked = c.blocks (c.decideAll (c.scanned (text.take (c.cut text)))) ∧
      (c.blocks (c.decideAll (c.scanned (text.take (c.cut text)))) = false →
        shown (c.push ⟨[], s⟩ text).1.pieces = shown (segmentPieces c (text.take (c.cut text))
          (c.decideAll (c.scanned (text.take (c.cut text)))))) := by
  have hcut : c.commitPoint ([] ++ text) (c.scan ([] ++ text)) = c.cut text := rfl
  rw [Setup.push]
  simp only [hcut]
  split_ifs with hzero
  · rw [hzero, List.take_zero]
    exact ⟨blocks_nil.symm, fun _ => shown_segmentPieces_nil.symm⟩
  · have hhead : c.scanned (text.take (c.cut text)) = c.scan (text.take (c.cut text)) := by
      refine if_neg fun hempty => hzero ?_
      have hlen := congrArg List.length (List.isEmpty_iff.mp hempty)
      rw [List.length_take, Nat.min_eq_left (cut_le text)] at hlen
      exact hlen
    rw [hhead]
    exact transformSegment_eq _ _

/-- Decisions go by the type, so a detection is decided alike in a part and in the whole. -/
theorem decideAll_shift {act : JsString → Action} (hc : ∀ d, c.decide d = act d.type) (n : ℕ)
    (ds : List Detection) :
    c.decideAll (ds.map (shift n)) = (c.decideAll ds).map (Item.shift n) := by
  rw [Setup.decideAll, Setup.decideAll, List.map_map, List.map_map]
  refine List.map_congr_left fun d _ => ?_
  have hd : c.decide (shift n d) = c.decide d := (hc _).trans (hc d).symm
  simp only [Function.comp_apply, Item.shift, hd]

theorem blocks_shift (n : ℕ) (items : List Item) :
    c.blocks (items.map (Item.shift n)) = c.blocks items := by
  rw [Setup.blocks, Setup.blocks, List.any_map]
  rfl

theorem pushOutcome_eq {act : JsString → Action} (hc : ∀ d, c.decide d = act d.type)
    (s : StreamSummary) (text : JsString) :
    (c.pushOutcome s text).blocked = c.blocks (c.decideAll (c.scannedApart text)) ∧
      (c.blocks (c.decideAll (c.scannedApart text)) = false → shown (c.pushOutcome s text).pieces =
        shown (segmentPieces c text (c.decideAll (c.scannedApart text)))) := by
  obtain ⟨hhead, hheadShown⟩ := push_eq (c := c) s text
  obtain ⟨htail, htailShown⟩ := flush_eq (c := c) (c.push ⟨[], s⟩ text).2.summary
    (text.drop (c.cut text))
  have hstate : (⟨text.drop (c.cut text), (c.push ⟨[], s⟩ text).2.summary⟩ : StreamState) =
      (c.push ⟨[], s⟩ text).2 := by
    have hpending : (c.push ⟨[], s⟩ text).2.pending = text.drop (c.cut text) := push_pending _ text
    rw [← hpending]
  rw [hstate] at htail htailShown
  have hitems : c.decideAll (c.scannedApart text) =
      c.decideAll (c.scanned (text.take (c.cut text))) ++
        (c.decideAll (c.scanned (text.drop (c.cut text)))).map (Item.shift (c.cut text)) := by
    rw [Setup.scannedApart, decideAll_append, decideAll_shift hc]
  rw [hitems, blocks_append, blocks_shift]
  constructor
  · rw [Setup.pushOutcome]
    simp only
    rw [hhead, htail]
  · intro hblocks
    rw [Bool.or_eq_false_iff] at hblocks
    rw [Setup.pushOutcome]
    simp only
    rw [shown_append, hheadShown hblocks.1, htailShown hblocks.2, segmentPieces, segmentPieces,
      segmentPieces]
    split_ifs
    · have hrange := inRange_scanned (c := c) (text.take (c.cut text))
      rw [List.length_take, Nat.min_eq_left (cut_le text)] at hrange
      exact (shown_transformPieces_append hrange).symm
    · rw [shown_clear_cons, shown_clear_cons, shown_clear_cons, shown_nil, List.append_nil,
        List.append_nil, List.append_nil, ← List.map_append, List.take_append_drop]

/-! ### A leaf of a payload -/

section Leaf

variable {ν : Type} [JsNumber ν] {payload q : JsValue ν} {es : List Entry} {path : Path}

/-- Only the leaf has detections, so they are those of the payload. -/
theorem flatMap_itemsOf_leaf (hp : payload.Distinct) (hes : c.entries payload = some es)
    (hleaf : Leads payload path (.str text))
    (hothers : ∀ e ∈ es, e ≠ c.entryOf path text .value → c.itemsOf e = []) :
    es.flatMap c.itemsOf = c.itemsOf (c.entryOf path text .value) := by
  have hnodup : es.Nodup := (nodup_collectStringEntries payload hp hes).of_map
  have hmem : c.entryOf path text .value ∈ es :=
    (mem_entries hes).mpr ⟨.value, path, text, hleaf, rfl⟩
  obtain ⟨before, after, rfl⟩ := List.append_of_mem hmem
  rw [List.nodup_middle, List.nodup_cons, List.mem_append, not_or] at hnodup
  have hbefore : before.flatMap c.itemsOf = [] := List.flatMap_eq_nil_iff.mpr fun e he =>
    hothers e (by simp [he]) fun heq => hnodup.1.1 (heq ▸ he)
  have hafter : after.flatMap c.itemsOf = [] := List.flatMap_eq_nil_iff.mpr fun e he =>
    hothers e (by simp [he]) fun heq => hnodup.1.2 (heq ▸ he)
  rw [List.flatMap_append, List.flatMap_cons, hbefore, hafter, List.nil_append, List.append_nil]

/-- A rewritten payload in which only the leaf has detections. -/
theorem leafBecomes_of_rewritten (hp : payload.Distinct) (hes : c.entries payload = some es)
    (hleaf : Leads payload path (.str text))
    (hothers : ∀ e ∈ es, e ≠ c.entryOf path text .value → c.itemsOf e = [])
    (h : c.Rewritten payload q) : LeafBecomes path (c.rewritten path text .value) payload q := by
  have hrest : ∀ kind rel s, Holds payload kind rel s → (kind, rel) ≠ (.value, path) →
      c.rewritten rel s kind = s := by
    intro kind rel s hs hne
    refine rewritten_of_nil (hothers _ ((mem_entries hes).mpr ⟨kind, rel, s, hs, rfl⟩) fun heq => hne ?_)
    exact congrArg place? heq
  refine h.mono (fun ext v w hv hw => ?_) fun ext fields names hfields hkeys hnames kk hkk => ?_
  · rw [List.nil_append] at hw ⊢
    constructor
    · rintro rfl
      rw [hw, hv.unique hp hleaf]
      rfl
    · intro hne
      have hplace : ∀ kind : Kind, (kind, ext) ≠ (.value, path) := fun kind h => hne (congrArg Prod.snd h)
      rw [hw]
      cases v with
      | str s => rw [Setup.newLeaf, hrest .value ext s hv (hplace _)]
      | num x => rw [Setup.newLeaf, if_pos (hrest .number ext _ ⟨x, hv, rfl⟩ (hplace _))]
      | undef => rfl
      | null => rfl
      | bool => rfl
      | arr => rfl
      | obj => rfl
  · have hkey : Holds payload .key (ext ++ [.key kk.1]) kk.1 :=
      ⟨ext, fields, rfl, hfields, hkeys ▸ List.mem_map_of_mem hkk⟩
    have hsame := hrest .key _ _ hkey fun h => by cases congrArg Prod.fst h
    rcases hnames kk hkk with hname | ⟨hne, -⟩
    · exact hname.trans hsame
    · exact absurd hsame hne

theorem leafBecomes_self (c : Setup) (hp : payload.Distinct) (hleaf : Leads payload path (.str text)) :
    LeafBecomes path text payload payload := by
  refine (related_self c payload hp []).mono (fun ext v w hv hd => ?_) fun ext _ names _ _ hnames kk hkk => ?_
  · rw [List.nil_append] at hd ⊢
    have hw : w = v := hd.2 (Set.notMem_empty _)
    refine ⟨?_, fun _ => hw⟩
    rintro rfl
    rw [hw, hv.unique hp hleaf]
  · exact (hnames kk hkk).2 (Set.notMem_empty _)

/-- The root is not assigned to, as far as the leaf goes. -/
theorem rootSafe_iff (hleaf : Leads payload path (.str text)) :
    c.RootSafe payload ↔ (path = [] → c.itemsOf (c.entryOf path text .value) = []) := by
  cases hleaf with
  | here => exact ⟨fun h _ => h, fun h => h rfl⟩
  | item => exact ⟨fun _ h => (by cases h), fun _ => trivial⟩
  | member => exact ⟨fun _ h => (by cases h), fun _ => trivial⟩

/-- What the JSON path must give for an outcome to agree with it. -/
theorem agrees_iff (hp : payload.Distinct) (hes : c.entries payload = some es)
    (hleaf : Leads payload path (.str text))
    (hothers : ∀ e ∈ es, e ≠ c.entryOf path text .value → c.itemsOf e = []) {o : Outcome}
    (hblocked : o.blocked = c.blocks o.items)
    (hpieces : c.blocks o.items = false → shown o.pieces = shown (segmentPieces c text o.items)) :
    o.Agrees c payload path ↔
      (c.itemsOf (c.entryOf path text .value)).map Item.unplaced = o.items ∧
        (path = [] → c.enforced = true → c.itemsOf (c.entryOf path text .value) = [] ∨
          c.blocks (c.itemsOf (c.entryOf path text .value)) = true) := by
  have hitems := flatMap_itemsOf_leaf hp hes hleaf hothers
  have hjson := protectJson_of_entries hes
  have hgroups := groupByPath_entries hp hes
  rw [hitems] at hjson hgroups
  have hsame : c.blocks ((c.itemsOf (c.entryOf path text .value)).map Item.unplaced) =
      c.blocks (c.itemsOf (c.entryOf path text .value)) := by
    rw [Setup.blocks, Setup.blocks, List.any_map]
    rfl
  constructor
  · rintro ⟨r, hr, heq, -, -⟩
    rw [hjson] at hr
    by_cases hblocks : c.blocks (c.itemsOf (c.entryOf path text .value)) = true
    · rw [if_pos hblocks] at hr
      obtain rfl := Option.some.inj hr
      exact ⟨heq, fun _ _ => .inr hblocks⟩
    · rw [if_neg hblocks] at hr
      obtain ⟨q, hq, hr⟩ := Option.bind_eq_some_iff.mp hr
      obtain rfl := Option.some.inj hr
      refine ⟨heq, fun hpath henforced => .inl ?_⟩
      rw [henforced, transformPayload_enforced, hgroups] at hq
      exact (rootSafe_iff hleaf).mp (rootSafe_of_transformGroups hes hq) hpath
  · rintro ⟨heq, hsafe⟩
    rw [← heq] at hblocked hpieces
    rw [hsame] at hblocked hpieces
    rw [Outcome.Agrees, hjson]
    cases hblocks : c.blocks (c.itemsOf (c.entryOf path text .value)) with
    | true => exact ⟨_, if_pos rfl, heq, by rw [hblocked, hblocks], fun h => (by cases h)⟩
    | false =>
      have hshown : shown (segmentPieces c text (c.itemsOf (c.entryOf path text .value))) =
          shown o.pieces := by
        rw [hpieces hblocks, segmentPieces, segmentPieces]
        split_ifs
        · exact (shown_transformPieces_unplaced _).symm
        · rfl
      obtain ⟨q, hq, hbecomes⟩ : ∃ q, transformPayload c.replacer c.enforced payload
          (c.itemsOf (c.entryOf path text .value)) = some q ∧ LeafBecomes path (outputOf
            (segmentPieces c text (c.itemsOf (c.entryOf path text .value)))) payload q := by
        rw [segmentPieces]
        cases henforced : c.enforced with
        | false => exact ⟨payload, rfl, by simpa [outputOf, Piece.output] using leafBecomes_self c hp hleaf⟩
        | true =>
          have hroot : c.RootSafe payload := (rootSafe_iff hleaf).mpr fun hpath =>
            (hsafe hpath henforced).resolve_right (by rw [hblocks]; decide)
          obtain ⟨q, hq, hrewritten⟩ := transformGroups_of_rootSafe hp hes hroot
          rw [transformPayload_enforced, hgroups, if_pos rfl, ← transformString_eq_outputOf]
          exact ⟨q, hq, leafBecomes_of_rewritten hp hes hleaf hothers hrewritten⟩
      refine ⟨_, by rw [if_neg (by decide), hq]; rfl, heq, by rw [hblocked, hblocks], fun _ => ?_⟩
      exact ⟨q, _, rfl, hbecomes, _, rfl, hshown⟩

/-- The scan of a text is that of the leaf, without its place. -/
theorem scan_eq_scanLeaf (c : Setup) (path : Path) (text : JsString) :
    c.scan text = (c.scanLeaf path text).map unplaced := by
  have hplace : (detectEntry c.engine.nfkc c.engine.decodeAndRescan (c.entryOf path text .value)
      c.engine.rules c.context).map (placeAt (c.textEntry text)) =
        detectEntry c.engine.nfkc c.engine.decodeAndRescan (c.textEntry text) c.engine.rules
          c.context := placeAt_detectEntry rfl rfl
  rw [Setup.scan, Engine.detect, Filter.detect, List.flatMap_singleton, ← hplace]
  rfl

/-- The kept detections of the leaf are those the stream sees exactly when the dials
leave them all; an empty text is not seen by the stream. -/
theorem unplaced_itemsOf_iff {act : JsString → Action} (hc : ∀ d, c.decide d = act d.type) :
    (c.itemsOf (c.entryOf path text .value)).map Item.unplaced = c.decideAll (c.scanned text) ↔
      ∀ d ∈ c.scanLeaf path text,
        (survives c.minConfidence (compileAllowlist c.allowlist) d = true ↔ text ≠ []) := by
  have hitems : (c.itemsOf (c.entryOf path text .value)).map Item.unplaced = c.decideAll
      (((c.scanLeaf path text).filter
        (survives c.minConfidence (compileAllowlist c.allowlist))).map unplaced) := by
    rw [Setup.itemsOf, Setup.decideAll, Setup.decideAll, List.map_map, List.map_map]
    refine List.map_congr_left fun d _ => ?_
    have hd : c.decide (unplaced d) = c.decide d := (hc _).trans (hc d).symm
    simp only [Function.comp_apply, Item.unplaced, hd]
  have hinj : ∀ ds ds' : List Detection, c.decideAll ds = c.decideAll ds' ↔ ds = ds' := by
    intro ds ds'
    refine ⟨fun h => ?_, fun h => by rw [h]⟩
    rw [← map_fst_decideAll (c := c) ds, h, map_fst_decideAll]
  rw [hitems, hinj, Setup.scanned]
  by_cases htext : text = []
  · rw [htext, List.isEmpty_nil, if_pos rfl, List.map_eq_nil_iff, List.filter_eq_nil_iff]
    refine forall₂_congr fun d _ => ?_
    simp
  · rw [if_neg (by rwa [List.isEmpty_iff]), scan_eq_scanLeaf c path]
    constructor
    · intro h d hd
      have hlen := congrArg List.length h
      rw [List.length_map, List.length_map, List.length_filter_eq_length_iff] at hlen
      exact iff_of_true (hlen d hd) htext
    · intro h
      rw [List.filter_eq_self.mpr fun d hd => (h d hd).mpr htext]

end Leaf

/-! ### Two texts -/

/-- The setup of the requests, with an exception for one address. -/
def exceptingAddress : Setup :=
  { redactingRequests with allowlist := [.value (js "bob@example.com")] }

/-- `[text]`. -/
def textPayload (text : JsString) : JsValue NumberToken := .arr [.str text]

theorem entries_textPayload (c : Setup) (h : c.maxNestingDepth = 256) (text : JsString) :
    c.entries (textPayload text) = some [c.entryOf [.index 0] text .value] := by
  rw [textPayload, Setup.entries, collectStringEntries, h]
  rfl

end Haechi.Core
