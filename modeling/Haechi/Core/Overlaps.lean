import Haechi.Core.Transform
import Haechi.Policy.Builder

/-! Overlapping detections of one text. The walk of `transformString` passes over a
detection that starts inside a replaced span, so of two that overlap one is left
out. A scan reports parts of the text that do not overlap; only detections of the
whole text overlap others. Proved: every detection is honoured, each of its
characters getting an action as strong as its own, exactly when the detection that
comes first at the start of the text serves those it keeps out. -/

namespace Haechi.Core

open Text Haechi.Filter Haechi.Policy

/-! ### What happens to each character -/

namespace Item

/-- The span of the item is all of a text of this length. -/
def Whole (x : Item) (length : ℕ) : Prop := x.start = 0 ∧ x.stop = length

def Covers (x : Item) (i : ℕ) : Prop := x.start ≤ i ∧ i < x.stop

/-- A mask of a long segment leaves its two first and its two last characters. -/
def Shows (x : Item) (i : ℕ) : Prop :=
  x.2 = .mask ∧ 8 < x.stop - x.start ∧ (i < x.start + 2 ∨ x.stop ≤ i + 2)

instance (x : Item) (length : ℕ) : Decidable (x.Whole length) := inferInstanceAs (Decidable (_ ∧ _))

instance (x : Item) (i : ℕ) : Decidable (x.Covers i) := inferInstanceAs (Decidable (_ ∧ _))

instance (x : Item) (i : ℕ) : Decidable (x.Shows i) := inferInstanceAs (Decidable (_ ∧ _))

end Item

/-- The action leaves nothing of its segment. -/
def hides : Action → Bool
  | .redact | .tokenize | .encrypt => true
  | .allow | .mask | .block => false

/-- The replacement of a segment in pieces: a long mask has two clear ends. -/
def replacementPieces (p : Replacer) (segment : JsString) (d : Detection) (a : Action) : List Piece :=
  if a = .mask ∧ 8 < segment.length then
    [.clear (segment.take 2),
      .replaced (slice segment 2 (segment.length - 2))
        (List.replicate (max 4 (segment.length - 4)) 42),
      .clear (segment.drop (segment.length - 2))]
  else [.replaced segment (replacementFor p segment d a)]

/-- The walk of `transformString`, each piece with the action it is due to. -/
def traceFrom (p : Replacer) (value : JsString) : ℕ → List Item → List (Action × Piece)
  | cursor, [] => [(.allow, .clear (value.drop cursor))]
  | cursor, (d, a) :: rest =>
    if d.start < cursor then traceFrom p value cursor rest
    else
      (.allow, .clear (slice value cursor d.start)) ::
        ((replacementPieces p (slice value d.start d.stop) d a).map (a, ·) ++
          traceFrom p value d.stop rest)

def transformTrace (p : Replacer) (value : JsString) (items : List Item) : List (Action × Piece) :=
  traceFrom p value 0 (sortedItems items)

/-- For each character of the original, the action applied to it and whether it
was replaced. -/
def fates (t : List (Action × Piece)) : List (Action × Bool) :=
  t.flatMap fun e => List.replicate e.2.source.length (e.1, e.2.isReplaced)

/-- Each character that an item covers gets an action as strong as the item's, and
none that it is to hide stays in clear. -/
def Honoured (p : Replacer) (value : JsString) (items : List Item) : Prop :=
  ∀ x ∈ items, ∀ i, x.Covers i → ∃ fate, (fates (transformTrace p value items))[i]? = some fate ∧
    strength x.2 ≤ strength fate.1 ∧ (hides x.2 = true → fate.2 = true)

variable {p : Replacer} {value : JsString} {items : List Item}

theorem fates_append (s t : List (Action × Piece)) : fates (s ++ t) = fates s ++ fates t := by
  simp [fates]

theorem length_fates (t : List (Action × Piece)) :
    (fates t).length = (sourceOf (t.map Prod.snd)).length := by
  induction t with
  | nil => rfl
  | cons e t ih =>
    rw [← List.singleton_append, fates_append, List.length_append, ih]
    simp [fates, sourceOf]

theorem sourceOf_replacementPieces (segment : JsString) (d : Detection) (a : Action) :
    sourceOf (replacementPieces p segment d a) = segment := by
  rw [replacementPieces]
  split_ifs with h
  · have hjoin := slice_append_slice segment (show 0 ≤ 2 by omega)
      (show 2 ≤ segment.length - 2 by omega)
    simp only [sourceOf, List.flatMap_cons, List.flatMap_nil, Piece.source, List.append_nil]
    rw [← slice_zero, ← List.append_assoc, hjoin, slice_zero, List.take_append_drop]
  · simp [sourceOf, Piece.source]

theorem outputOf_replacementPieces (segment : JsString) (d : Detection) (a : Action) :
    outputOf (replacementPieces p segment d a) = replacementFor p segment d a := by
  rw [replacementPieces]
  split_ifs with h
  · rw [h.1, replacementFor, maskSensitive, if_neg (by omega)]
    simp [outputOf, Piece.output]
  · simp [outputOf, Piece.output]

/-- The pieces put together are the rewritten text. -/
theorem outputOf_transformTrace :
    outputOf ((transformTrace p value items).map Prod.snd) = transformString p value items := by
  have run : ∀ cursor items, outputOf ((traceFrom p value cursor items).map Prod.snd) =
      transformFrom p value cursor items := by
    intro cursor items
    induction items generalizing cursor with
    | nil => simp [traceFrom, transformFrom, outputOf, Piece.output]
    | cons item items ih =>
      rw [traceFrom, transformFrom]
      split_ifs
      · exact ih cursor
      · have hsegment := outputOf_replacementPieces (p := p)
          (slice value item.1.start item.1.stop) item.1 item.2
        rw [List.map_cons, List.map_append, List.map_map, Function.comp_def, List.map_id',
          ← List.singleton_append, outputOf_append, outputOf_append, hsegment, ih,
          List.append_assoc]
        simp [outputOf, Piece.output]
  exact run 0 _

/-- What the items taken do to a character. -/
def fateAt (taken : List Item) (i : ℕ) : Action × Bool :=
  match taken.find? fun a => a.Covers i with
  | some a => (a.2, !decide (a.Shows i))
  | none => (.allow, false)

theorem fates_replacementPieces (segment : JsString) (d : Detection) (a : Action) {j : ℕ}
    (hj : j < segment.length) :
    (fates ((replacementPieces p segment d a).map (a, ·)))[j]? =
      some (a, !decide (a = .mask ∧ 8 < segment.length ∧ (j < 2 ∨ segment.length ≤ j + 2))) := by
  rw [replacementPieces]
  split_ifs with h
  · have hmiddle : (slice segment 2 (segment.length - 2)).length = segment.length - 2 - 2 :=
      length_slice (by omega)
    simp only [fates, List.map_cons, List.map_nil, List.flatMap_cons, List.flatMap_nil, Piece.source,
      Piece.isReplaced, List.append_nil, List.length_take, List.length_drop, hmiddle]
    rcases Nat.lt_or_ge j 2 with hfirst | hrest
    · rw [List.getElem?_append_left (by simp; omega), List.getElem?_replicate, if_pos (by omega)]
      simp [h, hfirst]
    · rw [List.getElem?_append_right (by simp; omega), List.length_replicate]
      rcases Nat.lt_or_ge j (segment.length - 2) with hin | hlast
      · rw [List.getElem?_append_left (by simp; omega), List.getElem?_replicate, if_pos (by omega)]
        have hin' : ¬segment.length ≤ j + 2 := by omega
        simp [hin', not_lt.mpr hrest]
      · rw [List.getElem?_append_right (by simp; omega), List.getElem?_replicate,
          if_pos (by simp; omega)]
        have hlast' : segment.length ≤ j + 2 := by omega
        simp [h, hlast']
  · have hshort : ¬(a = .mask ∧ 8 < segment.length ∧ (j < 2 ∨ segment.length ≤ j + 2)) :=
      fun hmask => h ⟨hmask.1, hmask.2.1⟩
    rw [decide_eq_false hshort]
    simp [fates, Piece.source, Piece.isReplaced, hj]

/-- The items taken lie behind the cursor, so a character before one is left alone. -/
theorem fateAt_of_lt {taken : List Item} {i : ℕ} (h : ∀ a ∈ taken, i < a.start) :
    fateAt taken i = (.allow, false) := by
  have hnone : (taken.find? fun a => a.Covers i) = none := by
    rw [List.find?_eq_none]
    intro a ha hcovers
    have hle := (of_decide_eq_true hcovers).1
    have := h a ha
    omega
  rw [fateAt, hnone]

/-- The trace is the text, and what it does to a character is what the items taken do. -/
theorem fates_traceFrom (h : ∀ item ∈ items, item.start ≤ item.stop ∧ item.stop ≤ value.length)
    {cursor : ℕ} (hc : cursor ≤ value.length) :
    ∀ i, cursor ≤ i → i < value.length → (fates (traceFrom p value cursor items))[i - cursor]? =
      some (fateAt (Select.acceptFrom Item.start Item.stop cursor items) i) := by
  induction items generalizing cursor with
  | nil =>
    intro i hi hlt
    simp only [traceFrom, fates, List.flatMap_cons, List.flatMap_nil, List.append_nil, Piece.source,
      Piece.isReplaced, List.getElem?_replicate, List.length_drop]
    rw [if_pos (by omega)]
    rfl
  | cons item items ih =>
    obtain ⟨d, a⟩ := item
    obtain ⟨hd, h⟩ := List.forall_mem_cons.mp h
    simp only [Item.start, Item.stop] at hd
    rw [traceFrom, Select.acceptFrom]
    by_cases hlt : d.start < cursor
    · rw [if_pos hlt, if_pos (show Item.start (d, a) < cursor from hlt)]
      exact ih h hc
    · rw [if_neg hlt, if_neg (show ¬Item.start (d, a) < cursor from hlt)]
      intro i hi hin
      have hclear : (slice value cursor d.start).length = d.start - cursor := length_slice (by omega)
      have hspan : (slice value d.start d.stop).length = d.stop - d.start := length_slice hd.2
      have hpieces : (fates ((replacementPieces p (slice value d.start d.stop) d a).map (a, ·))).length =
          d.stop - d.start := by
        rw [length_fates, List.map_map, Function.comp_def, List.map_id', sourceOf_replacementPieces,
          hspan]
      have hlater : ∀ x ∈ Select.acceptFrom Item.start Item.stop d.stop items, d.stop ≤ x.start :=
        Select.le_start_acceptFrom (D := Item) fun x hx => (h x hx).1
      rw [← List.singleton_append, fates_append, fates_append]
      have hfirst : fates [(Action.allow, Piece.clear (slice value cursor d.start))] =
          List.replicate (d.start - cursor) (.allow, false) := by
        simp [fates, Piece.source, Piece.isReplaced, hclear]
      rw [hfirst]
      -- before the span, in it, and after it
      rcases Nat.lt_or_ge i d.start with hbefore | hfrom
      · rw [List.getElem?_append_left (by simp; omega), List.getElem?_replicate, if_pos (by omega),
          fateAt_of_lt]
        refine List.forall_mem_cons.mpr ⟨hbefore, fun x hx => ?_⟩
        have := hlater x hx
        omega
      · rw [List.getElem?_append_right (by simp; omega), List.length_replicate,
          show i - cursor - (d.start - cursor) = i - d.start by omega]
        rcases Nat.lt_or_ge i d.stop with hinside | hafter
        · have hcovers : Item.Covers (d, a) i := ⟨hfrom, hinside⟩
          rw [List.getElem?_append_left (by omega), fates_replacementPieces _ _ _ (by omega), fateAt,
            List.find?_cons_of_pos (by simpa using hcovers), hspan]
          have hshows : (a = .mask ∧ 8 < d.stop - d.start ∧
              (i - d.start < 2 ∨ d.stop - d.start ≤ i - d.start + 2)) ↔ Item.Shows (d, a) i := by
            simp only [Item.Shows, Item.start, Item.stop]
            refine and_congr_right fun _ => and_congr_right fun _ => ?_
            omega
          simp only [hshows]
        · have hcovers : ¬Item.Covers (d, a) i := fun hcovers => absurd hcovers.2 (not_lt.mpr hafter)
          rw [List.getElem?_append_right (by omega), hpieces,
            show i - d.start - (d.stop - d.start) = i - d.stop by omega, ih h hd.2 i hafter hin, fateAt,
            fateAt, List.find?_cons_of_neg (by simpa using hcovers)]
          rfl

/-- The spans of the items are parts of the text. -/
def InRange (items : List Item) (length : ℕ) : Prop :=
  ∀ x ∈ items, x.start ≤ x.stop ∧ x.stop ≤ length

theorem fates_transformTrace (h : InRange items value.length) {i : ℕ} (hi : i < value.length) :
    (fates (transformTrace p value items))[i]? = some (fateAt (takenItems items) i) :=
  fates_traceFrom (fun x hx => h x (mem_sortedItems.mp hx).1) (Nat.zero_le _) i (Nat.zero_le _) hi

/-! ### Which items are taken -/

theorem pairwise_takenItems {length : ℕ} (h : InRange items length) :
    (takenItems items).Pairwise fun a b => a.stop ≤ b.start :=
  Select.pairwise_acceptFrom fun x hx => (h x (mem_sortedItems.mp hx).1).1

/-- One character is covered by one item taken. -/
theorem takenItems_unique {length : ℕ} (h : InRange items length) {a b : Item} {i : ℕ}
    (ha : a ∈ takenItems items) (hb : b ∈ takenItems items) (hai : a.Covers i) (hbi : b.Covers i) :
    a = b := by
  by_contra hne
  have : Std.Symm fun a b : Item => a.stop ≤ b.start ∨ b.stop ≤ a.start := ⟨fun _ _ => Or.symm⟩
  have hdisjoint : (takenItems items).Pairwise fun a b => a.stop ≤ b.start ∨ b.stop ≤ a.start :=
    (pairwise_takenItems h).imp Or.inl
  obtain ⟨hai, hai'⟩ := hai
  obtain ⟨hbi, hbi'⟩ := hbi
  rcases hdisjoint.forall ha hb hne with h | h <;> omega

theorem fateAt_of_mem {length : ℕ} (h : InRange items length) {a : Item} {i : ℕ}
    (ha : a ∈ takenItems items) (hai : a.Covers i) :
    fateAt (takenItems items) i = (a.2, !decide (a.Shows i)) := by
  have hfind : ((takenItems items).find? fun a => a.Covers i) = some a := by
    cases hfound : (takenItems items).find? fun a => a.Covers i with
    | none => exact absurd (List.find?_eq_none.mp hfound a ha) (by simpa using hai)
    | some b =>
      have hbi : b.Covers i := by simpa using List.find?_some hfound
      rw [takenItems_unique h (List.mem_of_find?_eq_some hfound) ha hbi hai]
  rw [fateAt, hfind]

/-- What an item taken does is enough for another item. -/
def Serves (a x : Item) (i : ℕ) : Prop :=
  strength x.2 ≤ strength a.2 ∧ (hides x.2 = true → ¬a.Shows i)

theorem strength_pos {a : Action} (h : rewrites a = true) : 0 < strength a := by
  revert h
  cases a <;> decide

/-- Detections are honoured when the items taken serve those that are to rewrite. -/
theorem honoured_iff_takenItems (h : InRange items value.length) (hblock : ∀ x ∈ items, x.2 ≠ .block) :
    Honoured p value items ↔ ∀ x ∈ items, rewrites x.2 = true → ∀ i, x.Covers i →
      ∃ a ∈ takenItems items, a.Covers i ∧ Serves a x i := by
  constructor
  · intro hall x hx hr i hi
    obtain ⟨fate, hfate, hstrong, hhide⟩ := hall x hx i hi
    have hin : i < value.length := lt_of_lt_of_le hi.2 (h x hx).2
    obtain rfl := Option.some.inj ((fates_transformTrace h hin).symm.trans hfate)
    cases hfound : (takenItems items).find? fun a => a.Covers i with
    | none =>
      rw [fateAt, hfound] at hstrong
      exact absurd hstrong (not_le.mpr (strength_pos hr))
    | some a =>
      have hai : a.Covers i := by simpa using List.find?_some hfound
      have ha := List.mem_of_find?_eq_some hfound
      rw [fateAt_of_mem h ha hai] at hstrong hhide
      exact ⟨a, ha, hai, hstrong, fun hx => by simpa using hhide hx⟩
  · intro hall x hx i hi
    have hin : i < value.length := lt_of_lt_of_le hi.2 (h x hx).2
    refine ⟨_, fates_transformTrace h hin, ?_⟩
    by_cases hr : rewrites x.2 = true
    · obtain ⟨a, ha, hai, hstrong, hhide⟩ := hall x hx hr i hi
      rw [fateAt_of_mem h ha hai]
      exact ⟨hstrong, fun hx => by simpa using hhide hx⟩
    · have hallow : x.2 = .allow := by
        by_contra hne
        exact hr (by simp [rewrites, hne, hblock x hx])
      rw [hallow]
      exact ⟨Nat.zero_le _, fun h => (by cases h)⟩

/-! ### The item that leads -/

/-- The span stands at the start of the text, and is not empty. -/
def Item.opens (x : Item) : Bool := x.start == 0 && decide (0 < x.stop)

/-- The first item that is to rewrite a span at the start of the text. -/
def lead (items : List Item) : Option Item := items.find? fun x => rewrites x.2 && x.opens

theorem Item.opens_iff {x : Item} : x.opens = true ↔ x.start = 0 ∧ 0 < x.stop := by
  simp [Item.opens]

theorem filter_orderedInsert {x : Item} {xs : List Item} :
    (xs.orderedInsert (fun a b => a.1.start ≤ b.1.start) x).filter (fun a => a.start == 0) =
      (x :: xs).filter (fun a => a.start == 0) := by
  induction xs with
  | nil => rfl
  | cons y ys ih =>
    by_cases hle : x.1.start ≤ y.1.start
    · rw [List.orderedInsert_cons_of_le (fun a b : Item => a.1.start ≤ b.1.start) _ hle]
    · have hx : (x.start == 0) = false := by
        rw [beq_eq_false_iff_ne]
        simp only [Item.start]
        omega
      rw [List.orderedInsert_of_not_le (fun a b : Item => a.1.start ≤ b.1.start) _ hle,
        List.filter_cons, ih]
      simp [List.filter_cons, hx]

/-- Sorting by start leaves the items at the start of the text in their order. -/
theorem filter_sortedItems :
    (sortedItems items).filter (fun a => a.start == 0) =
      (items.filter fun a => rewrites a.2).filter fun a => a.start == 0 := by
  rw [sortedItems]
  induction items.filter fun a => rewrites a.2 with
  | nil => rfl
  | cons x xs ih =>
    rw [List.insertionSort_cons, filter_orderedInsert, List.filter_cons, List.filter_cons, ih]

theorem find?_sortedItems : (sortedItems items).find? Item.opens = lead items := by
  have hstart : ∀ xs : List Item, xs.find? Item.opens =
      (xs.filter fun a => a.start == 0).find? Item.opens := by
    intro xs
    rw [List.find?_filter]
    congr 1
    funext x
    rw [Bool.eq_iff_iff]
    simp [Item.opens_iff]
  rw [hstart, filter_sortedItems, ← hstart, List.find?_filter, lead]
  simp

/-- The first span at the start is taken. -/
theorem find?_mem_acceptFrom {xs : List Item} (hsorted : xs.Pairwise fun a b => a.start ≤ b.start)
    {a : Item} (h : xs.find? Item.opens = some a) :
    a ∈ Select.acceptFrom Item.start Item.stop 0 xs := by
  induction xs with
  | nil => cases h
  | cons x xs ih =>
    obtain ⟨hx, hsorted⟩ := List.pairwise_cons.mp hsorted
    rw [Select.acceptFrom, if_neg (Nat.not_lt_zero _)]
    by_cases hlead : x.opens = true
    · rw [List.find?_cons_of_pos hlead] at h
      rw [Option.some.inj h]
      exact List.mem_cons_self
    · rw [List.find?_cons_of_neg hlead] at h
      -- a span in front of the first one is empty, and leaves the cursor where it is
      have hstart : a.start = 0 := (Item.opens_iff.mp (List.find?_some h)).1
      have hle := hx a (List.mem_of_find?_eq_some h)
      have hzero : x.stop = 0 := by
        rw [Item.opens_iff] at hlead
        omega
      rw [hzero]
      exact List.mem_cons_of_mem x (ih hsorted h)

theorem lead_mem_takenItems {a : Item} (h : lead items = some a) : a ∈ takenItems items := by
  rw [← find?_sortedItems] at h
  exact find?_mem_acceptFrom (pairwise_sortedItems items) h

/-! ### Layers -/

/-- Parts of a text that do not overlap, and spans that are all of it. -/
def Layered (items : List Item) (length : ℕ) : Prop :=
  InRange items length ∧
    items.Pairwise fun a b => a.Whole length ∨ b.Whole length ∨ a.stop ≤ b.start

/-- What goes first at the start of the text serves the items it keeps out: when it
is the whole text all of them; else the parts together serve the whole ones. -/
def LeadServes (serves : Item → Item → ℕ → Prop) (items : List Item) (length : ℕ) : Prop :=
  match lead items with
  | none => True
  | some a =>
    if a.stop = length then ∀ x ∈ items, rewrites x.2 = true → ∀ i, x.Covers i → serves a x i
    else ∀ w ∈ items, rewrites w.2 = true → w.Whole length → ∀ i < length,
      ∃ b ∈ items, rewrites b.2 = true ∧ ¬b.Whole length ∧ b.Covers i ∧ serves b w i

variable {length : ℕ} {serves : Item → Item → ℕ → Prop}

/-- Two parts that share a character are the same. -/
theorem Layered.eq_of_covers (h : Layered items length) {a b : Item} (ha : a ∈ items)
    (hb : b ∈ items) (hna : ¬a.Whole length) (hnb : ¬b.Whole length) {i : ℕ} (hai : a.Covers i)
    (hbi : b.Covers i) : a = b := by
  by_contra hne
  have : Std.Symm fun a b : Item =>
      a.Whole length ∨ b.Whole length ∨ a.stop ≤ b.start ∨ b.stop ≤ a.start :=
    ⟨fun a b h => by tauto⟩
  have hapart : items.Pairwise fun a b : Item =>
      a.Whole length ∨ b.Whole length ∨ a.stop ≤ b.start ∨ b.stop ≤ a.start :=
    h.2.imp fun h => by tauto
  obtain ⟨hai, hai'⟩ := hai
  obtain ⟨hbi, hbi'⟩ := hbi
  rcases hapart.forall ha hb hne with h | h | h | h
  · exact hna h
  · exact hnb h
  · omega
  · omega

/-- A part is taken unless a whole span is. -/
theorem Layered.mem_takenItems (h : Layered items length) {x : Item} (hx : x ∈ items)
    (hr : rewrites x.2 = true) {i : ℕ} (hi : x.Covers i) (hpart : ¬x.Whole length)
    (hparts : ∀ a ∈ takenItems items, a.Covers x.start → ¬a.Whole length) :
    x ∈ takenItems items := by
  rcases takenItems_covers hx hr with htaken | ⟨a, ha, hstart, hstop⟩
  · exact htaken
  · have hax : a.Covers x.start := ⟨hstart, hstop⟩
    have hxx : x.Covers x.start := ⟨le_rfl, lt_of_le_of_lt hi.1 hi.2⟩
    rw [h.eq_of_covers hx (mem_of_mem_takenItems ha).1 hpart (hparts a ha hax) hxx hax]
    exact ha

/-- Without a lead every span that is to be rewritten is a part. -/
theorem not_whole_of_lead_none (hlead : lead items = none) {x : Item} (hx : x ∈ items)
    (hr : rewrites x.2 = true) {i : ℕ} (hi : x.Covers i) : ¬x.Whole length := by
  intro hwhole
  have hopens : x.opens = true := Item.opens_iff.mpr ⟨hwhole.1, lt_of_le_of_lt (Nat.zero_le i) hi.2⟩
  exact List.find?_eq_none.mp hlead x hx (by rw [hr, hopens]; rfl)

theorem opens_of_lead {a : Item} (hlead : lead items = some a) : a.start = 0 ∧ 0 < a.stop := by
  have hfound := List.find?_some hlead
  rw [Bool.and_eq_true] at hfound
  exact Item.opens_iff.mp hfound.2

/-- Beside a lead that is a part no whole span is taken: both would cover the first
character. -/
theorem Layered.not_whole_of_lead (h : Layered items length) {a : Item} (hlead : lead items = some a)
    (hpart : a.stop ≠ length) {b : Item} (hb : b ∈ takenItems items) {i : ℕ} (hi : b.Covers i) :
    ¬b.Whole length := by
  intro hwhole
  obtain ⟨hstart, hstop⟩ := opens_of_lead hlead
  have ha0 : a.Covers 0 := ⟨by rw [hstart], hstop⟩
  have hb0 : b.Covers 0 := ⟨by rw [hwhole.1], lt_of_le_of_lt (Nat.zero_le i) hi.2⟩
  exact hpart (takenItems_unique h.1 (lead_mem_takenItems hlead) hb ha0 hb0 ▸ hwhole.2)

/-- Which items are served is decided by what goes first at the start of the text. -/
theorem Layered.served_iff (h : Layered items length) (hself : ∀ a i, serves a a i) :
    (∀ x ∈ items, rewrites x.2 = true → ∀ i, x.Covers i →
      ∃ a ∈ takenItems items, a.Covers i ∧ serves a x i) ↔ LeadServes serves items length := by
  rw [LeadServes]
  cases hlead : lead items with
  | none =>
    refine iff_of_true (fun x hx hr i hi => ⟨x, ?_, hi, hself x i⟩) trivial
    exact h.mem_takenItems hx hr hi (not_whole_of_lead_none hlead hx hr hi) fun a ha hax =>
      not_whole_of_lead_none hlead (mem_of_mem_takenItems ha).1 (mem_of_mem_takenItems ha).2 hax
  | some a =>
    have ha := lead_mem_takenItems hlead
    have hopens := opens_of_lead hlead
    simp only
    split_ifs with hwhole
    · have hcovers : ∀ x ∈ items, ∀ i, x.Covers i → a.Covers i := by
        intro x hx i hi
        exact ⟨by rw [hopens.1]; omega, by rw [hwhole]; exact lt_of_lt_of_le hi.2 (h.1 x hx).2⟩
      constructor
      · intro hall x hx hr i hi
        obtain ⟨b, hb, hbi, hs⟩ := hall x hx hr i hi
        rwa [takenItems_unique h.1 ha hb (hcovers x hx i hi) hbi]
      · intro hall x hx hr i hi
        exact ⟨a, ha, hcovers x hx i hi, hall x hx hr i hi⟩
    · constructor
      · intro hall w hw hr hwhole' i hi
        obtain ⟨b, hb, hbi, hs⟩ := hall w hw hr i ⟨by rw [hwhole'.1]; omega, by rwa [hwhole'.2]⟩
        obtain ⟨hmem, hbr⟩ := mem_of_mem_takenItems hb
        exact ⟨b, hmem, hbr, h.not_whole_of_lead hlead hwhole hb hbi, hbi, hs⟩
      · intro hall x hx hr i hi
        by_cases hxwhole : x.Whole length
        · obtain ⟨b, hb, hbr, hpart, hbi, hs⟩ := hall x hx hr hxwhole i (by rw [← hxwhole.2]; exact hi.2)
          exact ⟨b, h.mem_takenItems hb hbr hbi hpart fun c hc hci =>
            h.not_whole_of_lead hlead hwhole hc hci, hbi, hs⟩
        · exact ⟨x, h.mem_takenItems hx hr hi hxwhole fun c hc hci =>
            h.not_whole_of_lead hlead hwhole hc hci, hi, hself x i⟩

/-- The character is replaced: by the lead, if that is the whole text, else by a part. -/
def Reached (items : List Item) (length i : ℕ) : Prop :=
  match lead items with
  | none => ∃ b ∈ items, rewrites b.2 = true ∧ b.Covers i
  | some a =>
    if a.stop = length then i < length
    else ∃ b ∈ items, rewrites b.2 = true ∧ ¬b.Whole length ∧ b.Covers i

theorem Layered.reached_iff (h : Layered items length) (i : ℕ) :
    (∃ a ∈ takenItems items, a.Covers i) ↔ Reached items length i := by
  rw [Reached]
  cases hlead : lead items with
  | none =>
    constructor
    · rintro ⟨a, ha, hai⟩
      exact ⟨a, (mem_of_mem_takenItems ha).1, (mem_of_mem_takenItems ha).2, hai⟩
    · rintro ⟨b, hb, hr, hbi⟩
      exact ⟨b, h.mem_takenItems hb hr hbi (not_whole_of_lead_none hlead hb hr hbi) fun a ha hax =>
        not_whole_of_lead_none hlead (mem_of_mem_takenItems ha).1 (mem_of_mem_takenItems ha).2 hax, hbi⟩
  | some a =>
    have ha := lead_mem_takenItems hlead
    have hopens := opens_of_lead hlead
    simp only
    split_ifs with hwhole
    · constructor
      · rintro ⟨b, hb, hbi⟩
        exact lt_of_lt_of_le hbi.2 (h.1 b (mem_of_mem_takenItems hb).1).2
      · exact fun hi => ⟨a, ha, by rw [hopens.1]; omega, by rwa [hwhole]⟩
    · constructor
      · rintro ⟨b, hb, hbi⟩
        obtain ⟨hmem, hbr⟩ := mem_of_mem_takenItems hb
        exact ⟨b, hmem, hbr, h.not_whole_of_lead hlead hwhole hb hbi, hbi⟩
      · rintro ⟨b, hb, hbr, hpart, hbi⟩
        exact ⟨b, h.mem_takenItems hb hbr hbi hpart fun c hc hci =>
          h.not_whole_of_lead hlead hwhole hc hci, hbi⟩

/-- Where no span is the whole text, nothing is kept out. -/
theorem leadServes_of_parts (h : ∀ x ∈ items, ¬x.Whole length) : LeadServes serves items length := by
  rw [LeadServes]
  split
  · trivial
  · next a ha =>
    rw [if_neg fun hstop => h a (List.mem_of_find?_eq_some ha) ⟨(opens_of_lead ha).1, hstop⟩]
    exact fun w hw _ hwhole => absurd hwhole (h w hw)

theorem reached_of_parts (h : ∀ x ∈ items, ¬x.Whole length) {x : Item} (hx : x ∈ items)
    (hr : rewrites x.2 = true) {i : ℕ} (hi : x.Covers i) : Reached items length i := by
  rw [Reached]
  split
  · exact ⟨x, hx, hr, hi⟩
  · next a ha =>
    rw [if_neg fun hstop => h a (List.mem_of_find?_eq_some ha) ⟨(opens_of_lead ha).1, hstop⟩]
    exact ⟨x, hx, hr, h x hx, hi⟩

theorem serves_self (a : Item) (i : ℕ) : Serves a a i := by
  refine ⟨le_rfl, fun hhide hshows => ?_⟩
  rw [hshows.1] at hhide
  cases hhide

/-- The detections of a leaf, decided by their types. -/
def leafItems (nfkc : Nfkc) (decodeAndRescan : Bool) (entry : Entry) (rules : List Rule)
    (ctx : Context) (act : JsString → Action) : List Item :=
  (detectEntry nfkc decodeAndRescan entry rules ctx).map fun d => (d, act d.type)

/-- The decoding pass reports the whole leaf. -/
theorem whole_of_mem_decoded {decodeAndRescan : Bool} {entry : Entry} {rules : List Rule}
    {ctx : Context} {d : Detection}
    (h : d ∈ if decodeAndRescan then decodeAndRescanEntry entry rules ctx else []) :
    d.start = 0 ∧ d.stop = entry.value.length := by
  split_ifs at h
  · rw [decodeAndRescanEntry] at h
    split_ifs at h
    · cases h
    · split at h
      · cases h
      · obtain ⟨r, -, -, -, -, rfl⟩ := of_mem_wholeLeafFrom h
        exact ⟨rfl, rfl⟩
  · cases h

/-- One scan reports parts that do not overlap, or the whole leaf. -/
theorem layered_detectEntry (nfkc : Nfkc) (decodeAndRescan : Bool) (entry : Entry)
    (rules : List Rule) (ctx : Context) (decide : Detection → Action) :
    Layered ((detectEntry nfkc decodeAndRescan entry rules ctx).map fun d => (d, decide d))
      entry.value.length := by
  have hscan := exact_scanEntry nfkc entry rules ctx
  rw [detectEntry]
  constructor
  · intro x hx
    obtain ⟨d, hd, rfl⟩ := List.mem_map.mp hx
    rcases List.mem_append.mp hd with hd | hd
    · exact hscan.1 d hd
    · have := whole_of_mem_decoded hd
      simp only [Item.start, Item.stop]
      omega
  · rw [List.pairwise_map, List.pairwise_append]
    refine ⟨?_, ?_, fun a _ d hd => .inr (.inl (whole_of_mem_decoded hd))⟩
    · rcases hscan.2 with hparts | hwhole
      · exact hparts.imp fun h => .inr (.inr h)
      · exact List.pairwise_of_forall_mem_list fun a ha b _ => .inl (hwhole a ha)
    · exact List.pairwise_of_forall_mem_list fun a ha b _ => .inl (whole_of_mem_decoded ha)

/-- Overlapping detections of a leaf are all honoured exactly when the one that goes
first at its start serves the others. -/
theorem honoured_iff_leadServes (p : Replacer) (nfkc : Nfkc) (decodeAndRescan : Bool) (entry : Entry)
    (rules : List Rule) (ctx : Context) (act : JsString → Action) (hact : ∀ type, act type ≠ .block) :
    Honoured p entry.value (leafItems nfkc decodeAndRescan entry rules ctx act) ↔
      LeadServes Serves (leafItems nfkc decodeAndRescan entry rules ctx act) entry.value.length := by
  have hlayered : Layered (leafItems nfkc decodeAndRescan entry rules ctx act) entry.value.length :=
    layered_detectEntry nfkc decodeAndRescan entry rules ctx fun d => act d.type
  rw [honoured_iff_takenItems hlayered.1]
  · exact hlayered.served_iff serves_self
  · intro x hx
    obtain ⟨d, -, rfl⟩ := List.mem_map.mp hx
    exact hact d.type

/-- A text under the field `note` of a request. -/
def noteEntry (text : JsString) : Entry := ⟨[.key (js "note")], js "key_note", text, .value⟩

def requestContext : Context := ⟨some .request, false⟩

/-- A replacer without a vault. -/
def plainReplacer : Replacer := ⟨id, none, fun _ _ => []⟩

theorem honoured_address :
    (leafItems .plain true (noteEntry (js "bob@example.com is here")) defaultRules requestContext
        fun _ => .redact).map (fun x => (x.1.type, x.start, x.stop)) = [(js "email", 0, 15)] ∧
      Honoured plainReplacer (js "bob@example.com is here")
        (leafItems .plain true (noteEntry (js "bob@example.com is here")) defaultRules requestContext
          fun _ => .redact) := by
  refine ⟨by decide +kernel, ?_⟩
  refine (honoured_iff_leadServes plainReplacer .plain true (noteEntry (js "bob@example.com is here"))
    defaultRules requestContext (fun _ => .redact) (fun _ => by decide)).mpr ?_
  exact leadServes_of_parts (by decide +kernel)

/-- An address, and a card number whose digits are percent-encoded. -/
def addressWithCard : JsString :=
  js "bob@example.com %34%32%34%32%34%32%34%32%34%32%34%32%34%32%34%32"

/-- The detections of a note of this text. -/
def noteDetection (type ruleId value : JsString) (stop : ℕ) (confidence : ℚ) : Detection :=
  ⟨type, ruleId, [.key (js "note")], js "key_note", .value, 0, stop, some confidence, value⟩

theorem leafItems_addressWithCard :
    leafItems .plain true (noteEntry addressWithCard) defaultRules requestContext (fun _ => .redact) =
      [(noteDetection (js "email") (js "email") (js "bob@example.com") 15 (19 / 20), .redact),
        (noteDetection (js "card") (js "card-like") addressWithCard 64 (3 / 4), .redact)] := by
  decide +kernel

/-- The card is found in the decoded text and reported for the whole leaf. The address
goes first, so the rest of the leaf stays as it was. -/
theorem card_left_in_clear :
    (leafItems .plain true (noteEntry addressWithCard) defaultRules requestContext
        fun _ => .redact).map (fun x => (x.1.type, x.start, x.stop)) =
      [(js "email", 0, 15), (js "card", 0, 64)] ∧
      transformString plainReplacer addressWithCard (leafItems .plain true (noteEntry addressWithCard)
        defaultRules requestContext fun _ => .redact) =
          js "[REDACTED:email] %34%32%34%32%34%32%34%32%34%32%34%32%34%32%34%32" ∧
      ¬Honoured plainReplacer addressWithCard (leafItems .plain true (noteEntry addressWithCard)
        defaultRules requestContext fun _ => .redact) := by
  rw [leafItems_addressWithCard]
  refine ⟨rfl, by decide +kernel, fun h => ?_⟩
  -- the card covers the whole leaf, and its digits behind the address are not hidden
  obtain ⟨fate, hfate, -, hhide⟩ := h _ (List.mem_cons_of_mem _ List.mem_cons_self) 20 (by decide)
  rw [show (fates (transformTrace plainReplacer addressWithCard
      [(noteDetection (js "email") (js "email") (js "bob@example.com") 15 (19 / 20), .redact),
        (noteDetection (js "card") (js "card-like") addressWithCard 64 (3 / 4), .redact)]))[20]? =
      some (.allow, false) by decide +kernel] at hfate
  rw [← Option.some.inj hfate] at hhide
  cases hhide rfl

end Haechi.Core
