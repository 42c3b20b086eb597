import Haechi.Core.Protect

/-! The walk of `transformString` over the spans of one scan. What `removeOverlaps` keeps is
sorted and apart, and of what it leaves out every span overlaps one that it kept. Proved of
the walk: where a leaf is scanned at its own offsets, each span it comes to begins at the
cursor or after it and ends in the text, so that it passes over none. -/

namespace Haechi.Core

open Text Haechi.Filter

/-! ### What is kept -/

/-- The detections at these positions are kept: they are apart and in order, and each of the
others overlaps one of them. -/
structure Keeps (ds : List Detection) (kept : List (Fin ds.length)) : Prop where
  nodup : kept.Nodup
  sorted : (kept.map ds.get).Pairwise fun a b => a.start ≤ b.start
  apart : (kept.map ds.get).Pairwise fun a b =>
    a.stop ≤ b.start ∧ ¬Select.Overlaps Detection.start Detection.stop a b
  covers : ∀ i, i ∉ kept → ∃ j ∈ kept,
    Select.Overlaps Detection.start Detection.stop (ds.get j) (ds.get i)

theorem keeps_chosen {ds : List Detection} (h : ∀ d ∈ ds, d.start ≤ d.stop) :
    Keeps ds (Select.chosen Detection.start Detection.stop ds) where
  nodup := Select.nodup_chosen ds
  sorted := by
    rw [Select.map_chosen]
    exact (Select.pairwise_precedes_select ds).imp Select.Precedes.start_le
  apart := by
    rw [Select.map_chosen]
    exact (Select.pairwise_select h).and (Select.pairwise_not_overlaps_select h)
  covers := by
    intro i hi
    rcases Select.chosen_covers ds i with hchosen | ⟨j, hj, hin⟩
    · exact absurd hchosen hi
    · exact ⟨j, hj, .inl hin⟩

/-! ### The walk -/

/-- Each span begins at the cursor or after it and ends in the text, and moves the cursor
to its end. -/
def Clear (length : ℕ) : ℕ → List Item → Prop
  | _, [] => True
  | cursor, item :: rest =>
    cursor ≤ item.start ∧ item.start ≤ item.stop ∧ item.stop ≤ length ∧ Clear length item.stop rest

theorem clear_of_pairwise {length cursor : ℕ} {items : List Item}
    (hrange : ∀ item ∈ items, item.start ≤ item.stop ∧ item.stop ≤ length)
    (hcursor : ∀ item ∈ items, cursor ≤ item.start)
    (hapart : items.Pairwise fun a b => a.stop ≤ b.start) : Clear length cursor items := by
  induction items generalizing cursor with
  | nil => trivial
  | cons item rest ih =>
    obtain ⟨hfirst, hrest⟩ := List.pairwise_cons.mp hapart
    obtain ⟨hle, hstop⟩ := hrange item List.mem_cons_self
    refine ⟨hcursor item List.mem_cons_self, hle, hstop, ?_⟩
    exact ih (fun x hx => hrange x (List.mem_cons_of_mem item hx)) hfirst hrest

/-- A clear walk passes over no span. -/
theorem Clear.acceptFrom_eq {length cursor : ℕ} {items : List Item}
    (h : Clear length cursor items) : Select.acceptFrom Item.start Item.stop cursor items = items := by
  induction items generalizing cursor with
  | nil => rfl
  | cons item rest ih =>
    obtain ⟨hcursor, -, -, hrest⟩ := h
    rw [Select.acceptFrom, if_neg (Nat.not_lt.mpr hcursor), ih hrest]

/-- Spans that are in order stay so under the sort. -/
theorem clear_sortedItems {length : ℕ} {items : List Item}
    (hrange : ∀ item ∈ items, item.start ≤ item.stop ∧ item.stop ≤ length)
    (hapart : items.Pairwise fun a b => a.stop ≤ b.start) :
    sortedItems items = (items.filter fun item => rewrites item.2) ∧
      Clear length 0 (sortedItems items) := by
  have hsub : (items.filter fun item => rewrites item.2).Sublist items := List.filter_sublist
  have hsorted : (items.filter fun item => rewrites item.2).Pairwise
      fun a b => a.1.start ≤ b.1.start := by
    apply (hapart.sublist hsub).imp_of_mem
    intro a b ha _ hab
    exact (hrange a (hsub.mem ha)).1.trans hab
  have heq : sortedItems items = items.filter fun item => rewrites item.2 :=
    hsorted.insertionSort_eq
  rw [heq]
  refine ⟨rfl, clear_of_pairwise (fun x hx => hrange x (hsub.mem hx)) (fun _ _ => Nat.zero_le _) ?_⟩
  exact hapart.sublist hsub

namespace Setup

variable (c : Setup)

/-- The leaf is scanned at its own offsets, and nothing is found in what it decodes to. -/
def ScansExactly (e : Entry) : Prop :=
  isAligned c.engine.nfkc e.value = true ∧
    (c.engine.decodeAndRescan = true → decodeAndRescanEntry e c.engine.rules c.context = [])

instance (e : Entry) : Decidable (c.ScansExactly e) := inferInstanceAs (Decidable (_ ∧ _))

end Setup

variable {c : Setup} {e : Entry}

theorem detectEntry_of_scansExactly (h : c.ScansExactly e) :
    detectEntry c.engine.nfkc c.engine.decodeAndRescan e c.engine.rules c.context =
      scanEntry c.engine.nfkc e c.engine.rules c.context := by
  rw [detectEntry]
  split_ifs with hdecode
  · rw [h.2 hdecode, List.append_nil]
  · rw [List.append_nil]

theorem pairwise_scanEntry (h : isAligned c.engine.nfkc e.value = true) :
    (scanEntry c.engine.nfkc e c.engine.rules c.context).Pairwise fun a b => a.stop ≤ b.start := by
  simp only [scanEntry, if_pos h]
  split_ifs
  · exact List.Pairwise.nil
  · exact removeOverlaps_pairwise fun d hd => (scanForDetections_inRange hd).1

theorem itemsOf_apart (h : c.ScansExactly e) :
    (∀ item ∈ c.itemsOf e, item.start ≤ item.stop ∧ item.stop ≤ e.value.length) ∧
      (c.itemsOf e).Pairwise fun a b => a.stop ≤ b.start := by
  rw [Setup.itemsOf, Setup.decideAll, detectEntry_of_scansExactly h]
  constructor
  · intro item hitem
    obtain ⟨d, hd, rfl⟩ := List.mem_map.mp hitem
    exact (exact_scanEntry c.engine.nfkc e c.engine.rules c.context).1 d (List.mem_filter.mp hd).1
  · exact List.pairwise_map.mpr ((pairwise_scanEntry h.1).sublist List.filter_sublist)

/-- What `removeOverlaps` keeps, and what the walk then sees. -/
theorem removeOverlaps_keeps :
    (∀ ds : List Detection, (∀ d ∈ ds, d.start ≤ d.stop) →
      ∃ kept, kept.map ds.get = removeOverlaps ds ∧ Keeps ds kept) ∧
      ∀ (c : Setup) (e : Entry), c.ScansExactly e →
        Clear e.value.length 0 (sortedItems (c.itemsOf e)) ∧
          takenItems (c.itemsOf e) = sortedItems (c.itemsOf e) := by
  constructor
  · intro ds h
    exact ⟨Select.chosen Detection.start Detection.stop ds, Select.map_chosen ds, keeps_chosen h⟩
  · intro c e h
    obtain ⟨hrange, hapart⟩ := itemsOf_apart h
    have hclear := (clear_sortedItems hrange hapart).2
    exact ⟨hclear, hclear.acceptFrom_eq⟩

/-- An empty match at the start of an address, the address, and an empty match in it. -/
def tied : List Detection :=
  [(0, 0), (0, 15), (3, 3)].map fun span =>
    (redactingRequests.entryOf [.key (js "note")] (js "bob@example.com is here") .value).detection
      emailRule ⟨span.1, span.2⟩ (slice (js "bob@example.com is here") span.1 span.2)

theorem removeOverlaps_keeps_address :
    (∃ kept, kept.map tied.get = removeOverlaps tied ∧ Keeps tied kept) ∧
      Clear 23 0 (sortedItems (redactingRequests.itemsOf
        (redactingRequests.entryOf [.key (js "note")] (js "bob@example.com is here") .value))) := by
  have hscans : redactingRequests.ScansExactly
      (redactingRequests.entryOf [.key (js "note")] (js "bob@example.com is here") .value) := by
    decide +kernel
  constructor
  · exact removeOverlaps_keeps.1 tied (by simp [tied, Entry.detection])
  · exact (removeOverlaps_keeps.2 redactingRequests _ hscans).1

end Haechi.Core
