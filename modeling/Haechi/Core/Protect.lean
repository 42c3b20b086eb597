import Haechi.Core.Rewrite
import Haechi.Core.Overlaps

/-! `protectJson` on a whole payload. Its detections come in one group for each
text of the payload, so the value phase and the key phase do what the groups ask
for, each once. Proved: the payload that comes back is the rewriting by all
detections, every span of them replaced, exactly when the root is no leaf that
would be assigned to and no detection of a decoded text is passed over. -/

namespace Haechi.Core

open Text Haechi.Filter JsValue

variable {ν : Type} [JsNumber ν] {c : Setup} {p q : JsValue ν} {es : List Entry}

/-! ### Items of a payload -/

theorem items_eq (c : Setup) (es : List Entry) :
    c.decideAll (applyPrecisionControls (c.engine.detect es c.context) c.minConfidence
      (compileAllowlist c.allowlist)).detections = es.flatMap c.itemsOf := by
  rw [applyPrecisionControls_detections, Engine.detect, Filter.detect]
  induction es with
  | nil => rfl
  | cons e es ih =>
    rw [List.flatMap_cons, List.filter_append, List.flatMap_cons, ← ih]
    simp [Setup.decideAll, Setup.itemsOf]

theorem of_mem_itemsOf {e : Entry} {item : Item} (h : item ∈ c.itemsOf e) :
    item.1.kind = e.kind ∧ item.1.path = e.path := by
  obtain ⟨d, hd, rfl⟩ := List.mem_map.mp h
  have hd := (List.mem_filter.mp hd).1
  rw [detectEntry] at hd
  rcases List.mem_append.mp hd with hd | hd
  · obtain ⟨hpath, -, hkind⟩ := scanEntry_entry hd
    exact ⟨hkind, hpath⟩
  · split_ifs at hd
    · rw [decodeAndRescanEntry] at hd
      split_ifs at hd
      · cases hd
      · split at hd
        · cases hd
        · obtain ⟨r, -, -, -, -, rfl⟩ := of_mem_wholeLeafFrom hd
          exact ⟨rfl, rfl⟩
    · cases hd

theorem layered_itemsOf (c : Setup) (e : Entry) : Layered (c.itemsOf e) e.value.length := by
  obtain ⟨hrange, happart⟩ := layered_detectEntry c.engine.nfkc c.engine.decodeAndRescan e
    c.engine.rules c.context c.decide
  have hsub : (c.itemsOf e).Sublist ((detectEntry c.engine.nfkc c.engine.decodeAndRescan e
      c.engine.rules c.context).map fun d => (d, c.decide d)) :=
    List.Sublist.map _ List.filter_sublist
  exact ⟨fun x hx => hrange x (hsub.mem hx), happart.sublist hsub⟩

/-- The spans of an entry are replaced exactly when none of a decoded text is passed
over. -/
theorem replacesExactly_iff {e : Entry} (hblock : ∀ item ∈ c.itemsOf e, item.2 ≠ .block) :
    c.ReplacesExactly e ↔
      LeadServes (fun _ _ _ => True) (c.itemsOf e) e.value.length := by
  have hlayered := layered_itemsOf c e
  rw [← hlayered.served_iff fun _ _ => trivial, Setup.ReplacesExactly]
  obtain ⟨hsource, hmarks⟩ := marks_transformPieces (p := c.replacer) hlayered.1
  have hrewrites : ∀ item ∈ c.itemsOf e, rewrites item.2 = true ↔ item.2 ≠ .allow := by
    intro item hitem
    simp [rewrites, hblock item hitem]
  constructor
  · rintro ⟨-, hall⟩ x hx hr i hi
    have hmark := (hall i).mpr ⟨x, hx, (hrewrites x hx).mp hr, hi⟩
    obtain ⟨a, ha, hai⟩ := (hmarks i).mp hmark
    exact ⟨a, ha, hai, trivial⟩
  · intro hall
    refine ⟨hsource, fun i => (hmarks i).trans ⟨?_, ?_⟩⟩
    · rintro ⟨a, ha, hai⟩
      obtain ⟨hmem, hr⟩ := mem_of_mem_takenItems ha
      exact ⟨a, hmem, (hrewrites a hmem).mp hr, hai⟩
    · rintro ⟨x, hx, hallow, hi⟩
      obtain ⟨a, ha, hai, -⟩ := hall x hx ((hrewrites x hx).mpr hallow) i hi
      exact ⟨a, ha, hai⟩

/-! ### A text that is not changed -/

theorem mem_transformFrom {r : Replacer} {value : JsString} {cursor : ℕ} {items : List Item}
    {a : Item} (ha : a ∈ Select.acceptFrom Item.start Item.stop cursor items) {u : UInt16}
    (hu : u ∈ replacementFor r (slice value a.start a.stop) a.1 a.2) :
    u ∈ transformFrom r value cursor items := by
  induction items generalizing cursor with
  | nil => cases ha
  | cons x items ih =>
    obtain ⟨d, act⟩ := x
    rw [Select.acceptFrom] at ha
    rw [transformFrom]
    by_cases hlt : d.start < cursor
    · rw [if_pos (show Item.start (d, act) < cursor from hlt)] at ha
      rw [if_pos hlt]
      exact ih ha
    · rw [if_neg (show ¬Item.start (d, act) < cursor from hlt)] at ha
      rw [if_neg hlt, List.mem_append, List.mem_append]
      rcases List.mem_cons.mp ha with rfl | ha
      · exact .inl (.inr hu)
      · exact .inr (ih ha)

/-- A replacement holds a bracket or a star, unless it masks nothing. -/
theorem exists_mem_replacementFor {r : Replacer} {segment : JsString} {d : Detection} {a : Action}
    (hr : rewrites a = true) (h : ¬(a = .mask ∧ segment = [])) :
    ∃ u ∈ replacementFor r segment d a, u = 91 ∨ u = 42 := by
  cases a with
  | allow => cases hr
  | block => cases hr
  | redact => exact ⟨91, by simp [replacementFor, marker], .inl rfl⟩
  | encrypt => exact ⟨91, by simp [replacementFor, marker], .inl rfl⟩
  | tokenize =>
    refine ⟨91, ?_, .inl rfl⟩
    rw [replacementFor]
    split <;> simp [marker]
  | mask =>
    have hne : segment ≠ [] := fun hnil => h ⟨rfl, hnil⟩
    refine ⟨42, ?_, .inr rfl⟩
    rw [replacementFor, maskSensitive]
    split_ifs
    · simpa using hne
    · simp

/-- The item masks an empty span. -/
def Item.masksNothing (x : Item) : Prop := x.2 = .mask ∧ x.stop = x.start

theorem transformString_of_masksNothing {r : Replacer} {value : JsString} {items : List Item}
    (h : ∀ x ∈ items, rewrites x.2 = true → x.masksNothing) : transformString r value items = value := by
  have run : ∀ (cursor : ℕ) (xs : List Item), (∀ x ∈ xs, x.masksNothing) →
      transformFrom r value cursor xs = value.drop cursor := by
    intro cursor xs hxs
    induction xs generalizing cursor with
    | nil => rfl
    | cons x xs ih =>
      obtain ⟨d, a⟩ := x
      obtain ⟨⟨hmask, hempty⟩, hrest⟩ := List.forall_mem_cons.mp hxs
      simp only [Item.stop, Item.start] at hmask hempty
      subst hmask
      rw [transformFrom]
      split_ifs with hlt
      · exact ih cursor hrest
      · have hsplit := List.take_append_drop (d.start - cursor) (value.drop cursor)
        rw [ih _ hrest, hempty, slice_self_start, replacementFor, maskSensitive]
        rw [List.drop_drop, show cursor + (d.start - cursor) = d.start by omega, List.take_drop,
          show cursor + (d.start - cursor) = d.start by omega] at hsplit
        simpa [slice] using hsplit
  exact run 0 _ fun x hx => h x (mem_sortedItems.mp hx).1 (mem_sortedItems.mp hx).2

/-- A number keeps its text exactly when every detection that is to rewrite it masks
an empty span. -/
theorem transformString_number_iff {r : Replacer} {x : ν} {items : List Item}
    (h : InRange items (JsNumber.toText x).length) :
    transformString r (JsNumber.toText x) items = JsNumber.toText x ↔
      ∀ item ∈ items, rewrites item.2 = true → item.masksNothing := by
  refine ⟨fun heq => ?_, transformString_of_masksNothing⟩
  have htaken : ∀ a ∈ takenItems items, a.masksNothing := by
    intro a ha
    obtain ⟨hmem, hr⟩ := mem_of_mem_takenItems ha
    by_contra hnot
    have hsegment : ¬(a.2 = .mask ∧ slice (JsNumber.toText x) a.start a.stop = []) := by
      rintro ⟨hmask, hnil⟩
      have hlen := congrArg List.length hnil
      rw [length_slice (h a hmem).2, List.length_nil] at hlen
      have := (h a hmem).1
      exact hnot ⟨hmask, by omega⟩
    obtain ⟨u, hu, hmark⟩ := exists_mem_replacementFor (r := r) (d := a.1) hr hsegment
    have hmem' : u ∈ transformString r (JsNumber.toText x) items := mem_transformFrom ha hu
    rw [heq] at hmem'
    have hchar := List.all_eq_true.mp (all_of_isNumberToken (JsNumber.isNumberToken_toText x)) u hmem'
    rcases hmark with rfl | rfl
    · exact absurd hchar (by decide)
    · exact absurd hchar (by decide)
  intro item hitem hr
  rcases takenItems_covers hitem hr with ha | ⟨a, ha, hstart, hstop⟩
  · exact htaken item ha
  · have := (htaken a ha).2
    simp only [Item.stop, Item.start] at this
    omega

/-! ### Groups of a payload -/

theorem mem_entries (hes : c.entries p = some es) {e : Entry} :
    e ∈ es ↔ ∃ kind rel s, Holds p kind rel s ∧ e = c.entryOf rel s kind := by
  simpa [Setup.entryOf] using mem_collectStringEntries p hes (e := e)

theorem groupByPath_entries (hp : p.Distinct) (hes : c.entries p = some es) :
    groupByPath (es.flatMap c.itemsOf) = es.flatMap (entryGroup c.itemsOf) :=
  groupByPath_flatMap (fun _ _ _ => of_mem_itemsOf) (nodup_collectStringEntries p hp hes)

/-- The groups are those of the entries that have items. -/
theorem mem_groups {g : Group} : g ∈ es.flatMap (entryGroup c.itemsOf) ↔
    ∃ e ∈ es, c.itemsOf e ≠ [] ∧ g = ⟨e.kind, e.path, c.itemsOf e⟩ := by
  rw [List.mem_flatMap]
  refine exists_congr fun e => and_congr_right fun _ => ?_
  rw [entryGroup]
  split_ifs with h
  · simp [List.isEmpty_iff.mp h]
  · simpa [List.isEmpty_iff] using fun _ => h

theorem groupOf_of_mem (hes : c.entries p = some es) {g : Group}
    (hg : g ∈ es.flatMap (entryGroup c.itemsOf)) : ∃ s, GroupOf c p g s := by
  obtain ⟨e, he, -, rfl⟩ := mem_groups.mp hg
  obtain ⟨kind, rel, s, hs, rfl⟩ := (mem_entries hes).mp he
  exact ⟨s, hs, rfl⟩

theorem nodup_groups (hp : p.Distinct) (hes : c.entries p = some es) :
    ((es.flatMap (entryGroup c.itemsOf)).map fun g => (g.kind, g.path)).Nodup := by
  have hsub : ((es.flatMap (entryGroup c.itemsOf)).map fun g => (g.kind, g.path)).Sublist
      (es.map place?) := by
    clear hes
    induction es with
    | nil => exact List.Sublist.refl _
    | cons e es ih =>
      rw [List.flatMap_cons, List.map_append, List.map_cons, entryGroup]
      split_ifs
      · exact ih.cons _
      · exact ih.cons_cons _
  exact hsub.nodup (nodup_collectStringEntries p hp hes)

/-- A path leads to one value, so it has one value group. -/
theorem nodup_valueGroups (hp : p.Distinct) (hes : c.entries p = some es) :
    ((valueGroups (es.flatMap (entryGroup c.itemsOf))).map Group.path).Nodup := by
  refine List.Nodup.map_on ?_ ((nodup_groups hp hes).of_map.filter _)
  intro g hg g' hg' hpath
  obtain ⟨hmem, hkind⟩ := List.mem_filter.mp hg
  obtain ⟨hmem', hkind'⟩ := List.mem_filter.mp hg'
  obtain ⟨s, hs, -⟩ := groupOf_of_mem hes hmem
  obtain ⟨s', hs', -⟩ := groupOf_of_mem hes hmem'
  refine List.inj_on_of_nodup_map (nodup_groups hp hes) hmem hmem' ?_
  rw [bne_iff_ne] at hkind hkind'
  rw [← hpath] at hs'
  suffices g.kind = g'.kind by rw [this, hpath]
  generalize g.kind = k at *
  generalize g'.kind = k' at *
  cases k with
  | key => exact absurd rfl hkind
  | value =>
    cases k' with
    | key => exact absurd rfl hkind'
    | value => rfl
    | number =>
      obtain ⟨x, hx, -⟩ := hs'
      cases Leads.unique hp hs hx
  | number =>
    cases k' with
    | key => exact absurd rfl hkind'
    | number => rfl
    | value =>
      obtain ⟨x, hx, -⟩ := hs
      cases Leads.unique hp hs' hx

theorem mem_keyGroups {groups : List Group} {g : Group} :
    g ∈ keyGroups groups ↔ g ∈ groups ∧ g.kind = .key := by
  rw [keyGroups, List.mem_insertionSort, List.mem_filter, beq_iff_eq]

theorem nodup_keyGroups (hp : p.Distinct) (hes : c.entries p = some es) :
    ((keyGroups (es.flatMap (entryGroup c.itemsOf))).map Group.path).Nodup := by
  rw [keyGroups, ((List.perm_insertionSort _ _).map Group.path).nodup_iff]
  refine List.Nodup.map_on ?_ ((nodup_groups hp hes).of_map.filter _)
  intro g hg g' hg' hpath
  obtain ⟨hmem, hkind⟩ := List.mem_filter.mp hg
  obtain ⟨hmem', hkind'⟩ := List.mem_filter.mp hg'
  rw [beq_iff_eq] at hkind hkind'
  exact List.inj_on_of_nodup_map (nodup_groups hp hes) hmem hmem' (by rw [hkind, hkind', hpath])

theorem pairwise_keyGroups (groups : List Group) :
    (keyGroups groups).Pairwise fun a b => b.path.length ≤ a.path.length := by
  have : Std.Total fun a b : Group => b.path.length ≤ a.path.length := ⟨fun _ _ => Nat.le_total _ _⟩
  have : IsTrans Group fun a b => b.path.length ≤ a.path.length :=
    ⟨fun _ _ _ h h' => Nat.le_trans h' h⟩
  exact List.pairwise_insertionSort _ _

/-! ### The whole payload -/

/-- What the transformation of a payload does once its items are grouped. -/
def transformGroups (r : Replacer) (groups : List Group) (payload : JsValue ν) : Option (JsValue ν) := do
  let output ← (valueGroups groups).foldlM (rewriteValue r) payload
  return (keyGroups groups).foldl (rewriteKey r) output

/-- A payload that is no string and no number gets all its groups. -/
theorem transformGroups_related (hp : p.Distinct) (hes : c.entries p = some es)
    (hroot : ∀ g ∈ valueGroups (es.flatMap (entryGroup c.itemsOf)), g.path ≠ []) :
    ∃ q, transformGroups c.replacer (es.flatMap (entryGroup c.itemsOf)) p = some q ∧
      Related (LeafDone c {P | P ∈ (valueGroups (es.flatMap (entryGroup c.itemsOf))).map Group.path})
        (NamesDone c {P | P ∈ (keyGroups (es.flatMap (entryGroup c.itemsOf))).map Group.path}) [] p q := by
  have hvalues : ∀ g ∈ valueGroups (es.flatMap (entryGroup c.itemsOf)),
      (∃ s, GroupOf c p g s) ∧ g.kind ≠ .key ∧ g.path ≠ [] := by
    intro g hg
    obtain ⟨hmem, hkind⟩ := List.mem_filter.mp hg
    exact ⟨groupOf_of_mem hes hmem, bne_iff_ne.mp hkind, hroot g hg⟩
  obtain ⟨output, houtput, hrelated⟩ := foldlM_rewriteValue_related hp hvalues (nodup_valueGroups hp hes)
    (fun _ _ => Set.notMem_empty _) (related_self c p hp [])
  have hkeys : ∀ g ∈ keyGroups (es.flatMap (entryGroup c.itemsOf)),
      (∃ s, GroupOf c p g s) ∧ g.kind = .key := by
    intro g hg
    obtain ⟨hmem, hkind⟩ := mem_keyGroups.mp hg
    exact ⟨groupOf_of_mem hes hmem, hkind⟩
  have h := foldl_rewriteKey_related hp hkeys (nodup_keyGroups hp hes) (pairwise_keyGroups _)
    (fun _ _ => ⟨Set.notMem_empty _, fun _ hP => absurd hP (Set.notMem_empty _)⟩) hrelated
  rw [Set.empty_union, Set.empty_union] at h
  exact ⟨_, by rw [transformGroups, houtput]; rfl, h⟩

/-- A text without items is left as it is. -/
theorem rewritten_of_nil {path : Path} {s : JsString} {kind : Kind}
    (h : c.itemsOf (c.entryOf path s kind) = []) : c.rewritten path s kind = s := by
  rw [Setup.rewritten, h]
  rfl

/-- With all groups done the payload is rewritten. -/
theorem rewritten_of_related (hes : c.entries p = some es)
    (h : Related (LeafDone c {P | P ∈ (valueGroups (es.flatMap (entryGroup c.itemsOf))).map Group.path})
      (NamesDone c {P | P ∈ (keyGroups (es.flatMap (entryGroup c.itemsOf))).map Group.path}) [] p q) :
    c.Rewritten p q := by
  -- what the payload holds and no group is about has no items
  have hrest : ∀ kind rel s, Holds p kind rel s → c.itemsOf (c.entryOf rel s kind) ≠ [] →
      (⟨kind, rel, c.itemsOf (c.entryOf rel s kind)⟩ : Group) ∈ es.flatMap (entryGroup c.itemsOf) :=
    fun kind rel s hs hne => mem_groups.mpr ⟨_, (mem_entries hes).mpr ⟨kind, rel, s, hs, rfl⟩, hne, rfl⟩
  refine h.mono (fun ext v w hv hd => ?_) fun ext fields names hfields hkeys hn kk hkk => ?_
  · rw [List.nil_append] at hd ⊢
    by_cases hdone : ext ∈ (valueGroups (es.flatMap (entryGroup c.itemsOf))).map Group.path
    · exact hd.1 hdone
    · rw [hd.2 hdone]
      have hempty : ∀ kind s, kind ≠ .key → Holds p kind ext s → c.rewritten ext s kind = s := by
        intro kind s hkind hs
        refine rewritten_of_nil ?_
        by_contra hne
        have hg := hrest kind ext s hs hne
        exact hdone (List.mem_map.mpr ⟨_, List.mem_filter.mpr ⟨hg, bne_iff_ne.mpr hkind⟩, rfl⟩)
      cases v with
      | str s => rw [Setup.newLeaf, hempty .value s (by decide) hv]
      | num x => rw [Setup.newLeaf, if_pos (hempty .number _ (by decide) ⟨x, hv, rfl⟩)]
      | undef => rfl
      | null => rfl
      | bool => rfl
      | arr => rfl
      | obj => rfl
  · rw [List.nil_append] at hn ⊢
    obtain ⟨hdone, hnot⟩ := hn kk hkk
    by_cases hmem : ext ++ [.key kk.1] ∈
        (keyGroups (es.flatMap (entryGroup c.itemsOf))).map Group.path
    · exact hdone hmem
    · have hholds : Holds p .key (ext ++ [.key kk.1]) kk.1 :=
        ⟨ext, fields, rfl, hfields, hkeys ▸ List.mem_map_of_mem hkk⟩
      refine .inl ?_
      rw [hnot hmem, rewritten_of_nil]
      by_contra hne
      have hg := hrest .key _ _ hholds hne
      exact hmem (List.mem_map.mpr ⟨_, mem_keyGroups.mpr ⟨hg, rfl⟩, rfl⟩)

/-! ### Leaves at the root -/

namespace Setup

/-- The root is no string with a detection, and no number that changes: assigning to
the root throws, and a root string is assigned to whatever its actions are. -/
def RootSafe (c : Setup) : JsValue ν → Prop
  | .str s => c.itemsOf (c.entryOf [] s .value) = []
  | .num x => ∀ item ∈ c.itemsOf (c.entryOf [] (JsNumber.toText x) .number),
      rewrites item.2 = true → item.masksNothing
  | _ => True

end Setup

/-- The one group of a root leaf, if it has items. -/
theorem transformGroups_leaf {r : Replacer} {g : Group} (hkind : g.kind ≠ .key) (v : JsValue ν) :
    transformGroups r [g] v = rewriteValue r v g := by
  have hvalues : valueGroups [g] = [g] := by
    rw [valueGroups, List.filter_cons, if_pos (bne_iff_ne.mpr hkind), List.filter_nil]
  have hkeys : keyGroups [g] = [] := by
    rw [keyGroups, List.filter_cons, if_neg (by simpa using hkind), List.filter_nil]
    rfl
  rw [transformGroups, hvalues, hkeys]
  cases h : rewriteValue r v g <;> simp [h]

theorem rewriteValue_root_number {r : Replacer} {x : ν} {items : List Item} (q : JsValue ν) :
    rewriteValue r (.num x) ⟨.number, [], items⟩ = some q ↔
      transformString r (JsNumber.toText x) items = JsNumber.toText x ∧ .num x = q := by
  rw [rewriteValue, getByPath]
  simp only
  split_ifs with h
  · simp [h, setByPath]
  · rw [not_not] at h
    simp [h]

/-- At a root that is assigned to the transformation throws. -/
theorem rootSafe_of_transformGroups (hes : c.entries p = some es)
    (hq : transformGroups c.replacer (es.flatMap (entryGroup c.itemsOf)) p = some q) : c.RootSafe p := by
  cases p with
  | str s =>
    obtain rfl : [c.entryOf [] s .value] = es := Option.some.inj hes
    by_contra hroot
    have hitems : c.itemsOf (c.entryOf [] s .value) ≠ [] := hroot
    rw [List.flatMap_singleton, entryGroup, if_neg (by simpa [List.isEmpty_iff] using hitems),
      transformGroups_leaf (by simp [Setup.entryOf, entryAt])] at hq
    cases hq
  | num x =>
    obtain rfl : [c.entryOf [] (JsNumber.toText x) .number] = es := Option.some.inj hes
    refine (transformString_number_iff (r := c.replacer)
      (layered_itemsOf c (c.entryOf [] (JsNumber.toText x) .number)).1).mp ?_
    by_cases hitems : c.itemsOf (c.entryOf [] (JsNumber.toText x) .number) = []
    · exact rewritten_of_nil hitems
    · rw [List.flatMap_singleton, entryGroup, if_neg (by simpa [List.isEmpty_iff] using hitems),
        transformGroups_leaf (by simp [Setup.entryOf, entryAt])] at hq
      exact ((rewriteValue_root_number q).mp hq).1
  | _ => trivial

/-- Else the payload is rewritten. -/
theorem transformGroups_of_rootSafe (hp : p.Distinct) (hes : c.entries p = some es)
    (h : c.RootSafe p) :
    ∃ q, transformGroups c.replacer (es.flatMap (entryGroup c.itemsOf)) p = some q ∧
      c.Rewritten p q := by
  by_cases hroot : ∀ g ∈ valueGroups (es.flatMap (entryGroup c.itemsOf)), g.path ≠ []
  · obtain ⟨q, hq, hrelated⟩ := transformGroups_related hp hes hroot
    exact ⟨q, hq, rewritten_of_related hes hrelated⟩
  · -- a group about the root: it is a number that keeps its text
    push Not at hroot
    obtain ⟨g, hg, hpath⟩ := hroot
    obtain ⟨hmem, hkind⟩ := List.mem_filter.mp hg
    obtain ⟨s, hs, hitems⟩ := groupOf_of_mem hes hmem
    obtain ⟨e, he, hne, rfl⟩ := mem_groups.mp hmem
    rw [bne_iff_ne] at hkind
    simp only at hs hitems hpath hkind
    rw [hpath] at hs hitems
    generalize e.kind = k at *
    cases k with
    | key => exact absurd rfl hkind
    | value =>
      obtain rfl : p = .str s := leads_nil.mp hs
      exact absurd (hitems.trans h) hne
    | number =>
      obtain ⟨x, hx, rfl⟩ := hs
      obtain rfl : p = .num x := leads_nil.mp hx
      obtain rfl : [c.entryOf [] (JsNumber.toText x) .number] = es := Option.some.inj hes
      have hsame : transformString c.replacer (JsNumber.toText x) _ = JsNumber.toText x :=
        transformString_of_masksNothing h
      obtain rfl := List.mem_singleton.mp he
      rw [List.flatMap_singleton, entryGroup, if_neg (by simpa [List.isEmpty_iff] using hne),
        transformGroups_leaf (by simp [Setup.entryOf, entryAt])]
      exact ⟨.num x, (rewriteValue_root_number _).mpr ⟨hsame, rfl⟩, .leaf rfl (if_pos hsame).symm⟩

/-! ### `protectJson` -/

theorem transformPayload_enforced (r : Replacer) (payload : JsValue ν) (items : List Item) :
    transformPayload r true payload items = transformGroups r (groupByPath items) payload := by
  rw [transformPayload]
  split_ifs with h
  · have hnil : items = [] := by simpa [List.isEmpty_iff] using h
    rw [hnil]
    rfl
  · rfl

theorem protectJson_of_entries (hes : c.entries p = some es) :
    protectJson c p = if c.blocks (es.flatMap c.itemsOf) then
      some ⟨none, true, es.flatMap c.itemsOf, applyPrecisionControls (c.engine.detect es c.context)
        c.minConfidence (compileAllowlist c.allowlist)⟩
    else (transformPayload c.replacer c.enforced p (es.flatMap c.itemsOf)).bind fun output =>
      some ⟨some output, false, es.flatMap c.itemsOf,
        applyPrecisionControls (c.engine.detect es c.context) c.minConfidence
          (compileAllowlist c.allowlist)⟩ := by
  simp only [protectJson, hes, bind, Option.bind_some, pure, items_eq]

theorem protectJson_eq (hp : p.Distinct) (hes : c.entries p = some es) (henforced : c.enforced = true)
    (hblock : ∀ r, protectJson c p = some r → r.blocked = false) :
    (∀ e ∈ es, ∀ item ∈ c.itemsOf e, item.2 ≠ .block) ∧
      (protectJson c p).bind Protected.payload =
        transformGroups c.replacer (es.flatMap (entryGroup c.itemsOf)) p := by
  have hsome := protectJson_of_entries hes
  rw [henforced, transformPayload_enforced, groupByPath_entries hp hes] at hsome
  have hnot : c.blocks (es.flatMap c.itemsOf) = false := by
    by_contra h
    rw [Bool.not_eq_false] at h
    rw [if_pos h] at hsome
    cases hblock _ hsome
  rw [hsome, hnot]
  constructor
  · intro e he item hitem hitemblock
    rw [Setup.blocks, henforced, Bool.true_and, List.any_eq_false] at hnot
    exact hnot item (List.mem_flatMap.mpr ⟨e, he, hitem⟩) (by rw [hitemblock]; rfl)
  · cases transformGroups c.replacer (es.flatMap (entryGroup c.itemsOf)) p <;> rfl

/-- A payload that comes back is the rewriting by all its detections, and none of
them blocks. -/
theorem rewritten_of_protectJson (hp : p.Distinct) (henforced : c.enforced = true) {r : Protected ν}
    (hr : protectJson c p = some r) (hblocked : r.blocked = false) :
    ∃ q, r.payload = some q ∧ c.Rewritten p q ∧
      ∀ kind rel s, Holds p kind rel s → ∀ item ∈ c.itemsOf (c.entryOf rel s kind), item.2 ≠ .block := by
  obtain ⟨es, hes⟩ : ∃ es, c.entries p = some es := by
    cases hes : c.entries p with
    | some es => exact ⟨es, rfl⟩
    | none =>
      rw [protectJson, hes] at hr
      cases hr
  obtain ⟨hallowed, hpayload⟩ := protectJson_eq hp hes henforced fun r' hr' => by
    rwa [← Option.some.inj (hr.symm.trans hr')]
  have hnone : (protectJson c p).bind Protected.payload = r.payload := by rw [hr]; rfl
  rw [hnone] at hpayload
  cases hq : r.payload with
  | none =>
    rw [protectJson_of_entries hes] at hr
    split_ifs at hr
    · rw [← Option.some.inj hr] at hblocked
      cases hblocked
    · obtain ⟨q, -, hr⟩ := Option.bind_eq_some_iff.mp hr
      rw [← Option.some.inj hr] at hq
      cases hq
  | some q =>
    rw [hq] at hpayload
    obtain ⟨q', hq', hrewritten⟩ := transformGroups_of_rootSafe hp hes
      (rootSafe_of_transformGroups hes hpayload.symm)
    obtain rfl := Option.some.inj (hpayload.trans hq')
    refine ⟨q, rfl, hrewritten, fun kind rel s hs => ?_⟩
    exact hallowed _ ((mem_entries hes).mpr ⟨kind, rel, s, hs, rfl⟩)

/-- A payload that is not blocked comes back with its shape, its leaves and keys
rewritten and every span of them replaced, exactly when its root is not assigned to
and no detection of a decoded text is passed over. -/
theorem protectJson_rewrites (c : Setup) (henforced : c.enforced = true) (p : JsValue ν)
    (hp : p.Distinct) (es : List Entry) (hes : c.entries p = some es)
    (hblock : ∀ r, protectJson c p = some r → r.blocked = false) :
    (∃ r q, protectJson c p = some r ∧ r.payload = some q ∧ c.Rewritten p q ∧
        ∀ e ∈ es, c.ReplacesExactly e) ↔
      c.RootSafe p ∧ ∀ e ∈ es, LeadServes (fun _ _ _ => True) (c.itemsOf e) e.value.length := by
  obtain ⟨hallowed, hpayload⟩ := protectJson_eq hp hes henforced hblock
  have hspans : (∀ e ∈ es, c.ReplacesExactly e) ↔
      ∀ e ∈ es, LeadServes (fun _ _ _ => True) (c.itemsOf e) e.value.length :=
    forall₂_congr fun e he => replacesExactly_iff (hallowed e he)
  rw [← hspans]
  constructor
  · rintro ⟨r, q, hr, hq, hrewritten, hexact⟩
    exact ⟨rootSafe_of_transformGroups hes (hpayload.symm.trans (by rw [hr]; exact hq)), hexact⟩
  · rintro ⟨hroot, hexact⟩
    obtain ⟨q, hq, hrewritten⟩ := transformGroups_of_rootSafe hp hes hroot
    rw [← hpayload] at hq
    obtain ⟨r, hr, hq⟩ := Option.bind_eq_some_iff.mp hq
    exact ⟨r, q, hr, hq, hrewritten, hexact⟩

/-- Without a decision to block nothing is blocked. -/
theorem not_blocked (h : ∀ d, c.decide d ≠ .block) :
    ∀ r, protectJson c p = some r → r.blocked = false := by
  intro r hr
  simp only [protectJson, bind, Option.bind_eq_some_iff] at hr
  obtain ⟨es, -, hr⟩ := hr
  have hnot : c.blocks (c.decideAll (applyPrecisionControls (c.engine.detect es c.context)
      c.minConfidence (compileAllowlist c.allowlist)).detections) = false := by
    simp [Setup.blocks, Setup.decideAll, h]
  rw [if_neg (by rw [hnot]; decide)] at hr
  obtain ⟨output, -, hr⟩ := Option.bind_eq_some_iff.mp hr
  rw [← Option.some.inj hr]

/-- Everything the default rules find in a request, or in its decoded leaves, is
redacted. -/
def redactingRequests : Setup where
  engine := ⟨.plain, true, defaultRules⟩
  context := requestContext
  decide _ := .redact
  replacer := plainReplacer
  enforced := true
  maxNestingDepth := 256
  minConfidence := 0
  allowlist := []
  maxMatchBytes := 256

/-- `{"note": "bob@example.com is here"}`. -/
def addressPayload : JsValue NumberToken :=
  .obj [(js "note", .str (js "bob@example.com is here"))]

theorem distinct_addressPayload : addressPayload.Distinct :=
  distinct_obj.mpr ⟨by decide, by simp [JsValue.Distinct]⟩

theorem protectJson_rewrites_address :
    ∃ r q, protectJson redactingRequests addressPayload = some r ∧ r.payload = some q ∧
      redactingRequests.Rewritten addressPayload q ∧
        ∀ e ∈ [redactingRequests.entryOf [.key (js "note")] (js "note") .key,
          redactingRequests.entryOf [.key (js "note")] (js "bob@example.com is here") .value],
            redactingRequests.ReplacesExactly e := by
  refine (protectJson_rewrites redactingRequests rfl addressPayload distinct_addressPayload _ rfl
    (not_blocked fun _ => by simp [redactingRequests])).mpr ⟨trivial, ?_⟩
  have hparts : ∀ e ∈ [redactingRequests.entryOf [.key (js "note")] (js "note") .key,
      redactingRequests.entryOf [.key (js "note")] (js "bob@example.com is here") .value],
        ∀ x ∈ redactingRequests.itemsOf e, ¬x.Whole e.value.length := by decide +kernel
  exact fun e he => leadServes_of_parts (hparts e he)

/-- An address that is the whole payload is found, nothing blocks, and assigning to
the root throws. -/
theorem root_string_throws :
    redactingRequests.enforced = true ∧
      redactingRequests.entries (ν := NumberToken) (.str (js "bob@example.com")) =
        some [redactingRequests.entryOf [] (js "bob@example.com") .value] ∧
      (∀ r, protectJson (ν := NumberToken) redactingRequests (.str (js "bob@example.com")) = some r →
        r.blocked = false) ∧
      ¬∃ r q, protectJson (ν := NumberToken) redactingRequests (.str (js "bob@example.com")) = some r ∧
        r.payload = some q := by
  have hnone : (protectJson (ν := NumberToken) redactingRequests
      (.str (js "bob@example.com"))).isNone = true := by decide +kernel
  refine ⟨rfl, rfl, not_blocked fun _ => by simp [redactingRequests], ?_⟩
  rintro ⟨r, q, hr, -⟩
  rw [hr] at hnone
  cases hnone

end Haechi.Core
