import Haechi.Core.Payload
import Haechi.Text.Rewriting

/-! What is collected from a payload, and how detections are grouped. Proved: the
entries of a value are its string and number leaves and its object keys, each
once, at the paths that lead to them; and since each has its own kind and path,
the groups are the detections of one entry each. -/

namespace Haechi.Core

open Text Haechi.Filter JsValue

variable {ν : Type} [JsNumber ν]

/-- The value holds a text of this kind at the end of this path. -/
def Holds (v : JsValue ν) : Kind → Path → JsString → Prop
  | .value, rel, s => Leads v rel (.str s)
  | .number, rel, s => ∃ x, Leads v rel (.num x) ∧ JsNumber.toText x = s
  | .key, rel, s => ∃ pre fields, rel = pre ++ [.key s] ∧ Leads v pre (.obj fields) ∧
      s ∈ fields.map Prod.fst

section Collect

variable {shortHash : JsString → JsString} {maxDepth : ℕ} {path : Path}

theorem holds_arr {items : List (JsValue ν)} {kind : Kind} {rel : Path} {s : JsString} :
    Holds (.arr items) kind rel s ↔
      ∃ n v rest, items[n]? = some v ∧ rel = .index n :: rest ∧ Holds v kind rest s := by
  constructor
  · intro h
    cases kind with
    | value =>
      cases h with
      | item hn h => exact ⟨_, _, _, hn, rfl, h⟩
    | number =>
      obtain ⟨x, h, hx⟩ := h
      cases h with
      | item hn h => exact ⟨_, _, _, hn, rfl, x, h, hx⟩
    | key =>
      obtain ⟨pre, fields, rfl, h, hs⟩ := h
      cases h with
      | item hn h => exact ⟨_, _, _, hn, rfl, _, _, rfl, h, hs⟩
  · rintro ⟨n, v, rest, hn, rfl, h⟩
    cases kind with
    | value => exact .item hn h
    | number =>
      obtain ⟨x, h, hx⟩ := h
      exact ⟨x, .item hn h, hx⟩
    | key =>
      obtain ⟨pre, fields, rfl, h, hs⟩ := h
      exact ⟨.index n :: pre, fields, rfl, .item hn h, hs⟩

theorem holds_obj {fields : List (JsString × JsValue ν)} {kind : Kind} {rel : Path} {s : JsString} :
    Holds (.obj fields) kind rel s ↔
      (kind = .key ∧ rel = [.key s] ∧ s ∈ fields.map Prod.fst) ∨
        ∃ kv ∈ fields, ∃ rest, rel = .key kv.1 :: rest ∧ Holds kv.2 kind rest s := by
  constructor
  · intro h
    cases kind with
    | value =>
      cases h with
      | member hk h => exact .inr ⟨_, hk, _, rfl, h⟩
    | number =>
      obtain ⟨x, h, hx⟩ := h
      cases h with
      | member hk h => exact .inr ⟨_, hk, _, rfl, x, h, hx⟩
    | key =>
      obtain ⟨pre, fields', rfl, h, hs⟩ := h
      cases h with
      | here => exact .inl ⟨rfl, rfl, hs⟩
      | member hk h => exact .inr ⟨_, hk, _, rfl, _, _, rfl, h, hs⟩
  · rintro (⟨rfl, rfl, hs⟩ | ⟨kv, hkv, rest, rfl, h⟩)
    · exact ⟨[], fields, rfl, .here _, hs⟩
    · cases kind with
      | value => exact .member hkv h
      | number =>
        obtain ⟨x, h, hx⟩ := h
        exact ⟨x, .member hkv h, hx⟩
      | key =>
        obtain ⟨pre, fields', rfl, h, hs⟩ := h
        exact ⟨.key kv.1 :: pre, fields', rfl, .member hkv h, hs⟩

/-- The entries of an array are those of its items. -/
theorem mem_collectItems {n : ℕ} {items : List (JsValue ν)} {es : List Entry}
    (h : collectItems shortHash maxDepth path n items = some es) {e : Entry} :
    e ∈ es ↔ ∃ i v es', items[i]? = some v ∧
      collectStringEntries shortHash maxDepth (path ++ [.index (n + i)]) v = some es' ∧ e ∈ es' := by
  induction items generalizing n es with
  | nil =>
    obtain rfl := Option.some.inj h
    simp
  | cons v vs ih =>
    simp only [collectItems, bind, Option.bind_eq_some_iff, pure, Option.some.injEq] at h
    obtain ⟨here, hhere, rest, hrest, rfl⟩ := h
    rw [List.mem_append, ih hrest]
    constructor
    · rintro (he | ⟨i, w, es', hi, hw, he⟩)
      · exact ⟨0, v, here, rfl, by simpa using hhere, he⟩
      · exact ⟨i + 1, w, es', by simpa using hi, by rwa [Nat.add_comm i, ← Nat.add_assoc], he⟩
    · rintro ⟨i, w, es', hi, hw, he⟩
      cases i with
      | zero =>
        obtain rfl := Option.some.inj hi
        obtain rfl := Option.some.inj (hhere.symm.trans hw)
        exact .inl he
      | succ i =>
        exact .inr ⟨i, w, es', by simpa using hi,
          by rwa [Nat.add_assoc, Nat.add_comm 1], he⟩

/-- The entries of an object are its keys and those of its members. -/
theorem mem_collectFields {fields : List (JsString × JsValue ν)} {es : List Entry}
    (h : collectFields shortHash maxDepth path fields = some es) {e : Entry} :
    e ∈ es ↔ ∃ kv ∈ fields, e = entryAt shortHash (path ++ [.key kv.1]) kv.1 .key ∨
      ∃ es', collectStringEntries shortHash maxDepth (path ++ [.key kv.1]) kv.2 = some es' ∧
        e ∈ es' := by
  induction fields generalizing es with
  | nil =>
    obtain rfl := Option.some.inj h
    simp
  | cons kv fs ih =>
    obtain ⟨k, v⟩ := kv
    simp only [collectFields, bind, Option.bind_eq_some_iff, pure, Option.some.injEq] at h
    obtain ⟨here, hhere, rest, hrest, rfl⟩ := h
    rw [List.mem_cons, List.mem_append, ih hrest, List.exists_mem_cons_iff]
    simp [hhere, or_assoc]

theorem exists_of_collectItems {n : ℕ} {items : List (JsValue ν)} {es : List Entry}
    (h : collectItems shortHash maxDepth path n items = some es) {i : ℕ} {v : JsValue ν}
    (hv : items[i]? = some v) :
    ∃ es', collectStringEntries shortHash maxDepth (path ++ [.index (n + i)]) v = some es' := by
  induction items generalizing n es i with
  | nil => simp at hv
  | cons w vs ih =>
    simp only [collectItems, bind, Option.bind_eq_some_iff, pure, Option.some.injEq] at h
    obtain ⟨here, hhere, rest, hrest, rfl⟩ := h
    cases i with
    | zero =>
      obtain rfl := Option.some.inj hv
      exact ⟨here, hhere⟩
    | succ i =>
      obtain ⟨es', hes'⟩ := ih hrest (by simpa using hv)
      exact ⟨es', by rwa [Nat.add_comm i, ← Nat.add_assoc]⟩

theorem exists_of_collectFields {fields : List (JsString × JsValue ν)} {es : List Entry}
    (h : collectFields shortHash maxDepth path fields = some es) {kv : JsString × JsValue ν}
    (hkv : kv ∈ fields) :
    ∃ es', collectStringEntries shortHash maxDepth (path ++ [.key kv.1]) kv.2 = some es' := by
  induction fields generalizing es with
  | nil => cases hkv
  | cons kv' fs ih =>
    obtain ⟨k, v⟩ := kv'
    simp only [collectFields, bind, Option.bind_eq_some_iff, pure, Option.some.injEq] at h
    obtain ⟨here, hhere, rest, hrest, rfl⟩ := h
    rcases List.mem_cons.mp hkv with rfl | hkv
    · exact ⟨here, hhere⟩
    · exact ih hrest hkv

/-- What a leaf holds. -/
theorem holds_leaf {v : JsValue ν} (hc : v.isContainer = false) {kind : Kind} {rel : Path}
    {s : JsString} :
    Holds v kind rel s ↔ rel = [] ∧
      (kind = .value ∧ v = .str s ∨ kind = .number ∧ ∃ x, v = .num x ∧ JsNumber.toText x = s) := by
  cases kind with
  | value => simp [Holds, leads_leaf hc]
  | number => simp [Holds, leads_leaf hc, and_assoc]
  | key =>
    simp only [Holds, leads_leaf hc, reduceCtorEq, false_and, or_false, and_false, iff_false]
    rintro ⟨pre, fields, -, ⟨-, rfl⟩, -⟩
    cases hc

/-- The entries of a value are what it holds. -/
theorem mem_collectStringEntries (v : JsValue ν) {es : List Entry}
    (h : collectStringEntries shortHash maxDepth path v = some es) {e : Entry} :
    e ∈ es ↔ ∃ kind rel s, Holds v kind rel s ∧ e = entryAt shortHash (path ++ rel) s kind := by
  induction v using JsValue.induct generalizing path es e with
  | undef => obtain rfl := Option.some.inj h; simp [holds_leaf (v := JsValue.undef (ν := ν)) rfl]
  | null => obtain rfl := Option.some.inj h; simp [holds_leaf (v := JsValue.null (ν := ν)) rfl]
  | bool b => obtain rfl := Option.some.inj h; simp [holds_leaf (v := JsValue.bool (ν := ν) b) rfl]
  | num x => obtain rfl := Option.some.inj h; simp [holds_leaf (v := JsValue.num x) rfl]
  | str s => obtain rfl := Option.some.inj h; simp [holds_leaf (v := JsValue.str (ν := ν) s) rfl]
  | arr items ih =>
    rw [collectStringEntries] at h
    split_ifs at h
    rw [mem_collectItems h]
    constructor
    · rintro ⟨i, v, es', hi, hv, he⟩
      obtain ⟨kind, rel, s, hs, rfl⟩ := (ih v (List.mem_of_getElem? hi) hv).mp he
      exact ⟨kind, .index i :: rel, s, holds_arr.mpr ⟨i, v, rel, hi, rfl, hs⟩, by simp⟩
    · rintro ⟨kind, rel, s, hs, rfl⟩
      obtain ⟨i, v, rest, hi, rfl, hheld⟩ := holds_arr.mp hs
      obtain ⟨es', hes'⟩ := exists_of_collectItems h hi
      refine ⟨i, v, es', hi, hes', ?_⟩
      exact (ih v (List.mem_of_getElem? hi) hes').mpr ⟨kind, rest, s, hheld, by simp⟩
  | obj fields ih =>
    rw [collectStringEntries] at h
    split_ifs at h
    rw [mem_collectFields h]
    constructor
    · rintro ⟨kv, hkv, rfl | ⟨es', hes', he⟩⟩
      · exact ⟨.key, [.key kv.1], kv.1,
          holds_obj.mpr (.inl ⟨rfl, rfl, List.mem_map_of_mem hkv⟩), rfl⟩
      · obtain ⟨kind, rel, s, hs, rfl⟩ := (ih kv hkv hes').mp he
        exact ⟨kind, .key kv.1 :: rel, s, holds_obj.mpr (.inr ⟨kv, hkv, rel, rfl, hs⟩), by simp⟩
    · rintro ⟨kind, rel, s, hs, rfl⟩
      rcases holds_obj.mp hs with ⟨rfl, rfl, hkey⟩ | ⟨kv, hkv, rest, rfl, hheld⟩
      · obtain ⟨kv, hkv, rfl⟩ := List.mem_map.mp hkey
        exact ⟨kv, hkv, .inl rfl⟩
      · obtain ⟨es', hes'⟩ := exists_of_collectFields h hkv
        exact ⟨kv, hkv, .inr ⟨es', hes', (ih kv hkv hes').mpr ⟨kind, rest, s, hheld, by simp⟩⟩⟩

/-- The kind and path of an entry, by which its detections are grouped. -/
def place? (e : Entry) : Kind × Path := (e.kind, e.path)

theorem path_of_mem {v : JsValue ν} {es : List Entry}
    (h : collectStringEntries shortHash maxDepth path v = some es) {e : Entry} (he : e ∈ es) :
    ∃ rel, e.path = path ++ rel ∧ (rel = [] → e.kind ≠ .key) := by
  obtain ⟨kind, rel, s, hs, rfl⟩ := (mem_collectStringEntries v h).mp he
  refine ⟨rel, rfl, fun hrel hkind => ?_⟩
  simp only [entryAt] at hkind
  subst hrel hkind
  obtain ⟨pre, fields, hpre, -⟩ := hs
  simp at hpre

theorem nodup_collectItems {n : ℕ} {items : List (JsValue ν)} {es : List Entry}
    (h : collectItems shortHash maxDepth path n items = some es)
    (hnodup : ∀ v ∈ items, ∀ {path es}, collectStringEntries shortHash maxDepth path v = some es →
      (es.map place?).Nodup) :
    (es.map place?).Nodup := by
  induction items generalizing n es with
  | nil =>
    obtain rfl := Option.some.inj h
    exact List.nodup_nil
  | cons v vs ih =>
    simp only [collectItems, bind, Option.bind_eq_some_iff, pure, Option.some.injEq] at h
    obtain ⟨here, hhere, rest, hrest, rfl⟩ := h
    obtain ⟨hv, hvs⟩ := List.forall_mem_cons.mp hnodup
    rw [List.map_append]
    refine (hv hhere).append (ih hrest hvs) fun x hx hx' => ?_
    obtain ⟨e, he, rfl⟩ := List.mem_map.mp hx
    obtain ⟨e', he', heq⟩ := List.mem_map.mp hx'
    obtain ⟨rel, hrel, -⟩ := path_of_mem hhere he
    obtain ⟨i, w, es', -, hes', he'⟩ := (mem_collectItems hrest).mp he'
    obtain ⟨rel', hrel', -⟩ := path_of_mem hes' he'
    have hpath : e'.path = e.path := congrArg Prod.snd heq
    rw [hrel, hrel'] at hpath
    simp at hpath
    omega

theorem nodup_collectFields {fields : List (JsString × JsValue ν)} {es : List Entry}
    (h : collectFields shortHash maxDepth path fields = some es)
    (hkeys : (fields.map Prod.fst).Nodup)
    (hnodup : ∀ kv ∈ fields, ∀ {path es},
      collectStringEntries shortHash maxDepth path kv.2 = some es → (es.map place?).Nodup) :
    (es.map place?).Nodup := by
  induction fields generalizing es with
  | nil =>
    obtain rfl := Option.some.inj h
    exact List.nodup_nil
  | cons kv fs ih =>
    obtain ⟨k, v⟩ := kv
    simp only [collectFields, bind, Option.bind_eq_some_iff, pure, Option.some.injEq] at h
    obtain ⟨here, hhere, rest, hrest, rfl⟩ := h
    obtain ⟨hv, hvs⟩ := List.forall_mem_cons.mp hnodup
    obtain ⟨hk, hkeys⟩ := List.nodup_cons.mp hkeys
    -- an entry of a later member has that member's key in its path
    have later : ∀ e ∈ rest, ∃ k' ∈ fs.map Prod.fst, ∃ rel, e.path = path ++ .key k' :: rel := by
      intro e he
      obtain ⟨kv, hkv, rfl | ⟨es', hes', he⟩⟩ := (mem_collectFields hrest).mp he
      · exact ⟨kv.1, List.mem_map_of_mem hkv, [], rfl⟩
      · obtain ⟨rel, hrel, -⟩ := path_of_mem hes' he
        exact ⟨kv.1, List.mem_map_of_mem hkv, rel, by rw [hrel]; simp⟩
    have clash : ∀ e ∈ rest, ∀ rel, e.path ≠ path ++ .key k :: rel := by
      intro e he rel heq
      obtain ⟨k', hk', rel', hrel'⟩ := later e he
      rw [hrel'] at heq
      simp only [List.append_cancel_left_eq, List.cons.injEq, PathPart.key.injEq] at heq
      exact hk (heq.1 ▸ hk')
    rw [List.map_cons, List.map_append, List.nodup_cons, List.mem_append, not_or]
    refine ⟨⟨fun hin => ?_, fun hin => ?_⟩, (hv hhere).append (ih hrest hkeys hvs) fun x hx hx' => ?_⟩
    · obtain ⟨e, he, heq⟩ := List.mem_map.mp hin
      obtain ⟨rel, hrel, hkind⟩ := path_of_mem hhere he
      have hpath : e.path = path ++ [.key k] := congrArg Prod.snd heq
      rw [hrel, List.append_right_eq_self] at hpath
      exact hkind hpath (congrArg Prod.fst heq)
    · obtain ⟨e, he, heq⟩ := List.mem_map.mp hin
      exact clash e he [] (congrArg Prod.snd heq)
    · obtain ⟨e, he, rfl⟩ := List.mem_map.mp hx
      obtain ⟨e', he', heq⟩ := List.mem_map.mp hx'
      obtain ⟨rel, hrel, -⟩ := path_of_mem hhere he
      exact clash e' he' rel (by rw [show e'.path = e.path from congrArg Prod.snd heq, hrel]; simp)

/-- No two entries have one kind and path. -/
theorem nodup_collectStringEntries (v : JsValue ν) (hd : v.Distinct) {es : List Entry}
    (h : collectStringEntries shortHash maxDepth path v = some es) : (es.map place?).Nodup := by
  induction v using JsValue.induct generalizing path es with
  | undef => obtain rfl := Option.some.inj h; exact List.nodup_nil
  | null => obtain rfl := Option.some.inj h; exact List.nodup_nil
  | bool b => obtain rfl := Option.some.inj h; exact List.nodup_nil
  | num x => obtain rfl := Option.some.inj h; exact List.nodup_singleton _
  | str s => obtain rfl := Option.some.inj h; exact List.nodup_singleton _
  | arr items ih =>
    rw [collectStringEntries] at h
    split_ifs at h
    exact nodup_collectItems h fun v hv => ih v hv (distinct_arr.mp hd v hv)
  | obj fields ih =>
    rw [collectStringEntries] at h
    split_ifs at h
    obtain ⟨hkeys, hfields⟩ := distinct_obj.mp hd
    exact nodup_collectFields h hkeys fun kv hkv => ih kv hkv (hfields kv hkv)

end Collect

/-! ### Groups -/

/-- Items of one place extend their group, which is the last. -/
theorem foldl_addToGroup_last {groups : List Group} {kind : Kind} {path : Path}
    (hnew : ∀ g ∈ groups, ¬(g.kind = kind ∧ g.path = path)) {items : List Item}
    (hitems : ∀ item ∈ items, item.1.kind = kind ∧ item.1.path = path) (first : List Item) :
    items.foldl addToGroup (groups ++ [⟨kind, path, first⟩]) =
      groups ++ [⟨kind, path, first ++ items⟩] := by
  induction items generalizing first with
  | nil => simp
  | cons item items ih =>
    obtain ⟨⟨hkind, hpath⟩, hitems⟩ := List.forall_mem_cons.mp hitems
    have hadd : addToGroup (groups ++ [⟨kind, path, first⟩]) item =
        groups ++ [⟨kind, path, first ++ [item]⟩] := by
      have hkeep : groups.map (fun g => if g.kind = kind ∧ g.path = path then
          { g with items := g.items ++ [item] } else g) = groups := by
        rw [List.map_congr_left fun g hg => if_neg (hnew g hg), List.map_id']
      rw [addToGroup, hkind, hpath, if_pos (by simp), List.map_append, hkeep]
      simp
    rw [List.foldl_cons, hadd, ih hitems, List.append_assoc, List.singleton_append]

theorem foldl_addToGroup {groups : List Group} {kind : Kind} {path : Path}
    (hnew : ∀ g ∈ groups, ¬(g.kind = kind ∧ g.path = path)) {items : List Item}
    (hitems : ∀ item ∈ items, item.1.kind = kind ∧ item.1.path = path) :
    items.foldl addToGroup groups =
      groups ++ (if items.isEmpty then [] else [⟨kind, path, items⟩]) := by
  cases items with
  | nil => simp
  | cons item items =>
    obtain ⟨⟨hkind, hpath⟩, hitems⟩ := List.forall_mem_cons.mp hitems
    have hadd : addToGroup groups item = groups ++ [⟨kind, path, [item]⟩] := by
      rw [addToGroup, if_neg, hkind, hpath]
      simp only [List.any_eq_true, Bool.and_eq_true, beq_iff_eq, not_exists, not_and]
      intro g hg hgkind hgpath
      exact hnew g hg ⟨hgkind.trans hkind, hgpath.trans hpath⟩
    rw [List.foldl_cons, hadd, foldl_addToGroup_last hnew hitems]
    rfl

/-- The group of an entry's items. -/
def entryGroup (f : Entry → List Item) (e : Entry) : List Group :=
  if (f e).isEmpty then [] else [⟨e.kind, e.path, f e⟩]

/-- The groups are the entries that have items, in their order. -/
theorem groupByPath_flatMap {f : Entry → List Item} {es : List Entry}
    (hf : ∀ e ∈ es, ∀ item ∈ f e, item.1.kind = e.kind ∧ item.1.path = e.path)
    (hnodup : (es.map place?).Nodup) :
    groupByPath (es.flatMap f) = es.flatMap (entryGroup f) := by
  have run : ∀ (groups : List Group), (∀ g ∈ groups, ∀ e ∈ es, ¬(g.kind = e.kind ∧ g.path = e.path)) →
      (es.flatMap f).foldl addToGroup groups = groups ++ es.flatMap (entryGroup f) := by
    induction es with
    | nil => simp
    | cons e es ih =>
      obtain ⟨he, hes⟩ := List.forall_mem_cons.mp hf
      obtain ⟨hout, hnodup⟩ := List.nodup_cons.mp hnodup
      intro groups hgroups
      rw [List.flatMap_cons, List.foldl_append, List.flatMap_cons, ← List.append_assoc,
        foldl_addToGroup (fun g hg => hgroups g hg e List.mem_cons_self) he, ← entryGroup]
      refine ih hes hnodup _ fun g hg e' he' => ?_
      rcases List.mem_append.mp hg with hg | hg
      · exact hgroups g hg e' (List.mem_cons_of_mem e he')
      · rw [entryGroup] at hg
        split_ifs at hg
        · cases hg
        · obtain rfl := List.mem_singleton.mp hg
          rintro ⟨hkind, hpath⟩
          exact hout (List.mem_map.mpr ⟨e', he', Prod.ext hkind.symm hpath.symm⟩)
  exact run [] (by simp)

end Haechi.Core
