import Haechi.Core.Collect

/-! What `protectJson` makes of a payload. The value groups rewrite leaves in
place and the key groups rename members, each through the path its entry had at
first. Proved: the output stays a rewriting of the payload with the groups done so
far, and it keeps every member of every object. -/

namespace Haechi.Core

open Text Haechi.Filter JsValue

variable {ν : Type} [JsNumber ν]

/-! ### The rewriting a setup asks for -/

namespace Setup

variable (c : Setup)

/-- The kept detections of an entry, decided. -/
def itemsOf (e : Entry) : List Item :=
  c.decideAll ((detectEntry c.engine.nfkc c.engine.decodeAndRescan e c.engine.rules
    c.context).filter (survives c.minConfidence (compileAllowlist c.allowlist)))

/-- The entry of a text in the payload. -/
def entryOf (path : Path) (s : JsString) (kind : Kind) : Entry :=
  entryAt c.replacer.shortHash path s kind

/-- A text of the payload with its detections rewritten. -/
def rewritten (path : Path) (s : JsString) (kind : Kind) : JsString :=
  transformString c.replacer s (c.itemsOf (c.entryOf path s kind))

/-- A leaf with its detections rewritten. A number whose text changes is a string then. -/
def newLeaf (path : Path) : JsValue ν → JsValue ν
  | .str s => .str (c.rewritten path s .value)
  | .num x =>
    if c.rewritten path (JsNumber.toText x) .number = JsNumber.toText x then .num x
    else .str (c.rewritten path (JsNumber.toText x) .number)
  | v => v

/-- The name a key gets among the keys of its object: the key with its detections
rewritten, with a number after it only if another member has or had that name. -/
def NewName (path : Path) (names : List (JsString × JsString)) (key newKey : JsString) : Prop :=
  newKey = c.rewritten (path ++ [.key key]) key .key ∨
    c.rewritten (path ++ [.key key]) key .key ≠ key ∧
      (∃ n ≥ 2, newKey = suffixed (c.rewritten (path ++ [.key key]) key .key) n) ∧
        ∃ other ∈ names, other.1 ≠ key ∧
          (other.1 = c.rewritten (path ++ [.key key]) key .key ∨
            other.2 = c.rewritten (path ++ [.key key]) key .key)

/-- The payload with every leaf and every key rewritten, the members of an object in
any order and under names of their own. -/
def Rewritten (p q : JsValue ν) : Prop :=
  Related (fun path v w => w = c.newLeaf path v)
    (fun path names => ∀ kk ∈ names, c.NewName path names kk.1 kk.2) [] p q

/-- In the text of an entry exactly the characters that a detection with a
non-allow action covers are replaced. -/
def ReplacesExactly (e : Entry) : Prop :=
  sourceOf (transformPieces c.replacer e.value (c.itemsOf e)) = e.value ∧
    ∀ i : ℕ, (marks (transformPieces c.replacer e.value (c.itemsOf e)))[i]? = some true ↔
      ∃ item ∈ c.itemsOf e, item.2 ≠ .allow ∧ item.1.start ≤ i ∧ i < item.1.stop

end Setup

/-! ### Free names -/

theorem suffixed_injective (text : JsString) : Function.Injective (suffixed text) := by
  intro m n h
  rw [suffixed, suffixed, List.append_cancel_left_eq, List.cons.injEq] at h
  exact natText_injective h.2

theorem freeSuffix_eq (keys : List JsString) (text : JsString) (fuel n : ℕ) :
    ∃ m ≥ n, freeSuffix keys text fuel n = suffixed text m := by
  induction fuel generalizing n with
  | zero => exact ⟨n, le_rfl, rfl⟩
  | succ fuel ih =>
    rw [freeSuffix]
    split_ifs
    · obtain ⟨m, hm, h⟩ := ih (n + 1)
      exact ⟨m, by omega, h⟩
    · exact ⟨n, le_rfl, rfl⟩

/-- A search that ends on a key has seen only keys. -/
theorem mem_of_freeSuffix_mem {keys : List JsString} {text : JsString} {fuel n : ℕ}
    (h : freeSuffix keys text fuel n ∈ keys) : ∀ i ≤ fuel, suffixed text (n + i) ∈ keys := by
  induction fuel generalizing n with
  | zero =>
    intro i hi
    obtain rfl := Nat.le_zero.mp hi
    exact h
  | succ fuel ih =>
    rw [freeSuffix] at h
    split_ifs at h with hn
    · intro i hi
      cases i with
      | zero => exact hn
      | succ i =>
        rw [Nat.add_comm i, ← Nat.add_assoc]
        exact ih h i (by omega)
    · exact absurd h hn

theorem freeSuffix_not_mem (keys : List JsString) (text : JsString) (n : ℕ) :
    freeSuffix keys text keys.length n ∉ keys := by
  intro h
  have hall := mem_of_freeSuffix_mem h
  -- one more name than there are keys
  have hsub : (List.range (keys.length + 1)).map (fun i => suffixed text (n + i)) ⊆ keys := by
    intro k hk
    obtain ⟨i, hi, rfl⟩ := List.mem_map.mp hk
    exact hall i (Nat.lt_succ_iff.mp (List.mem_range.mp hi))
  have hnodup : ((List.range (keys.length + 1)).map fun i => suffixed text (n + i)).Nodup :=
    List.nodup_range.map fun i j hij => Nat.add_left_cancel (suffixed_injective text hij)
  have := (hnodup.subperm hsub).length_le
  simp at this

theorem freeKey_not_mem (keys : List JsString) (text : JsString) : freeKey keys text ∉ keys := by
  rw [freeKey]
  split_ifs with h
  · exact freeSuffix_not_mem keys text 2
  · exact h

theorem freeKey_eq (keys : List JsString) (text : JsString) :
    freeKey keys text = text ∨ text ∈ keys ∧ ∃ n ≥ 2, freeKey keys text = suffixed text n := by
  rw [freeKey]
  split_ifs with h
  · exact .inr ⟨h, freeSuffix_eq keys text _ 2⟩
  · exact .inl rfl

/-! ### Rewriting with some places done -/

variable {c : Setup} {p q : JsValue ν} {done : Set Path}

/-- The leaves at the places done are rewritten, the others are as they were. -/
def LeafDone (c : Setup) (done : Set Path) (path : Path) (v w : JsValue ν) : Prop :=
  (path ∈ done → w = c.newLeaf path v) ∧ (path ∉ done → w = v)

/-- The keys at the places done have their new names, the others are as they were. -/
def NamesDone (c : Setup) (done : Set Path) (path : Path) (names : List (JsString × JsString)) :
    Prop :=
  ∀ kk ∈ names, (path ++ [.key kk.1] ∈ done → c.NewName path names kk.1 kk.2) ∧
    (path ++ [.key kk.1] ∉ done → kk.2 = kk.1)

/-- At first nothing is done. -/
theorem related_self (c : Setup) (p : JsValue ν) (hp : p.Distinct) (path : Path) :
    Related (LeafDone c ∅) (NamesDone c ∅) path p p := by
  induction p using JsValue.induct generalizing path with
  | undef => exact .leaf rfl ⟨fun h => absurd h (Set.notMem_empty _), fun _ => rfl⟩
  | null => exact .leaf rfl ⟨fun h => absurd h (Set.notMem_empty _), fun _ => rfl⟩
  | bool b => exact .leaf rfl ⟨fun h => absurd h (Set.notMem_empty _), fun _ => rfl⟩
  | num x => exact .leaf rfl ⟨fun h => absurd h (Set.notMem_empty _), fun _ => rfl⟩
  | str s => exact .leaf rfl ⟨fun h => absurd h (Set.notMem_empty _), fun _ => rfl⟩
  | arr items ih =>
    refine .arr rfl fun n v w hv hw => ?_
    obtain rfl := Option.some.inj (hv.symm.trans hw)
    exact ih v (List.mem_of_getElem? hv) (distinct_arr.mp hp v (List.mem_of_getElem? hv)) _
  | obj fields ih =>
    obtain ⟨hkeys, hfields⟩ := distinct_obj.mp hp
    let keep (kv : JsString × JsValue ν) : Member ν := ⟨kv.1, kv.1, kv.2, kv.2⟩
    have hbefore : (fields.map keep).map Member.before = fields := by
      simp [keep, Member.before, Function.comp_def]
    have hafter : (fields.map keep).map Member.after = fields := by
      simp [keep, Member.after, Function.comp_def]
    have hrel : Related (LeafDone c ∅) (NamesDone c ∅) path
        (.obj ((fields.map keep).map Member.before)) (.obj fields) := by
      refine .obj _ (fun kk hkk => ?_) ?_ (by rw [hafter]) fun m hm => ?_
      · obtain ⟨m, hm, rfl⟩ := List.mem_map.mp hkk
        obtain ⟨kv, -, rfl⟩ := List.mem_map.mp hm
        exact ⟨fun h => absurd h (Set.notMem_empty _), fun _ => rfl⟩
      · rw [List.map_map, show Member.newKey ∘ keep = Prod.fst from rfl]
        exact hkeys
      · obtain ⟨kv, hkv, rfl⟩ := List.mem_map.mp hm
        exact ih kv hkv (hfields kv hkv) _
    rwa [hbefore] at hrel

/-! ### Values -/

/-- A group is the items of something the payload holds. -/
structure GroupOf (c : Setup) (p : JsValue ν) (g : Group) (s : JsString) : Prop where
  holds : Holds p g.kind g.path s
  items : g.items = c.itemsOf (c.entryOf g.path s g.kind)

theorem leafDone_insert_of_ne {path P : Path} (h : P ≠ path) {v w : JsValue ν}
    (hd : LeafDone c done P v w) : LeafDone c (insert path done) P v w :=
  ⟨fun hm => hd.1 (hm.resolve_left h), fun hm => hd.2 fun h' => hm (.inr h')⟩

/-- While no key is done, names are fixed. -/
theorem fixed_of_not_done {rel : Path} (h : ∀ pre k rest, rel = pre ++ .key k :: rest →
    pre ++ [.key k] ∉ done) : Fixed (NamesDone c done) [] rel := by
  intro pre k rest hrel names hnames k' hk'
  exact (hnames (k, k') hk').2 (h pre k rest hrel)

/-- The value a group is about is read unchanged, and put back rewritten. -/
theorem related_replaceAt_leaf {path : Path} {v : JsValue ν} (hp : p.Distinct)
    (hc : v.isContainer = false) (hv : Leads p path v)
    (h : Related (LeafDone c done) (NamesDone c ∅) [] p q) (hdone : path ∉ done) :
    q.getByPath path = v ∧ ∃ q', q.replaceAt path (c.newLeaf path v) = some q' ∧
      Related (LeafDone c (insert path done)) (NamesDone c ∅) [] p q' := by
  obtain ⟨hread, hwrite⟩ := @Related.replaceAt _ _ (LeafDone c (insert path done)) _
    (NamesDone c ∅) _ _ _ _ _ h hp hv (fixed_of_not_done fun _ _ _ _ => Set.notMem_empty _)
  rw [List.nil_append] at hread hwrite
  constructor
  · exact (hread.of_leaf hc).2 hdone
  · refine hwrite _ (.leaf hc ⟨fun _ => rfl, fun hm => absurd (.inl rfl) hm⟩) ?_
      (fun P _ names hnames => hnames)
    intro P hP u u' hu
    exact leafDone_insert_of_ne (fun h => hP (by rw [h])) hu

/-- One value group. -/
theorem rewriteValue_related {g : Group} {s : JsString} (hp : p.Distinct) (hg : GroupOf c p g s)
    (hkind : g.kind ≠ .key) (hroot : g.path ≠ []) (hdone : g.path ∉ done)
    (h : Related (LeafDone c done) (NamesDone c ∅) [] p q) :
    ∃ q', rewriteValue c.replacer q g = some q' ∧
      Related (LeafDone c (insert g.path done)) (NamesDone c ∅) [] p q' := by
  obtain ⟨kind, path, items⟩ := g
  obtain ⟨hholds, hitems⟩ := hg
  simp only at hholds hitems hkind hroot hdone ⊢
  subst hitems
  cases kind with
  | key => exact absurd rfl hkind
  | value =>
    obtain ⟨hread, q', hq', h'⟩ := related_replaceAt_leaf hp rfl hholds h hdone
    refine ⟨q', ?_, h'⟩
    rw [rewriteValue, hread]
    simp only
    rw [setByPath_eq_replaceAt hroot]
    exact hq'
  | number =>
    obtain ⟨x, hx, rfl⟩ := hholds
    obtain ⟨hread, q', hq', h'⟩ := related_replaceAt_leaf hp rfl hx h hdone
    rw [rewriteValue, hread]
    simp only [Setup.newLeaf] at hq' ⊢
    change ∃ q', (if c.rewritten path (JsNumber.toText x) .number ≠ JsNumber.toText x then
      q.setByPath path (.str (c.rewritten path (JsNumber.toText x) .number)) else some q) =
        some q' ∧ _
    by_cases heq : c.rewritten path (JsNumber.toText x) .number = JsNumber.toText x
    · rw [if_neg (not_not.mpr heq)]
      -- the text did not change, so nothing is assigned
      refine ⟨q, rfl, h.mono (fun ext v w hv hd => ?_) fun _ _ _ _ _ hnames => hnames⟩
      rw [List.nil_append] at hd ⊢
      by_cases hext : ext = path
      · subst hext
        obtain rfl := hv.unique hp hx
        exact ⟨fun _ => by rw [hd.2 hdone, Setup.newLeaf, if_pos heq], fun hm => absurd (.inl rfl) hm⟩
      · exact leafDone_insert_of_ne hext hd
    · rw [if_pos heq, setByPath_eq_replaceAt hroot]
      rw [if_neg heq] at hq'
      exact ⟨q', hq', h'⟩

/-- The places done after one group and after the others. -/
theorem insert_union_paths (done : Set Path) (g : Group) (gs : List Group) :
    insert g.path done ∪ {P | P ∈ gs.map Group.path} =
      done ∪ {P | P ∈ (g :: gs).map Group.path} := by
  ext P
  simp only [Set.mem_union, Set.mem_insert_iff, Set.mem_ofPred_eq, List.map_cons, List.mem_cons]
  tauto

/-- All value groups of a payload that is no leaf. -/
theorem foldlM_rewriteValue_related (hp : p.Distinct) {gs : List Group}
    (hgs : ∀ g ∈ gs, (∃ s, GroupOf c p g s) ∧ g.kind ≠ .key ∧ g.path ≠ [])
    (hnodup : (gs.map Group.path).Nodup) (hdone : ∀ g ∈ gs, g.path ∉ done)
    (h : Related (LeafDone c done) (NamesDone c ∅) [] p q) :
    ∃ q', gs.foldlM (rewriteValue c.replacer) q = some q' ∧
      Related (LeafDone c (done ∪ {P | P ∈ gs.map Group.path})) (NamesDone c ∅) [] p q' := by
  induction gs generalizing q done with
  | nil => exact ⟨q, rfl, by simpa using h⟩
  | cons g gs ih =>
    obtain ⟨⟨⟨s, hg⟩, hkind, hroot⟩, hgs⟩ := List.forall_mem_cons.mp hgs
    obtain ⟨hgdone, hdone⟩ := List.forall_mem_cons.mp hdone
    obtain ⟨hout, hnodup⟩ := List.nodup_cons.mp hnodup
    obtain ⟨q', hq', h'⟩ := rewriteValue_related hp hg hkind hroot hgdone h
    obtain ⟨q'', hq'', h''⟩ := ih hgs hnodup (fun g' hg' hm => by
      rcases hm with hm | hm
      · exact hout (hm ▸ List.mem_map_of_mem hg')
      · exact hdone g' hg' hm) h'
    refine ⟨q'', by rw [List.foldlM_cons, hq']; exact hq'', ?_⟩
    rwa [insert_union_paths] at h''

/-! ### Keys -/

omit [JsNumber ν] in
theorem getByPath_undef (path : Path) : (JsValue.undef : JsValue ν).getByPath path = .undef := by
  induction path with
  | nil => rfl
  | cons part rest ih => exact ih

omit [JsNumber ν] in
/-- Where an assignment along the path works, changing the object in place is one. -/
theorem updateObject_eq {f : List (JsString × JsValue ν) → List (JsString × JsValue ν)}
    {path : Path} {fields : List (JsString × JsValue ν)} (hget : q.getByPath path = .obj fields)
    {q' : JsValue ν} (h : q.replaceAt path (.obj (f fields)) = some q') :
    updateObject f path q = q' := by
  induction path generalizing q q' with
  | nil =>
    obtain rfl : q = .obj fields := hget
    exact Option.some.inj h
  | cons part rest ih =>
    rw [JsValue.replaceAt, Option.bind_eq_some_iff] at h
    obtain ⟨w, hw, hassign⟩ := h
    rw [getByPath] at hget
    have hne : q.prop part ≠ .undef := by
      intro hundef
      rw [hundef, getByPath_undef] at hget
      cases hget
    have hstep : updateObject f (part :: rest) q =
        (q.assign part (updateObject f rest (q.prop part))).getD q := by
      rw [updateObject]
      split
      · exact absurd ‹_› hne
      · rfl
    rw [hstep, ih hget hw, hassign, Option.getD_some]

/-- A new name stays one when the names of its object only grow apart from their keys. -/
theorem newName_mono {path : Path} {names names' : List (JsString × JsString)}
    (h : ∀ other ∈ names, ∃ other' ∈ names', other'.1 = other.1 ∧
      (other'.2 = other.2 ∨ other.2 = other.1)) {key newKey : JsString}
    (hn : c.NewName path names key newKey) : c.NewName path names' key newKey := by
  refine hn.imp id fun ⟨hne, hsuffix, other, hmem, hkey, hname⟩ => ⟨hne, hsuffix, ?_⟩
  obtain ⟨other', hmem', hkey', hname'⟩ := h other hmem
  refine ⟨other', hmem', hkey'.symm ▸ hkey, ?_⟩
  rcases hname' with hsame | hold
  · rw [hkey', hsame]
    exact hname
  · rw [hkey']
    exact .inl (hname.elim id fun h => hold ▸ h)

/-- Other paths stay done or not done. -/
theorem namesDone_insert {path P : Path} {key : JsString} (h : P ≠ path)
    {names : List (JsString × JsString)} (hn : NamesDone c done P names) :
    NamesDone c (insert (path ++ [.key key]) done) P names := by
  intro kk hkk
  have hne : P ++ [.key kk.1] ≠ path ++ [.key key] := fun heq => h (List.append_inj_left' heq rfl)
  exact ⟨fun hm => (hn kk hkk).1 (hm.resolve_left hne), fun hm => (hn kk hkk).2 fun h' => hm (.inr h')⟩

variable {leaf : Path → JsValue ν → JsValue ν → Prop}

omit [JsNumber ν] in
/-- One member of an object gets a name that is free. -/
theorem related_rename {path : Path} {s t : List (Member ν)} {m : Member ν} {n : JsString}
    {fields' : List (JsString × JsValue ν)} (hold : m.newKey = m.key)
    (hkeys : ((s ++ m :: t).map Member.key).Nodup)
    (hnodup : ((s ++ m :: t).map Member.newKey).Nodup) (hfree : n ∉ (s ++ t).map Member.newKey)
    (hname : c.NewName path ((s ++ { m with newKey := n } :: t).map Member.names) m.key n)
    (hms : NamesDone c done path ((s ++ m :: t).map Member.names))
    (hperm : fields'.Perm ((s ++ { m with newKey := n } :: t).map Member.after))
    (hmembers : ∀ m' ∈ s ++ m :: t,
      Related leaf (NamesDone c done) (path ++ [.key m'.key]) m'.value m'.newValue) :
    Related leaf (NamesDone c (insert (path ++ [.key m.key]) done)) path
      (.obj ((s ++ m :: t).map Member.before)) (.obj fields') := by
  have hbefore : (s ++ m :: t).map Member.before =
      (s ++ { m with newKey := n } :: t).map Member.before := by simp [Member.before]
  have hkeys' : ((s ++ { m with newKey := n } :: t).map Member.key).Nodup := by simpa using hkeys
  -- the member kept its name so far, so no other name was made from it
  have hgrow : ∀ other ∈ (s ++ m :: t).map Member.names,
      ∃ other' ∈ (s ++ { m with newKey := n } :: t).map Member.names,
        other'.1 = other.1 ∧ (other'.2 = other.2 ∨ other.2 = other.1) := by
    intro other hother
    obtain ⟨m', hm', rfl⟩ := List.mem_map.mp hother
    simp only [List.mem_append, List.mem_cons] at hm'
    rcases hm' with h | rfl | h
    · exact ⟨m'.names, List.mem_map_of_mem (by simp [h]), rfl, .inl rfl⟩
    · exact ⟨(m'.key, n), List.mem_map.mpr ⟨{ m' with newKey := n }, by simp, rfl⟩, rfl, .inr hold⟩
    · exact ⟨m'.names, List.mem_map_of_mem (by simp [h]), rfl, .inl rfl⟩
  rw [hbefore]
  refine .obj _ ?_ ?_ hperm ?_
  · intro kk hkk
    obtain ⟨m', hm', rfl⟩ := List.mem_map.mp hkk
    by_cases hkey : m'.key = m.key
    · have heq : m' = { m with newKey := n } :=
        List.inj_on_of_nodup_map hkeys' hm' (by simp) hkey
      subst heq
      exact ⟨fun _ => hname, fun hm => absurd (.inl rfl) hm⟩
    · have hm : m' ∈ s ++ m :: t := by
        simp only [List.mem_append, List.mem_cons] at hm' ⊢
        refine hm'.imp id fun h => .inr (h.resolve_left ?_)
        rintro rfl
        exact hkey rfl
      obtain ⟨hdone, hnot⟩ := hms m'.names (List.mem_map_of_mem hm)
      have hne : path ++ [.key m'.names.1] ≠ path ++ [.key m.key] := fun heq =>
        hkey (PathPart.key.inj (List.cons.inj (List.append_cancel_left heq)).1)
      exact ⟨fun h => newName_mono hgrow (hdone (h.resolve_left hne)), fun h => hnot fun h' => h (.inr h')⟩
  · rw [List.map_append, List.map_cons, List.nodup_middle, ← List.map_append, List.nodup_cons] at hnodup ⊢
    exact ⟨hfree, hnodup.2⟩
  · intro m' hm'
    obtain ⟨m₀, hm₀, hkey, hvalue, hnew⟩ : ∃ m₀ ∈ s ++ m :: t, m₀.key = m'.key ∧
        m₀.value = m'.value ∧ m₀.newValue = m'.newValue := by
      simp only [List.mem_append, List.mem_cons] at hm'
      rcases hm' with h | rfl | h
      · exact ⟨m', by simp [h], rfl, rfl, rfl⟩
      · exact ⟨m, by simp, rfl, rfl, rfl⟩
      · exact ⟨m', by simp [h], rfl, rfl, rfl⟩
    rw [← hkey, ← hvalue, ← hnew]
    refine (hmembers m₀ hm₀).mono (fun _ _ _ _ h => h) fun ext _ _ _ _ h => namesDone_insert ?_ h
    rw [List.append_assoc]
    exact fun h => by simpa using congrArg List.length h

omit [JsNumber ν] in
/-- The members left when one is taken out. -/
theorem eraseField_perm {s t : List (Member ν)} {m : Member ν}
    {fields' : List (JsString × JsValue ν)}
    (hnodup : ((s ++ m :: t).map Member.newKey).Nodup)
    (hperm : fields'.Perm ((s ++ m :: t).map Member.after)) :
    (eraseField m.newKey fields').Perm ((s ++ t).map Member.after) := by
  rw [List.map_append, List.map_cons, List.nodup_middle, ← List.map_append, List.nodup_cons] at hnodup
  have hkeep : ∀ kv ∈ (s ++ t).map Member.after, (kv.1 != m.newKey) = true := by
    intro kv hkv
    obtain ⟨m', hm', rfl⟩ := List.mem_map.mp hkv
    exact bne_iff_ne.mpr fun h => hnodup.1 (h ▸ List.mem_map_of_mem hm')
  have hmiddle : ((s ++ m :: t).map Member.after).Perm
      (m.after :: (s ++ t).map Member.after) := by
    rw [List.map_append, List.map_cons, List.map_append]
    exact List.perm_middle
  refine ((hperm.trans hmiddle).filter _).trans (List.Perm.of_eq ?_)
  rw [List.filter_cons, if_neg (by simp [Member.after]), List.filter_eq_self.mpr hkeep]

omit [JsNumber ν] in
theorem renameKey_eq {r : Replacer} {key : JsString} {items : List Item}
    {fields : List (JsString × JsValue ν)} {child : JsValue ν} (h : field? key fields = some child) :
    renameKey r key items fields =
      if transformString r key items = key then fields
      else eraseField key fields ++
        [(freeKey ((eraseField key fields).map Prod.fst) (transformString r key items), child)] := by
  rw [renameKey, h]

omit [JsNumber ν] in
/-- The renaming of one key. -/
theorem renameKey_related {path : Path} {key : JsString} {ms : List (Member ν)}
    {fields' : List (JsString × JsValue ν)} (hkey : key ∈ ms.map Member.key)
    (hkeys : (ms.map Member.key).Nodup) (hdone : path ++ [.key key] ∉ done)
    (hms : NamesDone c done path (ms.map Member.names)) (hnodup : (ms.map Member.newKey).Nodup)
    (hperm : fields'.Perm (ms.map Member.after))
    (hmembers : ∀ m ∈ ms,
      Related leaf (NamesDone c done) (path ++ [.key m.key]) m.value m.newValue) :
    Related leaf (NamesDone c (insert (path ++ [.key key]) done)) path
      (.obj (ms.map Member.before))
      (.obj (renameKey c.replacer key (c.itemsOf (c.entryOf (path ++ [.key key]) key .key))
        fields')) := by
  obtain ⟨m, hm, rfl⟩ := List.mem_map.mp hkey
  obtain ⟨s, t, rfl⟩ := List.append_of_mem hm
  have hold : m.newKey = m.key := (hms m.names (List.mem_map_of_mem hm)).2 hdone
  have hothers : (eraseField m.key fields').Perm ((s ++ t).map Member.after) :=
    hold ▸ eraseField_perm hnodup hperm
  have hfield : field? m.key fields' = some m.newValue := by
    refine field?_of_mem ?_ (hperm.mem_iff.mpr (List.mem_map.mpr ⟨m, hm, by rw [Member.after, hold]⟩))
    rw [(hperm.map Prod.fst).nodup_iff, List.map_map]
    exact hnodup
  have hrest := hnodup
  rw [List.map_append, List.map_cons, List.nodup_middle, ← List.map_append, List.nodup_cons] at hrest
  have htext : transformString c.replacer m.key
      (c.itemsOf (c.entryOf (path ++ [.key m.key]) m.key .key)) =
        c.rewritten (path ++ [.key m.key]) m.key .key := rfl
  rw [renameKey_eq hfield, htext]
  have hnames : ((eraseField m.key fields').map Prod.fst).Perm ((s ++ t).map Member.newKey) := by
    have := hothers.map Prod.fst
    rwa [List.map_map] at this
  split_ifs with hsame
  · have hself : { m with newKey := m.key } = m := by
      obtain ⟨k, n, v, w⟩ := m
      cases hold
      rfl
    refine related_rename hold hkeys hnodup (hold ▸ hrest.1) (.inl hsame.symm) hms ?_ hmembers
    rw [hself]
    exact hperm
  · have hfree := freeKey_not_mem ((eraseField m.key fields').map Prod.fst)
      (c.rewritten (path ++ [.key m.key]) m.key .key)
    refine related_rename hold hkeys hnodup (fun h => hfree (hnames.mem_iff.mpr h)) ?_ hms ?_ hmembers
    · rcases freeKey_eq ((eraseField m.key fields').map Prod.fst)
        (c.rewritten (path ++ [.key m.key]) m.key .key) with h | ⟨hused, hsuffix⟩
      · exact .inl h
      · refine .inr ⟨hsame, hsuffix, ?_⟩
        obtain ⟨m', hm', hname⟩ := List.mem_map.mp (hnames.mem_iff.mp hused)
        refine ⟨m'.names, List.mem_map_of_mem (by simp at hm' ⊢; tauto), ?_, .inr hname⟩
        intro hkey
        rw [List.map_append, List.map_cons, List.nodup_middle, ← List.map_append,
          List.nodup_cons] at hkeys
        exact hkeys.1 (hkey ▸ List.mem_map_of_mem hm')
    · refine (hothers.append_right _).trans ?_
      rw [List.map_append, List.map_append, List.map_cons, List.append_assoc]
      exact (List.perm_append_comm.append_left _)

/-- One key group, when the groups done are no shorter. -/
theorem rewriteKey_related {g : Group} {s : JsString} (hp : p.Distinct) (hg : GroupOf c p g s)
    (hkind : g.kind = .key) (hdone : g.path ∉ done)
    (hdeep : ∀ P ∈ done, g.path.length ≤ P.length) (h : Related leaf (NamesDone c done) [] p q) :
    Related leaf (NamesDone c (insert g.path done)) [] p (rewriteKey c.replacer q g) := by
  obtain ⟨kind, path, items⟩ := g
  obtain ⟨hholds, hitems⟩ := hg
  simp only at hholds hitems hkind hdone hdeep ⊢
  subst hitems hkind
  obtain ⟨pre, fields, rfl, hleads, hkey⟩ := hholds
  have hfixed : Fixed (NamesDone c done) [] pre := by
    refine fixed_of_not_done fun pre' k rest hpre hmem => ?_
    have := hdeep _ hmem
    rw [hpre] at this
    simp only [List.length_append, List.length_cons, List.length_nil] at this
    omega
  obtain ⟨hread, hwrite⟩ := @Related.replaceAt _ _ leaf _ (NamesDone c (insert (pre ++ [.key s]) done))
    _ _ _ _ _ h hp hleads hfixed
  rw [List.nil_append] at hread hwrite
  have hlast : (pre ++ [PathPart.key s]).getLast? = some (.key s) := by simp
  rw [rewriteKey]
  simp only [hlast, List.dropLast_concat]
  generalize hq : q.getByPath pre = w at hread
  cases hread with
  | leaf hc => cases hc
  | @obj _ fields' ms hms hnodup hperm hmembers =>
    have hkeys : (ms.map Member.key).Nodup := by
      have := (distinct_obj.mp (hleads.distinct hp)).1
      rwa [List.map_map] at this
    rw [List.map_map] at hkey
    have hrenamed := renameKey_related hkey hkeys hdone hms hnodup hperm hmembers
    obtain ⟨q', hq', h'⟩ := hwrite _ hrenamed (fun _ _ _ _ hl => hl)
      fun P hP _ hn => namesDone_insert (by rintro rfl; exact hP List.prefix_rfl) hn
    rwa [updateObject_eq hq hq']

/-- All key groups, the deepest first. -/
theorem foldl_rewriteKey_related (hp : p.Distinct) {gs : List Group}
    (hgs : ∀ g ∈ gs, (∃ s, GroupOf c p g s) ∧ g.kind = .key) (hnodup : (gs.map Group.path).Nodup)
    (hsorted : gs.Pairwise fun a b => b.path.length ≤ a.path.length)
    (hdone : ∀ g ∈ gs, g.path ∉ done ∧ ∀ P ∈ done, g.path.length ≤ P.length)
    (h : Related leaf (NamesDone c done) [] p q) :
    Related leaf (NamesDone c (done ∪ {P | P ∈ gs.map Group.path})) [] p
      (gs.foldl (rewriteKey c.replacer) q) := by
  induction gs generalizing q done with
  | nil => simpa using h
  | cons g gs ih =>
    obtain ⟨⟨⟨s, hg⟩, hkind⟩, hgs⟩ := List.forall_mem_cons.mp hgs
    obtain ⟨⟨hgdone, hdeep⟩, hdone⟩ := List.forall_mem_cons.mp hdone
    obtain ⟨hout, hnodup⟩ := List.nodup_cons.mp hnodup
    obtain ⟨hlonger, hsorted⟩ := List.pairwise_cons.mp hsorted
    have h' := rewriteKey_related hp hg hkind hgdone hdeep h
    rw [List.foldl_cons, ← insert_union_paths]
    refine ih hgs hnodup hsorted (fun g' hg' => ⟨?_, ?_⟩) h'
    · rintro (heq | hmem)
      · exact hout (heq ▸ List.mem_map_of_mem hg')
      · exact (hdone g' hg').1 hmem
    · rintro P (rfl | hmem)
      · exact hlonger g' hg'
      · exact (hdone g' hg').2 P hmem

end Haechi.Core
