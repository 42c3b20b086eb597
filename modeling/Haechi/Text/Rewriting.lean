import Haechi.Text.Path

/-! A value and a rewriting of it: leaves are rewritten in place, members may get
other names and another order, and nothing else changes. What may happen to a leaf
and to the names of an object is given by two predicates. Proved: a change at one
place of the rewriting is a change of the predicates at that place. -/

namespace Haechi.JsValue

variable {ν : Type}

/-- A member of an object and of its rewriting. -/
structure Member (ν : Type) where
  key : JsString
  newKey : JsString
  value : JsValue ν
  newValue : JsValue ν

namespace Member

def names (m : Member ν) : JsString × JsString := (m.key, m.newKey)

def before (m : Member ν) : JsString × JsValue ν := (m.key, m.value)

def after (m : Member ν) : JsString × JsValue ν := (m.newKey, m.newValue)

end Member

def isContainer : JsValue ν → Bool
  | .arr _ => true
  | .obj _ => true
  | _ => false

theorem leads_leaf {u w : JsValue ν} {rel : Path} (h : u.isContainer = false) :
    Leads u rel w ↔ rel = [] ∧ u = w := by
  constructor
  · intro hl
    cases hl with
    | here => exact ⟨rfl, rfl⟩
    | item => cases h
    | member => cases h
  · rintro ⟨rfl, rfl⟩
    exact .here u

/-- The second value is a rewriting of the first, which stands at a path. -/
inductive Related (leaf : Path → JsValue ν → JsValue ν → Prop)
    (names : Path → List (JsString × JsString) → Prop) : Path → JsValue ν → JsValue ν → Prop
  | leaf {path : Path} {p q : JsValue ν} :
      p.isContainer = false → leaf path p q → Related leaf names path p q
  | arr {path : Path} {items items' : List (JsValue ν)} :
      items'.length = items.length →
      (∀ (n : ℕ) (v w : JsValue ν), items[n]? = some v → items'[n]? = some w →
        Related leaf names (path ++ [.index n]) v w) →
      Related leaf names path (.arr items) (.arr items')
  | obj {path : Path} {fields' : List (JsString × JsValue ν)} (ms : List (Member ν)) :
      names path (ms.map Member.names) → (ms.map Member.newKey).Nodup →
      fields'.Perm (ms.map Member.after) →
      (∀ m ∈ ms, Related leaf names (path ++ [.key m.key]) m.value m.newValue) →
      Related leaf names path (.obj (ms.map Member.before)) (.obj fields')

variable {leaf leaf' : Path → JsValue ν → JsValue ν → Prop}
  {names names' : Path → List (JsString × JsString) → Prop} {path : Path} {p q : JsValue ν}

theorem not_prefix_of_ne {part part' : PathPart} (h : part ≠ part') (rest ext : Path) :
    ¬(path ++ part :: rest) <+: (path ++ [part'] ++ ext) := by
  rw [List.append_assoc, List.prefix_append_right_inj, List.singleton_append,
    List.cons_prefix_cons]
  exact fun h' => h h'.1

theorem Related.of_leaf (h : Related leaf names path p q) (hc : p.isContainer = false) :
    leaf path p q := by
  cases h with
  | leaf _ hl => exact hl
  | arr => cases hc
  | obj => cases hc

/-- Weaker predicates on the leaves and objects that are there. -/
theorem Related.mono (h : Related leaf names path p q)
    (hleaf : ∀ ext v w, Leads p ext v → leaf (path ++ ext) v w → leaf' (path ++ ext) v w)
    (hnames : ∀ ext fields ps, Leads p ext (.obj fields) → ps.map Prod.fst = fields.map Prod.fst →
      names (path ++ ext) ps → names' (path ++ ext) ps) :
    Related leaf' names' path p q := by
  induction h with
  | leaf hc hl => exact .leaf hc (by simpa using hleaf [] _ _ (.here _) (by simpa using hl))
  | arr hlen _ ih =>
    refine .arr hlen fun n v w hv hw => ih n v w hv hw (fun ext u u' hu => ?_) fun ext fs ps hfs => ?_
    · simpa using hleaf (.index n :: ext) u u' (.item hv hu)
    · simpa using hnames (.index n :: ext) fs ps (.item hv hfs)
  | obj ms hms hnodup hperm _ ih =>
    refine .obj ms ?_ hnodup hperm fun m hm => ih m hm (fun ext u u' hu => ?_) fun ext fs ps hfs => ?_
    · have := hnames [] _ (ms.map Member.names) (.here _) (by
        simp [Member.names, Member.before, Function.comp_def])
      simpa using this (by simpa using hms)
    · have hmem : (m.key, m.value) ∈ ms.map Member.before := List.mem_map_of_mem hm
      simpa using hleaf (.key m.key :: ext) u u' (.member hmem hu)
    · have hmem : (m.key, m.value) ∈ ms.map Member.before := List.mem_map_of_mem hm
      simpa using hnames (.key m.key :: ext) fs ps (.member hmem hfs)

/-- The names on a path are what they were. -/
def Fixed (names : Path → List (JsString × JsString) → Prop) (path rel : Path) : Prop :=
  ∀ pre k rest, rel = pre ++ .key k :: rest → ∀ ps, names (path ++ pre) ps →
    ∀ k', (k, k') ∈ ps → k' = k

theorem Fixed.tail {part : PathPart} {rest : Path} (h : Fixed names path (part :: rest)) :
    Fixed names (path ++ [part]) rest := by
  intro pre k rest' hrest ps hps k' hk'
  refine h (part :: pre) k rest' (by rw [hrest]; rfl) ps ?_ k' hk'
  simpa using hps

/-- Replace the value of one member that kept its name. -/
theorem related_setField {ms : List (Member ν)} {fields' : List (JsString × JsValue ν)}
    {m : Member ν} {w : JsValue ν} {rest : Path} (hmem : (m.key, m.newValue) ∈ fields')
    (same : ∀ m' ∈ ms, m'.newKey = m.key ↔ m'.key = m.key) (hms : names path (ms.map Member.names))
    (hnodup : (ms.map Member.newKey).Nodup) (hperm : fields'.Perm (ms.map Member.after))
    (hmembers : ∀ m ∈ ms, Related leaf names (path ++ [.key m.key]) m.value m.newValue)
    (hw : ∀ m' ∈ ms, m'.key = m.key → Related leaf' names' (path ++ [.key m.key]) m'.value w)
    (hleaf : ∀ P, ¬(path ++ .key m.key :: rest) <+: P → ∀ u u', leaf P u u' → leaf' P u u')
    (hnames : ∀ P, ¬(path ++ .key m.key :: rest) <+: P → ∀ ps, names P ps → names' P ps) :
    Related leaf' names' path (.obj (ms.map Member.before)) (.obj (setField m.key w fields')) := by
  let change (m' : Member ν) : Member ν := if m'.key = m.key then { m' with newValue := w } else m'
  have hkey : ∀ m', (change m').key = m'.key := fun m' => by dsimp only [change]; split_ifs <;> rfl
  have hnewKey : ∀ m', (change m').newKey = m'.newKey := fun m' => by
    dsimp only [change]; split_ifs <;> rfl
  have hvalue : ∀ m', (change m').value = m'.value := fun m' => by
    dsimp only [change]; split_ifs <;> rfl
  have hbefore : (ms.map change).map Member.before = ms.map Member.before := by
    simp [Member.before, Function.comp_def, hkey, hvalue]
  rw [← hbefore]
  refine .obj _ ?_ ?_ ?_ ?_
  · have : (ms.map change).map Member.names = ms.map Member.names := by
      simp [Member.names, Function.comp_def, hkey, hnewKey]
    rw [this]
    exact hnames path (fun h => by simpa using h.length_le) _ hms
  · rw [List.map_map, show Member.newKey ∘ change = Member.newKey from funext hnewKey]
    exact hnodup
  · rw [setField, if_pos (List.mem_map_of_mem hmem)]
    refine (hperm.map _).trans (List.Perm.of_eq ?_)
    rw [List.map_map, List.map_map]
    refine List.map_congr_left fun m' hm' => ?_
    by_cases h : m'.key = m.key
    · simp [Member.after, change, h, (same m' hm').mpr h]
    · simp [Member.after, change, h, mt (same m' hm').mp h]
  · intro m' hm'
    obtain ⟨m₀, hm₀, rfl⟩ := List.mem_map.mp hm'
    rw [hkey, hvalue]
    by_cases h : m₀.key = m.key
    · simp only [change, h, if_true]
      exact hw m₀ hm₀ h
    · simp only [change, h, if_false]
      have hne : PathPart.key m.key ≠ .key m₀.key := fun h' => h (PathPart.key.inj h').symm
      exact (hmembers m₀ hm₀).mono (fun ext a b _ => hleaf _ (not_prefix_of_ne hne rest ext) a b)
        fun ext fs ps _ _ => hnames _ (not_prefix_of_ne hne rest ext) ps

/-- Along a path with fixed names the rewriting has a rewriting of the place, and
when that is replaced by another, so is the whole. -/
theorem Related.replaceAt {rel : Path} {v : JsValue ν} (h : Related leaf names path p q)
    (hp : p.Distinct) (hv : Leads p rel v) (hfixed : Fixed names path rel) :
    Related leaf names (path ++ rel) v (q.getByPath rel) ∧
      ∀ w, Related leaf' names' (path ++ rel) v w →
        (∀ P, ¬(path ++ rel) <+: P → ∀ u u', leaf P u u' → leaf' P u u') →
        (∀ P, ¬(path ++ rel) <+: P → ∀ ps, names P ps → names' P ps) →
        ∃ q', q.replaceAt rel w = some q' ∧ Related leaf' names' path p q' := by
  induction hv generalizing path q with
  | here v =>
    rw [List.append_nil]
    exact ⟨h, fun w hw _ _ => ⟨w, rfl, hw⟩⟩
  | @item items n v u rest hn hv ih =>
    cases h with
    | leaf hc => cases hc
    | @arr _ _ items' hlen hitems =>
      have hlt : n < items'.length := by
        rw [hlen]
        exact (List.getElem?_eq_some_iff.mp hn).1
      obtain ⟨w, hw⟩ : ∃ w, items'[n]? = some w := ⟨_, List.getElem?_eq_getElem hlt⟩
      obtain ⟨hread, hwrite⟩ := ih (hitems n v w hn hw) (distinct_arr.mp hp _ (List.mem_of_getElem? hn))
        hfixed.tail
      have hpath : path ++ .index n :: rest = path ++ [.index n] ++ rest := by simp
      rw [hpath, getByPath, prop_index hw]
      refine ⟨hread, fun u' hu' hleaf hnames => ?_⟩
      obtain ⟨w', hreplace, hw'⟩ := hwrite u' hu' hleaf hnames
      refine ⟨.arr (items'.set n w'), ?_, .arr (by simpa using hlen) fun i x y hx hy => ?_⟩
      · rw [JsValue.replaceAt, prop_index hw, hreplace, Option.bind_some, assign, if_pos hlt]
      · by_cases hi : n = i
        · subst hi
          rw [List.getElem?_set_self hlt] at hy
          obtain rfl := Option.some.inj hy
          obtain rfl := Option.some.inj (hn.symm.trans hx)
          exact hw'
        · rw [List.getElem?_set_ne hi] at hy
          have hne : PathPart.index n ≠ .index i := fun h => hi (PathPart.index.inj h)
          refine (hitems i x y hx hy).mono (fun ext a b _ => ?_) fun ext fs ps _ _ => ?_
          · exact hleaf _ (by rw [← hpath]; exact not_prefix_of_ne hne rest ext) a b
          · exact hnames _ (by rw [← hpath]; exact not_prefix_of_ne hne rest ext) ps
  | @member fields k v u rest hk hv ih =>
    cases h with
    | leaf hc => cases hc
    | @obj _ fields' ms hms hnodup hperm hmembers =>
      obtain ⟨hkeys, hdistinct⟩ := distinct_obj.mp hp
      rw [List.map_map] at hkeys
      obtain ⟨m, hm, heq⟩ := List.mem_map.mp hk
      obtain ⟨rfl, rfl⟩ : m.key = k ∧ m.value = v := Prod.mk.inj heq
      have hname : m.newKey = m.key := hfixed [] m.key rest rfl (ms.map Member.names)
        (by simpa using hms) m.newKey (List.mem_map.mpr ⟨m, hm, rfl⟩)
      have same : ∀ m' ∈ ms, m'.newKey = m.key ↔ m'.key = m.key := fun m' hm' =>
        ⟨fun h => by rw [List.inj_on_of_nodup_map hnodup hm' hm (h.trans hname.symm)],
          fun h => by rw [List.inj_on_of_nodup_map hkeys hm' hm h, hname]⟩
      have hmem : (m.key, m.newValue) ∈ fields' :=
        hperm.mem_iff.mpr (List.mem_map.mpr ⟨m, hm, by rw [Member.after, hname]⟩)
      have hkeys' : (fields'.map Prod.fst).Nodup := by
        have := (hperm.map Prod.fst).nodup_iff
        rw [this, List.map_map]
        exact hnodup
      obtain ⟨hread, hwrite⟩ := ih (hmembers m hm) (hdistinct _ hk) hfixed.tail
      have hpath : path ++ .key m.key :: rest = path ++ [.key m.key] ++ rest := by simp
      rw [hpath, getByPath, prop_key hkeys' hmem]
      refine ⟨hread, fun u' hu' hleaf hnames => ?_⟩
      obtain ⟨w', hreplace, hw'⟩ := hwrite u' hu' hleaf hnames
      refine ⟨.obj (setField m.key w' fields'), ?_, ?_⟩
      · rw [JsValue.replaceAt, prop_key hkeys' hmem, hreplace]
        rfl
      · exact related_setField hmem same hms hnodup hperm hmembers
          (fun m' hm' h => by rwa [List.inj_on_of_nodup_map hkeys hm' hm h]) (fun P hP => hleaf P (hpath ▸ hP)) (fun P hP => hnames P (hpath ▸ hP))

end Haechi.JsValue
