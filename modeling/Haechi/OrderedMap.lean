import Haechi.Views

/-! Maps that are listed in the order their keys were first set. Setting a key that is
there keeps its place, and a key that was deleted comes last when it is set again. -/

namespace Haechi

open Views

/-- The entries of a map, in the order of their keys' insertion. -/
structure OrderedMap (κ β : Type) where
  entries : List (κ × β)
  nodup : (entries.map Prod.fst).Nodup

namespace OrderedMap

variable {κ β : Type}

def empty : OrderedMap κ β := ⟨[], List.nodup_nil⟩

def keys (m : OrderedMap κ β) : List κ := m.entries.map Prod.fst

def size (m : OrderedMap κ β) : ℕ := m.entries.length

variable [DecidableEq κ]

def get (m : OrderedMap κ β) (k : κ) : Option β := m.entries.lookup k

theorem keys_put (k : κ) (v : β) (l : List (κ × β)) :
    (put k v l).map Prod.fst =
      if k ∈ l.map Prod.fst then l.map Prod.fst else l.map Prod.fst ++ [k] := by
  rw [put]
  split_ifs
  · exact keys_replace k v l
  · rw [List.map_append, List.map_singleton]

def set (m : OrderedMap κ β) (k : κ) (v : β) : OrderedMap κ β where
  entries := put k v m.entries
  nodup := by
    rw [keys_put]
    split_ifs with hk
    · exact m.nodup
    · exact m.nodup.append (List.nodup_singleton k) (by simpa using hk)

def delete (m : OrderedMap κ β) (k : κ) : OrderedMap κ β where
  entries := without k m.entries
  nodup := m.nodup.sublist (List.filter_sublist.map _)

variable {m : OrderedMap κ β} {k k' : κ} {v : β}

theorem entries_set : (m.set k v).entries =
    if k ∈ m.keys then m.entries.map fun e => if e.1 = k then (k, v) else e
    else m.entries ++ [(k, v)] := rfl

theorem entries_delete : (m.delete k).entries = m.entries.filter fun e => e.1 ≠ k := rfl

/-- Deleting a key takes its entry out of its place. -/
theorem entries_delete_of_entries {l r : List (κ × β)} (h : m.entries = l ++ (k, v) :: r) :
    (m.delete k).entries = l ++ r := by
  have hn := m.nodup
  rw [h, List.map_append, List.map_cons, List.nodup_append, List.nodup_cons] at hn
  obtain ⟨-, ⟨hright, -⟩, hleft⟩ := hn
  rw [entries_delete, h, List.filter_append, List.filter_cons_of_neg (by simp)]
  congr 1
  · refine List.filter_eq_self.mpr fun e he => ?_
    simpa using hleft e.1 (List.mem_map_of_mem he) k List.mem_cons_self
  · refine List.filter_eq_self.mpr fun e he => ?_
    have hne : e.1 ≠ k := fun heq => hright (List.mem_map.mpr ⟨e, he, heq⟩)
    simpa using hne

/-! ### Looking up -/

theorem get_eq_some : m.get k = some v ↔ (k, v) ∈ m.entries := by
  constructor
  · intro h
    obtain ⟨l, r, hlr, -⟩ := List.lookup_eq_some_iff.mp h
    rw [hlr]
    simp
  · intro h
    obtain ⟨l, r, hlr⟩ := List.append_of_mem h
    have hn := m.nodup
    rw [hlr, List.map_append, List.map_cons, List.nodup_append] at hn
    refine List.lookup_eq_some_iff.mpr ⟨l, r, hlr, fun e he => ?_⟩
    have hne := hn.2.2 e.1 (List.mem_map_of_mem he) k List.mem_cons_self
    simpa using Ne.symm hne

theorem get_eq_none : m.get k = none ↔ k ∉ m.keys := by
  rw [get, List.lookup_eq_none_iff, keys, List.mem_map, not_exists]
  refine forall_congr' fun e => ?_
  rw [bne_iff_ne, not_and, ne_comm]

theorem mem_keys : k ∈ m.keys ↔ ∃ v, m.get k = some v := by
  rw [← Option.ne_none_iff_exists', ne_eq, get_eq_none, not_not]

theorem keys_set : (m.set k v).keys = if k ∈ m.keys then m.keys else m.keys ++ [k] :=
  keys_put k v m.entries

theorem get_set_self : (m.set k v).get k = some v := by
  rw [get_eq_some, entries_set]
  split_ifs with hk
  · obtain ⟨e, he, rfl⟩ := List.mem_map.mp hk
    exact List.mem_map.mpr ⟨e, he, if_pos rfl⟩
  · simp

theorem get_set_of_ne (h : k' ≠ k) : (m.set k v).get k' = m.get k' := by
  refine Option.ext fun v' => ?_
  rw [get_eq_some, get_eq_some, entries_set]
  split_ifs
  · rw [List.mem_map]
    constructor
    · rintro ⟨e, he, heq⟩
      split_ifs at heq with hek
      · exact absurd (congrArg Prod.fst heq).symm h
      · exact heq ▸ he
    · exact fun he => ⟨(k', v'), he, if_neg h⟩
  · simp [h]

end OrderedMap

end Haechi
