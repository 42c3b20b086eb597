import Haechi.Text.Plain

/-! Counts under names in a plain object. A name that every object inherits has a value
before it is counted, and `+` makes a text of it; the setter of `__proto__` takes neither a
number nor a text. Proved: the counts are numbers that add up to how many names were
counted if and only if no name is inherited. -/

namespace Haechi.Core

/-- What `+` makes of the member that a plain object inherits under a name. -/
def prototypeText (name : JsString) : JsString :=
  if name = js "__proto__" then js "[object Object]"
  else if name = js "constructor" then js "function Object() \x7b [native code] \x7d"
  else js "function " ++ name ++ js "() \x7b [native code] \x7d"

/-- A count, or the text that `+` makes of what was there before. -/
inductive Count where
  | number (n : ℕ)
  | text (s : JsString)
deriving DecidableEq

/-- `count + 1`. -/
def Count.succ : Count → Count
  | .number n => .number (n + 1)
  | .text s => .text (s ++ js "1")

/-- The first count under a name. -/
def Count.first (name : JsString) : Count :=
  if name ∈ prototypeMembers then .text (prototypeText name ++ js "1") else .number 1

abbrev Counts := List (JsString × Count)

/-- The name is counted in a member of its own. -/
def addName (name : JsString) : Counts → Counts
  | [] => [(name, .first name)]
  | (k, c) :: counts => if k = name then (k, c.succ) :: counts else (k, c) :: addName name counts

/-- `counts[name] = (counts[name] ?? 0) + 1`. -/
def bumpName (name : JsString) (counts : Counts) : Counts :=
  if name = js "__proto__" then counts else addName name counts

/-- Each name is counted. -/
def countNames (names : List JsString) : Counts := names.foldl (fun counts name => bumpName name counts) []

/-! ### Their total -/

def Count.toNat? : Count → Option ℕ
  | .number n => some n
  | .text _ => none

/-- The sum of the counts, if all are numbers. -/
def total : Counts → Option ℕ
  | [] => some 0
  | (_, c) :: counts => c.toNat?.bind fun n => (total counts).map (n + ·)

theorem toNat?_succ (c : Count) : c.succ.toNat? = c.toNat?.map (· + 1) := by
  cases c <;> rfl

theorem toNat?_first (name : JsString) :
    (Count.first name).toNat? = if name ∈ prototypeMembers then none else some 1 := by
  unfold Count.first
  split_ifs <;> rfl

theorem total_addName_of_own {name : JsString} (h : name ∉ prototypeMembers) (counts : Counts) :
    total (addName name counts) = (total counts).map (· + 1) := by
  induction counts with
  | nil => simp [addName, total, toNat?_first, h]
  | cons kc counts ih =>
    obtain ⟨k, c⟩ := kc
    rw [addName]
    split_ifs
    · rw [total, total, toNat?_succ]
      cases c.toNat? <;> cases total counts <;> simp [Nat.add_right_comm]
    · rw [total, total, ih]
      cases c.toNat? <;> cases total counts <;> simp [Nat.add_assoc]

theorem total_eq_none {counts : Counts} {kc : JsString × Count} (hmem : kc ∈ counts)
    (h : kc.2.toNat? = none) : total counts = none := by
  induction counts with
  | nil => cases hmem
  | cons kc' counts ih =>
    rw [total]
    rcases List.mem_cons.mp hmem with rfl | hmem
    · rw [h, Option.bind_none]
    · rw [ih hmem]
      cases kc'.2.toNat? <;> rfl

/-- What holds of each first count and is kept when one is added holds after a name is
counted. -/
theorem forall_mem_addName {P : JsString × Count → Prop} (hfirst : ∀ name, P (name, .first name))
    (hsucc : ∀ k c, P (k, c) → P (k, c.succ)) (name : JsString) {counts : Counts}
    (h : ∀ kc ∈ counts, P kc) : ∀ kc ∈ addName name counts, P kc := by
  induction counts with
  | nil => exact List.forall_mem_singleton.mpr (hfirst name)
  | cons kc counts ih =>
    obtain ⟨k, c⟩ := kc
    obtain ⟨hc, hcounts⟩ := List.forall_mem_cons.mp h
    rw [addName]
    split_ifs
    · exact List.forall_mem_cons.mpr ⟨hsucc k c hc, hcounts⟩
    · exact List.forall_mem_cons.mpr ⟨hc, ih hcounts⟩

/-- Under an inherited name there is never a number. -/
def Typed (counts : Counts) : Prop :=
  ∀ kc ∈ counts, kc.1 ∈ prototypeMembers → kc.2.toNat? = none

theorem Typed.addName {counts : Counts} (h : Typed counts) (name : JsString) :
    Typed (addName name counts) := by
  apply forall_mem_addName _ _ name h
  · intro name hname
    rw [toNat?_first, if_pos hname]
  · intro k c hc hname
    rw [toNat?_succ, hc hname, Option.map_none]

theorem mem_keys_addName {name k : JsString} {counts : Counts} :
    k ∈ (addName name counts).map Prod.fst ↔ k = name ∨ k ∈ counts.map Prod.fst := by
  induction counts with
  | nil => simp [addName]
  | cons kc counts ih =>
    obtain ⟨k', c⟩ := kc
    rw [addName]
    split_ifs with hk
    · simp [hk]
    · simp only [List.map_cons, List.mem_cons, ih]
      tauto

theorem nodup_addName {name : JsString} {counts : Counts} (h : (counts.map Prod.fst).Nodup) :
    ((addName name counts).map Prod.fst).Nodup := by
  induction counts with
  | nil => simp [addName]
  | cons kc counts ih =>
    obtain ⟨k, c⟩ := kc
    obtain ⟨hk, hcounts⟩ := List.nodup_cons.mp h
    rw [addName]
    split_ifs with hname
    · exact h
    · apply List.nodup_cons.mpr
      refine ⟨fun hmem => ?_, ih hcounts⟩
      rcases mem_keys_addName.mp hmem with hmem | hmem
      · exact hname hmem
      · exact hk hmem

theorem total_addName_of_inherited {name : JsString} (hname : name ∈ prototypeMembers)
    {counts : Counts} (h : Typed counts) : total (addName name counts) = none := by
  have hkey : name ∈ (addName name counts).map Prod.fst := mem_keys_addName.mpr (.inl rfl)
  obtain ⟨kc, hmem, rfl⟩ := List.mem_map.mp hkey
  exact total_eq_none hmem (h.addName _ kc hmem hname)

/-- One more name. -/
theorem total_bumpName {counts : Counts} (h : Typed counts) (name : JsString) :
    total (bumpName name counts) =
      if name ∈ prototypeMembers then if name = js "__proto__" then total counts else none
      else (total counts).map (· + 1) := by
  have hproto : js "__proto__" ∈ prototypeMembers := by decide
  rw [bumpName]
  split_ifs with heq hown hown
  · rfl
  · exact absurd (heq ▸ hproto) hown
  · exact total_addName_of_inherited hown h
  · exact total_addName_of_own hown counts

theorem countNames_concat (names : List JsString) (name : JsString) :
    countNames (names ++ [name]) = bumpName name (countNames names) := by
  rw [countNames, List.foldl_append]
  rfl

theorem countNames_induct {P : Counts → Prop} (hnil : P [])
    (hadd : ∀ counts name, P counts → P (addName name counts)) (names : List JsString) :
    P (countNames names) := by
  induction names using List.reverseRecOn with
  | nil => exact hnil
  | append_singleton names name ih =>
    rw [countNames_concat, bumpName]
    split_ifs
    · exact ih
    · exact hadd _ name ih

theorem typed_countNames (names : List JsString) : Typed (countNames names) :=
  countNames_induct (List.forall_mem_nil _) (fun _ name h => h.addName name) names

theorem nodup_countNames (names : List JsString) : ((countNames names).map Prod.fst).Nodup :=
  countNames_induct (P := fun counts => (counts.map Prod.fst).Nodup) List.nodup_nil
    (fun _ _ h => nodup_addName h) names

/-- Every name but `__proto__` has a member. -/
theorem mem_keys_countNames {k : JsString} {names : List JsString} :
    k ∈ (countNames names).map Prod.fst ↔ k ∈ names ∧ k ≠ js "__proto__" := by
  induction names using List.reverseRecOn with
  | nil => simp [countNames]
  | append_singleton names name ih =>
    rw [countNames_concat, bumpName, List.mem_append, List.mem_singleton]
    split_ifs with hproto
    · rw [ih]
      aesop
    · rw [mem_keys_addName, ih]
      aesop

/-- Nothing is counted zero times. -/
theorem positive_countNames (names : List JsString) :
    ∀ kc ∈ countNames names, ∀ n, kc.2 = .number n → 0 < n := by
  apply countNames_induct (P := fun counts => ∀ kc ∈ counts, ∀ n, kc.2 = .number n → 0 < n)
    (List.forall_mem_nil _)
  intro counts name h
  apply forall_mem_addName _ _ name h
  · intro name n hn
    rw [Count.first] at hn
    split_ifs at hn
    cases hn
    exact Nat.one_pos
  · intro k c _ n hn
    cases c with
    | number m =>
      cases hn
      exact Nat.succ_pos m
    | text s => cases hn

/-- The total is at most that of the names that are not inherited. -/
theorem length_of_total {names : List JsString} {n : ℕ} (h : total (countNames names) = some n) :
    n = (names.filter fun name => name ∉ prototypeMembers).length := by
  induction names using List.reverseRecOn generalizing n with
  | nil => exact (Option.some.inj h).symm
  | append_singleton names name ih =>
    rw [countNames_concat, total_bumpName (typed_countNames names)] at h
    rw [List.filter_append, List.length_append, List.filter_singleton]
    split_ifs at h with hown hproto
    · rw [← ih h, decide_eq_false (not_not.mpr hown)]
      rfl
    · obtain ⟨m, hm, rfl⟩ := Option.map_eq_some_iff.mp h
      rw [← ih hm, decide_eq_true hown]
      rfl

/-- The counts add up to the number of names if and only if no name is inherited. -/
theorem total_countNames_eq_length {names : List JsString} :
    total (countNames names) = some names.length ↔ ∀ name ∈ names, name ∉ prototypeMembers := by
  constructor
  · intro h name hname
    have hlength := length_of_total h
    have hall := List.length_filter_eq_length_iff.mp hlength.symm name hname
    exact of_decide_eq_true hall
  · intro h
    induction names using List.reverseRecOn with
    | nil => rfl
    | append_singleton names name ih =>
      have hname : name ∉ prototypeMembers := h name (by simp)
      rw [countNames_concat, total_bumpName (typed_countNames names), if_neg hname,
        ih fun k hk => h k (List.mem_append_left _ hk), List.length_append]
      rfl

end Haechi.Core
