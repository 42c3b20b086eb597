import Mathlib.Data.Finmap
import Mathlib.Tactic

/-! Functions that change a map through a view. A function looks up keys, sets and
deletes them and lists the whole map, until it returns or throws; all it knows of the
map is what the view gives it. `Ends` says how it ends over the map itself, in whatever
order the map is listed. A view that shows the map goes on showing it under calls that
keep its rules, so a function ends over the view as it may over the map. `Transact` is
the map whose mutations happen as a whole or not at all: a store that takes each of its
steps takes every run of it, and runs that do not depend on the order have one outcome. -/

namespace Haechi.Views

/-- Why a call is rejected. -/
inductive Failure (ε : Type) where
  | thrown (e : ε)
  /-- A view that is only for reading has no such method. -/
  | readOnly
  | unreadable
  | commit
deriving DecidableEq

/-- A function over a view of keys `κ` and values `β`: what it does next, up to its end.
`γ` is what a lookup answers. -/
inductive Fn (κ β γ ε α : Type) where
  | done (a : α)
  | throw (e : Failure ε)
  | get (k : κ) (next : γ → Fn κ β γ ε α)
  | set (k : κ) (v : β) (next : Fn κ β γ ε α)
  | delete (k : κ) (next : Fn κ β γ ε α)
  | entries (next : List (κ × β) → Fn κ β γ ε α)

/-- The methods of a view. -/
structure Access (κ β γ σ : Type) where
  get : σ → κ → γ
  set : σ → κ → β → σ
  delete : σ → κ → σ
  entries : σ → List (κ × β)

abbrev Map (κ β : Type) := Finmap fun _ : κ => β

variable {κ β γ ε α σ : Type}

/-- What the function ends with over a view, and what it leaves of it. -/
def Fn.run (v : Access κ β γ σ) : Fn κ β γ ε α → σ → Except (Failure ε) α × σ
  | .done a, s => (.ok a, s)
  | .throw e, s => (.error e, s)
  | .get k next, s => (next (v.get s k)).run v s
  | .set k b next, s => next.run v (v.set s k b)
  | .delete k next, s => next.run v (v.delete s k)
  | .entries next, s => (next (v.entries s)).run v s

/-- The function over a view that is only for reading. -/
def Fn.reading : Fn κ β γ ε α → Fn κ β γ ε α
  | .done a => .done a
  | .throw e => .throw e
  | .get k next => .get k fun answer => (next answer).reading
  | .set _ _ _ | .delete _ _ => .throw .readOnly
  | .entries next => .entries fun l => (next l).reading

/-! ### Lists of a map -/

variable [DecidableEq κ]

/-- The entries of the map, in some order. -/
structure Lists (l : List (κ × β)) (m : Map κ β) : Prop where
  nodup : (l.map Prod.fst).Nodup
  mem : ∀ k v, (k, v) ∈ l ↔ m.lookup k = some v

/-- The entry of a key is set; a new key comes last. -/
def put (k : κ) (v : β) (l : List (κ × β)) : List (κ × β) :=
  if k ∈ l.map Prod.fst then l.map fun e => if e.1 = k then (k, v) else e else l ++ [(k, v)]

/-- The entries of all other keys. -/
def without (k : κ) (l : List (κ × β)) : List (κ × β) := l.filter fun e => e.1 ≠ k

section Lists

variable {l l' : List (κ × β)} {m : Map κ β} {k : κ} {v : β}

theorem lists_nil : Lists ([] : List (κ × β)) ∅ where
  nodup := List.nodup_nil
  mem k v := by simp

theorem Lists.perm (h : Lists l m) (hp : l.Perm l') : Lists l' m where
  nodup := (hp.map Prod.fst).nodup_iff.mp h.nodup
  mem k v := by rw [← hp.mem_iff, h.mem]

/-- Two lists of one map differ in their order only. -/
theorem Lists.unique (h : Lists l m) (h' : Lists l' m) : l.Perm l' := by
  refine (List.perm_ext_iff_of_nodup h.nodup.of_map h'.nodup.of_map).mpr ?_
  rintro ⟨k, v⟩
  rw [h.mem, h'.mem]

theorem Lists.lookup [BEq κ] [LawfulBEq κ] (h : Lists l m) (k : κ) : l.lookup k = m.lookup k := by
  cases hm : m.lookup k with
  | none =>
    rw [List.lookup_eq_none_iff]
    rintro ⟨k', v⟩ hmem
    have hv := (h.mem k' v).mp hmem
    simp only [bne_iff_ne, ne_eq]
    rintro rfl
    rw [hm] at hv
    cases hv
  | some v =>
    obtain ⟨l₁, l₂, rfl⟩ := List.append_of_mem ((h.mem k v).mpr hm)
    have hn := h.nodup
    rw [List.map_append, List.map_cons, List.nodup_append] at hn
    rw [List.lookup_eq_some_iff]
    refine ⟨l₁, l₂, rfl, fun e he => ?_⟩
    have hne := hn.2.2 e.1 (List.mem_map_of_mem he) k List.mem_cons_self
    simpa using Ne.symm hne

theorem lookup_insert_eq_some {k' : κ} {v' : β} :
    (m.insert k v).lookup k' = some v' ↔ k' = k ∧ v' = v ∨ k' ≠ k ∧ m.lookup k' = some v' := by
  by_cases hk : k' = k
  · subst hk
    simp [Finmap.lookup_insert, eq_comm]
  · rw [Finmap.lookup_insert_of_ne _ hk]
    simp [hk]

theorem keys_replace (k : κ) (v : β) (l : List (κ × β)) :
    (l.map fun e => if e.1 = k then (k, v) else e).map Prod.fst = l.map Prod.fst := by
  rw [List.map_map]
  refine List.map_congr_left fun e _ => ?_
  by_cases he : e.1 = k <;> simp [he]

theorem Lists.put (h : Lists l m) (k : κ) (v : β) : Lists (put k v l) (m.insert k v) := by
  by_cases hk : k ∈ l.map Prod.fst
  · rw [Views.put, if_pos hk]
    refine ⟨(keys_replace k v l).symm ▸ h.nodup, fun k' v' => ?_⟩
    rw [lookup_insert_eq_some, ← h.mem, List.mem_map]
    constructor
    · rintro ⟨e, he, heq⟩
      split_ifs at heq with hek
      · exact .inl ⟨(congrArg Prod.fst heq).symm, (congrArg Prod.snd heq).symm⟩
      · subst heq
        exact .inr ⟨hek, he⟩
    · rintro (⟨rfl, rfl⟩ | ⟨hne, hmem⟩)
      · obtain ⟨e, he, rfl⟩ := List.mem_map.mp hk
        exact ⟨e, he, if_pos rfl⟩
      · exact ⟨(k', v'), hmem, if_neg hne⟩
  · rw [Views.put, if_neg hk]
    constructor
    · rw [List.map_append, List.map_singleton]
      exact h.nodup.append (List.nodup_singleton k) (by simpa using hk)
    · intro k' v'
      rw [lookup_insert_eq_some, ← h.mem, List.mem_append, List.mem_singleton, Prod.mk.injEq]
      constructor
      · rintro (hmem | heq)
        · exact .inr ⟨fun he => hk (he ▸ List.mem_map_of_mem hmem), hmem⟩
        · exact .inl heq
      · rintro (heq | ⟨-, hmem⟩)
        · exact .inr heq
        · exact .inl hmem

theorem Lists.without (h : Lists l m) (k : κ) : Lists (without k l) (m.erase k) where
  nodup := h.nodup.sublist (List.filter_sublist.map _)
  mem k' v' := by
    rw [Views.without, List.mem_filter, h.mem, decide_eq_true_eq]
    by_cases hk : k' = k
    · subst hk
      simp [Finmap.lookup_erase]
    · rw [Finmap.lookup_erase_ne hk]
      simp [hk]

/-- Entries of distinct keys, set one by one, come in their order. -/
theorem foldl_put (hn : (l.map Prod.fst).Nodup) (hd : ∀ e ∈ l, e.1 ∉ l'.map Prod.fst) :
    l.foldl (fun l e => put e.1 e.2 l) l' = l' ++ l := by
  induction l generalizing l' with
  | nil => simp
  | cons e l ih =>
    obtain ⟨he, hl⟩ := List.nodup_cons.mp hn
    have hput : put e.1 e.2 l' = l' ++ [e] := if_neg (hd e List.mem_cons_self)
    rw [List.foldl_cons, hput, ih hl, List.append_assoc, List.singleton_append]
    intro e' he'
    rw [List.map_append, List.mem_append, not_or]
    refine ⟨hd e' (List.mem_cons_of_mem e he'), fun hmem => he ?_⟩
    rw [← List.mem_singleton.mp hmem]
    exact List.mem_map_of_mem he'

end Lists

/-! ### How a function ends -/

section Ends

variable (answer : Option β → γ)

/-- The ways the function may end over the map: `entries` gives any list of it. -/
inductive Ends : Fn κ β γ ε α → Map κ β → Except (Failure ε) α → Map κ β → Prop
  | done {a m} : Ends (.done a) m (.ok a) m
  | throw {e m} : Ends (.throw e) m (.error e) m
  | get {k next m r m'} : Ends (next (answer (m.lookup k))) m r m' → Ends (.get k next) m r m'
  | set {k v next m r m'} : Ends next (m.insert k v) r m' → Ends (.set k v next) m r m'
  | delete {k next m r m'} : Ends next (m.erase k) r m' → Ends (.delete k next) m r m'
  | entries {next l m r m'} : Lists l m → Ends (next l) m r m' → Ends (.entries next) m r m'

/-- What a view asks of the calls on it. -/
structure Rules (κ β : Type) where
  get : Map κ β → κ → Prop
  set : κ → β → Prop
  delete : κ → Prop

/-- Every call of the function keeps the rules, in whatever order the map is listed. -/
def Fn.Keeps (rules : Rules κ β) : Fn κ β γ ε α → Map κ β → Prop
  | .done _, _ | .throw _, _ => True
  | .get k next, m => rules.get m k ∧ (next (answer (m.lookup k))).Keeps rules m
  | .set k v next, m => rules.set k v ∧ next.Keeps rules (m.insert k v)
  | .delete k next, m => rules.delete k ∧ next.Keeps rules (m.erase k)
  | .entries next, m => ∀ l, Lists l m → (next l).Keeps rules m

/-- The view shows the map it stands for, and goes on doing so. -/
structure Access.Shows (view : Access κ β γ σ) (rules : Rules κ β) (R : σ → Map κ β → Prop) :
    Prop where
  get : ∀ {s m k}, R s m → rules.get m k → view.get s k = answer (m.lookup k)
  set : ∀ {s m k v}, R s m → rules.set k v → R (view.set s k v) (m.insert k v)
  delete : ∀ {s m k}, R s m → rules.delete k → R (view.delete s k) (m.erase k)
  entries : ∀ {s m}, R s m → Lists (view.entries s) m

variable {answer}

/-- A function that keeps the rules ends over the view as it may over the map. -/
theorem Access.Shows.run {view : Access κ β γ σ} {rules : Rules κ β} {R : σ → Map κ β → Prop}
    (h : view.Shows answer rules R) (fn : Fn κ β γ ε α) {s : σ} {m : Map κ β} (hs : R s m)
    (hf : fn.Keeps answer rules m) :
    ∃ m', Ends answer fn m (fn.run view s).1 m' ∧ R (fn.run view s).2 m' := by
  induction fn generalizing s m with
  | done a => exact ⟨m, .done, hs⟩
  | throw e => exact ⟨m, .throw, hs⟩
  | get k next ih =>
    obtain ⟨hk, hnext⟩ := hf
    rw [← h.get hs hk] at hnext
    obtain ⟨m', hends, hR⟩ := ih _ hs hnext
    exact ⟨m', .get (h.get hs hk ▸ hends), hR⟩
  | set k v next ih =>
    obtain ⟨m', hends, hR⟩ := ih (h.set hs hf.1) hf.2
    exact ⟨m', .set hends, hR⟩
  | delete k next ih =>
    obtain ⟨m', hends, hR⟩ := ih (h.delete hs hf.1) hf.2
    exact ⟨m', .delete hends, hR⟩
  | entries next ih =>
    obtain ⟨m', hends, hR⟩ := ih _ hs (hf _ (h.entries hs))
    exact ⟨m', .entries (h.entries hs) hends, hR⟩

/-- Reading changes nothing. -/
theorem Ends.reading {fn : Fn κ β γ ε α} {m m' : Map κ β} {r : Except (Failure ε) α}
    (h : Ends answer fn.reading m r m') : m' = m := by
  induction fn generalizing m with
  | done a =>
    cases h
    rfl
  | throw e =>
    cases h
    rfl
  | get k next ih =>
    cases h with
    | get h => exact ih _ h
  | set k v next =>
    cases h
    rfl
  | delete k next =>
    cases h
    rfl
  | entries next ih =>
    cases h with
    | entries _ h => exact ih _ h

/-- Fewer rules are easier to keep. -/
theorem Fn.Keeps.mono {rules rules' : Rules κ β} {fn : Fn κ β γ ε α} {m : Map κ β}
    (h : fn.Keeps answer rules m) (hget : ∀ m k, rules.get m k → rules'.get m k)
    (hset : ∀ k v, rules.set k v → rules'.set k v) (hdelete : ∀ k, rules.delete k → rules'.delete k) :
    fn.Keeps answer rules' m := by
  induction fn generalizing m with
  | done | throw => trivial
  | get k next ih => exact ⟨hget m k h.1, ih _ h.2⟩
  | set k v next ih => exact ⟨hset k v h.1, ih h.2⟩
  | delete k next ih => exact ⟨hdelete k h.1, ih h.2⟩
  | entries next ih => exact fun l hl => ih l (h l hl)

/-! Many keys deleted at once -/

/-- All of the keys are deleted, and then the function goes on. -/
def deleteAll (ks : List κ) (next : Fn κ β γ ε α) : Fn κ β γ ε α := ks.foldr Fn.delete next

def eraseAll (ks : List κ) (m : Map κ β) : Map κ β := ks.foldl (fun m k => m.erase k) m

theorem lookup_eraseAll (ks : List κ) (m : Map κ β) (k : κ) :
    (eraseAll ks m).lookup k = if k ∈ ks then none else m.lookup k := by
  induction ks generalizing m with
  | nil => rfl
  | cons k' ks ih =>
    have hstep : eraseAll (k' :: ks) m = eraseAll ks (m.erase k') := rfl
    rw [hstep, ih]
    by_cases hk : k = k'
    · subst hk
      simp [Finmap.lookup_erase]
    · rw [Finmap.lookup_erase_ne hk]
      simp [hk]

theorem ends_deleteAll {ks : List κ} {next : Fn κ β γ ε α} {m m' : Map κ β}
    {r : Except (Failure ε) α} (h : Ends answer (deleteAll ks next) m r m') :
    Ends answer next (eraseAll ks m) r m' := by
  induction ks generalizing m with
  | nil => exact h
  | cons k ks ih =>
    cases h with
    | delete h => exact ih h

theorem keeps_deleteAll {rules : Rules κ β} {ks : List κ} {next : Fn κ β γ ε α} {m : Map κ β}
    (hks : ∀ k ∈ ks, rules.delete k) (hnext : next.Keeps answer rules (eraseAll ks m)) :
    (deleteAll ks next).Keeps answer rules m := by
  induction ks generalizing m with
  | nil => exact hnext
  | cons k ks ih =>
    obtain ⟨hk, hks⟩ := List.forall_mem_cons.mp hks
    exact ⟨hk, ih hks hnext⟩

end Ends

/-! ### The transactional map -/

/-- How the commit of a mutation goes. One that is lost has gone through, and the caller
is told that it has not. -/
inductive Commit where
  | passes
  | fails
  | lost
deriving DecidableEq

inductive Call (κ β γ ε α : Type) where
  | read (fn : Fn κ β γ ε α)
  | mutate (fn : Fn κ β γ ε α) (commit : Commit)

section Transact

variable (answer : Option β → γ)

/-- A call on the map: a mutation that is rejected leaves it as it was, one that resolves
makes all of its changes. -/
inductive Transact : Map κ β → Call κ β γ ε α → Except (Failure ε) α → Map κ β → Prop
  | read {fn m r m'} : Ends answer fn.reading m r m' → Transact m (.read fn) r m
  | throws {fn commit m e m'} : Ends answer fn m (.error e) m' →
      Transact m (.mutate fn commit) (.error e) m
  | fails {fn commit m a m'} : Ends answer fn m (.ok a) m' → commit ≠ .passes →
      Transact m (.mutate fn commit) (.error .commit) m
  | resolves {fn m a m'} : Ends answer fn m (.ok a) m' →
      Transact m (.mutate fn .passes) (.ok a) m'

/-- A run of calls: their results, and the map after them. -/
inductive Runs : Map κ β → List (Call κ β γ ε α) → List (Except (Failure ε) α) → Map κ β → Prop
  | nil {m} : Runs m [] [] m
  | cons {m c r m' cs rs m''} : Transact answer m c r m' → Runs m' cs rs m'' →
      Runs m (c :: cs) (r :: rs) m''

/-- Every call meets the condition where it is made, whatever the calls before it gave. -/
def Along (P : Map κ β → Call κ β γ ε α → Prop) : Map κ β → List (Call κ β γ ε α) → Prop
  | _, [] => True
  | m, c :: cs => P m c ∧ ∀ r m', Transact answer m c r m' → Along P m' cs

/-- The order in which the map is listed makes no difference to the call. -/
def Unordered (m : Map κ β) (c : Call κ β γ ε α) : Prop :=
  ∀ r₁ m₁ r₂ m₂, Transact answer m c r₁ m₁ → Transact answer m c r₂ m₂ → r₁ = r₂ ∧ m₁ = m₂

/-- The results of the calls on a store, and the store after them. -/
def results (step : σ → Call κ β γ ε α → Except (Failure ε) α × σ) :
    σ → List (Call κ β γ ε α) → List (Except (Failure ε) α) × σ
  | s, [] => ([], s)
  | s, c :: cs =>
    let rest := results step (step s c).2 cs
    ((step s c).1 :: rest.1, rest.2)

variable {answer}

theorem Along.mono {P Q : Map κ β → Call κ β γ ε α → Prop} (hPQ : ∀ m c, P m c → Q m c)
    {m : Map κ β} {cs : List (Call κ β γ ε α)} (h : Along answer P m cs) :
    Along answer Q m cs := by
  induction cs generalizing m with
  | nil => trivial
  | cons c cs ih => exact ⟨hPQ m c h.1, fun r m' ht => ih (h.2 r m' ht)⟩

/-- A condition that a run keeps up by an invariant. -/
theorem Along.strengthen {P Q : Map κ β → Call κ β γ ε α → Prop} {I : Map κ β → Prop}
    (hstep : ∀ m c, I m → P m c → Q m c ∧ ∀ r m', Transact answer m c r m' → I m')
    {m : Map κ β} {cs : List (Call κ β γ ε α)} (hm : I m) (h : Along answer P m cs) :
    Along answer Q m cs := by
  induction cs generalizing m with
  | nil => trivial
  | cons c cs ih =>
    obtain ⟨hc, hkeep⟩ := hstep m c hm h.1
    exact ⟨hc, fun r m' ht => ih (hkeep r m' ht) (h.2 r m' ht)⟩

/-- A store that takes every step as the map may take it takes every run so. -/
theorem runs_of_step {step : σ → Call κ β γ ε α → Except (Failure ε) α × σ}
    {R : σ → Map κ β → Prop} {P : Map κ β → Call κ β γ ε α → Prop}
    (hstep : ∀ s m c, R s m → P m c →
      ∃ m', Transact answer m c (step s c).1 m' ∧ R (step s c).2 m')
    {s : σ} {m : Map κ β} {cs : List (Call κ β γ ε α)} (hs : R s m) (h : Along answer P m cs) :
    ∃ m', Runs answer m cs (results step s cs).1 m' ∧ R (results step s cs).2 m' := by
  induction cs generalizing s m with
  | nil => exact ⟨m, .nil, hs⟩
  | cons c cs ih =>
    obtain ⟨m₁, ht, hR⟩ := hstep s m c hs h.1
    obtain ⟨m', hruns, hR'⟩ := ih hR (h.2 _ _ ht)
    exact ⟨m', .cons ht hruns, hR'⟩

/-- Calls that the order makes no difference to have one outcome. -/
theorem Runs.unique {m m₁ m₂ : Map κ β} {cs : List (Call κ β γ ε α)}
    {rs₁ rs₂ : List (Except (Failure ε) α)} (h : Along answer (Unordered answer) m cs)
    (h₁ : Runs answer m cs rs₁ m₁) (h₂ : Runs answer m cs rs₂ m₂) : rs₁ = rs₂ ∧ m₁ = m₂ := by
  induction cs generalizing m rs₁ rs₂ with
  | nil =>
    cases h₁
    cases h₂
    exact ⟨rfl, rfl⟩
  | cons c cs ih =>
    cases h₁ with
    | cons ht₁ h₁ =>
      cases h₂ with
      | cons ht₂ h₂ =>
        obtain ⟨rfl, rfl⟩ := h.1 _ _ _ _ ht₁ ht₂
        obtain ⟨rfl, rfl⟩ := ih (h.2 _ _ ht₁) h₁ h₂
        exact ⟨rfl, rfl⟩

/-! ### Functions that do not depend on the order -/

variable (answer) in
/-- The function ends in one way, in whatever order the map is listed. -/
def Fn.Settled (fn : Fn κ β γ ε α) (m : Map κ β) : Prop :=
  ∀ r₁ m₁ r₂ m₂, Ends answer fn m r₁ m₁ → Ends answer fn m r₂ m₂ → r₁ = r₂ ∧ m₁ = m₂

theorem settled_done (a : α) (m : Map κ β) :
    (.done a : Fn κ β γ ε α).Settled answer m := by
  intro r₁ m₁ r₂ m₂ h₁ h₂
  cases h₁
  cases h₂
  exact ⟨rfl, rfl⟩

theorem settled_throw (e : Failure ε) (m : Map κ β) :
    (.throw e : Fn κ β γ ε α).Settled answer m := by
  intro r₁ m₁ r₂ m₂ h₁ h₂
  cases h₁
  cases h₂
  exact ⟨rfl, rfl⟩

variable {k : κ} {v : β} {m : Map κ β}

theorem settled_get {next : γ → Fn κ β γ ε α}
    (h : (next (answer (m.lookup k))).Settled answer m) : (Fn.get k next).Settled answer m := by
  intro r₁ m₁ r₂ m₂ h₁ h₂
  cases h₁ with
  | get h₁ =>
    cases h₂ with
    | get h₂ => exact h _ _ _ _ h₁ h₂

theorem settled_set {next : Fn κ β γ ε α} (h : next.Settled answer (m.insert k v)) :
    (Fn.set k v next).Settled answer m := by
  intro r₁ m₁ r₂ m₂ h₁ h₂
  cases h₁ with
  | set h₁ =>
    cases h₂ with
    | set h₂ => exact h _ _ _ _ h₁ h₂

theorem settled_delete {next : Fn κ β γ ε α} (h : next.Settled answer (m.erase k)) :
    (Fn.delete k next).Settled answer m := by
  intro r₁ m₁ r₂ m₂ h₁ h₂
  cases h₁ with
  | delete h₁ =>
    cases h₂ with
    | delete h₂ => exact h _ _ _ _ h₁ h₂

theorem unordered_read {fn : Fn κ β γ ε α} (h : fn.reading.Settled answer m) :
    Unordered answer m (.read fn) := by
  intro r₁ m₁ r₂ m₂ h₁ h₂
  cases h₁ with
  | read h₁ =>
    cases h₂ with
    | read h₂ => exact ⟨(h _ _ _ _ h₁ h₂).1, rfl⟩

theorem unordered_mutate {fn : Fn κ β γ ε α} {commit : Commit} (h : fn.Settled answer m) :
    Unordered answer m (.mutate fn commit) := by
  intro r₁ m₁ r₂ m₂ h₁ h₂
  cases h₁ with
  | throws h₁ =>
    cases h₂ with
    | throws h₂ => exact ⟨(h _ _ _ _ h₁ h₂).1, rfl⟩
    | fails h₂ _ => cases (h _ _ _ _ h₁ h₂).1
    | resolves h₂ => cases (h _ _ _ _ h₁ h₂).1
  | fails h₁ hne =>
    cases h₂ with
    | throws h₂ => cases (h _ _ _ _ h₁ h₂).1
    | fails h₂ _ => exact ⟨rfl, rfl⟩
    | resolves h₂ => exact absurd rfl hne
  | resolves h₁ =>
    cases h₂ with
    | throws h₂ => cases (h _ _ _ _ h₁ h₂).1
    | fails _ hne => exact absurd rfl hne
    | resolves h₂ => exact h _ _ _ _ h₁ h₂

end Transact

end Haechi.Views
