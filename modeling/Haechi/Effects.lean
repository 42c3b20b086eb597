import Mathlib.Tactic

/-! Programs that leave events and may fail: straight-line asynchronous code in which
every awaited outcome is given. A program sees the events so far, so that writing the
head of a response twice can fail. The relation `Leads` runs a program up to events
that do not matter; it composes, so a long handler is taken step by step to the point
where the events begin to matter. The relation `Matches` compares two runs. -/

namespace Haechi

universe u

variable {ε ω : Type u} {α β γ : Type u}

/-- What fails at no step succeeds with what the steps return. -/
theorem bind_eq_ok {ε : Type*} {α β : Type} {x : Except ε α} {f : α → Except ε β} {b : β} :
    x >>= f = .ok b ↔ ∃ a, x = .ok a ∧ f a = .ok b := by
  cases x with
  | error e => exact ⟨fun h => (by cases h), fun ⟨a, h, _⟩ => (by cases h)⟩
  | ok a => exact ⟨fun h => ⟨a, rfl, h⟩, fun ⟨a', h, h'⟩ => by cases h; exact h'⟩

/-- A program over events of type `ω` that fails with `ε`. -/
def Act (ε ω α : Type u) : Type u := List ω → Except ε α × List ω

namespace Act

protected def pure (a : α) : Act ε ω α := fun s => (.ok a, s)

protected def bind (m : Act ε ω α) (f : α → Act ε ω β) : Act ε ω β := fun s =>
  match m s with
  | (.ok a, s') => f a s'
  | (.error e, s') => (.error e, s')

instance : Monad (Act ε ω) where
  pure := Act.pure
  bind := Act.bind

def raise (e : ε) : Act ε ω α := fun s => (.error e, s)

def emit (e : ω) : Act ε ω PUnit := fun s => (.ok ⟨⟩, s ++ [e])

/-- An awaited outcome. -/
def await : Except ε α → Act ε ω α
  | .ok a => Act.pure a
  | .error e => raise e

/-- `try m catch`. -/
def recover (m : Act ε ω α) (handler : ε → Act ε ω α) : Act ε ω α := fun s =>
  match m s with
  | (.ok a, s') => (.ok a, s')
  | (.error e, s') => handler e s'

/-- `try m finally emit e`. -/
def ensure (m : Act ε ω α) (e : ω) : Act ε ω α := fun s => ((m s).1, (m s).2 ++ [e])

@[simp] theorem pure_bind (a : α) (f : α → Act ε ω β) : (Pure.pure a >>= f : Act ε ω β) = f a :=
  rfl

@[simp] theorem raise_bind (e : ε) (f : α → Act ε ω β) :
    (raise e >>= f : Act ε ω β) = raise e := rfl

@[simp] theorem await_ok (a : α) : (await (.ok a) : Act ε ω α) = Pure.pure a := rfl

@[simp] theorem await_error (e : ε) : (await (.error e) : Act ε ω α) = raise e := rfl

theorem bind_assoc (m : Act ε ω α) (f : α → Act ε ω β) (g : β → Act ε ω γ) :
    m >>= f >>= g = m >>= fun a => f a >>= g := by
  funext s
  show Act.bind (Act.bind m f) g s = Act.bind m (fun a => Act.bind (f a) g) s
  simp only [Act.bind]
  rcases m s with ⟨_ | _, _⟩ <;> rfl

theorem bind_apply (m : Act ε ω α) (f : α → Act ε ω β) (s : List ω) :
    (m >>= f) s = match m s with
      | (.ok a, s') => f a s'
      | (.error e, s') => (.error e, s') := rfl

theorem emit_bind_apply (e : ω) (f : PUnit → Act ε ω β) (s : List ω) :
    (emit e >>= f : Act ε ω β) s = f ⟨⟩ (s ++ [e]) := rfl

/-! ### Running up to quiet events -/

/-- The first program is the second after some events that all are quiet. -/
def Leads (quiet : ω → Prop) (m m' : Act ε ω α) : Prop :=
  ∀ s, ∃ es, (∀ e ∈ es, quiet e) ∧ m s = m' (s ++ es)

variable {quiet : ω → Prop}

theorem Leads.refl (m : Act ε ω α) : Leads quiet m m := fun s => ⟨[], by simp, by simp⟩

theorem Leads.of_eq {m m' : Act ε ω α} (h : m = m') : Leads quiet m m' := h ▸ Leads.refl m

theorem Leads.trans {m₁ m₂ m₃ : Act ε ω α} (h : Leads quiet m₁ m₂) (h' : Leads quiet m₂ m₃) :
    Leads quiet m₁ m₃ := by
  intro s
  obtain ⟨es, hes, heq⟩ := h s
  obtain ⟨es', hes', heq'⟩ := h' (s ++ es)
  refine ⟨es ++ es', fun e he => ?_, by rw [heq, heq', List.append_assoc]⟩
  exact (List.mem_append.mp he).elim (hes e) (hes' e)

theorem Leads.bind {m m' : Act ε ω α} (h : Leads quiet m m') (f : α → Act ε ω β) :
    Leads quiet (m >>= f) (m' >>= f) := by
  intro s
  obtain ⟨es, hes, heq⟩ := h s
  exact ⟨es, hes, by rw [bind_apply, bind_apply, heq]⟩

theorem Leads.emit {e : ω} (h : quiet e) : Leads quiet (emit e : Act ε ω PUnit) (Pure.pure ⟨⟩) :=
  fun _ => ⟨[e], by simpa using h, rfl⟩

/-- A quiet event first. -/
theorem Leads.emit_bind {e : ω} (h : quiet e) (f : PUnit → Act ε ω β) :
    Leads quiet (Act.emit e >>= f) (f ⟨⟩) :=
  (Leads.emit h).bind f

/-! ### What a program can leave -/

/-- The program only adds events, and all of them are of one kind. -/
def Only (P : ω → Prop) (m : Act ε ω α) : Prop := ∀ s, ∃ es, (∀ e ∈ es, P e) ∧ (m s).2 = s ++ es

variable {P : ω → Prop}

theorem only_pure (a : α) : Only P (Pure.pure a : Act ε ω α) := fun s =>
  ⟨[], by simp, (List.append_nil s).symm⟩

theorem only_raise (e : ε) : Only P (raise e : Act ε ω α) := fun s =>
  ⟨[], by simp, (List.append_nil s).symm⟩

theorem only_await (x : Except ε α) : Only P (await x : Act ε ω α) := by
  cases x with
  | ok a => exact only_pure a
  | error e => exact only_raise e

theorem only_emit {e : ω} (h : P e) : Only P (emit e : Act ε ω PUnit) :=
  fun _ => ⟨[e], by simpa using h, rfl⟩

theorem Only.bind {m : Act ε ω α} {f : α → Act ε ω β} (hm : Only P m) (hf : ∀ a, Only P (f a)) :
    Only P (m >>= f) := by
  intro s
  obtain ⟨es, hes, heq⟩ := hm s
  rw [bind_apply]
  rcases hms : m s with ⟨e | a, s'⟩
  · exact ⟨es, hes, by simpa [hms] using heq⟩
  · obtain ⟨es', hes', heq'⟩ := hf a s'
    have hs' : s' = s ++ es := by simpa [hms] using heq
    refine ⟨es ++ es', fun e he => (List.mem_append.mp he).elim (hes e) (hes' e), ?_⟩
    show (f a s').2 = s ++ (es ++ es')
    rw [heq', hs', List.append_assoc]

theorem Only.recover {m : Act ε ω α} {handler : ε → Act ε ω α} (hm : Only P m)
    (hh : ∀ e, Only P (handler e)) : Only P (m.recover handler) := by
  intro s
  obtain ⟨es, hes, heq⟩ := hm s
  rw [Act.recover]
  rcases hms : m s with ⟨e | a, s'⟩
  · obtain ⟨es', hes', heq'⟩ := hh e s'
    have hs' : s' = s ++ es := by simpa [hms] using heq
    refine ⟨es ++ es', fun e he => (List.mem_append.mp he).elim (hes e) (hes' e), ?_⟩
    show (handler e s').2 = s ++ (es ++ es')
    rw [heq', hs', List.append_assoc]
  · exact ⟨es, hes, by simpa [hms] using heq⟩

theorem Only.ensure {m : Act ε ω α} (hm : Only P m) {e : ω} (he : P e) : Only P (m.ensure e) := by
  intro s
  obtain ⟨es, hes, heq⟩ := hm s
  refine ⟨es ++ [e], fun e' he' => (List.mem_append.mp he').elim (hes e') ?_, ?_⟩
  · intro he'
    rwa [List.mem_singleton.mp he']
  · rw [Act.ensure, heq, List.append_assoc]

theorem Only.mono {Q : ω → Prop} {m : Act ε ω α} (h : Only P m) (hPQ : ∀ e, P e → Q e) :
    Only Q m := fun s => by
  obtain ⟨es, hes, heq⟩ := h s
  exact ⟨es, fun e he => hPQ e (hes e he), heq⟩

/-- What is left before stays. -/
theorem Only.mem {m : Act ε ω α} (h : Only P m) {s : List ω} {e : ω} (he : e ∈ s) :
    e ∈ (m s).2 := by
  obtain ⟨es, -, heq⟩ := h s
  exact heq ▸ List.mem_append_left _ he

theorem Only.mem_recover {m : Act ε ω α} {handler : ε → Act ε ω α} (hh : ∀ e, Only P (handler e))
    {s : List ω} {e : ω} (he : e ∈ (m s).2) : e ∈ (m.recover handler s).2 := by
  rw [Act.recover]
  rcases hms : m s with ⟨err | a, s'⟩
  · rw [hms] at he
    exact (hh err).mem he
  · rwa [hms] at he

/-- From no events on there is one kind only. -/
theorem Only.forall_mem {m : Act ε ω α} (h : Only P m) {s : List ω} (hs : ∀ e ∈ s, P e) :
    ∀ e ∈ (m s).2, P e := by
  obtain ⟨es, hes, heq⟩ := h s
  rw [heq]
  exact fun e he => (List.mem_append.mp he).elim (hs e) (hes e)

/-! ### What a program can return -/

/-- What the program returns, when it returns, has the property. -/
def Gives (P : α → Prop) (m : Act ε ω α) : Prop := ∀ s a, (m s).1 = .ok a → P a

variable {Q : β → Prop}

theorem gives_pure {P : α → Prop} {a : α} (h : P a) : Gives P (Pure.pure a : Act ε ω α) := by
  intro s b hb
  cases hb
  exact h

theorem Gives.bind {m : Act ε ω α} {f : α → Act ε ω β} (h : ∀ a, Gives Q (f a)) :
    Gives Q (m >>= f) := by
  intro s b hb
  rw [bind_apply] at hb
  rcases hms : m s with ⟨e | a, s'⟩
  · simp only [hms] at hb
    cases hb
  · simp only [hms] at hb
    exact h a s' b hb

/-! ### Two runs -/

/-- Two outcomes are related values, or both are failures. -/
def Agree (Q : α → β → Prop) : Except ε α → Except ε β → Prop
  | .ok a, .ok b => Q a b
  | .error _, .error _ => True
  | _, _ => False

theorem Agree.refl {Q : α → α → Prop} (hQ : ∀ a, Q a a) (x : Except ε α) : Agree Q x x := by
  cases x with
  | ok a => exact hQ a
  | error e => trivial

/-- From events that correspond the two programs come to events that correspond, and
to outcomes that agree. -/
def Matches (R : ω → ω → Prop) (Q : α → β → Prop) (m : Act ε ω α) (m' : Act ε ω β) : Prop :=
  ∀ s s', List.Forall₂ R s s' → List.Forall₂ R (m s).2 (m' s').2 ∧ Agree Q (m s).1 (m' s').1

section Matches

variable {R : ω → ω → Prop} {δ : Type u} {Q : α → β → Prop} {S : γ → δ → Prop}

theorem matches_pure {a : α} {b : β} (h : Q a b) :
    Matches R Q (Pure.pure a : Act ε ω α) (Pure.pure b : Act ε ω β) := fun _ _ hs => ⟨hs, h⟩

theorem matches_await {x : Except ε α} {y : Except ε β} (h : Agree Q x y) :
    Matches R Q (await x : Act ε ω α) (await y) := by
  intro s s' hs
  cases x <;> cases y <;> exact ⟨hs, h⟩

theorem Matches.bind {m : Act ε ω α} {m' : Act ε ω β} {f : α → Act ε ω γ} {f' : β → Act ε ω δ}
    (hm : Matches R Q m m') (hf : ∀ a b, Q a b → Matches R S (f a) (f' b)) :
    Matches R S (m >>= f) (m' >>= f') := by
  intro s s' hs
  obtain ⟨hevents, houtcome⟩ := hm s s' hs
  rw [bind_apply, bind_apply]
  rcases hms : m s with ⟨_ | a, t⟩ <;> rcases hms' : m' s' with ⟨_ | b, t'⟩ <;>
    rw [hms, hms'] at hevents houtcome
  · exact ⟨hevents, trivial⟩
  · exact houtcome.elim
  · exact houtcome.elim
  · exact hf a b houtcome t t' hevents

/-- The events of two runs that start with none. -/
theorem Matches.forall₂ {m : Act ε ω α} {m' : Act ε ω β} (h : Matches R Q m m') :
    List.Forall₂ R (m []).2 (m' []).2 := (h [] [] .nil).1

end Matches

end Act

end Haechi
