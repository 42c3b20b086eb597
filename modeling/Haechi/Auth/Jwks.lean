import Haechi.Runs
import Haechi.Text.Units
import Mathlib.Data.List.Chain

/-! The JWKS cache of the JWT verifier. A verification that finds no fresh key for
its key id starts a fetch, or joins the one in flight, if the cooldown has elapsed;
the same test passes whenever no fetch has ever succeeded. -/

namespace Haechi.Auth

variable {κ : Type}

/-- The options of the verifier that time its fetches, in milliseconds. -/
structure JwksOptions where
  jwksTtlMs : ℕ
  jwksCooldownMs : ℕ

/-- The keys by id, the last of an id first, and when they were fetched. -/
structure JwksCache (κ : Type) where
  keysByKid : List (JsString × κ)
  fetchedAt : ℕ

/-- The cache has a key for the id, and is not stale. -/
def JwksCache.serves (o : JwksOptions) (cache : JwksCache κ) (kid : JsString) (now : ℕ) : Bool :=
  (cache.keysByKid.lookup kid).isSome && now - cache.fetchedAt < o.jwksTtlMs

/-- A fetch runs, has settled, and is cleared when its `finally` has run. -/
inductive FetchStatus where
  | running
  | settled (ok : Bool)
  | cleared (ok : Bool)
deriving DecidableEq

structure Fetch where
  start : ℕ
  status : FetchStatus
deriving DecidableEq

/-- A call of `resolveJwk`: it awaits a fetch, or has come to its end. -/
inductive Resolution (κ : Type) where
  | awaiting (fetch : ℕ) (kid : JsString)
  | returned (jwk : Option κ)
  | threw

/-- The verifier: its clock, its three variables, and all fetches and calls so far. -/
structure Verifier (κ : Type) where
  clock : ℕ
  cache : JwksCache κ
  lastRefetchAt : ℕ
  inflight : Option ℕ
  fetches : List Fetch
  calls : List (Resolution κ)

/-- A step. The increments are what the clock gains between its readings. -/
inductive VerifierAction (κ : Type) where
  | tick (d : ℕ)
  | resolve (kid : JsString) (d₁ d₂ d₃ : ℕ)
  | settle (i : ℕ) (keys : Option (List (JsString × κ))) (d : ℕ)
  | clear (i : ℕ)
  | resume (j : ℕ)

/-- `refreshOnce`, at the time `lastRefetchAt` is set to. -/
def refreshOnce (v : Verifier κ) (kid : JsString) : Verifier κ :=
  match v.inflight with
  | some i => { v with calls := v.calls ++ [.awaiting i kid] }
  | none =>
    { v with
      inflight := some v.fetches.length
      fetches := v.fetches ++ [⟨v.lastRefetchAt, .running⟩]
      calls := v.calls ++ [.awaiting v.fetches.length kid] }

/-- `resolveJwk` up to its only `await`. -/
def resolveJwk (o : JwksOptions) (v : Verifier κ) (kid : JsString) (d₁ d₂ d₃ : ℕ) : Verifier κ :=
  let now₁ := v.clock + d₁
  if v.cache.serves o kid now₁ then
    { v with clock := now₁, calls := v.calls ++ [.returned (v.cache.keysByKid.lookup kid)] }
  else
    let now₂ := now₁ + d₂
    if v.cache.fetchedAt = 0 ∨ o.jwksCooldownMs ≤ now₂ - v.lastRefetchAt then
      let now₃ := now₂ + d₃
      refreshOnce { v with clock := now₃, lastRefetchAt := now₃ } kid
    else
      { v with clock := now₂, calls := v.calls ++ [.returned (v.cache.keysByKid.lookup kid)] }

/-- `fetchJwks` comes to its end: with keys it replaces the cache. -/
def settleFetch (v : Verifier κ) (i : ℕ) (f : Fetch) (keys : Option (List (JsString × κ))) (d : ℕ) :
    Verifier κ :=
  match f.status, keys with
  | .running, some keys =>
    { v with
      clock := v.clock + d
      cache := ⟨keys.reverse, v.clock + d⟩
      fetches := v.fetches.set i { f with status := .settled true } }
  | .running, none =>
    { v with clock := v.clock + d, fetches := v.fetches.set i { f with status := .settled false } }
  | _, _ => v

/-- The `finally` of a fetch. -/
def clearFetch (v : Verifier κ) (i : ℕ) (f : Fetch) : Verifier κ :=
  match f.status with
  | .settled ok =>
    { v with inflight := none, fetches := v.fetches.set i { f with status := .cleared ok } }
  | _ => v

/-- `resolveJwk` after its `await`. -/
def resumeCall (v : Verifier κ) (j : ℕ) (r : Resolution κ) : Verifier κ :=
  match r with
  | .awaiting i kid =>
    match (v.fetches[i]?).map Fetch.status with
    | some (.cleared true) =>
      { v with calls := v.calls.set j (.returned (v.cache.keysByKid.lookup kid)) }
    | some (.cleared false) => { v with calls := v.calls.set j .threw }
    | _ => v
  | _ => v

def stepVerifier (o : JwksOptions) (v : Verifier κ) : VerifierAction κ → Verifier κ
  | .tick d => { v with clock := v.clock + d }
  | .resolve kid d₁ d₂ d₃ => resolveJwk o v kid d₁ d₂ d₃
  | .settle i keys d =>
    match v.fetches[i]? with
    | none => v
    | some f => settleFetch v i f keys d
  | .clear i =>
    match v.fetches[i]? with
    | none => v
    | some f => clearFetch v i f
  | .resume j =>
    match v.calls[j]? with
    | none => v
    | some r => resumeCall v j r

def startVerifier (clock : ℕ) : Verifier κ := ⟨clock, ⟨[], 0⟩, 0, none, [], []⟩

/-! ### One fetch at a time -/

def FetchStatus.isCleared : FetchStatus → Bool
  | .cleared _ => true
  | _ => false

/-- The fetch in flight is the one that is not cleared. -/
structure SingleFlight (v : Verifier κ) : Prop where
  inflight : ∀ i f, v.fetches[i]? = some f → (f.status.isCleared = false ↔ v.inflight = some i)
  bound : ∀ i, v.inflight = some i → i < v.fetches.length

variable {v : Verifier κ} {o : JwksOptions}

theorem SingleFlight.refreshOnce {v : Verifier κ} (h : SingleFlight v) (kid : JsString) :
    SingleFlight (refreshOnce v kid) := by
  rw [Auth.refreshOnce]
  split
  · exact ⟨h.inflight, h.bound⟩
  · next hnone =>
    refine ⟨fun i f hf => ?_, fun i hi => ?_⟩
    · rcases lt_trichotomy i v.fetches.length with hlt | rfl | hgt
      · have hf : v.fetches[i]? = some f := (List.getElem?_append_left hlt).symm.trans hf
        rw [h.inflight i f hf, hnone]
        simp [hlt.ne']
      · have hf : some (⟨v.lastRefetchAt, .running⟩ : Fetch) = some f := by
          simpa using hf
        obtain rfl := Option.some.inj hf
        simp [FetchStatus.isCleared]
      · have := (List.getElem?_eq_some_iff.mp hf).1
        simp at this
        omega
    · obtain rfl := Option.some.inj hi
      simp

theorem SingleFlight.resolve (h : SingleFlight v) (kid : JsString) (d₁ d₂ d₃ : ℕ) :
    SingleFlight (resolveJwk o v kid d₁ d₂ d₃) := by
  simp only [resolveJwk]
  split_ifs
  · exact ⟨h.inflight, h.bound⟩
  · refine SingleFlight.refreshOnce ?_ kid
    exact ⟨h.inflight, h.bound⟩
  · exact ⟨h.inflight, h.bound⟩

/-- The fetches after one of them has changed its status. -/
theorem getElem?_set_fetch {i j : ℕ} {f' g : Fetch}
    (hg : (v.fetches.set i f')[j]? = some g) :
    i = j ∧ g = f' ∨ i ≠ j ∧ v.fetches[j]? = some g := by
  rw [List.getElem?_set] at hg
  split_ifs at hg with hij hlt
  · exact .inl ⟨hij, (Option.some.inj hg).symm⟩
  · exact .inr ⟨hij, hg⟩

/-- A fetch that settles stays in flight. -/
theorem SingleFlight.settle (h : SingleFlight v) {i : ℕ} {f : Fetch} (hf : v.fetches[i]? = some f)
    (keys : Option (List (JsString × κ))) (d : ℕ) : SingleFlight (settleFetch v i f keys d) := by
  have hset : ∀ ok, f.status = .running → ∀ j g,
      (v.fetches.set i { f with status := .settled ok })[j]? = some g →
        (g.status.isCleared = false ↔ v.inflight = some j) := by
    intro ok hrunning j g hg
    rcases getElem?_set_fetch hg with ⟨rfl, rfl⟩ | ⟨-, hg⟩
    · rw [← h.inflight i f hf, hrunning]
      rfl
    · exact h.inflight j g hg
  unfold settleFetch
  split
  · next hrunning => exact ⟨hset true hrunning, fun j hj => by simpa using h.bound j hj⟩
  · next hrunning => exact ⟨hset false hrunning, fun j hj => by simpa using h.bound j hj⟩
  · exact h

/-- With the fetch in flight cleared, none is. -/
theorem SingleFlight.clear (h : SingleFlight v) {i : ℕ} {f : Fetch} (hf : v.fetches[i]? = some f) :
    SingleFlight (clearFetch v i f) := by
  unfold clearFetch
  split
  · next ok hsettled =>
    have hi : v.inflight = some i := (h.inflight i f hf).mp (by rw [hsettled]; rfl)
    refine ⟨fun j g hg => ?_, fun j hj => by cases hj⟩
    rcases getElem?_set_fetch hg with ⟨-, rfl⟩ | ⟨hij, hg⟩
    · simp [FetchStatus.isCleared]
    · rw [h.inflight j g hg, hi]
      simp [hij]
  · exact h

theorem SingleFlight.step (h : SingleFlight v) (a : VerifierAction κ) :
    SingleFlight (stepVerifier o v a) := by
  cases a with
  | tick d => exact ⟨h.inflight, h.bound⟩
  | resolve kid d₁ d₂ d₃ => exact h.resolve kid d₁ d₂ d₃
  | settle i keys d =>
    rw [stepVerifier]
    split
    · exact h
    · next f hf => exact h.settle hf keys d
  | clear i =>
    rw [stepVerifier]
    split
    · exact h
    · next f hf => exact h.clear hf
  | resume j =>
    rw [stepVerifier]
    split
    · exact h
    · next r hr =>
      unfold resumeCall
      split
      · split
        · exact ⟨h.inflight, h.bound⟩
        · exact ⟨h.inflight, h.bound⟩
        · exact h
      · exact h

/-- In every run no two fetches are in flight. -/
theorem singleFlight_run (clock : ℕ) (as : List (VerifierAction κ)) :
    SingleFlight (as.foldl (stepVerifier o) (startVerifier clock)) := by
  refine Allowed.invariant (fun _ a h _ => h.step a) ?_
    (Allowed.of_forall (fun _ _ => trivial) _ _)
  exact ⟨fun i f hf => (by cases hf), fun i hi => (by cases hi)⟩

/-! ### The cooldown -/

/-- A verification that starts a fetch while none has succeeded does so a cooldown
after the last start. -/
def Cooled (o : JwksOptions) (v : Verifier κ) : VerifierAction κ → Prop
  | .resolve kid d₁ d₂ d₃ =>
    v.cache.fetchedAt = 0 → v.cache.serves o kid (v.clock + d₁) = false → v.inflight = none →
      ∀ f ∈ v.fetches.getLast?, f.start + o.jwksCooldownMs ≤ v.clock + d₁ + d₂ + d₃
  | _ => True

/-- The starts are a cooldown apart, and none is after `lastRefetchAt`. -/
structure Throttled (o : JwksOptions) (v : Verifier κ) : Prop where
  spaced : (v.fetches.map Fetch.start).IsChain fun s t => s + o.jwksCooldownMs ≤ t
  started : ∀ f ∈ v.fetches, f.start ≤ v.lastRefetchAt
  refetched : v.lastRefetchAt ≤ v.clock

theorem Throttled.mono (h : Throttled o v) {v' : Verifier κ}
    (hstarts : v'.fetches.map Fetch.start = v.fetches.map Fetch.start)
    (hlast : v.lastRefetchAt ≤ v'.lastRefetchAt) (hclock : v'.lastRefetchAt ≤ v'.clock) :
    Throttled o v' := by
  refine ⟨hstarts ▸ h.spaced, fun f hf => ?_, hclock⟩
  have hmem : f.start ∈ v.fetches.map Fetch.start := hstarts ▸ List.mem_map_of_mem hf
  obtain ⟨g, hg, hstart⟩ := List.mem_map.mp hmem
  exact hstart ▸ (h.started g hg).trans hlast

/-- A fetch that starts late enough keeps the starts apart. -/
theorem Throttled.refreshOnce (h : Throttled o v) (kid : JsString) {now : ℕ}
    (hnow : v.lastRefetchAt ≤ now)
    (hlate : v.inflight = none → ∀ f ∈ v.fetches.getLast?, f.start + o.jwksCooldownMs ≤ now) :
    Throttled o (refreshOnce { v with clock := now, lastRefetchAt := now } kid) := by
  rw [Auth.refreshOnce]
  split
  · exact h.mono rfl hnow le_rfl
  · next hnone =>
    refine ⟨?_, fun f hf => ?_, le_rfl⟩
    · rw [List.map_append, List.isChain_append]
      refine ⟨h.spaced, List.isChain_singleton _, fun s hs t ht => ?_⟩
      rw [List.getLast?_map] at hs
      obtain ⟨f, hf, rfl⟩ := Option.map_eq_some_iff.mp hs
      obtain rfl := Option.some.inj ht
      exact hlate hnone f hf
    · rcases List.mem_append.mp hf with hf | hf
      · exact (h.started f hf).trans hnow
      · rw [List.mem_singleton.mp hf]

theorem Throttled.resolve (h : Throttled o v) {kid : JsString} {d₁ d₂ d₃ : ℕ}
    (hcool : Cooled o v (.resolve kid d₁ d₂ d₃)) : Throttled o (resolveJwk o v kid d₁ d₂ d₃) := by
  have hclock := h.refetched
  simp only [resolveJwk]
  split_ifs with hserves helapsed
  · exact h.mono rfl le_rfl (by show v.lastRefetchAt ≤ v.clock + d₁; omega)
  · refine h.refreshOnce kid (by omega) fun hnone f hf => ?_
    rcases helapsed with hzero | helapsed
    · exact hcool hzero (by simpa using hserves) hnone f hf
    · have := h.started f (List.mem_of_getLast? hf)
      omega
  · exact h.mono rfl le_rfl (by show v.lastRefetchAt ≤ v.clock + d₁ + d₂; omega)

theorem starts_set {i : ℕ} {f : Fetch} (hf : v.fetches[i]? = some f) (status : FetchStatus) :
    (v.fetches.set i { f with status := status }).map Fetch.start = v.fetches.map Fetch.start := by
  obtain ⟨hlt, rfl⟩ := List.getElem?_eq_some_iff.mp hf
  have hmap : i < (v.fetches.map Fetch.start).length := by simpa using hlt
  rw [List.map_set]
  exact (congrArg _ (List.getElem_map Fetch.start (h := hmap)).symm).trans
    (List.set_getElem_self hmap)

theorem Throttled.step (h : Throttled o v) (a : VerifierAction κ) (hcool : Cooled o v a) :
    Throttled o (stepVerifier o v a) := by
  have hclock := h.refetched
  cases a with
  | tick d => exact h.mono rfl le_rfl (by show v.lastRefetchAt ≤ v.clock + d; omega)
  | resolve kid d₁ d₂ d₃ => exact h.resolve hcool
  | settle i keys d =>
    rw [stepVerifier]
    split
    · exact h
    · next f hf =>
      unfold settleFetch
      split
      · exact h.mono (starts_set hf _) le_rfl (by show v.lastRefetchAt ≤ v.clock + d; omega)
      · exact h.mono (starts_set hf _) le_rfl (by show v.lastRefetchAt ≤ v.clock + d; omega)
      · exact h
  | clear i =>
    rw [stepVerifier]
    split
    · exact h
    · next f hf =>
      unfold clearFetch
      split
      · exact h.mono (starts_set hf _) le_rfl hclock
      · exact h
  | resume j =>
    rw [stepVerifier]
    split
    · exact h
    · next r hr =>
      unfold resumeCall
      split
      · split
        · exact h.mono rfl le_rfl hclock
        · exact h.mono rfl le_rfl hclock
        · exact h
      · exact h

/-- **Throttling.** In every run in which no verification starts a fetch too early
while none has succeeded, the starts of consecutive fetches are a cooldown apart;
and in every run at most one fetch is in flight. -/
theorem jwks_throttled (o : JwksOptions) (clock : ℕ) (as : List (VerifierAction κ))
    (hcool : Allowed (stepVerifier o) (Cooled o) (startVerifier clock) as) :
    let v := as.foldl (stepVerifier o) (startVerifier clock)
    ((v.fetches.map Fetch.start).IsChain fun s t => s + o.jwksCooldownMs ≤ t) ∧
      ∀ (i j : ℕ) (f g : Fetch), v.fetches[i]? = some f → v.fetches[j]? = some g →
        f.status.isCleared = false → g.status.isCleared = false → i = j := by
  intro v
  have h := hcool.invariant (fun _ a h hok => Throttled.step h a hok)
    ⟨List.isChain_nil, by rintro f ⟨⟩, Nat.zero_le _⟩
  have hflight : SingleFlight v := singleFlight_run clock as
  refine ⟨h.spaced, fun i j f g hf hg hfr hgr => ?_⟩
  exact Option.some.inj (((hflight.inflight i f hf).mp hfr).symm.trans
    ((hflight.inflight j g hg).mp hgr))

/-- A cooldown of a minute. -/
def minuteCooldown : JwksOptions := ⟨600000, 60000⟩

/-- A fetch that succeeds, and an unknown key id a minute later. -/
def rotation : List (VerifierAction Unit) :=
  [.resolve (js "a") 0 0 0, .settle 0 (some [(js "a", ())]) 10, .clear 0, .resume 0,
    .tick 60000, .resolve (js "b") 0 0 0]

theorem jwks_throttled_rotation :
    ((rotation.foldl (stepVerifier minuteCooldown) (startVerifier 1000)).fetches.map
      Fetch.start).IsChain fun s t => s + 60000 ≤ t := by
  refine (jwks_throttled minuteCooldown 1000 rotation
    ⟨?_, trivial, trivial, trivial, trivial, ?_, trivial⟩).1
  · intro _ _ _ f hf
    cases hf
  · intro hzero
    cases hzero

/-- Two verifications while the first fetches fail: the second is not held back. -/
theorem jwks_storm : ¬∀ (o : JwksOptions) (clock : ℕ) (as : List (VerifierAction Unit)),
    ((as.foldl (stepVerifier o) (startVerifier clock)).fetches.map Fetch.start).IsChain
      fun s t => s + o.jwksCooldownMs ≤ t := by
  intro h
  have h := h minuteCooldown 1000 [.resolve (js "a") 0 0 0, .settle 0 none 10, .clear 0,
    .resolve (js "a") 0 0 0]
  revert h
  decide

end Haechi.Auth
