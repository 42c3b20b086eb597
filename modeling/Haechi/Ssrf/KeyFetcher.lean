import Haechi.Runs
import Haechi.Ssrf.GuardedFetch

/-! The guarded key fetcher: a cached body, one fetch at a time, and a cooldown between the
starts of two. The calls of `get` interleave with the fetches in every way the awaits allow. -/

namespace Haechi.Ssrf

open Text Json

/-- What `createGuardedKeyFetcher` is called with; a number that is not finite is `none`. -/
structure KeyMaterial where
  url : JsString
  ttlMs : Option ℚ := some 300000
  cooldownMs : Option ℚ := some 60000
  fetchOptions : FetchOptions := {}

/-- The options it accepts. -/
structure KeyFetcherOptions (w : Web) where
  url : JsString
  ttlMs : ℚ≥0
  cooldownMs : ℚ≥0
  fetchOptions : FetchOptions
  https : ∃ parsed, parseHttpsUrl w url (js "keyMaterial.url") = .ok parsed

def nonNegative (x : Option ℚ) : Option ℚ≥0 :=
  x.bind fun q => if h : 0 ≤ q then some ⟨q, h⟩ else none

/-- The checks of `createGuardedKeyFetcher`. -/
def createGuardedKeyFetcher (w : Web) (m : KeyMaterial) : Except Failure (KeyFetcherOptions w) :=
  match hurl : parseHttpsUrl w m.url (js "keyMaterial.url"), nonNegative m.ttlMs,
      nonNegative m.cooldownMs with
  | .error e, _, _ => .error e
  | .ok _, none, _ => .error (.error (js "keyMaterial.ttlMs must be a non-negative number"))
  | .ok _, some _, none =>
    .error (.error (js "keyMaterial.cooldownMs must be a non-negative number"))
  | .ok _, some ttlMs, some cooldownMs =>
    .ok ⟨m.url, ttlMs, cooldownMs, { m.fetchOptions with label := js "keyMaterial.url" }, _, hurl⟩

/-! ### The fetcher -/

/-- A fetch runs, has come to its result, and has landed when its callback has run. -/
inductive FetchStatus where
  | running
  | completed (result : Except Failure JsString)
  | landed (result : Except Failure JsString)

/-- A fetch, and when it started. -/
structure KeyFetch where
  start : ℚ
  status : FetchStatus

/-- A call of `get` awaits a fetch, or has come to its end. -/
inductive GetOutcome where
  | awaiting (fetch : ℕ)
  | returned (text : JsString)
  | threw (error : Failure)

/-- A call of `get`, and how many fetches had succeeded when it was made. -/
structure GetCall where
  seen : ℕ
  outcome : GetOutcome

/-- The clock as it was last read, the four variables (`lastAttemptAt` is `none` for
`-Infinity`), all fetches so far, the bodies of those that have succeeded in the order in
which they did, and all calls so far. -/
structure KeyFetcher where
  clock : ℚ
  cache : Option JsString
  fetchedAt : ℚ
  lastAttemptAt : Option ℚ
  inflight : Option ℕ
  fetches : List KeyFetch
  bodies : List JsString
  calls : List GetCall

/-- A step. The increments are what the clock has gained when it is read. -/
inductive FetcherAction where
  | get (d : ℚ≥0)
  | complete (i : ℕ) (net : Answers)
  | land (i : ℕ) (d : ℚ≥0)
  | resume (j : ℕ)

namespace KeyFetcher

/-- A new call, and what has come of it. -/
def answer (f : KeyFetcher) (outcome : GetOutcome) : KeyFetcher :=
  { f with calls := f.calls ++ [⟨f.bodies.length, outcome⟩] }

/-- The cached body, stale or not. -/
def fromCache (f : KeyFetcher) : GetOutcome :=
  f.cache.elim (.threw (.error (js "key material fetch is cooling down"))) .returned

variable {w : Web}

def fresh (o : KeyFetcherOptions w) (f : KeyFetcher) (t : ℚ) : Bool :=
  f.cache.isSome && t - f.fetchedAt < o.ttlMs

def coolingDown (o : KeyFetcherOptions w) (f : KeyFetcher) (t : ℚ) : Bool :=
  f.lastAttemptAt.any fun last => t - last < o.cooldownMs

/-- `get`, up to its `await`. -/
def get (o : KeyFetcherOptions w) (before : KeyFetcher) (d : ℚ≥0) : KeyFetcher :=
  let t := before.clock + d
  let f := { before with clock := t }
  if f.fresh o t then f.answer f.fromCache
  else
    match f.inflight with
    | some i => f.answer (.awaiting i)
    | none =>
      if f.coolingDown o t then f.answer f.fromCache
      else
        { f.answer (.awaiting f.fetches.length) with
          lastAttemptAt := some t
          inflight := some f.fetches.length
          fetches := f.fetches ++ [⟨t, .running⟩] }

/-- The fetch comes to its result. -/
def complete (o : KeyFetcherOptions w) (f : KeyFetcher) (i : ℕ) (net : Answers) : KeyFetcher :=
  match f.fetches[i]? with
  | some ⟨start, .running⟩ =>
    let result := guardedFetch w o.fetchOptions o.url net
    { f with
      fetches := f.fetches.set i ⟨start, .completed result⟩
      bodies := f.bodies ++ result.toOption.toList }
  | _ => f

/-- The callbacks of `then`. -/
def land (f : KeyFetcher) (i : ℕ) (d : ℚ≥0) : KeyFetcher :=
  match f.fetches[i]? with
  | some ⟨start, .completed (.ok text)⟩ =>
    { f with
      clock := f.clock + d
      cache := some text
      fetchedAt := f.clock + d
      inflight := none
      fetches := f.fetches.set i ⟨start, .landed (.ok text)⟩ }
  | some ⟨start, .completed (.error e)⟩ =>
    { f with inflight := none, fetches := f.fetches.set i ⟨start, .landed (.error e)⟩ }
  | _ => f

/-- What a call that awaits a fetch comes to. -/
def settledOutcome : Except Failure JsString → GetOutcome
  | .ok text => .returned text
  | .error e => .threw e

/-- `get` after its `await`. -/
def resume (f : KeyFetcher) (j : ℕ) : KeyFetcher :=
  match f.calls[j]? with
  | some ⟨seen, .awaiting i⟩ =>
    match f.fetches[i]? with
    | some ⟨_, .landed result⟩ => { f with calls := f.calls.set j ⟨seen, settledOutcome result⟩ }
    | _ => f
  | _ => f

def step (o : KeyFetcherOptions w) (f : KeyFetcher) : FetcherAction → KeyFetcher
  | .get d => f.get o d
  | .complete i net => f.complete o i net
  | .land i d => f.land i d
  | .resume j => f.resume j

def initial (clock : ℚ) : KeyFetcher := ⟨clock, none, 0, none, none, [], [], []⟩

/-! ### What a step can do -/

/-- The steps, each with the guards that let it happen. -/
inductive Moves (o : KeyFetcherOptions w) (f : KeyFetcher) : KeyFetcher → Prop
  | unchanged : Moves o f f
  | cached (t : ℚ) (text : JsString) (clock : f.clock ≤ t) (cache : f.cache = some text)
      (idle : f.inflight = none ∨ t - f.fetchedAt < o.ttlMs) :
      Moves o f (answer { f with clock := t } (.returned text))
  | refused (t : ℚ) (e : Failure) (clock : f.clock ≤ t) :
      Moves o f (answer { f with clock := t } (.threw e))
  | joined (t : ℚ) (i : ℕ) (clock : f.clock ≤ t) (flight : f.inflight = some i) :
      Moves o f (answer { f with clock := t } (.awaiting i))
  | started (t : ℚ) (clock : f.clock ≤ t) (idle : f.inflight = none)
      (stale : ∀ text, f.cache = some text → o.ttlMs ≤ t - f.fetchedAt)
      (cool : ∀ last, f.lastAttemptAt = some last → last + o.cooldownMs ≤ t) :
      Moves o f { answer { f with clock := t } (.awaiting f.fetches.length) with
        lastAttemptAt := some t
        inflight := some f.fetches.length
        fetches := f.fetches ++ [⟨t, .running⟩] }
  | completed (i : ℕ) (start : ℚ) (result : Except Failure JsString)
      (running : f.fetches[i]? = some ⟨start, .running⟩)
      (fetched : ∃ net, result = guardedFetch w o.fetchOptions o.url net) :
      Moves o f { f with
        fetches := f.fetches.set i ⟨start, .completed result⟩
        bodies := f.bodies ++ result.toOption.toList }
  | landed (i : ℕ) (start t : ℚ) (text : JsString) (clock : f.clock ≤ t)
      (done : f.fetches[i]? = some ⟨start, .completed (.ok text)⟩) :
      Moves o f { f with
        clock := t
        cache := some text
        fetchedAt := t
        inflight := none
        fetches := f.fetches.set i ⟨start, .landed (.ok text)⟩ }
  | failed (i : ℕ) (start : ℚ) (e : Failure)
      (done : f.fetches[i]? = some ⟨start, .completed (.error e)⟩) :
      Moves o f { f with inflight := none, fetches := f.fetches.set i ⟨start, .landed (.error e)⟩ }
  | resumed (j seen i : ℕ) (start : ℚ) (result : Except Failure JsString)
      (call : f.calls[j]? = some ⟨seen, .awaiting i⟩)
      (done : f.fetches[i]? = some ⟨start, .landed result⟩) :
      Moves o f { f with calls := f.calls.set j ⟨seen, settledOutcome result⟩ }

variable {o : KeyFetcherOptions w} {f f' : KeyFetcher}

/-- The cache is not fresh, or the cooldown is over. -/
theorem stale_of_not_fresh {t : ℚ} (h : f.fresh o t = false) (text : JsString)
    (hcache : f.cache = some text) : o.ttlMs ≤ t - f.fetchedAt := by
  simpa [fresh, hcache] using h

theorem cool_of_not_coolingDown {t : ℚ} (h : f.coolingDown o t = false) (last : ℚ)
    (hlast : f.lastAttemptAt = some last) : last + o.cooldownMs ≤ t := by
  have hle : (o.cooldownMs : ℚ) ≤ t - last := by simpa [coolingDown, hlast] using h
  linarith

theorem fromCache_cases (f : KeyFetcher) :
    (∃ e, f.fromCache = .threw e) ∨ ∃ text, f.cache = some text ∧ f.fromCache = .returned text := by
  unfold fromCache
  cases f.cache with
  | none => exact .inl ⟨_, rfl⟩
  | some text => exact .inr ⟨text, rfl, rfl⟩

/-- What `get` gives of the cache. -/
theorem fromCache_moves {t : ℚ} (hclock : f.clock ≤ t)
    (hidle : f.inflight = none ∨ f.fresh o t = true) :
    Moves o f (answer { f with clock := t } f.fromCache) := by
  rcases f.fromCache_cases with ⟨e, hthrew⟩ | ⟨text, hcache, hreturned⟩
  · rw [hthrew]
    exact .refused t e hclock
  · rw [hreturned]
    apply Moves.cached t text hclock hcache
    apply hidle.imp_right
    intro hfresh
    simpa [fresh, hcache] using hfresh

theorem get_moves (d : ℚ≥0) : Moves o f (f.get o d) := by
  have hclock : f.clock ≤ f.clock + d := le_add_of_nonneg_right d.coe_nonneg
  unfold get
  simp only
  split
  · next hfresh => exact fromCache_moves hclock (.inr hfresh)
  · next hfresh =>
    split
    · next i hflight => exact .joined _ i hclock hflight
    · next hidle =>
      split
      · exact fromCache_moves hclock (.inl hidle)
      · next hcool =>
        rw [Bool.not_eq_true] at hfresh hcool
        exact .started _ hclock hidle (stale_of_not_fresh hfresh) (cool_of_not_coolingDown hcool)

theorem step_moves (a : FetcherAction) : Moves o f (step o f a) := by
  cases a with
  | get d => exact get_moves d
  | complete i net =>
    simp only [step, complete]
    split
    · next start hrunning => exact .completed i start _ hrunning ⟨net, rfl⟩
    · exact .unchanged
  | land i d =>
    simp only [step, land]
    split
    · next start text hdone => exact .landed i start _ text (le_add_of_nonneg_right d.coe_nonneg) hdone
    · next start e hdone => exact .failed i start e hdone
    · exact .unchanged
  | resume j =>
    simp only [step, resume]
    split
    · next seen i hcall =>
      split
      · next start result hdone => exact .resumed j seen i start result hcall hdone
      · exact .unchanged
    · exact .unchanged

end KeyFetcher

namespace KeyFetch

/-- The callback of the fetch has not run. -/
def inFlight (x : KeyFetch) : Bool :=
  match x.status with
  | .landed _ => false
  | _ => true

/-- The body of a fetch that has succeeded. -/
def body (x : KeyFetch) : Option JsString :=
  match x.status with
  | .running => none
  | .completed result => result.toOption
  | .landed result => result.toOption

end KeyFetch

namespace KeyFetcher

variable {w : Web} {o : KeyFetcherOptions w} {f f' : KeyFetcher}

/-! ### One fetch at a time -/

section OneFlight

variable {inflight : Option ℕ} {fetches : List KeyFetch} {i : ℕ} {x x' : KeyFetch}

/-- The fetch in flight is the one whose callback has not run. -/
structure OneFlight (inflight : Option ℕ) (fetches : List KeyFetch) : Prop where
  status : ∀ i x, fetches[i]? = some x → (x.inFlight = true ↔ inflight = some i)
  bound : ∀ i, inflight = some i → i < fetches.length

theorem OneFlight.start (h : OneFlight none fetches) (t : ℚ) :
    OneFlight (some fetches.length) (fetches ++ [⟨t, .running⟩]) := by
  constructor
  · intro i x hx
    rcases getElem?_concat_eq_some.mp hx with hx | ⟨rfl, rfl⟩
    · have hlt := (List.getElem?_eq_some_iff.mp hx).1
      have hidle := h.status i x hx
      simp [hidle, hlt.ne']
    · simp [KeyFetch.inFlight]
  · intro i hi
    cases hi
    simp

theorem OneFlight.complete (h : OneFlight inflight fetches) (hx : fetches[i]? = some x)
    (hflight : x.inFlight = true) (hflight' : x'.inFlight = true) :
    OneFlight inflight (fetches.set i x') := by
  have hi := (h.status i x hx).mp hflight
  constructor
  · intro j y hy
    rcases getElem?_set_eq_some hy with ⟨rfl, rfl⟩ | ⟨-, hy⟩
    · exact iff_of_true hflight' hi
    · exact h.status j y hy
  · intro j hj
    rw [List.length_set]
    exact h.bound j hj

theorem OneFlight.land (h : OneFlight inflight fetches) (hx : fetches[i]? = some x)
    (hflight : x.inFlight = true) (hflight' : x'.inFlight = false) :
    OneFlight none (fetches.set i x') := by
  have hi := (h.status i x hx).mp hflight
  constructor
  · intro j y hy
    rcases getElem?_set_eq_some hy with ⟨rfl, rfl⟩ | ⟨hij, hy⟩
    · simp [hflight']
    · have hother := h.status j y hy
      simp [hother, hi, hij]
  · intro j hj
    cases hj

theorem OneFlight.moves (h : OneFlight f.inflight f.fetches) (hm : Moves o f f') :
    OneFlight f'.inflight f'.fetches := by
  cases hm with
  | unchanged => exact h
  | cached t text => exact h
  | refused t e => exact h
  | joined t i => exact h
  | started t _ hidle => exact (hidle ▸ h).start t
  | completed i start result hrunning => exact h.complete hrunning rfl rfl
  | landed i start t text _ hdone => exact h.land hdone rfl rfl
  | failed i start e hdone => exact h.land hdone rfl rfl
  | resumed j seen i start result => exact h

/-- No two fetches are in flight. -/
theorem OneFlight.unique (h : OneFlight inflight fetches) {j : ℕ} {y : KeyFetch}
    (hx : fetches[i]? = some x) (hy : fetches[j]? = some y) (hflight : x.inFlight = true)
    (hflight' : y.inFlight = true) : i = j := by
  have hi := (h.status i x hx).mp hflight
  have hj := (h.status j y hy).mp hflight'
  exact Option.some.inj (hi.symm.trans hj)

end OneFlight

/-! ### The cooldown -/

/-- The starts are a cooldown apart, and the last of them is the last attempt. -/
structure Spaced (cooldownMs : ℚ) (lastAttemptAt : Option ℚ) (starts : List ℚ) : Prop where
  apart : starts.IsChain fun s t => s + cooldownMs ≤ t
  last : ∀ s ∈ starts.getLast?, lastAttemptAt = some s

theorem Spaced.start {cooldownMs t : ℚ} {lastAttemptAt : Option ℚ} {starts : List ℚ}
    (h : Spaced cooldownMs lastAttemptAt starts)
    (hcool : ∀ last, lastAttemptAt = some last → last + cooldownMs ≤ t) :
    Spaced cooldownMs (some t) (starts ++ [t]) := by
  constructor
  · rw [List.isChain_append]
    refine ⟨h.apart, List.isChain_singleton t, ?_⟩
    intro s hs t' ht'
    obtain rfl := Option.some.inj ht'
    exact hcool s (h.last s hs)
  · intro s hs
    simpa using hs

/-- A fetch keeps its start, whatever becomes of it. -/
theorem starts_set {fetches : List KeyFetch} {i : ℕ} {start : ℚ} {status : FetchStatus}
    (hx : fetches[i]? = some ⟨start, status⟩) (status' : FetchStatus) :
    (fetches.set i ⟨start, status'⟩).map KeyFetch.start = fetches.map KeyFetch.start := by
  apply List.ext_getElem?
  intro j
  rw [List.getElem?_map, List.getElem?_map, List.getElem?_set]
  split_ifs with hij hlt
  · subst hij
    rw [hx]
    rfl
  · subst hij
    rw [List.getElem?_eq_none (not_lt.mp hlt)] at hx
    cases hx
  · rfl

theorem Spaced.moves (h : Spaced o.cooldownMs f.lastAttemptAt (f.fetches.map KeyFetch.start))
    (hm : Moves o f f') :
    Spaced o.cooldownMs f'.lastAttemptAt (f'.fetches.map KeyFetch.start) := by
  cases hm with
  | unchanged => exact h
  | cached t text => exact h
  | refused t e => exact h
  | joined t i => exact h
  | started t _ _ _ hcool =>
    rw [List.map_append]
    exact h.start hcool
  | completed i start result hrunning => exact (starts_set hrunning _).symm ▸ h
  | landed i start t text _ hdone => exact (starts_set hdone _).symm ▸ h
  | failed i start e hdone => exact (starts_set hdone _).symm ▸ h
  | resumed j seen i start result => exact h

/-! ### The cache -/

/-- The body of a fetch whose callback is still to run. -/
def arrived (x : KeyFetch) : Option JsString :=
  match x.status with
  | .completed result => result.toOption
  | _ => none

/-- The body that the callback of the fetch in flight will store. -/
def pending (inflight : Option ℕ) (fetches : List KeyFetch) : Option JsString :=
  inflight.bind fun i => fetches[i]?.bind arrived

/-- The cache is the last body but one that is pending, and is not fresh while a fetch is in
flight. -/
structure Cached (o : KeyFetcherOptions w) (f : KeyFetcher) : Prop where
  stale : ∀ i text, f.inflight = some i → f.cache = some text → o.ttlMs ≤ f.clock - f.fetchedAt
  latest : ∃ before, f.bodies = before ++ (pending f.inflight f.fetches).toList ∧
    f.cache = before.getLast?

theorem pending_set {fetches : List KeyFetch} {i : ℕ} {x x' : KeyFetch}
    (hx : fetches[i]? = some x) : pending (some i) (fetches.set i x') = arrived x' := by
  have hlt := (List.getElem?_eq_some_iff.mp hx).1
  simp [pending, List.getElem?_set_self hlt]

/-- Time passing keeps what is stale so. -/
theorem Cached.later (h : Cached o f) {t : ℚ} (ht : f.clock ≤ t) {outcome : GetOutcome} :
    Cached o (answer { f with clock := t } outcome) := by
  refine ⟨fun i text hi htext => ?_, h.latest⟩
  have hstale := h.stale i text hi htext
  have hage : f.clock - f.fetchedAt ≤ t - f.fetchedAt := sub_le_sub_right ht _
  exact hstale.trans hage

theorem Cached.moves (h : Cached o f) (hflight : OneFlight f.inflight f.fetches)
    (hm : Moves o f f') : Cached o f' := by
  obtain ⟨before, hbodies, hcache⟩ := h.latest
  cases hm with
  | unchanged => exact h
  | cached t text ht => exact h.later ht
  | refused t e ht => exact h.later ht
  | joined t i ht => exact h.later ht
  | started t ht hidle hstale =>
    have hold : pending f.inflight f.fetches = none := by simp [pending, hidle]
    have hnew : pending (some f.fetches.length) (f.fetches ++ [⟨t, .running⟩]) = none := by
      simp [pending, arrived]
    refine ⟨fun i text _ htext => hstale text htext, before, ?_, hcache⟩
    simp only [hnew, ← hold]
    exact hbodies
  | completed i start result hrunning =>
    have hi := (hflight.status i _ hrunning).mp rfl
    have hold : pending f.inflight f.fetches = none := by
      simp [pending, hi, hrunning, arrived]
    have hnew : pending f.inflight (f.fetches.set i ⟨start, .completed result⟩) =
        result.toOption := by
      rw [hi, pending_set hrunning]
      rfl
    refine ⟨h.stale, f.bodies, by simp only [hnew], ?_⟩
    rw [hbodies, hold, hcache]
    simp
  | landed i start t text _ hdone =>
    have hi := (hflight.status i _ hdone).mp rfl
    have hold : pending f.inflight f.fetches = some text := by
      simp [pending, hi, hdone, arrived, Except.toOption]
    refine ⟨fun j _ hj => (by cases hj), f.bodies, by simp [pending], ?_⟩
    rw [hbodies, hold]
    simp
  | failed i start e hdone =>
    have hi := (hflight.status i _ hdone).mp rfl
    have hold : pending f.inflight f.fetches = none := by
      simp [pending, hi, hdone, arrived, Except.toOption]
    refine ⟨fun j _ hj => (by cases hj), before, ?_, hcache⟩
    rw [hbodies, hold]
    simp [pending]
  | resumed j seen i start result => exact ⟨h.stale, before, hbodies, hcache⟩

/-! ### What a call returns -/

/-- The text is the last of the bodies that the call has seen, or a later one. -/
def Recent (bodies : List JsString) (seen : ℕ) (text : JsString) : Prop :=
  ∃ k, bodies[k]? = some text ∧ seen ≤ k + 1

theorem Recent.append {bodies : List JsString} {seen : ℕ} {text : JsString}
    (h : Recent bodies seen text) (more : List JsString) : Recent (bodies ++ more) seen text := by
  obtain ⟨k, hk, hseen⟩ := h
  have hlt := (List.getElem?_eq_some_iff.mp hk).1
  exact ⟨k, by rw [List.getElem?_append_left hlt, hk], hseen⟩

theorem recent_concat {bodies : List JsString} {seen : ℕ} (h : seen ≤ bodies.length + 1)
    (text : JsString) : Recent (bodies ++ [text]) seen text :=
  ⟨bodies.length, by simp, h⟩

theorem recent_last {bodies : List JsString} {text : JsString} (h : bodies.getLast? = some text) :
    Recent bodies bodies.length text := by
  rw [List.getLast?_eq_getElem?] at h
  exact ⟨bodies.length - 1, h, by omega⟩

theorem arrived_of_inFlight {x : KeyFetch} (h : x.inFlight = true) : arrived x = x.body := by
  obtain ⟨start, status⟩ := x
  cases status with
  | running => rfl
  | completed result => rfl
  | landed result => cases h

/-- A call gives a recent body, if it gives one. -/
def Served (bodies : List JsString) (fetches : List KeyFetch) (c : GetCall) : Prop :=
  match c.outcome with
  | .returned text => Recent bodies c.seen text
  | .awaiting i => c.seen ≤ bodies.length ∧ ∃ x, fetches[i]? = some x ∧
      ∀ text, x.body = some text → Recent bodies c.seen text
  | .threw _ => True

theorem Served.start {bodies : List JsString} {fetches : List KeyFetch} {c : GetCall}
    (h : Served bodies fetches c) (x : KeyFetch) : Served bodies (fetches ++ [x]) c := by
  unfold Served at h ⊢
  split
  · next text houtcome => simpa [houtcome] using h
  · next i houtcome =>
    simp only [houtcome] at h
    obtain ⟨hseen, y, hy, hbody⟩ := h
    have hlt := (List.getElem?_eq_some_iff.mp hy).1
    exact ⟨hseen, y, by rw [List.getElem?_append_left hlt, hy], hbody⟩
  · trivial

/-- A fetch goes on, and what it has fetched is the last body. -/
theorem Served.set {bodies : List JsString} {fetches : List KeyFetch} {c : GetCall}
    (h : Served bodies fetches c) {i : ℕ} {x : KeyFetch} (x' : KeyFetch) (hx : fetches[i]? = some x)
    (more : List JsString) (hbody : x'.body = x.body ∧ more = [] ∨ more = x'.body.toList) :
    Served (bodies ++ more) (fetches.set i x') c := by
  unfold Served at h ⊢
  split
  · next text houtcome =>
    simp only [houtcome] at h
    exact h.append more
  · next j houtcome =>
    simp only [houtcome] at h
    obtain ⟨hseen, y, hy, hrecent⟩ := h
    refine ⟨by rw [List.length_append]; omega, ?_⟩
    by_cases hij : i = j
    · subst hij
      have hlt := (List.getElem?_eq_some_iff.mp hx).1
      refine ⟨x', List.getElem?_set_self hlt, fun text htext => ?_⟩
      rcases hbody with ⟨hsame, rfl⟩ | rfl
      · obtain rfl : x = y := Option.some.inj (hx.symm.trans hy)
        exact (hrecent text (hsame ▸ htext)).append []
      · rw [htext]
        exact recent_concat (by omega) text
    · exact ⟨y, by rw [List.getElem?_set_ne hij, hy], fun text htext => (hrecent text htext).append more⟩
  · trivial

theorem Served.moves (h : ∀ c ∈ f.calls, Served f.bodies f.fetches c) (hcached : Cached o f)
    (hflight : OneFlight f.inflight f.fetches) (hm : Moves o f f') :
    ∀ c ∈ f'.calls, Served f'.bodies f'.fetches c := by
  obtain ⟨before, hbodies, hcache⟩ := hcached.latest
  have hanswer : ∀ {outcome}, Served f.bodies f.fetches ⟨f.bodies.length, outcome⟩ →
      ∀ c ∈ f.calls ++ [⟨f.bodies.length, outcome⟩], Served f.bodies f.fetches c := by
    intro outcome hnew c hc
    rcases List.mem_append.mp hc with hc | hc
    · exact h c hc
    · rw [List.mem_singleton.mp hc]
      exact hnew
  cases hm with
  | unchanged => exact h
  | cached t text ht htext hidle =>
    apply hanswer
    -- A fresh cache rules out a fetch in flight, so the cache is the last body.
    have hnone : f.inflight = none := by
      rcases hidle with hidle | hfresh
      · exact hidle
      · rcases hi : f.inflight with _ | i
        · rfl
        · have hstale := hcached.stale i text hi htext
          linarith
    have hbefore : f.bodies = before := by simpa [hnone, pending] using hbodies
    apply recent_last
    rw [hbefore, ← hcache, htext]
  | refused t e => exact hanswer trivial
  | joined t i _ hi =>
    apply hanswer
    have hx := List.getElem?_eq_getElem (hflight.bound i hi)
    refine ⟨le_rfl, _, hx, fun text htext => ?_⟩
    have harrived := arrived_of_inFlight ((hflight.status i _ hx).mpr hi)
    have hpending : pending f.inflight f.fetches = some text := by
      simp [pending, hi, hx, harrived, htext]
    apply recent_last
    rw [hbodies, hpending]
    simp
  | started t _ hidle =>
    intro c hc
    rcases List.mem_append.mp hc with hc | hc
    · exact (h c hc).start _
    · rw [List.mem_singleton.mp hc]
      exact ⟨le_rfl, _, List.getElem?_concat_length, fun text htext => (by cases htext)⟩
  | completed i start result hrunning =>
    exact fun c hc => (h c hc).set ⟨start, .completed result⟩ hrunning _ (.inr rfl)
  | landed i start t text _ hdone =>
    intro c hc
    have hset := (h c hc).set ⟨start, .landed (.ok text)⟩ hdone [] (.inl ⟨rfl, rfl⟩)
    rwa [List.append_nil] at hset
  | failed i start e hdone =>
    intro c hc
    have hset := (h c hc).set ⟨start, .landed (.error e)⟩ hdone [] (.inl ⟨rfl, rfl⟩)
    rwa [List.append_nil] at hset
  | resumed j seen i start result hcall hdone =>
    intro c hc
    rcases List.mem_or_eq_of_mem_set hc with hc | rfl
    · exact h c hc
    · obtain ⟨-, x, hx, hrecent⟩ := h _ (List.mem_of_getElem? hcall)
      obtain rfl : x = ⟨start, .landed result⟩ := Option.some.inj (hx.symm.trans hdone)
      cases result with
      | ok text => exact hrecent text rfl
      | error e => trivial

/-! ### Where the bodies come from -/

/-- Every body is that of a fetch, and what a fetch has fetched is what the guarded fetch gave. -/
structure Fetched (o : KeyFetcherOptions w) (f : KeyFetcher) : Prop where
  bodies : ∀ text ∈ f.bodies, some text ∈ f.fetches.map KeyFetch.body
  guarded : ∀ x ∈ f.fetches, ∀ text, x.body = some text →
    ∃ net, guardedFetch w o.fetchOptions o.url net = .ok text

theorem mem_set_body {fetches : List KeyFetch} {i : ℕ} {x : KeyFetch} (x' : KeyFetch)
    (hx : fetches[i]? = some x) (hbody : x.body = none ∨ x'.body = x.body) {text : JsString}
    (h : some text ∈ fetches.map KeyFetch.body) :
    some text ∈ (fetches.set i x').map KeyFetch.body := by
  obtain ⟨y, hy, htext⟩ := List.mem_map.mp h
  obtain ⟨j, hj⟩ := List.mem_iff_getElem?.mp hy
  apply List.mem_map.mpr
  by_cases hij : i = j
  · subst hij
    have hlt := (List.getElem?_eq_some_iff.mp hx).1
    obtain rfl : x = y := Option.some.inj (hx.symm.trans hj)
    refine ⟨x', List.mem_of_getElem? (List.getElem?_set_self hlt), ?_⟩
    rcases hbody with hnone | hsame
    · rw [hnone] at htext
      cases htext
    · rw [hsame, htext]
  · exact ⟨y, List.mem_of_getElem? (by rw [List.getElem?_set_ne hij, hj]), htext⟩

theorem Fetched.moves (h : Fetched o f) (hm : Moves o f f') : Fetched o f' := by
  cases hm with
  | unchanged => exact h
  | cached t text => exact ⟨h.bodies, h.guarded⟩
  | refused t e => exact ⟨h.bodies, h.guarded⟩
  | joined t i => exact ⟨h.bodies, h.guarded⟩
  | started t =>
    constructor
    · intro text htext
      rw [List.map_append]
      exact List.mem_append_left _ (h.bodies text htext)
    · intro x hx text htext
      rcases List.mem_append.mp hx with hx | hx
      · exact h.guarded x hx text htext
      · rw [List.mem_singleton.mp hx] at htext
        cases htext
  | completed i start result hrunning hfetched =>
    have hlt := (List.getElem?_eq_some_iff.mp hrunning).1
    constructor
    · intro text htext
      rcases List.mem_append.mp htext with htext | htext
      · exact mem_set_body _ hrunning (.inl rfl) (h.bodies text htext)
      · refine List.mem_map.mpr ⟨_, List.mem_of_getElem? (List.getElem?_set_self hlt), ?_⟩
        simpa [KeyFetch.body] using htext
    · intro x hx text htext
      rcases List.mem_or_eq_of_mem_set hx with hx | rfl
      · exact h.guarded x hx text htext
      · obtain ⟨net, rfl⟩ := hfetched
        refine ⟨net, ?_⟩
        simp only [KeyFetch.body] at htext
        cases hresult : guardedFetch w o.fetchOptions o.url net with
        | error e =>
          rw [hresult] at htext
          cases htext
        | ok body =>
          rw [hresult] at htext
          cases htext
          rfl
  | landed i start t text _ hdone =>
    constructor
    · exact fun text' htext => mem_set_body ⟨start, .landed (.ok text)⟩ hdone (.inr rfl) (h.bodies text' htext)
    · intro x hx text' htext
      rcases List.mem_or_eq_of_mem_set hx with hx | rfl
      · exact h.guarded x hx text' htext
      · exact h.guarded _ (List.mem_of_getElem? hdone) text' htext
  | failed i start e hdone =>
    constructor
    · exact fun text htext => mem_set_body ⟨start, .landed (.error e)⟩ hdone (.inr rfl) (h.bodies text htext)
    · intro x hx text htext
      rcases List.mem_or_eq_of_mem_set hx with hx | rfl
      · exact h.guarded x hx text htext
      · cases htext
  | resumed j seen i start result => exact ⟨h.bodies, h.guarded⟩

/-! ### Runs -/

/-- What holds in every state of a run. -/
structure Sound (o : KeyFetcherOptions w) (f : KeyFetcher) : Prop where
  flight : OneFlight f.inflight f.fetches
  spaced : Spaced o.cooldownMs f.lastAttemptAt (f.fetches.map KeyFetch.start)
  cached : Cached o f
  served : ∀ c ∈ f.calls, Served f.bodies f.fetches c
  fetched : Fetched o f

theorem Sound.step (h : Sound o f) (a : FetcherAction) : Sound o (step o f a) :=
  have hm := step_moves a
  ⟨h.flight.moves hm, h.spaced.moves hm, h.cached.moves h.flight hm,
    Served.moves h.served h.cached h.flight hm, h.fetched.moves hm⟩

theorem sound_initial (clock : ℚ) : Sound o (initial clock) where
  flight := ⟨fun i x hx => (by simp [initial] at hx), fun i hi => (by cases hi)⟩
  spaced := ⟨List.isChain_nil, fun s hs => (by cases hs)⟩
  cached := ⟨fun i text hi => (by cases hi), [], rfl, rfl⟩
  served := fun c hc => (by cases hc)
  fetched := ⟨fun text htext => (by cases htext), fun x hx => (by cases hx)⟩

theorem sound_run (o : KeyFetcherOptions w) (clock : ℚ) (as : List FetcherAction) :
    Sound o (as.foldl (KeyFetcher.step o) (initial clock)) :=
  Allowed.invariant (fun _ a h _ => h.step a) (sound_initial clock)
    (Allowed.of_forall (fun _ _ => trivial) _ as)

/-- What a call returns comes from a host that is not blocked. -/
theorem returned_guarded (o : KeyFetcherOptions w) (clock : ℚ) (as : List FetcherAction) :
    let f := as.foldl (KeyFetcher.step o) (initial clock)
    ∀ c ∈ f.calls, ∀ text, c.outcome = .returned text →
      ∃ net records, guardedFetch w o.fetchOptions o.url net = .ok text ∧
        net.lookup = some records ∧
          ∀ address ∈ records, isBlockedAddress w.toPlatform address = false := by
  intro f c hc text htext
  have h : Sound o f := sound_run o clock as
  have hserved := h.served c hc
  simp only [Served, htext] at hserved
  obtain ⟨k, hk, -⟩ := hserved
  obtain ⟨x, hx, hbody⟩ := List.mem_map.mp (h.fetched.bodies text (List.mem_of_getElem? hk))
  obtain ⟨net, hnet⟩ := h.fetched.guarded x hx text hbody
  obtain ⟨-, ⟨records, hlookup, hrecords⟩, -⟩ := guardedFetch_ok hnet
  exact ⟨net, records, hnet, hlookup, hrecords⟩

end KeyFetcher

end Haechi.Ssrf
