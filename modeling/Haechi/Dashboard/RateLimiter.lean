import Haechi.OrderedMap

/-! The rate limiter of the dashboard, which the login routes have a copy of: a fixed window
for each source key, in a map with a hard cap. A key without a bucket first has the buckets
dropped whose window is over, and at the cap the first ones, open or not. Proved: a window
grants its key at most the limit, and the limit again for each time its bucket is dropped
while it is open, which only happens when a new key finds the map full of open windows. -/

namespace Haechi.Dashboard

/-- The options of `createRateLimiter`, with the dashboard's defaults. -/
structure RateOptions where
  max : ℕ := 120
  windowMs : ℤ := 60000
  maxKeys : ℕ := 4096
  pos : 0 < max := by decide

/-- The login routes pass their `rateLimitMax`, which `boundedIntField` has checked. -/
def loginRate (rateLimitMax : ℕ) (h : 0 < rateLimitMax) : RateOptions where
  max := rateLimitMax
  pos := h

structure Bucket where
  count : ℕ
  resetAt : ℤ
deriving DecidableEq

abbrev Buckets (κ : Type) := OrderedMap κ Bucket

/-- A call of `allow`, and the time it reads. -/
structure Arrival (κ : Type) where
  now : ℤ
  key : κ
deriving DecidableEq

/-- `now >= bucket.resetAt`. -/
def Bucket.expired (now : ℤ) (bucket : Bucket) : Bool := now ≥ bucket.resetAt

section Prune

variable {κ : Type} [DecidableEq κ]

/-- The first loop of `prune`, over the entries it has still to visit. -/
def dropExpired (now : ℤ) : List (κ × Bucket) → Buckets κ → Buckets κ
  | [], buckets => buckets
  | (key, bucket) :: rest, buckets =>
    dropExpired now rest (if bucket.expired now then buckets.delete key else buckets)

/-- The second loop, over the keys. -/
def evictFirst (maxKeys : ℕ) : List κ → Buckets κ → Buckets κ
  | [], buckets => buckets
  | key :: rest, buckets =>
    if buckets.size < maxKeys then buckets else evictFirst maxKeys rest (buckets.delete key)

def prune (maxKeys : ℕ) (now : ℤ) (buckets : Buckets κ) : Buckets κ :=
  let live := dropExpired now buckets.entries buckets
  if live.size ≥ maxKeys then evictFirst maxKeys live.keys live else live

/-- The entries whose window is open. -/
def openEntries (now : ℤ) (buckets : Buckets κ) : List (κ × Bucket) :=
  buckets.entries.filter fun e => !e.2.expired now

variable {now : ℤ} {maxKeys : ℕ} {buckets : Buckets κ} {k : κ} {bucket : Bucket}

theorem entries_dropExpired_append (visited rest : List (κ × Bucket)) (buckets : Buckets κ)
    (h : buckets.entries = visited ++ rest) :
    (dropExpired now rest buckets).entries =
      visited ++ rest.filter fun e => !e.2.expired now := by
  induction rest generalizing visited buckets with
  | nil => simpa [dropExpired] using h
  | cons e rest ih =>
    rw [dropExpired]
    by_cases hover : e.2.expired now = true
    · rw [if_pos hover, ih visited _ (OrderedMap.entries_delete_of_entries h),
        List.filter_cons_of_neg (by simp [hover])]
    · rw [if_neg hover, ih (visited ++ [e]) _ (by simp [h]),
        List.filter_cons_of_pos (by simp [hover]), List.append_assoc, List.singleton_append]

theorem entries_dropExpired (now : ℤ) (buckets : Buckets κ) :
    (dropExpired now buckets.entries buckets).entries = openEntries now buckets :=
  entries_dropExpired_append [] buckets.entries buckets rfl

/-- The second loop leaves one place free. -/
theorem entries_evictFirst (buckets : Buckets κ) :
    (evictFirst maxKeys buckets.keys buckets).entries =
      buckets.entries.drop (buckets.entries.length + 1 - maxKeys) := by
  have hloop : ∀ (l : List (κ × Bucket)) (b : Buckets κ), b.entries = l →
      (evictFirst maxKeys (l.map Prod.fst) b).entries = l.drop (l.length + 1 - maxKeys) := by
    intro l
    induction l with
    | nil =>
      intro b hb
      simpa [evictFirst] using hb
    | cons e l ih =>
      intro b hb
      have hdelete : (b.delete e.1).entries = l := OrderedMap.entries_delete_of_entries (l := []) hb
      rw [List.map_cons, evictFirst, OrderedMap.size, hb, List.length_cons]
      by_cases hroom : l.length + 1 < maxKeys
      · rw [if_pos hroom, hb, show l.length + 1 + 1 - maxKeys = 0 by omega, List.drop_zero]
      · rw [if_neg hroom, ih _ hdelete,
          show l.length + 1 + 1 - maxKeys = l.length + 1 - maxKeys + 1 by omega,
          List.drop_succ_cons]
  exact hloop buckets.entries buckets rfl

/-- `prune` keeps the last of the open windows, and leaves one place free. -/
theorem entries_prune (buckets : Buckets κ) :
    (prune maxKeys now buckets).entries = (openEntries now buckets).drop
      ((openEntries now buckets).length + 1 - maxKeys) := by
  rw [prune]
  have hlive := entries_dropExpired now buckets
  split_ifs with hfull
  · rw [entries_evictFirst, hlive]
  · rw [OrderedMap.size, hlive] at hfull
    rw [hlive, show (openEntries now buckets).length + 1 - maxKeys = 0 by omega, List.drop_zero]

theorem get_of_get_prune (h : (prune maxKeys now buckets).get k = some bucket) :
    buckets.get k = some bucket := by
  rw [OrderedMap.get_eq_some] at h ⊢
  rw [entries_prune] at h
  exact (List.mem_filter.mp (List.mem_of_mem_drop h)).1

/-- While there is room `prune` drops no open window. -/
theorem get_prune (hroom : (openEntries now buckets).length < maxKeys)
    (h : buckets.get k = some bucket) (hopen : bucket.expired now = false) :
    (prune maxKeys now buckets).get k = some bucket := by
  rw [OrderedMap.get_eq_some] at h ⊢
  rw [entries_prune, show (openEntries now buckets).length + 1 - maxKeys = 0 by omega,
    List.drop_zero]
  exact List.mem_filter.mpr ⟨h, by simp [hopen]⟩

end Prune

/-! ### Calls -/

namespace RateOptions

variable {κ : Type} [DecidableEq κ] (o : RateOptions)

/-- `allow`. Only a key without a bucket prunes. -/
def allow (c : Arrival κ) (buckets : Buckets κ) : Bool × Buckets κ :=
  match buckets.get c.key with
  | none => (true, (prune o.maxKeys c.now buckets).set c.key ⟨1, c.now + o.windowMs⟩)
  | some bucket =>
    if bucket.expired c.now then (true, buckets.set c.key ⟨1, c.now + o.windowMs⟩)
    else if bucket.count ≥ o.max then (false, buckets)
    else (true, buckets.set c.key { bucket with count := bucket.count + 1 })

/-- The calls, one after the other, each with its answer. -/
def answers : Buckets κ → List (Arrival κ) → List (Arrival κ × Bool)
  | _, [] => []
  | b, c :: cs => (c, (o.allow c b).1) :: answers (o.allow c b).2 cs

/-- The buckets after the calls. -/
def after (b : Buckets κ) (cs : List (Arrival κ)) : Buckets κ :=
  cs.foldl (fun b c => (o.allow c b).2) b

/-- The call opens a window for its key. -/
def opens (c : Arrival κ) (b : Buckets κ) : Bool := (b.get c.key).all fun bucket => bucket.expired c.now

/-- The call takes the bucket of the key, whose window is open. -/
def evicts (k : κ) (c : Arrival κ) (b : Buckets κ) : Bool :=
  (b.get k).any (fun bucket => !bucket.expired c.now) && ((o.allow c b).2.get k).isNone

/-- The key of the call has no bucket, and the map is full of open windows. -/
def crowded (c : Arrival κ) (b : Buckets κ) : Bool :=
  (b.get c.key).isNone && o.maxKeys ≤ (openEntries c.now b).length

/-- How many of the calls are of one kind, each over the buckets it finds. -/
def countCalls (kind : Arrival κ → Buckets κ → Bool) : Buckets κ → List (Arrival κ) → ℕ
  | _, [] => 0
  | b, c :: cs => (kind c b).toNat + countCalls kind (o.allow c b).2 cs

end RateOptions

/-- How many calls of the key are allowed. -/
def allowed {κ : Type} [DecidableEq κ] (k : κ) (answered : List (Arrival κ × Bool)) : ℕ :=
  answered.countP fun e => e.2 && decide (e.1.key = k)

/-- The clock does not go back. -/
def Advancing {κ : Type} (cs : List (Arrival κ)) : Prop := cs.Pairwise fun c d => c.now ≤ d.now

namespace RateOptions

variable {κ : Type} [DecidableEq κ] {o : RateOptions} {b : Buckets κ} {c : Arrival κ} {k : κ}
  {bucket : Bucket}

theorem allow_of_opens (h : opens c b = true) :
    (o.allow c b).1 = true ∧ (o.allow c b).2.get c.key = some ⟨1, c.now + o.windowMs⟩ := by
  rw [opens] at h
  rw [allow]
  cases hget : b.get c.key with
  | none => exact ⟨rfl, OrderedMap.get_set_self⟩
  | some bucket =>
    rw [hget, Option.all_some] at h
    simp only [h, if_true]
    exact ⟨trivial, OrderedMap.get_set_self⟩

theorem allow_of_open (hget : b.get c.key = some bucket) (hopen : bucket.expired c.now = false) :
    (o.allow c b).1 = decide (bucket.count < o.max) ∧ (o.allow c b).2.get c.key =
      some ⟨bucket.count + if bucket.count < o.max then 1 else 0, bucket.resetAt⟩ := by
  simp only [allow, hget, hopen, Bool.false_eq_true, if_false, ge_iff_le]
  by_cases hfull : o.max ≤ bucket.count
  · rw [if_pos hfull, if_neg (Nat.not_lt.mpr hfull), hget]
    exact ⟨(decide_eq_false (Nat.not_lt.mpr hfull)).symm, rfl⟩
  · rw [if_neg hfull, if_pos (Nat.not_le.mp hfull), OrderedMap.get_set_self]
    exact ⟨(decide_eq_true (Nat.not_le.mp hfull)).symm, rfl⟩

/-- A call leaves the bucket of another key, or drops it. -/
theorem get_allow_of_ne (h : k ≠ c.key) :
    (o.allow c b).2.get k = b.get k ∨ (o.allow c b).2.get k = none := by
  rw [allow]
  cases hget : b.get c.key with
  | none =>
    simp only
    rw [OrderedMap.get_set_of_ne h]
    cases hk : (prune o.maxKeys c.now b).get k with
    | none => exact .inr rfl
    | some bucket => exact .inl (get_of_get_prune hk).symm
  | some bucket =>
    simp only
    split_ifs
    · exact .inl (OrderedMap.get_set_of_ne h)
    · exact .inl rfl
    · exact .inl (OrderedMap.get_set_of_ne h)

/-- An open window is only taken by a new key that finds the map full of open windows. -/
theorem crowded_of_evicts (h : o.evicts k c b = true) : o.crowded c b = true := by
  rw [evicts, Bool.and_eq_true, Option.any_eq_true, Option.isNone_iff_eq_none] at h
  obtain ⟨⟨bucket, hbucket, hopen⟩, hgone⟩ := h
  rw [Bool.not_eq_true'] at hopen
  rw [crowded, Bool.and_eq_true, decide_eq_true_eq, Option.isNone_iff_eq_none]
  have hset : ∀ (b' : Buckets κ) new, b'.get k = some bucket → (b'.set c.key new).get k ≠ none := by
    intro b' new hb'
    by_cases hk : k = c.key
    · subst hk
      rw [OrderedMap.get_set_self]
      exact Option.some_ne_none _
    · rw [OrderedMap.get_set_of_ne hk, hb']
      exact Option.some_ne_none _
  rw [allow] at hgone
  cases hget : b.get c.key with
  | none =>
    rw [hget] at hgone
    refine ⟨rfl, ?_⟩
    by_contra hroom
    exact hset _ _ (get_prune (Nat.not_le.mp hroom) hbucket hopen) hgone
  | some other =>
    rw [hget] at hgone
    simp only at hgone
    split_ifs at hgone
    · exact absurd hgone (hset _ _ hbucket)
    · rw [hbucket] at hgone
      cases hgone
    · exact absurd hgone (hset _ _ hbucket)

theorem countCalls_mono {kind kind' : Arrival κ → Buckets κ → Bool}
    (h : ∀ c b, kind c b = true → kind' c b = true) (b : Buckets κ) (cs : List (Arrival κ)) :
    o.countCalls kind b cs ≤ o.countCalls kind' b cs := by
  induction cs generalizing b with
  | nil => exact le_rfl
  | cons c cs ih =>
    rw [countCalls, countCalls]
    apply Nat.add_le_add _ (ih _)
    cases hkind : kind c b with
    | false => exact Nat.zero_le _
    | true => rw [h c b hkind]

/-! ### A window -/

/-- What a bucket still grants. -/
def left (o : RateOptions) : Option Bucket → ℕ
  | none => o.max
  | some bucket => o.max - bucket.count

theorem allowed_cons (cs : List (Arrival κ)) :
    allowed k (o.answers b (c :: cs)) =
      ((o.allow c b).1 && decide (c.key = k)).toNat + allowed k (o.answers (o.allow c b).2 cs) := by
  rw [answers, allowed, List.countP_cons, Nat.add_comm]
  cases ((o.allow c b).1 && decide (c.key = k)) <;> rfl

/-- One call: what it grants the key comes from what the bucket has left, and only a bucket
that is taken is filled up again. -/
theorem left_allow {start : ℤ} (hstart : start ≤ c.now) (hstop : c.now < start + o.windowMs)
    (hb : ∀ bucket, b.get k = some bucket → start + o.windowMs ≤ bucket.resetAt) :
    (∀ bucket, (o.allow c b).2.get k = some bucket → start + o.windowMs ≤ bucket.resetAt) ∧
      ((o.allow c b).1 && decide (c.key = k)).toNat + o.left ((o.allow c b).2.get k) ≤
        o.left (b.get k) + o.max * (o.evicts k c b).toNat := by
  have hopen : ∀ bucket, b.get k = some bucket → bucket.expired c.now = false := by
    intro bucket hbucket
    have := hb bucket hbucket
    rw [Bucket.expired, decide_eq_false_iff_not]
    omega
  by_cases hk : k = c.key
  · subst hk
    cases hget : b.get c.key with
    | none =>
      have hopens : opens c b = true := by
        rw [opens, hget]
        rfl
      obtain ⟨hanswer, hafter⟩ := allow_of_opens (o := o) hopens
      rw [hanswer, hafter]
      constructor
      · intro bucket hbucket
        cases hbucket
        simpa using hstart
      · have := o.pos
        simp [left]
        omega
    | some bucket =>
      obtain ⟨hanswer, hafter⟩ := allow_of_open (o := o) hget (hopen bucket hget)
      rw [hanswer, hafter]
      constructor
      · intro bucket' hbucket'
        cases hbucket'
        exact hb bucket hget
      · by_cases hroom : bucket.count < o.max
        · simp [left, hroom]
          omega
        · simp [left, hroom]
  · have hother : decide (c.key = k) = false := decide_eq_false (Ne.symm hk)
    rw [hother, Bool.and_false, Bool.toNat_false, Nat.zero_add]
    rcases get_allow_of_ne (o := o) (b := b) hk with hsame | hgone
    · rw [hsame]
      exact ⟨hb, Nat.le_add_right _ _⟩
    · rw [hgone]
      refine ⟨fun _ h => (by cases h), ?_⟩
      cases hget : b.get k with
      | none => exact Nat.le_add_right _ _
      | some bucket =>
        have hevicts : o.evicts k c b = true := by
          rw [evicts, hget, hgone, Option.any_some, hopen bucket hget]
          rfl
        rw [hevicts, Bool.toNat_true, Nat.mul_one]
        exact Nat.le_add_left _ _

/-- The calls of a stretch of time that no open window of the key ends in. -/
theorem allowed_le {start : ℤ} {cs : List (Arrival κ)}
    (hcs : ∀ c ∈ cs, start ≤ c.now ∧ c.now < start + o.windowMs)
    (hb : ∀ bucket, b.get k = some bucket → start + o.windowMs ≤ bucket.resetAt) :
    allowed k (o.answers b cs) ≤ o.left (b.get k) + o.max * o.countCalls (o.evicts k) b cs := by
  induction cs generalizing b with
  | nil => exact Nat.zero_le _
  | cons c cs ih =>
    obtain ⟨⟨hstart, hstop⟩, hcs⟩ := List.forall_mem_cons.mp hcs
    obtain ⟨hb', hstep⟩ := left_allow hstart hstop hb
    have hrest := ih hcs hb'
    rw [allowed_cons, countCalls, Nat.mul_add]
    omega

/-- In the window that a call opens for its key at most `max` calls of the key are allowed, and
`max` more for each time its bucket is taken; only a new key that finds the map full of open
windows takes one. -/
theorem allowed_in_window (o : RateOptions) (before : List (Arrival κ)) (c : Arrival κ)
    (cs : List (Arrival κ)) (hclock : Advancing (before ++ c :: cs))
    (hopens : opens c (o.after .empty before) = true) (hcs : ∀ d ∈ cs, d.now < c.now + o.windowMs) :
    allowed c.key (o.answers (o.after .empty before) (c :: cs)) ≤
        o.max * (1 + o.countCalls (o.evicts c.key) (o.after .empty before) (c :: cs)) ∧
      o.countCalls (o.evicts c.key) (o.after .empty before) (c :: cs) ≤
        o.countCalls o.crowded (o.after .empty before) (c :: cs) := by
  refine ⟨?_, countCalls_mono (fun _ _ => crowded_of_evicts) _ _⟩
  obtain ⟨hanswer, hafter⟩ := allow_of_opens (o := o) hopens
  have hlater := (List.pairwise_cons.mp (List.pairwise_append.mp hclock).2.1).1
  have hrest : allowed c.key (o.answers (o.allow c (o.after .empty before)).2 cs) ≤
      o.max - 1 + o.max * o.countCalls (o.evicts c.key) (o.allow c (o.after .empty before)).2 cs := by
    have hle := allowed_le (b := (o.allow c (o.after .empty before)).2) (k := c.key)
      fun d hd => ⟨hlater d hd, hcs d hd⟩
    rw [hafter] at hle
    apply hle
    intro bucket hbucket
    cases hbucket
    exact le_rfl
  have hfirst : ((o.allow c (o.after .empty before)).1 && decide (c.key = c.key)).toNat = 1 := by
    rw [hanswer, decide_eq_true rfl]
    rfl
  rw [allowed_cons, countCalls, hfirst, Nat.mul_add, Nat.mul_add, Nat.mul_one]
  have := o.pos
  omega

/-- One key calls, and another from the same window. -/
theorem allowed_in_window_pair :
    allowed 0 (({} : RateOptions).answers (.empty : Buckets ℕ) [⟨0, 0⟩, ⟨5, 0⟩, ⟨7, 1⟩]) ≤
      120 * (1 + ({} : RateOptions).countCalls (({} : RateOptions).evicts 0) (.empty : Buckets ℕ)
        [⟨0, 0⟩, ⟨5, 0⟩, ⟨7, 1⟩]) :=
  (allowed_in_window {} [] (⟨0, 0⟩ : Arrival ℕ) [⟨5, 0⟩, ⟨7, 1⟩]
    (by simp [Advancing]) rfl (by simp)).1

/-! ### A map that is full -/

theorem answers_append (b : Buckets κ) (cs ds : List (Arrival κ)) :
    o.answers b (cs ++ ds) = o.answers b cs ++ o.answers (o.after b cs) ds := by
  induction cs generalizing b with
  | nil => rfl
  | cons c cs ih => exact congrArg (_ :: ·) (ih _)

theorem allowed_append (r r' : List (Arrival κ × Bool)) :
    allowed k (r ++ r') = allowed k r + allowed k r' := List.countP_append

theorem after_append (b : Buckets κ) (cs ds : List (Arrival κ)) :
    o.after b (cs ++ ds) = o.after (o.after b cs) ds := List.foldl_append

/-- The first keys have called, and their windows are open. -/
structure Filled (b : Buckets ℕ) (n : ℕ) : Prop where
  keys : b.keys = List.range (n + 1)
  live : ∀ e ∈ b.entries, e.2.expired 0 = false

theorem Filled.entries_prune {b : Buckets ℕ} {n : ℕ} (h : Filled b n) :
    (prune o.maxKeys 0 b).entries = b.entries.drop (n + 2 - o.maxKeys) := by
  have hopen : openEntries 0 b = b.entries :=
    List.filter_eq_self.mpr fun e he => by rw [h.live e he]; rfl
  have hlength : b.entries.length = n + 1 := by
    rw [← List.length_map Prod.fst, ← OrderedMap.keys, h.keys, List.length_range]
  rw [Dashboard.entries_prune, hopen, hlength]

theorem Filled.allow_eq {b : Buckets ℕ} {n : ℕ} (h : Filled b n) :
    (o.allow ⟨0, n + 1⟩ b).2 = (prune o.maxKeys 0 b).set (n + 1) ⟨1, 0 + o.windowMs⟩ := by
  have hnone : b.get (n + 1) = none := by
    rw [OrderedMap.get_eq_none, h.keys, List.mem_range]
    omega
  simp only [allow, hnone]

/-- While there is room the next key only adds its bucket. -/
theorem Filled.next {b : Buckets ℕ} {n : ℕ} (h : Filled b n) (hroom : n + 2 ≤ o.maxKeys)
    (hwindow : 0 < o.windowMs) : Filled (o.allow ⟨0, n + 1⟩ b).2 (n + 1) := by
  have hprune : (prune o.maxKeys 0 b).entries = b.entries := by
    rw [h.entries_prune, Nat.sub_eq_zero_of_le hroom, List.drop_zero]
  have hkeys : (prune o.maxKeys 0 b).keys = List.range (n + 1) := by
    rw [OrderedMap.keys, hprune, ← OrderedMap.keys, h.keys]
  have hfresh : n + 1 ∉ (prune o.maxKeys 0 b).keys := by
    rw [hkeys, List.mem_range]
    omega
  rw [h.allow_eq]
  constructor
  · rw [OrderedMap.keys_set, if_neg hfresh, hkeys, ← List.range_succ]
  · intro e he
    rw [OrderedMap.entries_set, if_neg hfresh, hprune, List.mem_append, List.mem_singleton] at he
    rcases he with he | rfl
    · exact h.live e he
    · simpa [Bucket.expired] using hwindow

theorem filled_after {b : Buckets ℕ} (h : Filled b 0) (hwindow : 0 < o.windowMs) {n : ℕ}
    (hroom : n + 1 ≤ o.maxKeys) :
    Filled (o.after b ((List.range n).map fun i => ⟨0, i + 1⟩)) n := by
  induction n with
  | zero => exact h
  | succ n ih =>
    rw [List.range_succ, List.map_append, after_append]
    exact (ih (by omega)).next hroom hwindow

/-- In a full map the next key takes the bucket of the first. -/
theorem Filled.get_zero {b : Buckets ℕ} {n : ℕ} (h : Filled b n) (hfull : n + 1 = o.maxKeys) :
    (o.allow ⟨0, n + 1⟩ b).2.get 0 = none := by
  rw [h.allow_eq, OrderedMap.get_set_of_ne (by omega), OrderedMap.get_eq_none, OrderedMap.keys,
    h.entries_prune, List.map_drop, ← OrderedMap.keys, h.keys, show n + 2 - o.maxKeys = 1 by omega,
    List.range_succ_eq_map, List.drop_one, List.tail_cons]
  simp

/-- When as many other keys have called as the map holds, the first may begin again. -/
theorem opens_after_full {b : Buckets ℕ} (h : Filled b 0) (hwindow : 0 < o.windowMs) {n : ℕ}
    (hfull : n + 1 = o.maxKeys) :
    opens (⟨0, 0⟩ : Arrival ℕ) (o.after b ((List.range (n + 1)).map fun i => ⟨0, i + 1⟩)) = true := by
  have hgone := (filled_after h hwindow hfull.le).get_zero hfull
  rw [List.range_succ, List.map_append, after_append, opens]
  exact congrArg (Option.all _) hgone

/-- A key uses up its window, as many other keys call as the map holds, and the key calls
again. -/
def cycled (o : RateOptions) : List (Arrival ℕ) :=
  List.replicate o.max ⟨0, 0⟩ ++ (List.range o.maxKeys).map (fun i => ⟨0, i + 1⟩) ++ [⟨0, 0⟩]

theorem now_of_mem_cycled {c : Arrival ℕ} (hc : c ∈ cycled o) : c.now = 0 := by
  simp only [cycled, List.mem_append, List.mem_replicate, List.mem_map, List.mem_singleton] at hc
  rcases hc with (⟨-, rfl⟩ | ⟨i, -, rfl⟩) | rfl
  · rfl
  · rfl
  · rfl

/-- A key that calls alone is allowed up to the limit. -/
theorem allowed_replicate (hwindow : 0 < o.windowMs) {n m : ℕ} (hle : n + m ≤ o.max)
    {b : Buckets ℕ} (hb : b.entries = [(0, ⟨n, o.windowMs⟩)]) :
    allowed 0 (o.answers b (List.replicate m ⟨0, 0⟩)) = m ∧
      (o.after b (List.replicate m ⟨0, 0⟩)).entries = [(0, ⟨n + m, o.windowMs⟩)] := by
  induction m generalizing n b with
  | zero => exact ⟨rfl, hb⟩
  | succ m ih =>
    have hget : b.get (⟨0, 0⟩ : Arrival ℕ).key = some ⟨n, o.windowMs⟩ := by
      rw [OrderedMap.get_eq_some, hb, List.mem_singleton]
    have hallow : o.allow (⟨0, 0⟩ : Arrival ℕ) b = (true, b.set 0 ⟨n + 1, o.windowMs⟩) := by
      have hopen : (⟨n, o.windowMs⟩ : Bucket).expired 0 = false := by
        simpa [Bucket.expired] using hwindow
      simp only [allow, hget, hopen, Bool.false_eq_true, if_false]
      rw [if_neg (by omega)]
    have hset : (b.set 0 ⟨n + 1, o.windowMs⟩).entries = [(0, ⟨n + 1, o.windowMs⟩)] := by
      have hmem : 0 ∈ b.keys := by rw [OrderedMap.keys, hb]; exact List.mem_cons_self
      rw [OrderedMap.entries_set, if_pos hmem, hb]
      rfl
    obtain ⟨hcount, hentries⟩ := ih (show n + 1 + m ≤ o.max by omega) hset
    rw [List.replicate_succ, allowed_cons, hallow, hcount]
    constructor
    · simp only [decide_true, Bool.and_true, Bool.toNat_true]
      exact Nat.add_comm 1 m
    · rw [after, List.foldl_cons, hallow]
      rw [after, Nat.add_right_comm, Nat.add_assoc] at hentries
      exact hentries

/-- All of that happens in one window, and the last call is allowed too. -/
theorem lt_allowed_cycled (o : RateOptions) (hwindow : 0 < o.windowMs) (hkeys : 0 < o.maxKeys) :
    o.max < allowed 0 (o.answers .empty (cycled o)) := by
  obtain ⟨m, hm⟩ := Nat.exists_eq_add_of_lt o.pos
  obtain ⟨n, hn⟩ := Nat.exists_eq_add_of_lt hkeys
  rw [Nat.zero_add] at hm hn
  have hfirst : (o.allow (⟨0, 0⟩ : Arrival ℕ) .empty).2.entries = [(0, ⟨1, o.windowMs⟩)] := by
    simp [allow, OrderedMap.empty, OrderedMap.get, OrderedMap.entries_set, OrderedMap.keys,
      Dashboard.entries_prune, openEntries]
  obtain ⟨hused, hentries⟩ := allowed_replicate hwindow (show 1 + m ≤ o.max by omega) hfirst
  have hcount : allowed 0 (o.answers (.empty : Buckets ℕ) (List.replicate o.max ⟨0, 0⟩)) = o.max := by
    rw [hm, List.replicate_succ, allowed_cons, hused]
    exact Nat.add_comm 1 m
  have hfilled : Filled (o.after (.empty : Buckets ℕ) (List.replicate o.max ⟨0, 0⟩)) 0 := by
    have heq : (o.after (.empty : Buckets ℕ) (List.replicate o.max ⟨0, 0⟩)).entries =
        [(0, ⟨1 + m, o.windowMs⟩)] := by
      rw [hm, List.replicate_succ]
      exact hentries
    constructor
    · rw [OrderedMap.keys, heq]
      rfl
    · rw [heq]
      simpa [Bucket.expired] using hwindow
  have hopens := opens_after_full hfilled hwindow hn.symm
  rw [cycled, answers_append, answers_append, allowed_append, allowed_append, hcount, hn,
    after_append, allowed_cons, (allow_of_opens hopens).1]
  simp only [Bool.true_and, decide_true, Bool.toNat_true]
  omega

theorem advancing_cycled (o : RateOptions) : Advancing (cycled o) := by
  apply List.Pairwise.imp_of_mem _ (List.pairwise_of_forall fun _ _ => trivial)
  intro c d hc hd _
  rw [now_of_mem_cycled hc, now_of_mem_cycled hd]

/-- With the dashboard's options, and with the login routes' default limit. -/
theorem limiters_cycled :
    (Advancing (cycled {}) ∧ (∀ c ∈ cycled {}, 0 ≤ c.now ∧ c.now < 0 + 60000) ∧
      120 < allowed 0 (({} : RateOptions).answers .empty (cycled {}))) ∧
    60 < allowed 0 ((loginRate 60 (by decide)).answers .empty (cycled (loginRate 60 (by decide)))) := by
  refine ⟨⟨advancing_cycled {}, fun c hc => by rw [now_of_mem_cycled hc]; decide, ?_⟩, ?_⟩
  · exact lt_allowed_cycled {} (by decide) (by decide)
  · exact lt_allowed_cycled (loginRate 60 (by decide)) (by decide) (by decide)

end RateOptions

end Haechi.Dashboard
