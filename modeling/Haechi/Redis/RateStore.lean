import Haechi.Text.Paired
import Mathlib.Data.Finmap

/-! The shared rate limiter's two stores of hits. Redis has a counter for each key and window,
which a script sets to expire on its first hit; the reference store has one slot for each key,
which the next window replaces. Proved: where the hits of a key all have one window length, the
two stores return the same counts, whatever Redis has removed by then, and no counter of Redis
is without an expiry. -/

namespace Haechi.Redis

open Text

/-- A call of `hit`, and the time both sides read. The limiter passes a positive integer. -/
structure Hit where
  key : JsString
  windowMs : ℕ
  now : ℕ
  pos : 0 < windowMs

/-- `Math.floor(now / windowMs)`. -/
def Hit.bucket (h : Hit) : ℕ := h.now / h.windowMs

theorem Hit.bucket_mul_le (h : Hit) : h.bucket * h.windowMs ≤ h.now := Nat.div_mul_le_self _ _

theorem Hit.lt_succ_bucket_mul (h : Hit) : h.now < (h.bucket + 1) * h.windowMs := by
  rw [Nat.mul_comm]
  exact Nat.lt_mul_div_succ h.now h.pos

/-! ### Redis -/

/-- `windowKey`. -/
def windowKey (keyPrefix key : JsString) (bucket : ℕ) : JsString :=
  keyPrefix ++ key ++ 58 :: natText bucket

structure Counter where
  n : ℕ
  expireAt : Option ℕ
deriving DecidableEq

/-- The counters, under the bytes the client sends for a key. -/
abbrev Counters := Finmap fun _ : List ℕ => Counter

/-- Redis removes a key when its expiry passes: never before, and always after. -/
structure Reaper where
  gone : ℕ → ℕ → Bool
  kept : ∀ expireAt now, now < expireAt → gone expireAt now = false
  removed : ∀ expireAt now, expireAt < now → gone expireAt now = true

/-- What a command finds of a counter. -/
def Reaper.live (r : Reaper) (now : ℕ) (c : Option Counter) : Option Counter :=
  c.filter fun c => !c.expireAt.any fun e => r.gone e now

/-- The time `PEXPIRE` sets, which must fit into 64 bits. -/
def pexpire (now windowMs : ℕ) : Option ℕ := if now + windowMs < 2 ^ 63 then some (now + windowMs) else none

/-- `FIXED_WINDOW_SCRIPT`. What it has done stands if `PEXPIRE` fails. -/
def fixedWindowScript (r : Reaper) (now windowMs : ℕ) (redisKey : List ℕ) (db : Counters) :
    Option ℕ × Counters :=
  let found := r.live now (db.lookup redisKey)
  let n := (found.elim 0 Counter.n) + 1
  let expireAt := found.bind Counter.expireAt
  if n = 1 then
    match pexpire now windowMs with
    | some e => (some n, db.insert redisKey ⟨n, some e⟩)
    | none => (none, db.insert redisKey ⟨n, expireAt⟩)
  else (some n, db.insert redisKey ⟨n, expireAt⟩)

/-- `hit` of `createRedisStore`. -/
def redisHit (r : Reaper) (keyPrefix : JsString) (h : Hit) (db : Counters) : Option ℕ × Counters :=
  fixedWindowScript r h.now h.windowMs (encodeUtf8 (windowKey keyPrefix h.key h.bucket)) db

/-! ### Memory -/

structure WindowSlot where
  bucket : ℕ
  count : ℕ
deriving DecidableEq

abbrev WindowSlots := Finmap fun _ : JsString => WindowSlot

/-- `hit` of `createMemoryStore`. -/
def memoryHit (h : Hit) (windows : WindowSlots) : ℕ × WindowSlots :=
  match windows.lookup h.key with
  | none => (1, windows.insert h.key ⟨h.bucket, 1⟩)
  | some slot =>
    if slot.bucket = h.bucket then (slot.count + 1, windows.insert h.key ⟨slot.bucket, slot.count + 1⟩)
    else (1, windows.insert h.key ⟨h.bucket, 1⟩)

/-! ### Runs -/

/-- The counts of hits, one after the other. -/
def redisCounts (r : Reaper) (keyPrefix : JsString) : Counters → List Hit → List (Option ℕ)
  | _, [] => []
  | db, h :: hs =>
    (redisHit r keyPrefix h db).1 :: redisCounts r keyPrefix (redisHit r keyPrefix h db).2 hs

def memoryCounts : WindowSlots → List Hit → List ℕ
  | _, [] => []
  | windows, h :: hs => (memoryHit h windows).1 :: memoryCounts (memoryHit h windows).2 hs

/-- The counters after the hits. -/
def countersAfter (r : Reaper) (keyPrefix : JsString) (db : Counters) (hs : List Hit) : Counters :=
  hs.foldl (fun db h => (redisHit r keyPrefix h db).2) db

/-! ### Keys -/

section Keys

/-- The bucket is what stands after the last colon. -/
theorem rtakeWhile_windowKey (keyPrefix key : JsString) (bucket : ℕ) :
    (windowKey keyPrefix key bucket).rtakeWhile isDigit = natText bucket := by
  have hdigits : ∀ c ∈ (natText bucket).reverse, isDigit c = true := fun c hc =>
    natText_all bucket c (List.mem_reverse.mp hc)
  rw [windowKey, List.rtakeWhile, List.reverse_append, List.reverse_cons, List.append_assoc,
    List.takeWhile_append_of_pos hdigits, List.singleton_append,
    List.takeWhile_cons_of_neg (by decide), List.append_nil, List.reverse_reverse]

variable {keyPrefix key key' : JsString} {bucket bucket' : ℕ}

theorem windowKey_inj :
    windowKey keyPrefix key bucket = windowKey keyPrefix key' bucket' ↔
      key = key' ∧ bucket = bucket' := by
  constructor
  · intro h
    have hbucket : bucket = bucket' := by
      apply natText_injective
      rw [← rtakeWhile_windowKey keyPrefix key, h, rtakeWhile_windowKey]
    subst hbucket
    rw [windowKey, windowKey, List.append_left_inj, List.append_right_inj] at h
    exact ⟨h, rfl⟩
  · rintro ⟨rfl, rfl⟩
    rfl

theorem paired_windowKey (hbegin : Paired keyPrefix) (hkey : Paired key) (bucket : ℕ) :
    Paired (windowKey keyPrefix key bucket) := by
  have hdigits : ∀ c ∈ natText bucket, c < 128 := by
    intro c hc
    have h := natText_all bucket c hc
    simp only [isDigit, Bool.and_eq_true, decide_eq_true_eq, UInt16.le_iff_toNat_le,
      UInt16.reduceToNat] at h
    simp only [UInt16.lt_iff_toNat_lt, UInt16.reduceToNat]
    omega
  apply (hbegin.append hkey).append
  exact .one (by decide) (by decide) (paired_of_ascii hdigits)

/-- The bytes of a key tell its parts. -/
theorem encodeUtf8_windowKey_inj (hbegin : Paired keyPrefix) (hkey : Paired key)
    (hkey' : Paired key') :
    encodeUtf8 (windowKey keyPrefix key bucket) = encodeUtf8 (windowKey keyPrefix key' bucket') ↔
      key = key' ∧ bucket = bucket' := by
  constructor
  · intro h
    exact windowKey_inj.mp ((paired_windowKey hbegin hkey bucket).eq_of_encodeUtf8_eq
      (paired_windowKey hbegin hkey' bucket') h)
  · rintro ⟨rfl, rfl⟩
    rfl

end Keys

/-! ### One hit -/

section Steps

variable {r : Reaper} {keyPrefix : JsString} {db : Counters} {windows : WindowSlots} {h : Hit}
  {n e : ℕ}

/-- The bytes of the counter of a hit. -/
def Hit.bytes (keyPrefix : JsString) (h : Hit) : List ℕ :=
  encodeUtf8 (windowKey keyPrefix h.key h.bucket)

theorem Reaper.eq_some_of_live {now : ℕ} {c : Option Counter} {counter : Counter}
    (hlive : r.live now c = some counter) : c = some counter :=
  (Option.filter_eq_some_iff.mp hlive).1

/-- A hit on a counter that has not expired counts up. -/
theorem redisHit_of_lookup (hlookup : db.lookup (h.bytes keyPrefix) = some ⟨n + 1, some e⟩)
    (hlt : h.now < e) :
    redisHit r keyPrefix h db = (some (n + 2), db.insert (h.bytes keyPrefix) ⟨n + 2, some e⟩) := by
  have hlive : r.live h.now (db.lookup (h.bytes keyPrefix)) = some ⟨n + 1, some e⟩ := by
    rw [hlookup, Reaper.live, Option.filter_some, Option.any_some, r.kept e h.now hlt]
    rfl
  rw [Hit.bytes] at hlive ⊢
  rw [redisHit, fixedWindowScript, hlive]
  rfl

/-- A hit on no counter starts one. -/
theorem redisHit_of_lookup_none (hlookup : db.lookup (h.bytes keyPrefix) = none)
    (hrange : h.now + h.windowMs < 2 ^ 63) :
    redisHit r keyPrefix h db =
      (some 1, db.insert (h.bytes keyPrefix) ⟨1, some (h.now + h.windowMs)⟩) := by
  rw [Hit.bytes] at hlookup ⊢
  rw [redisHit, fixedWindowScript, hlookup]
  simp only [Reaper.live, Option.filter_none, Option.elim_none, Nat.zero_add, if_true, pexpire,
    if_pos hrange]

/-- A hit leaves every counter with an expiry if `PEXPIRE` takes its time. -/
theorem expireAt_redisHit (r : Reaper) (keyPrefix : JsString) (hrange : h.now + h.windowMs < 2 ^ 63)
    (hdb : ∀ k c, db.lookup k = some c → c.expireAt ≠ none) :
    ∀ k c, (redisHit r keyPrefix h db).2.lookup k = some c → c.expireAt ≠ none := by
  have hinsert : ∀ (key : List ℕ) (new : Counter), new.expireAt ≠ none →
      ∀ k c, (db.insert key new).lookup k = some c → c.expireAt ≠ none := by
    intro key new hnew k c hc
    by_cases hk : k = key
    · subst hk
      rw [Finmap.lookup_insert] at hc
      cases hc
      exact hnew
    · rw [Finmap.lookup_insert_of_ne _ hk] at hc
      exact hdb k c hc
  rw [redisHit, fixedWindowScript]
  simp only [pexpire, if_pos hrange]
  split_ifs with hn
  · exact hinsert _ _ (Option.some_ne_none _)
  · apply hinsert
    cases hlive : r.live h.now (db.lookup (encodeUtf8 (windowKey keyPrefix h.key h.bucket))) with
    | none =>
      rw [hlive] at hn
      exact absurd rfl hn
    | some counter => exact hdb _ counter (Reaper.eq_some_of_live hlive)

theorem memoryHit_of_lookup (hlookup : windows.lookup h.key = some ⟨h.bucket, n⟩) :
    memoryHit h windows = (n + 1, windows.insert h.key ⟨h.bucket, n + 1⟩) := by
  rw [memoryHit, hlookup]
  simp only [if_true]

theorem memoryHit_of_lookup_ne (hlookup : ∀ n, windows.lookup h.key ≠ some ⟨h.bucket, n⟩) :
    memoryHit h windows = (1, windows.insert h.key ⟨h.bucket, 1⟩) := by
  rw [memoryHit]
  cases hslot : windows.lookup h.key with
  | none => rfl
  | some slot =>
    have hne : slot.bucket ≠ h.bucket := by
      rintro heq
      exact hlookup slot.count (by rw [hslot, ← heq])
    simp only [if_neg hne]

end Steps

/-! ### The two stores side by side -/

/-- At a time: the slot of a key belongs to no later window, the counter of the present window
is the slot's and outlasts it, and there are no other counters for now or later. -/
structure Agrees (keyPrefix : JsString) (windowOf : JsString → ℕ) (now : ℕ) (db : Counters)
    (windows : WindowSlots) : Prop where
  past : ∀ key slot, windows.lookup key = some slot → slot.bucket ≤ now / windowOf key
  present : ∀ key bucket n, Paired key → windows.lookup key = some ⟨bucket, n⟩ →
    now / windowOf key ≤ bucket → ∃ e m, n = m + 1 ∧ (bucket + 1) * windowOf key ≤ e ∧
      db.lookup (encodeUtf8 (windowKey keyPrefix key bucket)) = some ⟨m + 1, some e⟩
  future : ∀ key bucket, Paired key → (∀ n, windows.lookup key ≠ some ⟨bucket, n⟩) →
    now / windowOf key ≤ bucket → db.lookup (encodeUtf8 (windowKey keyPrefix key bucket)) = none

variable {r : Reaper} {keyPrefix : JsString} {windowOf : JsString → ℕ} {now later : ℕ}
  {db : Counters} {windows : WindowSlots} {h : Hit}

theorem agrees_empty (keyPrefix : JsString) (windowOf : JsString → ℕ) (now : ℕ) :
    Agrees keyPrefix windowOf now ∅ ∅ where
  past _ _ hslot := by cases hslot
  present _ _ _ _ hslot := by cases hslot
  future _ _ _ _ _ := rfl

theorem Agrees.mono (ha : Agrees keyPrefix windowOf now db windows) (hle : now ≤ later) :
    Agrees keyPrefix windowOf later db windows where
  past key slot hslot := (ha.past key slot hslot).trans (Nat.div_le_div_right hle)
  present key bucket n hkey hslot hbucket :=
    ha.present key bucket n hkey hslot ((Nat.div_le_div_right hle).trans hbucket)
  future key bucket hkey hslot hbucket :=
    ha.future key bucket hkey hslot ((Nat.div_le_div_right hle).trans hbucket)

/-- After a hit both sides have its count. -/
theorem Agrees.insert (ha : Agrees keyPrefix windowOf h.now db windows) (hbegin : Paired keyPrefix)
    (hkey : Paired h.key) (hwindow : h.windowMs = windowOf h.key) {m e : ℕ}
    (he : (h.bucket + 1) * h.windowMs ≤ e) :
    Agrees keyPrefix windowOf h.now (db.insert (h.bytes keyPrefix) ⟨m + 1, some e⟩)
      (windows.insert h.key ⟨h.bucket, m + 1⟩) := by
  have hnow : h.now / windowOf h.key = h.bucket := by rw [← hwindow, Hit.bucket]
  have hother : ∀ key bucket, Paired key → ¬(key = h.key ∧ bucket = h.bucket) →
      (db.insert (h.bytes keyPrefix) ⟨m + 1, some e⟩).lookup
        (encodeUtf8 (windowKey keyPrefix key bucket)) =
          db.lookup (encodeUtf8 (windowKey keyPrefix key bucket)) := by
    intro key bucket hkey' hne
    apply Finmap.lookup_insert_of_ne
    rw [Hit.bytes, Ne, encodeUtf8_windowKey_inj hbegin hkey' hkey]
    exact hne
  constructor
  · intro key slot hslot
    by_cases hk : key = h.key
    · subst hk
      rw [Finmap.lookup_insert] at hslot
      cases hslot
      exact hnow.ge
    · rw [Finmap.lookup_insert_of_ne _ hk] at hslot
      exact ha.past key slot hslot
  · intro key bucket n hkey' hslot hbucket
    by_cases hk : key = h.key
    · subst hk
      rw [Finmap.lookup_insert] at hslot
      cases hslot
      refine ⟨e, m, rfl, hwindow ▸ he, ?_⟩
      rw [← Hit.bytes, Finmap.lookup_insert]
    · rw [Finmap.lookup_insert_of_ne _ hk] at hslot
      rw [hother key bucket hkey' fun heq => hk heq.1]
      exact ha.present key bucket n hkey' hslot hbucket
  · intro key bucket hkey' hslot hbucket
    by_cases hk : key = h.key
    · subst hk
      have hne : bucket ≠ h.bucket := by
        rintro rfl
        exact hslot (m + 1) (Finmap.lookup_insert windows)
      rw [hother h.key bucket hkey' fun heq => hne heq.2]
      apply ha.future h.key bucket hkey' _ hbucket
      intro n hn
      have := ha.past h.key _ hn
      simp only at this
      omega
    · rw [hother key bucket hkey' fun heq => hk heq.1]
      apply ha.future key bucket hkey' _ hbucket
      intro n hn
      rw [← Finmap.lookup_insert_of_ne windows hk] at hn
      exact hslot n hn

/-- Both stores answer a hit with one count. -/
theorem Agrees.hit (r : Reaper) (ha : Agrees keyPrefix windowOf h.now db windows)
    (hbegin : Paired keyPrefix) (hkey : Paired h.key) (hwindow : h.windowMs = windowOf h.key)
    (hrange : h.now + h.windowMs < 2 ^ 63) :
    (redisHit r keyPrefix h db).1 = some (memoryHit h windows).1 ∧
      Agrees keyPrefix windowOf h.now (redisHit r keyPrefix h db).2 (memoryHit h windows).2 := by
  have hnow : h.now / windowOf h.key = h.bucket := by rw [← hwindow, Hit.bucket]
  by_cases hslot : ∃ n, windows.lookup h.key = some ⟨h.bucket, n⟩
  · obtain ⟨n, hslot⟩ := hslot
    obtain ⟨e, m, rfl, he, hlookup⟩ := ha.present h.key h.bucket n hkey hslot hnow.le
    have hlt : h.now < e := by
      rw [← hwindow] at he
      exact h.lt_succ_bucket_mul.trans_le he
    rw [redisHit_of_lookup hlookup hlt, memoryHit_of_lookup hslot]
    exact ⟨rfl, ha.insert hbegin hkey hwindow (hwindow ▸ he)⟩
  · have hslot : ∀ n, windows.lookup h.key ≠ some ⟨h.bucket, n⟩ := not_exists.mp hslot
    have hlookup := ha.future h.key h.bucket hkey hslot hnow.le
    rw [redisHit_of_lookup_none hlookup hrange, memoryHit_of_lookup_ne hslot]
    refine ⟨rfl, ha.insert (m := 0) hbegin hkey hwindow ?_⟩
    rw [Nat.add_mul, Nat.one_mul]
    exact Nat.add_le_add_right h.bucket_mul_le _

/-- Hits one after the other, the clock not going back. -/
theorem Agrees.counts (r : Reaper) (hbegin : Paired keyPrefix) {hits : List Hit}
    (ha : Agrees keyPrefix windowOf now db windows)
    (hnow : ∀ h ∈ hits, now ≤ h.now) (hclock : hits.Pairwise fun h h' => h.now ≤ h'.now)
    (hkeys : ∀ h ∈ hits, Paired h.key) (hwindow : ∀ h ∈ hits, h.windowMs = windowOf h.key)
    (hrange : ∀ h ∈ hits, h.now + h.windowMs < 2 ^ 63) :
    redisCounts r keyPrefix db hits = (memoryCounts windows hits).map some := by
  induction hits generalizing now db windows with
  | nil => rfl
  | cons h hits ih =>
    obtain ⟨hlater, hclock⟩ := List.pairwise_cons.mp hclock
    obtain ⟨hkey, hkeys⟩ := List.forall_mem_cons.mp hkeys
    obtain ⟨hw, hwindow⟩ := List.forall_mem_cons.mp hwindow
    obtain ⟨hr, hrange⟩ := List.forall_mem_cons.mp hrange
    obtain ⟨hcount, hagrees⟩ := (ha.mono (hnow h List.mem_cons_self)).hit r hbegin hkey hw hr
    rw [redisCounts, memoryCounts, List.map_cons, hcount,
      ih hagrees hlater hclock hkeys hwindow hrange]

theorem expireAt_countersAfter (r : Reaper) (keyPrefix : JsString) {hits : List Hit}
    (hrange : ∀ h ∈ hits, h.now + h.windowMs < 2 ^ 63)
    (hdb : ∀ k c, db.lookup k = some c → c.expireAt ≠ none) :
    ∀ k c, (countersAfter r keyPrefix db hits).lookup k = some c → c.expireAt ≠ none := by
  induction hits generalizing db with
  | nil => exact hdb
  | cons h hits ih =>
    obtain ⟨hr, hrange⟩ := List.forall_mem_cons.mp hrange
    exact ih hrange (expireAt_redisHit r keyPrefix hr hdb)

/-- Where each key has one window length, a safe integer, and the texts have no lone surrogate:
both stores return the same counts, the counters of two windows are two, and all of them
expire. -/
theorem stores_agree (r : Reaper) (keyPrefix : JsString) (hbegin : Paired keyPrefix)
    (hits : List Hit) (hclock : hits.Pairwise fun h h' => h.now ≤ h'.now)
    (hdate : ∀ h ∈ hits, h.now ≤ 8640000000000000) (hkeys : ∀ h ∈ hits, Paired h.key)
    (hsafe : ∀ h ∈ hits, h.windowMs < 2 ^ 53)
    (windowOf : JsString → ℕ) (hwindow : ∀ h ∈ hits, h.windowMs = windowOf h.key) :
    redisCounts r keyPrefix ∅ hits = (memoryCounts ∅ hits).map some ∧
      (∀ h ∈ hits, ∀ h' ∈ hits, h.bytes keyPrefix = h'.bytes keyPrefix ↔
        h.key = h'.key ∧ h.bucket = h'.bucket) ∧
      ∀ redisKey counter, (countersAfter r keyPrefix ∅ hits).lookup redisKey = some counter →
        counter.expireAt ≠ none := by
  have hrange : ∀ h ∈ hits, h.now + h.windowMs < 2 ^ 63 := by
    intro h hh
    have hnow := hdate h hh
    have hlength := hsafe h hh
    omega
  refine ⟨?_, ?_, ?_⟩
  · exact (agrees_empty keyPrefix windowOf 0).counts r hbegin (fun _ _ => Nat.zero_le _) hclock
      hkeys hwindow hrange
  · intro h hh h' hh'
    exact encodeUtf8_windowKey_inj hbegin (hkeys h hh) (hkeys h' hh')
  · apply expireAt_countersAfter r keyPrefix hrange
    intro k c hc
    cases hc

/-! ### The limiter -/

/-- A call of the limiter's `allow` with a text for a key and an integer for a limit. -/
structure SharedCall where
  key : JsString
  limit : ℤ
  now : ℕ

/-- `allow` of `createSharedRateLimiter` over the `hit` of a store; `none` if that rejects. -/
def sharedAllow {σ : Type} (hit : Hit → σ → Option ℕ × σ) (windowMs : ℕ) (pos : 0 < windowMs)
    (c : SharedCall) (s : σ) : Option Bool × σ :=
  if c.key = [] ∨ c.limit ≤ 0 then (some false, s)
  else
    let answered := hit ⟨c.key, windowMs, c.now, pos⟩ s
    (answered.1.map fun n => decide (0 < n ∧ (n : ℤ) ≤ c.limit), answered.2)

def sharedAnswers {σ : Type} (hit : Hit → σ → Option ℕ × σ) (windowMs : ℕ) (pos : 0 < windowMs) :
    σ → List SharedCall → List (Option Bool)
  | _, [] => []
  | s, c :: cs =>
    (sharedAllow hit windowMs pos c s).1 ::
      sharedAnswers hit windowMs pos (sharedAllow hit windowMs pos c s).2 cs

/-- The reference store never rejects. -/
def memoryAnswer (h : Hit) (windows : WindowSlots) : Option ℕ × WindowSlots :=
  (some (memoryHit h windows).1, (memoryHit h windows).2)

theorem Agrees.answers (r : Reaper) (hbegin : Paired keyPrefix) {windowMs : ℕ} (pos : 0 < windowMs)
    {cs : List SharedCall} (ha : Agrees keyPrefix (fun _ => windowMs) now db windows)
    (hnow : ∀ c ∈ cs, now ≤ c.now) (hclock : cs.Pairwise fun c c' => c.now ≤ c'.now)
    (hkeys : ∀ c ∈ cs, Paired c.key) (hrange : ∀ c ∈ cs, c.now + windowMs < 2 ^ 63) :
    sharedAnswers (redisHit r keyPrefix) windowMs pos db cs =
      sharedAnswers memoryAnswer windowMs pos windows cs := by
  induction cs generalizing now db windows with
  | nil => rfl
  | cons c cs ih =>
    obtain ⟨hlater, hclock⟩ := List.pairwise_cons.mp hclock
    obtain ⟨hkey, hkeys⟩ := List.forall_mem_cons.mp hkeys
    obtain ⟨hr, hrange⟩ := List.forall_mem_cons.mp hrange
    have ha := ha.mono (hnow c List.mem_cons_self)
    rw [sharedAnswers, sharedAnswers, sharedAllow, sharedAllow]
    by_cases hbad : c.key = [] ∨ c.limit ≤ 0
    · simp only [if_pos hbad]
      rw [ih ha hlater hclock hkeys hrange]
    · simp only [if_neg hbad]
      obtain ⟨hcount, hagrees⟩ := Agrees.hit (h := ⟨c.key, windowMs, c.now, pos⟩) r ha hbegin hkey
        rfl hr
      rw [hcount, ih hagrees hlater hclock hkeys hrange]
      rfl

/-- A limiter allows the same calls over either store. -/
theorem limiters_agree (r : Reaper) (keyPrefix : JsString) (hbegin : Paired keyPrefix)
    {windowMs : ℕ} (pos : 0 < windowMs) (hsafe : windowMs < 2 ^ 53) (cs : List SharedCall)
    (hclock : cs.Pairwise fun c c' => c.now ≤ c'.now) (hkeys : ∀ c ∈ cs, Paired c.key)
    (hdate : ∀ c ∈ cs, c.now ≤ 8640000000000000) :
    sharedAnswers (redisHit r keyPrefix) windowMs pos ∅ cs =
      sharedAnswers memoryAnswer windowMs pos ∅ cs := by
  apply (agrees_empty keyPrefix (fun _ => windowMs) 0).answers r hbegin pos
    (fun _ _ => Nat.zero_le _) hclock hkeys
  intro c hc
  have hnow := hdate c hc
  omega

/-- Redis as it is: a key is gone once its expiry lies before now. -/
def strictReaper : Reaper where
  gone e now := e < now
  kept _ _ h := decide_eq_false (Nat.not_lt.mpr h.le)
  removed _ _ h := decide_eq_true h

def haechiRl : JsString := js "haechi:rl:"

/-- Three hits of one key, the last in the next window. -/
theorem stores_agree_alice :
    redisCounts strictReaper haechiRl ∅ [⟨js "alice", 1000, 5000, by decide⟩,
        ⟨js "alice", 1000, 5999, by decide⟩, ⟨js "alice", 1000, 6000, by decide⟩] =
      (memoryCounts ∅ [⟨js "alice", 1000, 5000, by decide⟩, ⟨js "alice", 1000, 5999, by decide⟩,
        ⟨js "alice", 1000, 6000, by decide⟩]).map some := by
  have halice : Paired (js "alice") := paired_of_ascii (by decide)
  exact (stores_agree strictReaper haechiRl (paired_of_ascii (by decide)) _ (by simp) (by simp)
    (by simp [halice]) (by simp) (fun _ => 1000) (by simp)).1

/-- A key hit with two window lengths is counted differently, a window of 10 ^ 19 ms leaves a
counter that does not expire, and two keys that are lone surrogates share one. -/
theorem stores_differ :
    (redisCounts strictReaper haechiRl ∅ [⟨js "alice", 1000, 5000, by decide⟩,
        ⟨js "alice", 2000, 5000, by decide⟩, ⟨js "alice", 1000, 5000, by decide⟩] =
          [some 1, some 1, some 2] ∧
      memoryCounts ∅ [⟨js "alice", 1000, 5000, by decide⟩, ⟨js "alice", 2000, 5000, by decide⟩,
        ⟨js "alice", 1000, 5000, by decide⟩] = [1, 1, 1]) ∧
    (countersAfter strictReaper haechiRl ∅ [⟨js "alice", 10 ^ 19, 5000, by decide⟩]).lookup
      (encodeUtf8 (js "haechi:rl:alice:0")) = some ⟨1, none⟩ ∧
    (⟨[0xd800], 1000, 5000, by decide⟩ : Hit).bytes haechiRl =
      (⟨[0xd801], 1000, 5000, by decide⟩ : Hit).bytes haechiRl := by
  decide +kernel

end Haechi.Redis
