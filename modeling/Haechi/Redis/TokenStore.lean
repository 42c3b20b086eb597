import Haechi.Fence
import Haechi.Text.Lines
import Mathlib.Data.Finmap

/-! The Redis token store. A mutation reads the version and the whole hash, runs over
a view that notes what it sets and deletes, and hands the difference to a script
that applies it if the version still stands. The script is not undone when it fails
half way. -/

namespace Haechi.Redis

open Text

variable {ν : Type} [JsNumber ν]

/-! ### The script -/

/-- The hash under `tokens`: a text of JSON for each token. -/
abbrev Hash := Finmap fun _ : JsString => JsString

/-- What the token store keeps in Redis. -/
structure TokenData where
  version : Option ℕ
  tokens : Hash

/-- A text without lone surrogates. -/
def isWellFormed : JsString → Bool
  | [] => true
  | [c] => !Json.isHighSurrogate c && !Json.isLowSurrogate c
  | c :: d :: rest =>
    if Json.isHighSurrogate c && Json.isLowSurrogate d then isWellFormed rest
    else !Json.isHighSurrogate c && !Json.isLowSurrogate c && isWellFormed (d :: rest)

/-- `cjson.decode` takes the escapes that `JSON.stringify` writes, except that of a
lone surrogate. -/
def decodes (texts : List JsString) : Bool := texts.all isWellFormed

/-- `tostring` of a Lua number: fourteen significant digits, ties to even. -/
def fourteenDigits (n : ℕ) : ℕ :=
  let unit := 10 ^ (Nat.log 10 n - 13)
  let q := n / unit
  let r := n % unit
  if 2 * r < unit ∨ (2 * r = unit ∧ q % 2 = 0) then q * unit else (q + 1) * unit

/-- `nv`, as it is stored. -/
def nextVersion : Option ℕ → ℕ
  | none => 1
  | some v => fourteenDigits (v + 1)

/-- `HSET` for each pair. -/
def hset (pairs : List (JsString × JsString)) (h : Hash) : Hash :=
  pairs.foldl (fun h p => h.insert p.1 p.2) h

/-- `HDEL` for each field. -/
def hdel (fields : List JsString) (h : Hash) : Hash := fields.foldl (fun h f => h.erase f) h

/-- `APPLY_SCRIPT`. -/
def applyScript (expected : Option ℕ) (sets : List (JsString × JsString)) (dels : List JsString)
    (d : TokenData) : Fence.Reply × TokenData :=
  if d.version = expected then
    if decodes (sets.flatMap fun p => [p.1, p.2]) then
      let d := { d with tokens := hset sets d.tokens }
      if decodes dels then
        (.committed, ⟨some (nextVersion d.version), hdel dels d.tokens⟩)
      else (.error, d)
    else (.error, d)
  else (.conflict, d)

/-! ### The view -/

/-- The parsed records by token. -/
abbrev Snapshot (ν : Type) := JsString → Option (JsValue ν)

/-- `loadTokens`, from what `HGETALL` gave. -/
def loadTokens (h : Hash) : Option (Snapshot ν) :=
  if h.all fun _ text => (Json.parse text : Option (JsValue ν)).isSome then
    some fun token => (h.lookup token).bind Json.parse
  else none

/-- A call on the view that changes it. A record is an object. -/
inductive Op (ν : Type) where
  | set (token : JsString) (record : List (JsString × JsValue ν))
  | delete (token : JsString)

/-- The view's state. The two sets keep the order of insertion. -/
structure View (ν : Type) where
  tokens : Snapshot ν
  dirty : List JsString
  deleted : List JsString

/-- `set.add`. -/
def addTo (token : JsString) (set : List JsString) : List JsString :=
  if token ∈ set then set else set ++ [token]

/-- `mutableView`. -/
def View.op (v : View ν) : Op ν → View ν
  | .set token record =>
    { tokens := Function.update v.tokens token (some (.obj record))
      dirty := addTo token v.dirty
      deleted := v.deleted.erase token }
  | .delete token =>
    { tokens := Function.update v.tokens token none
      dirty := v.dirty.erase token
      deleted := addTo token v.deleted }

/-- The sets and deletes of the diff. -/
def View.diff (v : View ν) : List (JsString × JsString) × List JsString :=
  (v.dirty.map fun token => (token, jsonLine ((v.tokens token).getD .undef)), v.deleted)

/-- A mutation function, as what it does to the view it is given on each attempt;
`none` if it throws. -/
abbrev Mutation (ν : Type) := ℕ → Snapshot ν → Option (List (Op ν))

/-- The diff of a mutation over a hash, if neither loading nor the function throws. -/
def diffOf (fn : Mutation ν) (attempt : ℕ) (h : Hash) :
    Option (List (JsString × JsString) × List JsString) := do
  let tokens ← loadTokens h
  let ops ← fn attempt tokens
  return (ops.foldl View.op ⟨tokens, [], []⟩).diff

/-- The store of `createRedisTokenStore`, as `mutate` uses it. -/
def tokenStore : Fence.Store TokenData (Mutation ν) (Option ℕ) Hash where
  version d := d.version
  snapshot d := d.tokens
  write fn attempt version tokens d :=
    match diffOf fn attempt tokens with
    | none => (.error, d)
    | some (sets, dels) => applyScript version sets dels d
  retries := 64

/-! ### What a mutation does to the hash -/

/-- The call on the view, done to the hash itself. -/
def Op.apply (h : Hash) : Op ν → Hash
  | .set token record => h.insert token (jsonLine (.obj record))
  | .delete token => h.erase token

/-- A mutation applied to a hash nobody else writes to. -/
def mutate (fn : Mutation ν) (attempt : ℕ) (h : Hash) : Hash :=
  match (loadTokens h).bind (fn attempt) with
  | some ops => ops.foldl Op.apply h
  | none => h

/-- A pass that sets each of its fields to a value, or removes it. -/
theorem lookup_foldl {update : Hash → JsString → Hash} {value : JsString → Option JsString}
    (hupdate : ∀ h token k,
      (update h token).lookup k = if k = token then value token else h.lookup k)
    (l : List JsString) (h : Hash) (k : JsString) :
    (l.foldl update h).lookup k = if k ∈ l then value k else h.lookup k := by
  induction l generalizing h with
  | nil => rfl
  | cons token l ih =>
    rw [List.foldl_cons, ih, hupdate]
    by_cases hl : k ∈ l
    · rw [if_pos hl, if_pos (List.mem_cons_of_mem _ hl)]
    · by_cases hk : k = token
      · subst hk
        rw [if_neg hl, if_pos rfl, if_pos List.mem_cons_self]
      · rw [if_neg hl, if_neg hk, if_neg (by simp [hk, hl])]

theorem lookup_hset (f : JsString → JsString) (l : List JsString) (h : Hash) (k : JsString) :
    (hset (l.map fun token => (token, f token)) h).lookup k =
      if k ∈ l then some (f k) else h.lookup k := by
  rw [hset, List.foldl_map]
  apply lookup_foldl
  intro h token k
  split_ifs with hk
  · rw [hk, Finmap.lookup_insert]
  · exact Finmap.lookup_insert_of_ne _ hk

theorem lookup_hdel (l : List JsString) (h : Hash) (k : JsString) :
    (hdel l h).lookup k = if k ∈ l then none else h.lookup k := by
  apply lookup_foldl
  intro h token k
  split_ifs with hk
  · rw [hk, Finmap.lookup_erase]
  · exact Finmap.lookup_erase_ne hk

/-- The view's two sets account for the difference between the hashes. -/
structure View.Tracks (v : View ν) (h₀ h : Hash) : Prop where
  dirty : v.dirty.Nodup
  deleted : v.deleted.Nodup
  lookup : ∀ k, h.lookup k =
    if k ∈ v.dirty then some (jsonLine ((v.tokens k).getD .undef))
    else if k ∈ v.deleted then none else h₀.lookup k
  disjoint : ∀ k ∈ v.dirty, k ∉ v.deleted

theorem mem_addTo {k token : JsString} {l : List JsString} :
    k ∈ addTo token l ↔ k = token ∨ k ∈ l := by
  rw [addTo]
  split_ifs with h
  · exact ⟨.inr, fun hk => hk.elim (fun he => he ▸ h) id⟩
  · simp [or_comm]

theorem nodup_addTo {token : JsString} {l : List JsString} (h : l.Nodup) :
    (addTo token l).Nodup := by
  rw [addTo]
  split_ifs with hmem
  · exact h
  · exact h.append (List.nodup_singleton _) (List.disjoint_singleton.mpr hmem)

theorem View.Tracks.op {v : View ν} {h₀ h : Hash} (ht : v.Tracks h₀ h) (op : Op ν) :
    (v.op op).Tracks h₀ (op.apply h) := by
  cases op with
  | set token record =>
    refine ⟨nodup_addTo ht.dirty, ht.deleted.erase _, fun k => ?_, fun k hk => ?_⟩
    · simp only [View.op, Op.apply, mem_addTo]
      by_cases hk : k = token
      · subst hk
        rw [Finmap.lookup_insert, if_pos (.inl rfl), Function.update_self]
        rfl
      · rw [Finmap.lookup_insert_of_ne _ hk, ht.lookup, Function.update_of_ne hk]
        simp only [hk, false_or, List.mem_erase_of_ne hk]
    · simp only [View.op, mem_addTo] at hk ⊢
      rw [ht.deleted.mem_erase_iff]
      rintro ⟨hne, hmem⟩
      exact ht.disjoint k (hk.resolve_left hne) hmem
  | delete token =>
    refine ⟨ht.dirty.erase _, nodup_addTo ht.deleted, fun k => ?_, fun k hk => ?_⟩
    · simp only [View.op, Op.apply, mem_addTo]
      by_cases hk : k = token
      · subst hk
        rw [Finmap.lookup_erase, if_neg (fun h => (ht.dirty.mem_erase_iff.mp h).1 rfl),
          if_pos (.inl rfl)]
      · rw [Finmap.lookup_erase_ne hk, ht.lookup, Function.update_of_ne hk]
        simp only [hk, false_or, List.mem_erase_of_ne hk]
    · simp only [View.op, mem_addTo] at hk ⊢
      obtain ⟨hne, hmem⟩ := ht.dirty.mem_erase_iff.mp hk
      rintro (he | hdel)
      · exact hne he
      · exact ht.disjoint k hmem hdel

theorem View.Tracks.foldl {v : View ν} {h₀ h : Hash} (ht : v.Tracks h₀ h) (ops : List (Op ν)) :
    (ops.foldl View.op v).Tracks h₀ (ops.foldl Op.apply h) := by
  induction ops generalizing v h with
  | nil => exact ht
  | cons op ops ih => exact ih (ht.op op)

/-- Applying the diff is the same as doing each call to the hash. -/
theorem apply_diff {fn : Mutation ν} {attempt : ℕ} {h : Hash}
    {sets : List (JsString × JsString)} {dels : List JsString}
    (hd : diffOf fn attempt h = some (sets, dels)) :
    hdel dels (hset sets h) = mutate fn attempt h := by
  obtain ⟨tokens, hload, hd⟩ := Option.bind_eq_some_iff.mp hd
  obtain ⟨ops, hfn, hd⟩ := Option.bind_eq_some_iff.mp hd
  have ht : (ops.foldl View.op ⟨tokens, [], []⟩).Tracks h (ops.foldl Op.apply h) :=
    View.Tracks.foldl ⟨List.nodup_nil, List.nodup_nil, fun k => rfl, fun k hk => by cases hk⟩ ops
  obtain ⟨rfl, rfl⟩ := Prod.mk.inj (Option.some.inj hd)
  have hmutate : mutate fn attempt h = ops.foldl Op.apply h := by
    rw [mutate, hload, Option.bind_some, hfn]
  refine hmutate ▸ Finmap.ext_lookup fun k => ?_
  rw [lookup_hdel, lookup_hset, ht.lookup]
  by_cases hdirty : k ∈ (ops.foldl View.op ⟨tokens, [], []⟩).dirty
  · rw [if_neg (ht.disjoint k hdirty), if_pos hdirty, if_pos hdirty]
  · rw [if_neg hdirty, if_neg hdirty]

/-! ### Serial runs -/

/-- Where the fence passes, the counter has not reached its fifteenth digit, and a
diff that sets a field deletes none that `cjson.decode` refuses. -/
def Whole (fn : Mutation ν) (attempt : ℕ) (version : Option ℕ) (tokens : Hash)
    (d : TokenData) : Prop :=
  d.version = version → d.version.getD 0 < 10 ^ 14 ∧
    ∀ diff ∈ diffOf fn attempt tokens,
      diff.1 ≠ [] → decodes (diff.1.flatMap fun p => [p.1, p.2]) → decodes diff.2

/-- How often the hash has been written to. -/
def TokenData.rank (d : TokenData) : ℕ := d.version.elim 0 (· + 1)

theorem fourteenDigits_of_le {n : ℕ} (h : n ≤ 10 ^ 14) : fourteenDigits n = n := by
  rcases h.lt_or_eq with h | rfl
  · have hlog : Nat.log 10 n - 13 = 0 := by
      have := Nat.log_lt_of_lt_pow' (b := 10) (by norm_num) h
      omega
    simp [fourteenDigits, hlog, Nat.mod_one]
  · rfl

theorem nextVersion_lt {d : TokenData} (h : d.version.getD 0 < 10 ^ 14) :
    d.rank < nextVersion d.version + 1 := by
  rcases d with ⟨_ | v, tokens⟩
  · exact Nat.zero_lt_succ _
  · have hv : v < 10 ^ 14 := h
    show v + 1 < fourteenDigits (v + 1) + 1
    rw [fourteenDigits_of_le (by omega)]
    omega

/-- From fifteen digits on the counter stands still, and the fence no longer moves. -/
example : nextVersion (some (10 ^ 14)) = 10 ^ 14 := by decide

/-- What the script does when it commits. -/
theorem applyScript_committed {expected : Option ℕ} {sets : List (JsString × JsString)}
    {dels : List JsString} {d d' : TokenData}
    (h : applyScript expected sets dels d = (.committed, d')) :
    d.version = expected ∧ d' = ⟨some (nextVersion d.version), hdel dels (hset sets d.tokens)⟩ := by
  unfold applyScript at h
  split_ifs at h with hv hsets hdels
  · exact ⟨hv, (Prod.mk.inj h).2.symm⟩
  all_goals cases (Prod.mk.inj h).1

/-- A script that does not commit leaves the hash alone, unless it stops between
its sets and its deletes. -/
theorem applyScript_keeps {expected : Option ℕ} {sets : List (JsString × JsString)}
    {dels : List JsString} {d : TokenData}
    (hwhole : d.version = expected → sets ≠ [] →
      decodes (sets.flatMap fun p => [p.1, p.2]) → decodes dels)
    (h : (applyScript expected sets dels d).1 ≠ .committed) :
    (applyScript expected sets dels d).2 = d := by
  unfold applyScript at h ⊢
  split_ifs at h ⊢ with hv hsets hdels
  · exact absurd rfl h
  · have hnil : sets = [] := by
      by_contra hne
      exact hdels (hwhole hv hne hsets)
    subst hnil
    rfl
  · rfl
  · rfl

theorem write_committed {fn : Mutation ν} {attempt : ℕ} {version : Option ℕ} {tokens : Hash}
    {d d' : TokenData} (h : tokenStore.write fn attempt version tokens d = (.committed, d')) :
    ∃ diff, diffOf fn attempt tokens = some diff ∧ d.version = version ∧
      d' = ⟨some (nextVersion d.version), hdel diff.2 (hset diff.1 d.tokens)⟩ := by
  simp only [tokenStore] at h
  split at h
  · cases (Prod.mk.inj h).1
  · next sets dels hdiff => exact ⟨_, hdiff, applyScript_committed h⟩

/-- The version fence pins the snapshot. -/
theorem tokenStore_fenced :
    Fence.Fenced (tokenStore (ν := ν)) (fun _ => True) TokenData.rank Whole where
  raises := by
    intro d d' fn attempt _ hwhole h
    obtain ⟨diff, -, -, rfl⟩ := write_committed h
    exact ⟨trivial, nextVersion_lt (hwhole rfl).1⟩
  fences := by
    intro d₀ d d' fn attempt tokens _ _ _ h
    obtain ⟨-, -, hv, -⟩ := write_committed h
    rw [TokenData.rank, TokenData.rank, hv]
    rfl
  keeps := by
    intro d fn attempt version tokens hwhole h
    simp only [tokenStore] at h ⊢
    split at h
    · rfl
    · next sets dels hdiff =>
      exact applyScript_keeps (fun hv => (hwhole hv).2 (sets, dels) hdiff) h

/-- The committed mutations, one after another. -/
def serially (log : List (Fence.Entry (Mutation ν))) (h : Hash) : Hash :=
  log.foldl (fun h e => mutate e.input e.attempt h) h

theorem tokens_replay {log : List (Fence.Entry (Mutation ν))} {d d' : TokenData}
    (h : Fence.replay tokenStore d log = some d') : d'.tokens = serially log d.tokens := by
  induction log generalizing d with
  | nil =>
    obtain rfl := Option.some.inj h
    rfl
  | cons e log ih =>
    rw [Fence.replay] at h
    split at h
    · next d₁ hw =>
      obtain ⟨diff, hdiff, -, rfl⟩ := write_committed hw
      rw [ih h, serially, serially, List.foldl_cons]
      congr 1
      exact apply_diff hdiff
    · cases h

/-- **Serialisability.** In every run of any number of mutations, whatever the lock
does, whose applied diffs are whole: the hash is what the committed mutations
give one after another, each of them over the hash it was committed to; and a
mutation that has returned is committed exactly once, any other at most once. -/
theorem mutate_serial {K : Type} [DecidableEq K] (init : TokenData)
    (as : List (Fence.Action (Mutation ν) K))
    (hwhole : Allowed (Fence.step tokenStore) (Fence.Writes Whole) (Fence.start init) as) :
    let s := as.foldl (Fence.step tokenStore) (Fence.start init)
    s.data.tokens = serially s.log init.tokens ∧
    Fence.replay tokenStore init s.log = some s.data ∧
    (∀ e ∈ s.log, ∃ c, s.calls[e.call]? = some c ∧ c.input = e.input) ∧
    ∀ i c, s.calls[i]? = some c →
      Fence.commits i s.log ≤ 1 ∧ (c.phase = .settled true → Fence.commits i s.log = 1) := by
  have h := Fence.serial_run tokenStore_fenced trivial hwhole
  exact ⟨tokens_replay h.replays, h.replays, h.entries,
    fun i c hc => ⟨h.commits_le hc, h.commits_resolved hc⟩⟩

/-- A mutation that sets one token. -/
def setOne (token : JsString) : Mutation NumberToken := fun _ _ => some [.set token []]

/-- Two mutations over one snapshot: the lock expires under the first. -/
def raced : List (Fence.Action (Mutation NumberToken) ℕ) :=
  [.call (setOne (js "a")) 0, .call (setOne (js "b")) 1, .move 0 .acquire, .expire,
    .move 1 .acquire, .move 0 .readVersion, .move 1 .readVersion, .move 0 .readSnapshot,
    .move 1 .readSnapshot, .move 0 (.write false), .move 1 (.write false)]

theorem mutate_serial_raced :
    let s := raced.foldl (Fence.step tokenStore) (Fence.start ⟨none, ∅⟩)
    s.data.tokens = serially s.log ∅ := by
  refine (mutate_serial ⟨none, ∅⟩ raced ⟨trivial, trivial, trivial, trivial, trivial, trivial,
    trivial, trivial, trivial, ?_, ?_, trivial⟩).1
  · intro input token n r t hc
    cases hc
    refine fun _ => ⟨by decide, fun diff hdiff => ?_⟩
    cases hdiff
    decide
  · intro input token n r t hc
    cases hc
    intro hversion
    exact absurd hversion (by decide)

/-- A mutation that sets one token and deletes a lone surrogate. -/
def setAndDelete : Mutation NumberToken := fun _ _ => some [.set (js "a") [], .delete [0xd800]]

/-- The script has set the token when it fails on the deletes, and it is not undone. -/
theorem mutate_partial : ¬∀ (init : TokenData)
    (as : List (Fence.Action (Mutation NumberToken) ℕ)),
    let s := as.foldl (Fence.step tokenStore) (Fence.start init)
    s.data.tokens = serially s.log init.tokens := by
  intro h
  have h := congrArg (Finmap.lookup (js "a")) (h ⟨none, ∅⟩
    [.call setAndDelete 0, .move 0 .acquire, .move 0 .readVersion, .move 0 .readSnapshot,
      .move 0 (.write false)])
  revert h
  decide

end Haechi.Redis
