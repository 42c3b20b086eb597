import Haechi.Vault.Stores

/-! The operations of the vault, as what they ask of a store. Every mutation deletes the
expired records first, so one that throws afterwards has changed the view. Proved: a vault
gives the same results over the file, the memory and the Redis store, as long as no call of
`tokenize` throws while a record has expired and no name of `Object.prototype` is asked
for. -/

namespace Haechi.Stores

open Text Views

variable {ν ε : Type}

/-- What the functions of the vault return. -/
inductive Reply (ν : Type) where
  | token (reused : Bool)
  | purged (existed : Bool)
  | pruned (count : ℕ)
  | found (records : List (Property ν))

abbrev VaultFn (ν ε : Type) := StoreFn ν ε (Reply ν)

/-! ### Pruning -/

/-- The tokens of the expired records. -/
def expiredTokens (expired : Members ν → Bool) (l : Entries ν) : List JsString :=
  (l.filter fun e => expired e.2).map Prod.fst

/-- `pruneExpiredView`, which goes on with the number of records it has deleted. -/
def pruneExpiredView (expired : Members ν → Bool) (next : ℕ → VaultFn ν ε) : VaultFn ν ε :=
  .entries fun l => deleteAll (expiredTokens expired l) (next (expiredTokens expired l).length)

/-- The map without its expired records. -/
def Pruned (expired : Members ν → Bool) (m m₁ : Records ν) : Prop :=
  ∀ token, m₁.lookup token = (m.lookup token).filter fun record => !expired record

section Prune

variable {expired : Members ν → Bool} {m m₁ : Records ν} {l : Entries ν}

theorem mem_expiredTokens (hl : Lists l m) {token : JsString} :
    token ∈ expiredTokens expired l ↔ ∃ record, m.lookup token = some record ∧ expired record := by
  rw [expiredTokens, List.mem_map]
  constructor
  · rintro ⟨e, he, rfl⟩
    obtain ⟨hmem, hexpired⟩ := List.mem_filter.mp he
    exact ⟨e.2, (hl.mem e.1 e.2).mp hmem, hexpired⟩
  · rintro ⟨record, hrecord, hexpired⟩
    exact ⟨(token, record), List.mem_filter.mpr ⟨(hl.mem _ _).mpr hrecord, hexpired⟩, rfl⟩

theorem pruned_eraseAll (hl : Lists l m) : Pruned expired m (eraseAll (expiredTokens expired l) m) := by
  intro token
  rw [lookup_eraseAll]
  cases hm : m.lookup token with
  | none => simp
  | some record =>
    by_cases hexpired : expired record = true
    · rw [if_pos ((mem_expiredTokens hl).mpr ⟨record, hm, hexpired⟩)]
      simp [Option.filter, hexpired]
    · have hmem : token ∉ expiredTokens expired l := by
        rw [mem_expiredTokens hl]
        rintro ⟨record', hrecord', hexpired'⟩
        rw [hm] at hrecord'
        exact hexpired (Option.some.inj hrecord' ▸ hexpired')
      rw [if_neg hmem]
      simp [Option.filter, hexpired]

theorem Pruned.unique {m₂ : Records ν} (h₁ : Pruned expired m m₁) (h₂ : Pruned expired m m₂) :
    m₁ = m₂ := by
  refine Finmap.ext_lookup fun token => ?_
  rw [h₁, h₂]

theorem Pruned.lookup (h : Pruned expired m m₁) {token : JsString} {record : Members ν}
    (hrecord : m₁.lookup token = some record) : m.lookup token = some record := by
  rw [h, Option.filter_eq_some_iff] at hrecord
  exact hrecord.1

/-- Where nothing has expired, nothing is deleted. -/
theorem Pruned.eq_self (h : Pruned expired m m₁)
    (hm : ∀ token record, m.lookup token = some record → expired record = false) : m₁ = m := by
  refine Finmap.ext_lookup fun token => ?_
  rw [h]
  cases hrecord : m.lookup token with
  | none => rfl
  | some record => simp [Option.filter, hm token record hrecord]

theorem ends_prune {next : ℕ → VaultFn ν ε} {r : Except (Failure ε) (Reply ν)} {m' : Records ν}
    (h : Ends answer (pruneExpiredView expired next) m r m') :
    ∃ m₁ count, Pruned expired m m₁ ∧ Ends answer (next count) m₁ r m' := by
  cases h with
  | entries hl h => exact ⟨_, _, pruned_eraseAll hl, ends_deleteAll h⟩

theorem keeps_prune {rules : Rules JsString (Members ν)} {next : ℕ → VaultFn ν ε}
    (hdelete : ∀ token record, m.lookup token = some record → rules.delete token)
    (hnext : ∀ m₁ count, Pruned expired m m₁ → (next count).Keeps answer rules m₁) :
    (pruneExpiredView expired next).Keeps answer rules m := by
  intro l hl
  refine keeps_deleteAll (fun token htoken => ?_) (hnext _ _ (pruned_eraseAll hl))
  obtain ⟨record, hrecord, -⟩ := (mem_expiredTokens hl).mp htoken
  exact hdelete token record hrecord

/-- Pruning does not depend on the order of the entries. -/
theorem settled_prune {next : ℕ → VaultFn ν ε}
    (hnext : ∀ m₁ count, Pruned expired m m₁ → (next count).Settled answer m₁) :
    (pruneExpiredView expired next).Settled answer m := by
  intro r₁ m₁ r₂ m₂ h₁ h₂
  cases h₁ with
  | @entries _ l₁ _ _ _ hl₁ h₁ =>
    cases h₂ with
    | @entries _ l₂ _ _ _ hl₂ h₂ =>
      have hcount : (expiredTokens expired l₁).length = (expiredTokens expired l₂).length :=
        (((hl₁.unique hl₂).filter _).map _).length_eq
      have hmap : eraseAll (expiredTokens expired l₁) m = eraseAll (expiredTokens expired l₂) m :=
        (pruned_eraseAll hl₁).unique (pruned_eraseAll hl₂)
      have h₁ := ends_deleteAll h₁
      rw [hcount, hmap] at h₁
      exact hnext _ _ (pruned_eraseAll hl₂) _ _ _ _ h₁ (ends_deleteAll h₂)

end Prune

/-! ### The operations -/

/-- The end of `tokenize`: a record is set, or making it has failed. -/
def setRecord (token : JsString) (reused : Bool) : Except ε (Members ν) → VaultFn ν ε
  | .ok record => .set token record (.done (.token reused))
  | .error e => .throw (.thrown e)

/-- The function of `tokenize`. `extended` gives a record a new expiry, `fresh` is the new
record with its envelope. No token of the vault is a name of `Object.prototype`. -/
def tokenizeFn (expired : Members ν → Bool) (token : JsString)
    (extended : Members ν → Except ε (Members ν)) (fresh : Except ε (Members ν)) : VaultFn ν ε :=
  pruneExpiredView expired fun _ => .get token fun
    | .value (.obj existing) => setRecord token true (extended existing)
    | _ => setRecord token false fresh

/-- The function of `purge`. -/
def purgeFn (expired : Members ν → Bool) (token : JsString) : VaultFn ν ε :=
  pruneExpiredView expired fun _ => .get token fun found =>
    .delete token (.done (.purged (isFound found)))

/-- The function of `purgeExpired`. -/
def purgeExpiredFn (expired : Members ν → Bool) : VaultFn ν ε :=
  pruneExpiredView expired fun count => .done (.pruned count)

/-- The function that `reveal` reads one token with, and `detokenize` all of its tokens. -/
def foundFn : List JsString → List (Property ν) → VaultFn ν ε
  | [], found => .done (.found found)
  | token :: tokens, found => .get token fun p => foundFn tokens (found ++ [p])

inductive VaultOp (ν ε : Type) where
  | tokenize (expired : Members ν → Bool) (token : JsString)
      (extended : Members ν → Except ε (Members ν)) (fresh : Except ε (Members ν))
  | purge (expired : Members ν → Bool) (token : JsString)
  | purgeExpired (expired : Members ν → Bool)
  | detokenize (tokens : List JsString)

/-- The call that an operation makes on its store. -/
def VaultOp.call : VaultOp ν ε → StoreCall ν ε (Reply ν)
  | .tokenize expired token extended fresh =>
    .mutate (tokenizeFn expired token extended fresh) .passes
  | .purge expired token => .mutate (purgeFn expired token) .passes
  | .purgeExpired expired => .mutate (purgeExpiredFn expired) .passes
  | .detokenize tokens => .read (foundFn tokens [])

/-- A token that every store takes for what it is. -/
def IsToken (token : JsString) : Prop :=
  Redis.isWellFormed token = true ∧ token ∉ prototypeMembers

/-- The tokens of the vault are no names of `Object.prototype`. -/
theorem isToken_of_prefix {token : JsString} (hwell : Redis.isWellFormed token = true)
    (h : js "tok_" <+: token) : IsToken token := by
  refine ⟨hwell, fun hmem => ?_⟩
  have hnone : ∀ name ∈ prototypeMembers, ¬js "tok_" <+: name := by decide
  exact hnone token hmem h

/-- A map that every store can hold. -/
structure Holdable (m : Records ν) : Prop where
  records : AllRecords m
  tokens : ∀ token record, m.lookup token = some record → IsToken token

/-- What an operation asks of the map it is called on: its tokens are some, the records it
makes are JSON, and it does not throw where a record has expired. -/
def VaultOp.Proper (m : Records ν) : VaultOp ν ε → Prop
  | .tokenize expired token extended fresh =>
    IsToken token ∧ (∀ record, fresh = .ok record → IsRecord record) ∧
      (∀ record record', IsRecord record → extended record = .ok record' → IsRecord record') ∧
      ((∀ token record, m.lookup token = some record → expired record = false) ∨
        (∃ record, fresh = .ok record) ∧ ∀ record, ∃ record', extended record = .ok record')
  | .purge _ token => IsToken token
  | .purgeExpired _ => True
  | .detokenize tokens => ∀ token ∈ tokens, token ∉ prototypeMembers

section Proper

variable {expired : Members ν → Bool} {m m₁ : Records ν} {token : JsString}

theorem Holdable.pruned (h : Holdable m) (hp : Pruned expired m m₁) : Holdable m₁ where
  records _ _ hr := h.records _ _ (hp.lookup hr)
  tokens _ _ hr := h.tokens _ _ (hp.lookup hr)

theorem Holdable.insert (h : Holdable m) (ht : IsToken token) {record : Members ν}
    (hr : IsRecord record) : Holdable (m.insert token record) where
  records := h.records.insert token hr
  tokens k r hk := by
    by_cases he : k = token
    · rwa [he]
    · rw [Finmap.lookup_insert_of_ne _ he] at hk
      exact h.tokens k r hk

theorem Holdable.erase (h : Holdable m) (token : JsString) : Holdable (m.erase token) where
  records := h.records.erase token
  tokens k r hk := by
    by_cases he : k = token
    · rw [he, Finmap.lookup_erase] at hk
      cases hk
    · rw [Finmap.lookup_erase_ne he] at hk
      exact h.tokens k r hk

theorem IsToken.ne_protoName (h : IsToken token) : token ≠ protoName := by
  rintro rfl
  exact h.2 (by decide)

/-- The function does what every store takes, ends in one way and leaves what every store
can hold. -/
structure Fits (fn : VaultFn ν ε) (m : Records ν) : Prop where
  keeps : fn.Keeps answer redisRules m
  settled : fn.Settled answer m
  leaves : ∀ r m', Ends answer fn m r m' → Holdable m'

theorem fits_done (hm : Holdable m) (a : Reply ν) : Fits (.done a : VaultFn ν ε) m where
  keeps := trivial
  settled := settled_done a m
  leaves r m' h := by
    cases h
    exact hm

theorem fits_throw (hm : Holdable m) (e : Failure ε) : Fits (.throw e : VaultFn ν ε) m where
  keeps := trivial
  settled := settled_throw e m
  leaves r m' h := by
    cases h
    exact hm

theorem fits_get (ht : token ∉ prototypeMembers) {next : Property ν → VaultFn ν ε}
    (h : Fits (next (answer (m.lookup token))) m) : Fits (.get token next) m where
  keeps := ⟨.inr ht, h.keeps⟩
  settled := settled_get h.settled
  leaves r m' hends := by
    cases hends with
    | get hends => exact h.leaves r m' hends

theorem fits_set (ht : IsToken token) {record : Members ν} (hr : IsRecord record)
    {next : VaultFn ν ε} (h : Fits next (m.insert token record)) :
    Fits (.set token record next) m where
  keeps := ⟨⟨⟨ht.ne_protoName, hr⟩, ht.1⟩, h.keeps⟩
  settled := settled_set h.settled
  leaves r m' hends := by
    cases hends with
    | set hends => exact h.leaves r m' hends

theorem fits_delete (ht : IsToken token) {next : VaultFn ν ε} (h : Fits next (m.erase token)) :
    Fits (.delete token next) m where
  keeps := ⟨ht.1, h.keeps⟩
  settled := settled_delete h.settled
  leaves r m' hends := by
    cases hends with
    | delete hends => exact h.leaves r m' hends

theorem fits_prune (hm : Holdable m) {next : ℕ → VaultFn ν ε}
    (h : ∀ m₁ count, Pruned expired m m₁ → Fits (next count) m₁) :
    Fits (pruneExpiredView expired next) m where
  keeps := keeps_prune (fun token record hr => (hm.tokens token record hr).1)
    fun m₁ count hp => (h m₁ count hp).keeps
  settled := settled_prune fun m₁ count hp => (h m₁ count hp).settled
  leaves r m' hends := by
    obtain ⟨m₁, count, hp, hends⟩ := ends_prune hends
    exact (h m₁ count hp).leaves r m' hends

theorem fits_setRecord (hm : Holdable m) (ht : IsToken token) (reused : Bool)
    {made : Except ε (Members ν)} (hmade : ∀ record, made = .ok record → IsRecord record) :
    Fits (setRecord token reused made) m := by
  cases made with
  | ok record =>
    have hr := hmade record rfl
    exact fits_set ht hr (fits_done (hm.insert ht hr) _)
  | error e => exact fits_throw hm _

theorem fits_tokenizeFn (hm : Holdable m) {extended : Members ν → Except ε (Members ν)}
    {fresh : Except ε (Members ν)}
    (h : (VaultOp.tokenize expired token extended fresh).Proper m) :
    Fits (tokenizeFn expired token extended fresh) m := by
  obtain ⟨ht, hfresh, hextended, -⟩ := h
  refine fits_prune hm fun m₁ _ hp => fits_get ht.2 ?_
  cases hlookup : m₁.lookup token with
  | none => exact fits_setRecord (hm.pruned hp) ht false hfresh
  | some record =>
    have hr := (hm.pruned hp).records token record hlookup
    exact fits_setRecord (hm.pruned hp) ht true fun record' => hextended record record' hr

theorem fits_purgeFn (hm : Holdable m) (ht : IsToken token) :
    Fits (purgeFn expired token : VaultFn ν ε) m := by
  refine fits_prune hm fun m₁ _ hp => fits_get ht.2 (fits_delete ht ?_)
  exact fits_done ((hm.pruned hp).erase token) _

theorem fits_purgeExpiredFn (hm : Holdable m) : Fits (purgeExpiredFn expired : VaultFn ν ε) m :=
  fits_prune hm fun _ _ hp => fits_done (hm.pruned hp) _

theorem fits_foundFn (hm : Holdable m) {tokens : List JsString}
    (h : ∀ token ∈ tokens, token ∉ prototypeMembers) (found : List (Property ν)) :
    Fits (foundFn tokens found : VaultFn ν ε).reading m := by
  induction tokens generalizing found with
  | nil => exact fits_done hm _
  | cons token tokens ih =>
    obtain ⟨ht, htokens⟩ := List.forall_mem_cons.mp h
    exact fits_get ht (ih htokens _)

theorem ends_setRecord_error {reused : Bool} {made : Except ε (Members ν)} {e : Failure ε}
    {m' : Records ν} (h : Ends answer (setRecord token reused made) m (.error e) m') :
    m' = m ∧ ∃ e, made = .error e := by
  cases made with
  | ok record =>
    cases h with
    | set h => cases h
  | error e =>
    cases h
    exact ⟨rfl, e, rfl⟩

/-- A call of `tokenize` that throws leaves the map as it was. -/
theorem tokenizeFn_throws {extended : Members ν → Except ε (Members ν)}
    {fresh : Except ε (Members ν)}
    (h : (VaultOp.tokenize expired token extended fresh).Proper m) {e : Failure ε}
    {m' : Records ν} (hends : Ends answer (tokenizeFn expired token extended fresh) m (.error e) m') :
    m' = m := by
  obtain ⟨-, -, -, hquiet⟩ := h
  obtain ⟨m₁, -, hp, hends⟩ := ends_prune hends
  cases hends with
  | get hends =>
    obtain ⟨rfl, hfails⟩ : m' = m₁ ∧ ((∃ e, fresh = .error e) ∨ ∃ r e, extended r = .error e) := by
      cases hlookup : m₁.lookup token with
      | none =>
        rw [hlookup] at hends
        exact (ends_setRecord_error hends).imp_right .inl
      | some record =>
        rw [hlookup] at hends
        exact (ends_setRecord_error hends).imp_right fun he => .inr ⟨record, he⟩
    rcases hquiet with hlive | ⟨⟨record, hfresh⟩, hextended⟩
    · exact hp.eq_self hlive
    · rcases hfails with ⟨e, he⟩ | ⟨r, e, he⟩
      · rw [hfresh] at he
        cases he
      · obtain ⟨record', hr⟩ := hextended r
        rw [hr] at he
        cases he

theorem keeps_plainRules {fn : VaultFn ν ε} (h : fn.Keeps answer redisRules m) :
    fn.Keeps answer plainRules m :=
  h.mono (fun _ _ h => h) (fun _ _ h => h.1) fun _ _ => trivial

end Proper

/-! ### Runs of the vault -/

section Runs

variable {m : Records ν}

theorem portable_mutate {fn : VaultFn ν ε} (hm : Holdable m) (h : Fits fn m)
    (hthrows : ∀ e m', Ends answer fn m (.error e) m' → m' = m) :
    Portable m (.mutate fn .passes) ∧
      ∀ r m', Transact answer m (.mutate fn .passes) r m' → Holdable m' := by
  refine ⟨⟨⟨keeps_plainRules h.keeps, by decide⟩, ⟨rfl, hthrows⟩, ⟨h.keeps, by decide⟩,
    unordered_mutate h.settled⟩, fun r m' ht => ?_⟩
  cases ht with
  | throws => exact hm
  | fails => exact hm
  | resolves hends => exact h.leaves _ _ hends

theorem portable_read {fn : VaultFn ν ε} (hm : Holdable m) (h : Fits fn.reading m) :
    Portable m (.read fn) ∧ ∀ r m', Transact answer m (.read fn) r m' → Holdable m' := by
  have hkeeps := keeps_plainRules h.keeps
  refine ⟨⟨hkeeps, trivial, hkeeps, unordered_read h.settled⟩, fun r m' ht => ?_⟩
  cases ht with
  | read => exact hm

theorem VaultOp.portable {op : VaultOp ν ε} (hm : Holdable m) (h : op.Proper m) :
    Portable m op.call ∧ ∀ r m', Transact answer m op.call r m' → Holdable m' := by
  cases op with
  | tokenize expired token extended fresh =>
    exact portable_mutate hm (fits_tokenizeFn hm h) fun e m' => tokenizeFn_throws h
  | purge expired token =>
    refine portable_mutate hm (fits_purgeFn hm h) fun e m' hends => ?_
    obtain ⟨m₁, count, -, hends⟩ := ends_prune hends
    cases hends with
    | get hends =>
      cases hends with
      | delete hends => cases hends
  | purgeExpired expired =>
    refine portable_mutate hm (fits_purgeExpiredFn hm) fun e m' hends => ?_
    obtain ⟨m₁, count, -, hends⟩ := ends_prune hends
    cases hends
  | detokenize tokens => exact portable_read hm (fits_foundFn hm h [])

/-- **One vault over three stores.** Over stores that hold one map, proper operations of the
vault have the same results, and the stores hold one map after them. -/
theorem vault_results_equal [JsNumber ν] {hgetall : Redis.Hash → List (JsString × JsString)}
    (hlist : ∀ h, Lists (hgetall h) h) (hm : Holdable m) {file : Option (Entries ν)}
    {memory : Entries ν} {redis : Redis.TokenData} (hfile : FileHolds file m)
    (hmemory : Lists memory m) (hredis : RedisHolds redis m)
    {calls : List (StoreCall ν ε (Reply ν))}
    (h : Along answer (fun m c => ∃ op : VaultOp ν ε, op.call = c ∧ op.Proper m) m calls) :
    (results fileStore file calls).1 = (results memoryStore memory calls).1 ∧
      (results memoryStore memory calls).1 = (results (redisStore hgetall) redis calls).1 ∧
      ∃ m', FileHolds (results fileStore file calls).2 m' ∧
        Lists (results memoryStore memory calls).2 m' ∧
        RedisHolds (results (redisStore hgetall) redis calls).2 m' := by
  refine results_equal hlist hfile hmemory hredis ?_
  refine h.strengthen (fun m c hm hc => ?_) hm
  obtain ⟨op, rfl, hop⟩ := hc
  exact VaultOp.portable hm hop

end Runs

end Haechi.Stores
