import Haechi.Redis.TokenStore
import Haechi.Text.Paired
import Haechi.Text.Plain
import Haechi.Views

/-! The three token stores. The file store parses the vault, runs the mutation over the
object under `tokens` and writes it back; the memory store runs it over its live `Map`;
the Redis store runs it over an object made of the hash and sends the difference. A call
is alone on its store. A record is a value: what is done to an object that a view gave
counts once it is set.

An object answers for the names of `Object.prototype`, takes `__proto__` for something
else and is written as JSON; a `Map` keeps every change when the function throws. Where
none of this shows, each store takes every run of calls as a transactional map may, and
the three give the same results. -/

namespace Haechi.Stores

open Text Views

variable {ν ε α : Type}

/-- A record, as its members. -/
abbrev Members (ν : Type) := List (JsString × JsValue ν)

/-- Records by token, in the order in which they were first set. -/
abbrev Entries (ν : Type) := List (JsString × Members ν)

abbrev Records (ν : Type) := Map JsString (Members ν)

/-- A function that is given to `mutate` or to `read`. -/
abbrev StoreFn (ν ε α : Type) := Fn JsString (Members ν) (Property ν) ε α

abbrev StoreCall (ν ε α : Type) := Call JsString (Members ν) (Property ν) ε α

/-- What a map gives for a token. -/
def answer : Option (Members ν) → Property ν
  | none => .value .undef
  | some record => .value (.obj record)

/-! ### A plain object as a map -/

/-- The object under `tokens`: its own members, and the record its prototype has been
replaced by. -/
structure Plain (ν : Type) where
  own : Entries ν
  proto : Option (Members ν)

/-- `__proto__`. -/
def protoName : JsString := js "__proto__"

/-- `tokens[token]`. -/
def Plain.get (t : Plain ν) (token : JsString) : Property ν :=
  match t.own.lookup token with
  | some record => .value (.obj record)
  | none =>
    match t.proto with
    | none => JsValue.property [] token
    | some members =>
      match JsValue.field? token members with
      | some v => .value v
      | none => if token = protoName then .value (.obj members) else JsValue.property [] token

/-- `tokens[token] = record`. The setter of `Object.prototype` takes the name `__proto__`,
unless a member of that name comes before it. -/
def Plain.set (t : Plain ν) (token : JsString) (record : Members ν) : Plain ν :=
  if token = protoName ∧ token ∉ t.own.map Prod.fst ∧ token ∉ (t.proto.getD []).map Prod.fst then
    { t with proto := some record }
  else { t with own := put token record t.own }

/-- `delete tokens[token]`. -/
def Plain.delete (t : Plain ν) (token : JsString) : Plain ν :=
  { t with own := without token t.own }

/-- The array index that a name is, if it is one. -/
def arrayIndex? (name : JsString) : Option ℕ :=
  let value := name.foldl (fun n c => 10 * n + (c.toNat - 48)) 0
  if isDigits name ∧ (name.length = 1 ∨ name.head? ≠ some 48) ∧ value < 2 ^ 32 - 1 then some value
  else none

/-- `Object.entries(tokens)`: array indices come first, by value. -/
def Plain.entries (t : Plain ν) : Entries ν :=
  let indices := t.own.filter fun e => (arrayIndex? e.1).isSome
  indices.insertionSort (fun e f => (arrayIndex? e.1).getD 0 ≤ (arrayIndex? f.1).getD 0) ++
    t.own.filter fun e => !(arrayIndex? e.1).isSome

/-- `mutableView` of the file store. -/
def plainView : Access JsString (Members ν) (Property ν) (Plain ν) where
  get := Plain.get
  set := Plain.set
  delete := Plain.delete
  entries := Plain.entries

/-! ### The file store -/

/-- `readVault`: the tokens of the vault file, if there is one. -/
def readVault (file : Option (Entries ν)) : Plain ν := ⟨file.getD [], none⟩

/-- The tokens as `writeVault` writes them. -/
def written (t : Plain ν) : Entries ν := t.own.map fun e => (e.1, JsValue.pruneFields e.2)

/-- What a caller of `mutate` is told, and what is stored, where the function returned. -/
def settle {σ : Type} (a : α) (before after : σ) : Commit → Except (Failure ε) α × σ
  | .passes => (.ok a, after)
  | .fails => (.error .commit, before)
  | .lost => (.error .commit, after)

/-- `createFileTokenStore`. -/
def fileStore (file : Option (Entries ν)) :
    StoreCall ν ε α → Except (Failure ε) α × Option (Entries ν)
  | .read fn => ((fn.reading.run plainView (readVault file)).1, file)
  | .mutate fn commit =>
    match fn.run plainView (readVault file) with
    | (.error e, _) => (.error e, file)
    | (.ok a, tokens) => settle a file (some (written tokens)) commit

/-! ### The memory store -/

/-- `mutableView` of the memory store, over its `Map`. -/
def mapView : Access JsString (Members ν) (Property ν) (Entries ν) where
  get tokens token := answer (tokens.lookup token)
  set tokens token record := put token record tokens
  delete tokens token := without token tokens
  entries tokens := tokens

/-- `createMemoryTokenStore`: the view writes to the live map, and there is no commit. -/
def memoryStore (tokens : Entries ν) : StoreCall ν ε α → Except (Failure ε) α × Entries ν
  | .read fn => ((fn.reading.run mapView tokens).1, tokens)
  | .mutate fn _ => fn.run mapView tokens

/-! ### The Redis store -/

section RedisStore

variable [JsNumber ν] (hgetall : Redis.Hash → List (JsString × JsString))

/-- The record that a text of the hash holds. The store writes objects only. -/
def parseRecord (text : JsString) : Option (Members ν) :=
  match Json.parse text with
  | some (.obj record) => some record
  | _ => none

/-- `loadTokens`, in the order in which the client lists the hash. -/
def loadTokens (h : Redis.Hash) : Option (Plain ν) := do
  let records ← (hgetall h).mapM fun e => (parseRecord e.2).map fun record => (e.1, record)
  return records.foldl (fun t e => t.set e.1 e.2) ⟨[], none⟩

/-- `mutableView` of the Redis store: the object, and the calls that have changed it. -/
def trackedView : Access JsString (Members ν) (Property ν) (Plain ν × List (Redis.Op ν)) where
  get s token := s.1.get token
  set s token record := (s.1.set token record, s.2 ++ [.set token record])
  delete s token := (s.1.delete token, s.2 ++ [.delete token])
  entries s := s.1.entries

/-- `createRedisTokenStore`. Nobody else writes, so the version stands. -/
def redisStore (d : Redis.TokenData) : StoreCall ν ε α → Except (Failure ε) α × Redis.TokenData
  | .read fn =>
    match loadTokens hgetall d.tokens with
    | none => (.error .unreadable, d)
    | some tokens => ((fn.reading.run plainView tokens).1, d)
  | .mutate fn commit =>
    match loadTokens hgetall d.tokens with
    | none => (.error .unreadable, d)
    | some tokens =>
      match fn.run trackedView (tokens, []) with
      | (.error e, _) => (.error e, d)
      | (.ok a, _, ops) =>
        match Redis.tokenStore.write (fun _ _ => some ops) 0 d.version d.tokens d with
        | (.committed, d') => settle a d d' commit
        | (_, d') => (.error .commit, if commit = .fails then d else d')

end RedisStore

/-! ### What the views show -/

/-- A record that JSON gives back as it is. -/
def IsRecord (record : Members ν) : Prop :=
  (JsValue.obj record).isJson = true ∧ (JsValue.obj record).Distinct

/-- Every record of the map is one. -/
def AllRecords (m : Records ν) : Prop := ∀ token record, m.lookup token = some record → IsRecord record

theorem AllRecords.insert {m : Records ν} (h : AllRecords m) (token : JsString)
    {record : Members ν} (hr : IsRecord record) : AllRecords (m.insert token record) := by
  intro k r hk
  by_cases he : k = token
  · subst he
    rw [Finmap.lookup_insert] at hk
    rwa [← Option.some.inj hk]
  · rw [Finmap.lookup_insert_of_ne _ he] at hk
    exact h k r hk

theorem AllRecords.erase {m : Records ν} (h : AllRecords m) (token : JsString) :
    AllRecords (m.erase token) := by
  intro k r hk
  by_cases he : k = token
  · subst he
    rw [Finmap.lookup_erase] at hk
    cases hk
  · rw [Finmap.lookup_erase_ne he] at hk
    exact h k r hk

/-- What an object asks: a token that is looked up is there or is no name of
`Object.prototype`, and `__proto__` is not set. -/
def plainRules : Rules JsString (Members ν) where
  get m token := (m.lookup token).isSome ∨ token ∉ prototypeMembers
  set token record := token ≠ protoName ∧ IsRecord record
  delete _ := True

/-- The object's own members are the map. -/
structure PlainHolds (t : Plain ν) (m : Records ν) : Prop where
  lists : Lists t.own m
  proto : t.proto = none
  records : AllRecords m

theorem Plain.get_eq {t : Plain ν} {m : Records ν} (h : PlainHolds t m) {token : JsString}
    (htoken : (m.lookup token).isSome ∨ token ∉ prototypeMembers) :
    t.get token = answer (m.lookup token) := by
  rw [Plain.get, h.lists.lookup, h.proto]
  cases hm : m.lookup token with
  | some record => rfl
  | none =>
    rw [hm] at htoken
    exact JsValue.property_of_absent rfl (htoken.resolve_left (by simp))

/-- An empty object answers for a name of `Object.prototype`. -/
example : (⟨[], none⟩ : Plain NumberToken).get (js "constructor") = .inherited := rfl

theorem Plain.set_eq {t : Plain ν} {token : JsString} (h : token ≠ protoName)
    (record : Members ν) : t.set token record = { t with own := put token record t.own } :=
  if_neg fun he => h he.1

theorem Plain.perm_entries (t : Plain ν) : t.own.Perm t.entries := by
  refine (List.filter_append_perm (fun e => (arrayIndex? e.1).isSome) t.own).symm.trans ?_
  exact (List.perm_insertionSort _ _).symm.append_right _

theorem plainView_shows : plainView.Shows answer plainRules (PlainHolds (ν := ν)) where
  get h hk := Plain.get_eq h hk
  set {t m token record} h hk := by
    show PlainHolds (t.set token record) _
    rw [Plain.set_eq hk.1]
    exact ⟨h.lists.put token record, h.proto, h.records.insert token hk.2⟩
  delete {t m token} h _ := ⟨h.lists.without token, h.proto, h.records.erase token⟩
  entries {t m} h := h.lists.perm t.perm_entries

/-- A `Map` asks nothing. -/
def mapRules : Rules JsString (Members ν) where
  get _ _ := True
  set _ _ := True
  delete _ := True

theorem mapView_shows : mapView.Shows answer mapRules (Lists (κ := JsString) (β := Members ν)) where
  get {s m token} h _ := by
    show answer (s.lookup token) = _
    rw [h.lookup]
  set h _ := h.put _ _
  delete h _ := h.without _
  entries h := h

theorem keeps_mapRules (fn : StoreFn ν ε α) (m : Records ν) : fn.Keeps answer mapRules m := by
  induction fn generalizing m with
  | done | throw => trivial
  | get k next ih => exact ⟨trivial, ih _ _⟩
  | set k v next ih => exact ⟨trivial, ih _⟩
  | delete k next ih => exact ⟨trivial, ih _⟩
  | entries next ih => exact fun l _ => ih l m

/-! ### One call on a store -/

theorem transact_settle {σ : Type} {R : σ → Records ν → Prop} {fn : StoreFn ν ε α} {a : α}
    {m m' : Records ν} {before after : σ} {commit : Commit} (hends : Ends answer fn m (.ok a) m')
    (hbefore : R before m) (hafter : R after m') (hcommit : commit ≠ .lost) :
    let settled : Except (Failure ε) α × σ := settle a before after commit
    ∃ m₁, Transact answer m (.mutate fn commit) settled.1 m₁ ∧ R settled.2 m₁ := by
  cases commit with
  | passes => exact ⟨m', .resolves hends, hafter⟩
  | fails => exact ⟨m, .fails hends (by decide), hbefore⟩
  | lost => exact absurd rfl hcommit

/-- The vault file holds the map. -/
def FileHolds (file : Option (Entries ν)) (m : Records ν) : Prop := PlainHolds (readVault file) m

/-- What the file store asks of a call. -/
def FileSafe (m : Records ν) : StoreCall ν ε α → Prop
  | .read fn => fn.reading.Keeps answer plainRules m
  | .mutate fn commit => fn.Keeps answer plainRules m ∧ commit ≠ .lost

theorem written_eq {t : Plain ν} {m : Records ν} (h : PlainHolds t m) : written t = t.own := by
  refine (List.map_congr_left fun e he => ?_).trans (List.map_id t.own)
  have hjson := (h.records e.1 e.2 ((h.lists.mem e.1 e.2).mp he)).1
  have hprune := JsValue.prune_of_isJson _ hjson
  rw [JsValue.prune, JsValue.obj.injEq] at hprune
  rw [hprune]
  rfl

theorem fileStore_transact {file : Option (Entries ν)} {m : Records ν} {c : StoreCall ν ε α}
    (h : FileHolds file m) (hc : FileSafe m c) :
    ∃ m', Transact answer m c (fileStore file c).1 m' ∧ FileHolds (fileStore file c).2 m' := by
  cases c with
  | read fn =>
    obtain ⟨m', hends, -⟩ := plainView_shows.run fn.reading h hc
    exact ⟨m, .read hends, h⟩
  | mutate fn commit =>
    obtain ⟨m', hends, hholds⟩ := plainView_shows.run fn h hc.1
    rw [fileStore]
    rcases hrun : fn.run plainView (readVault file) with ⟨r, t⟩
    rw [hrun] at hends hholds
    cases r with
    | error e => exact ⟨m, .throws hends, h⟩
    | ok a =>
      refine transact_settle hends h ?_ hc.2
      show PlainHolds ⟨written t, none⟩ m'
      rw [written_eq hholds, ← hholds.proto]
      exact hholds

/-- What the memory store asks of a call: its changes stay, so there must be none left when
it throws. -/
def MemorySafe (m : Records ν) : StoreCall ν ε α → Prop
  | .read _ => True
  | .mutate fn commit =>
    commit = .passes ∧ ∀ e m', Ends answer fn m (.error e) m' → m' = m

theorem memoryStore_transact {tokens : Entries ν} {m : Records ν} {c : StoreCall ν ε α}
    (h : Lists tokens m) (hc : MemorySafe m c) :
    ∃ m', Transact answer m c (memoryStore tokens c).1 m' ∧ Lists (memoryStore tokens c).2 m' := by
  cases c with
  | read fn =>
    obtain ⟨m', hends, -⟩ := mapView_shows.run fn.reading h (keeps_mapRules _ _)
    exact ⟨m, .read hends, h⟩
  | mutate fn commit =>
    obtain ⟨rfl, hthrows⟩ := hc
    obtain ⟨m', hends, hlists⟩ := mapView_shows.run fn h (keeps_mapRules _ _)
    rw [memoryStore]
    rcases hrun : fn.run mapView tokens with ⟨r, tokens'⟩
    rw [hrun] at hends hlists
    cases r with
    | error e =>
      obtain rfl := hthrows e m' hends
      exact ⟨m', .throws hends, hlists⟩
    | ok a => exact ⟨m', .resolves hends, hlists⟩

/-! ### A call on the Redis store -/

section OnRedis

variable [JsNumber ν]

/-- The hash holds the texts of the records of the map. -/
structure HashHolds (h : Redis.Hash) (m : Records ν) : Prop where
  lookup : ∀ k, h.lookup k = (m.lookup k).map fun record => jsonLine (.obj record)
  records : AllRecords m
  proto : m.lookup protoName = none

/-- The token that a call on the view changes. -/
def target : Redis.Op ν → JsString
  | .set token _ | .delete token => token

/-- What the Redis store asks: what an object asks, and tokens that `cjson.decode` takes. -/
def redisRules : Rules JsString (Members ν) where
  get := plainRules.get
  set token record := plainRules.set token record ∧ Redis.isWellFormed token
  delete token := Redis.isWellFormed token

/-- The object shows what the calls make of the hash. -/
structure Tracks (h₀ : Redis.Hash) (s : Plain ν × List (Redis.Op ν)) (m : Records ν) : Prop where
  plain : PlainHolds s.1 m
  hash : HashHolds (s.2.foldl Redis.Op.apply h₀) m
  wellFormed : ∀ op ∈ s.2, Redis.isWellFormed (target op)

theorem HashHolds.set {h : Redis.Hash} {m : Records ν} (hm : HashHolds h m) {token : JsString}
    {record : Members ν} (hr : plainRules.set token record) :
    HashHolds (Redis.Op.apply h (.set token record)) (m.insert token record) where
  lookup k := by
    show (h.insert token (jsonLine (.obj record))).lookup k = _
    by_cases hk : k = token
    · subst hk
      rw [Finmap.lookup_insert, Finmap.lookup_insert]
      rfl
    · rw [Finmap.lookup_insert_of_ne _ hk, Finmap.lookup_insert_of_ne _ hk, hm.lookup]
  records := hm.records.insert token hr.2
  proto := by
    rw [Finmap.lookup_insert_of_ne _ hr.1.symm]
    exact hm.proto

theorem HashHolds.delete {h : Redis.Hash} {m : Records ν} (hm : HashHolds h m)
    (token : JsString) :
    HashHolds (Redis.Op.apply h (.delete token : Redis.Op ν)) (m.erase token) where
  lookup k := by
    show (h.erase token).lookup k = _
    by_cases hk : k = token
    · subst hk
      rw [Finmap.lookup_erase, Finmap.lookup_erase]
      rfl
    · rw [Finmap.lookup_erase_ne hk, Finmap.lookup_erase_ne hk, hm.lookup]
  records := hm.records.erase token
  proto := by
    by_cases hk : protoName = token
    · rw [← hk, Finmap.lookup_erase]
    · rw [Finmap.lookup_erase_ne hk]
      exact hm.proto

theorem trackedView_shows (h₀ : Redis.Hash) :
    trackedView.Shows answer redisRules (Tracks (ν := ν) h₀) where
  get h hk := plainView_shows.get h.plain hk
  set {s m token record} h hk := by
    refine ⟨plainView_shows.set h.plain hk.1, ?_, ?_⟩
    · show HashHolds ((s.2 ++ [Redis.Op.set token record]).foldl Redis.Op.apply h₀) _
      rw [List.foldl_append]
      exact h.hash.set hk.1
    · exact List.forall_mem_append.mpr ⟨h.wellFormed, List.forall_mem_singleton.mpr hk.2⟩
  delete {s m token} h hk := by
    refine ⟨plainView_shows.delete h.plain trivial, ?_, ?_⟩
    · show HashHolds ((s.2 ++ [Redis.Op.delete token]).foldl Redis.Op.apply h₀) _
      rw [List.foldl_append]
      exact h.hash.delete token
    · exact List.forall_mem_append.mpr ⟨h.wellFormed, List.forall_mem_singleton.mpr hk⟩
  entries h := plainView_shows.entries h.plain

/-! What is loaded -/

theorem parse_record {record : Members ν} (h : IsRecord record) :
    Json.parse (jsonLine (.obj record)) = some (JsValue.obj record) := by
  obtain ⟨text, htext⟩ := Option.isSome_iff_exists.mp
    (Json.stringify_isSome (v := JsValue.obj record) (by simp))
  rw [jsonLine, htext, Option.getD_some, Json.parse_stringify htext h.2,
    JsValue.prune_of_isJson _ h.1]

theorem mapM_eq_some {A B : Type} {f : A → Option B} {g : A → B} {l : List A}
    (h : ∀ a ∈ l, f a = some (g a)) : l.mapM f = some (l.map g) := by
  induction l with
  | nil => rfl
  | cons a l ih =>
    obtain ⟨ha, hl⟩ := List.forall_mem_cons.mp h
    rw [List.mapM_cons, ha, ih hl]
    rfl

omit [JsNumber ν] in
theorem foldl_set {l : Entries ν} (h : ∀ e ∈ l, e.1 ≠ protoName) {own : Entries ν} :
    l.foldl (fun t e => Plain.set t e.1 e.2) ⟨own, none⟩ =
      ⟨l.foldl (fun l e => put e.1 e.2 l) own, none⟩ := by
  induction l generalizing own with
  | nil => rfl
  | cons e l ih =>
    obtain ⟨he, hl⟩ := List.forall_mem_cons.mp h
    rw [List.foldl_cons, Plain.set_eq he, List.foldl_cons, ih hl]

variable {hgetall : Redis.Hash → List (JsString × JsString)}

/-- The records of the map under the tokens of a list. -/
def recordsOf (m : Records ν) (l : List (JsString × JsString)) : Entries ν :=
  l.map fun e => (e.1, (m.lookup e.1).getD [])

section Load

variable {h : Redis.Hash} {m : Records ν}

/-- A text of the hash is that of a record. -/
theorem HashHolds.text (hm : HashHolds h m) {token text : JsString}
    (htext : h.lookup token = some text) :
    ∃ record, m.lookup token = some record ∧ text = jsonLine (.obj record) := by
  rw [hm.lookup] at htext
  obtain ⟨record, hrecord, heq⟩ := Option.map_eq_some_iff.mp htext
  exact ⟨record, hrecord, heq.symm⟩

theorem lists_recordsOf (hlist : Lists (hgetall h) h) (hm : HashHolds h m) :
    Lists (recordsOf m (hgetall h)) m := by
  have hkeys : (recordsOf m (hgetall h)).map Prod.fst = (hgetall h).map Prod.fst := by
    rw [recordsOf, List.map_map]
    rfl
  refine ⟨hkeys ▸ hlist.nodup, fun token record => ?_⟩
  rw [recordsOf, List.mem_map]
  constructor
  · rintro ⟨e, he, heq⟩
    obtain ⟨record', hrecord', -⟩ := hm.text ((hlist.mem e.1 e.2).mp he)
    obtain ⟨rfl, rfl⟩ := Prod.mk.inj heq
    rw [hrecord']
    rfl
  · intro hrecord
    have hmem := (hlist.mem token (jsonLine (.obj record))).mpr (by rw [hm.lookup, hrecord]; rfl)
    exact ⟨_, hmem, by rw [hrecord, Option.getD_some]⟩

/-- What is loaded from the hash is the map. -/
theorem loadTokens_holds (hlist : Lists (hgetall h) h) (hm : HashHolds h m) :
    ∃ t, loadTokens hgetall h = some t ∧ PlainHolds t m := by
  have hlists := lists_recordsOf hlist hm
  have hparse : (hgetall h).mapM (fun e => (parseRecord e.2).map fun record => (e.1, record)) =
      some (recordsOf m (hgetall h)) := by
    refine mapM_eq_some fun e he => ?_
    obtain ⟨record, hrecord, htext⟩ := hm.text ((hlist.mem e.1 e.2).mp he)
    simp only [parseRecord, htext, parse_record (hm.records _ record hrecord), hrecord,
      Option.map_some, Option.getD_some]
  have hproto : ∀ e ∈ recordsOf m (hgetall h), e.1 ≠ protoName := by
    rintro ⟨token, record⟩ he rfl
    have hrecord := (hlists.mem protoName record).mp he
    rw [hm.proto] at hrecord
    cases hrecord
  refine ⟨⟨recordsOf m (hgetall h), none⟩, ?_, hlists, rfl, hm.records⟩
  rw [loadTokens, hparse]
  show some ((recordsOf m (hgetall h)).foldl _ _) = _
  rw [foldl_set hproto, foldl_put hlists.nodup (by simp), List.nil_append]

end Load

/-! What is committed -/

theorem isWellFormed_of_paired {s : JsString} (h : Paired s) : Redis.isWellFormed s := by
  induction h with
  | nil => rfl
  | @one c s hhigh hlow _ ih =>
    cases s with
    | nil => simp [Redis.isWellFormed, hhigh, hlow]
    | cons d rest => simpa [Redis.isWellFormed, hhigh, hlow] using ih
  | pair hhigh hlow _ ih => simpa [Redis.isWellFormed, hhigh, hlow] using ih

theorem isWellFormed_jsonLine (v : JsValue ν) : Redis.isWellFormed (jsonLine v) :=
  isWellFormed_of_paired (paired_render v.prune)

omit [JsNumber ν] in
/-- The difference names tokens that some call has changed. -/
theorem mem_foldl_op {ops : List (Redis.Op ν)} {v : Redis.View ν} {k : JsString} :
    (k ∈ (ops.foldl Redis.View.op v).dirty → k ∈ v.dirty ∨ k ∈ ops.map target) ∧
    (k ∈ (ops.foldl Redis.View.op v).deleted → k ∈ v.deleted ∨ k ∈ ops.map target) := by
  induction ops generalizing v with
  | nil => exact ⟨.inl, .inl⟩
  | cons op ops ih =>
    have hop : (k ∈ (v.op op).dirty → k ∈ v.dirty ∨ k = target op) ∧
        (k ∈ (v.op op).deleted → k ∈ v.deleted ∨ k = target op) := by
      cases op with
      | set token record =>
        exact ⟨fun h => (Redis.mem_addTo.mp h).symm, fun h => .inl (List.mem_of_mem_erase h)⟩
      | delete token =>
        exact ⟨fun h => .inl (List.mem_of_mem_erase h), fun h => (Redis.mem_addTo.mp h).symm⟩
    rw [List.foldl_cons, List.map_cons, List.mem_cons]
    constructor
    · intro h
      rcases ih.1 h with h | h
      · exact (hop.1 h).imp_right .inl
      · exact .inr (.inr h)
    · intro h
      rcases ih.2 h with h | h
      · exact (hop.2 h).imp_right .inl
      · exact .inr (.inr h)

theorem all_of_lookup {h : Redis.Hash} {p : JsString → JsString → Bool}
    (hp : ∀ k text, h.lookup k = some text → p k text = true) : h.all p = true := by
  induction h using Finmap.induction_on with
  | H l =>
    have hall : ∀ e ∈ l.entries, p e.1 e.2 = true := fun e he =>
      hp e.1 e.2 (AList.mem_lookup_iff.mpr he)
    show l.entries.foldl (fun b e => b && p e.1 e.2) true = true
    generalize l.entries = es at hall
    induction es with
    | nil => rfl
    | cons e es ih =>
      obtain ⟨he, hes⟩ := List.forall_mem_cons.mp hall
      rw [List.foldl_cons, he]
      exact ih hes

/-- The script decodes a difference of tokens without lone surrogates. -/
theorem decodes_diff {snapshot : Redis.Snapshot ν} {ops : List (Redis.Op ν)}
    (hops : ∀ op ∈ ops, Redis.isWellFormed (target op)) :
    let diff := (ops.foldl Redis.View.op ⟨snapshot, [], []⟩).diff
    Redis.decodes (diff.1.flatMap fun p => [p.1, p.2]) ∧ Redis.decodes diff.2 := by
  have htargets : ∀ k ∈ ops.map target, Redis.isWellFormed k := List.forall_mem_map.mpr hops
  constructor
  · rw [Redis.decodes, List.all_eq_true]
    intro text htext
    obtain ⟨p, hp, htext⟩ := List.mem_flatMap.mp htext
    obtain ⟨k, hk, rfl⟩ := List.mem_map.mp hp
    rcases List.mem_cons.mp htext with rfl | htext
    · exact htargets _ ((mem_foldl_op.1 hk).resolve_left (by simp))
    · rw [List.mem_singleton.mp htext]
      exact isWellFormed_jsonLine _
  · rw [Redis.decodes, List.all_eq_true]
    exact fun k hk => htargets k ((mem_foldl_op.2 hk).resolve_left (by simp))

/-- The script commits what the calls make of the hash. -/
theorem write_committed {d : Redis.TokenData} {m : Records ν} (hm : HashHolds d.tokens m)
    {ops : List (Redis.Op ν)} (hops : ∀ op ∈ ops, Redis.isWellFormed (target op)) :
    ∃ d', Redis.tokenStore.write (fun _ _ => some ops) 0 d.version d.tokens d = (.committed, d') ∧
      d'.tokens = ops.foldl Redis.Op.apply d.tokens := by
  have hload : d.tokens.all fun _ text => (Json.parse text : Option (JsValue ν)).isSome := by
    refine all_of_lookup fun k text hk => ?_
    obtain ⟨record, hrecord, rfl⟩ := hm.text hk
    rw [parse_record (hm.records k record hrecord)]
    rfl
  obtain ⟨snapshot, hsnapshot⟩ : ∃ snapshot : Redis.Snapshot ν,
      Redis.loadTokens d.tokens = some snapshot := ⟨_, if_pos hload⟩
  let view := ops.foldl Redis.View.op ⟨snapshot, [], []⟩
  have hdiff : Redis.diffOf (fun _ _ => some ops) 0 d.tokens = some view.diff := by
    rw [Redis.diffOf, hsnapshot]
    rfl
  obtain ⟨hsets, hdels⟩ := decodes_diff (ν := ν) hops
  have happly := Redis.apply_diff hdiff
  rw [Redis.mutate, hsnapshot] at happly
  refine ⟨⟨some (Redis.nextVersion d.version),
    Redis.hdel view.diff.2 (Redis.hset view.diff.1 d.tokens)⟩, ?_, happly⟩
  simp only [Redis.tokenStore, hdiff]
  show Redis.applyScript d.version view.diff.1 view.diff.2 d = _
  rw [Redis.applyScript, if_pos rfl, if_pos hsets, if_pos hdels]

/-- Redis holds the map. -/
def RedisHolds (d : Redis.TokenData) (m : Records ν) : Prop := HashHolds d.tokens m

/-- What the Redis store asks of a call. -/
def RedisSafe (m : Records ν) : StoreCall ν ε α → Prop
  | .read fn => fn.reading.Keeps answer plainRules m
  | .mutate fn commit => fn.Keeps answer redisRules m ∧ commit ≠ .lost

theorem redisStore_transact (hlist : ∀ h, Lists (hgetall h) h) {d : Redis.TokenData}
    {m : Records ν} {c : StoreCall ν ε α} (h : RedisHolds d m) (hc : RedisSafe m c) :
    ∃ m', Transact answer m c (redisStore hgetall d c).1 m' ∧
      RedisHolds (redisStore hgetall d c).2 m' := by
  obtain ⟨t, hload, hplain⟩ := loadTokens_holds (hlist d.tokens) h
  cases c with
  | read fn =>
    obtain ⟨m', hends, -⟩ := plainView_shows.run fn.reading hplain hc
    rw [redisStore, hload]
    exact ⟨m, .read hends, h⟩
  | mutate fn commit =>
    have htracks : Tracks d.tokens (t, ([] : List (Redis.Op ν))) m := ⟨hplain, h, by simp⟩
    obtain ⟨m', hends, ht⟩ := (trackedView_shows d.tokens).run fn htracks hc.1
    rw [redisStore, hload]
    rcases hrun : fn.run trackedView (t, ([] : List (Redis.Op ν))) with ⟨r, t', ops⟩
    rw [hrun] at hends ht
    cases r with
    | error e =>
      simp only [hrun]
      exact ⟨m, .throws hends, h⟩
    | ok a =>
      obtain ⟨d', hwrite, htokens⟩ := write_committed h ht.wellFormed
      simp only [hrun, hwrite]
      refine transact_settle hends h ?_ hc.2
      show HashHolds d'.tokens m'
      rw [htokens]
      exact ht.hash

/-! ### Runs on the three stores -/

/-- What the three stores ask together: also that the order of the entries makes no
difference, which they do not share. -/
def Portable (m : Records ν) (c : StoreCall ν ε α) : Prop :=
  FileSafe m c ∧ MemorySafe m c ∧ RedisSafe m c ∧ Unordered answer m c

section Runs

variable {m : Records ν} {calls : List (StoreCall ν ε α)}

omit [JsNumber ν] in
theorem fileStore_runs {file : Option (Entries ν)} (hfile : FileHolds file m)
    (h : Along answer FileSafe m calls) :
    ∃ m', Runs answer m calls (results fileStore file calls).1 m' ∧
      FileHolds (results fileStore file calls).2 m' :=
  runs_of_step (fun _ _ _ => fileStore_transact) hfile h

omit [JsNumber ν] in
theorem memoryStore_runs {memory : Entries ν} (hmemory : Lists memory m)
    (h : Along answer MemorySafe m calls) :
    ∃ m', Runs answer m calls (results memoryStore memory calls).1 m' ∧
      Lists (results memoryStore memory calls).2 m' :=
  runs_of_step (fun _ _ _ => memoryStore_transact) hmemory h

theorem redisStore_runs (hlist : ∀ h, Lists (hgetall h) h) {redis : Redis.TokenData}
    (hredis : RedisHolds redis m) (h : Along answer RedisSafe m calls) :
    ∃ m', Runs answer m calls (results (redisStore hgetall) redis calls).1 m' ∧
      RedisHolds (results (redisStore hgetall) redis calls).2 m' :=
  runs_of_step (fun _ _ _ => redisStore_transact hlist) hredis h

/-- The runs of portable calls agree on the three stores. -/
theorem results_equal (hlist : ∀ h, Lists (hgetall h) h) {file : Option (Entries ν)}
    {memory : Entries ν} {redis : Redis.TokenData} (hfile : FileHolds file m)
    (hmemory : Lists memory m) (hredis : RedisHolds redis m) (h : Along answer Portable m calls) :
    (results fileStore file calls).1 = (results memoryStore memory calls).1 ∧
      (results memoryStore memory calls).1 = (results (redisStore hgetall) redis calls).1 ∧
      ∃ m', FileHolds (results fileStore file calls).2 m' ∧
        Lists (results memoryStore memory calls).2 m' ∧
        RedisHolds (results (redisStore hgetall) redis calls).2 m' := by
  have hunordered : Along answer (Unordered answer) m calls := h.mono fun _ _ h => h.2.2.2
  obtain ⟨m₁, hruns₁, hholds₁⟩ := fileStore_runs hfile (h.mono fun _ _ h => h.1)
  obtain ⟨m₂, hruns₂, hholds₂⟩ := memoryStore_runs hmemory (h.mono fun _ _ h => h.2.1)
  obtain ⟨m₃, hruns₃, hholds₃⟩ := redisStore_runs hlist hredis (h.mono fun _ _ h => h.2.2.1)
  obtain ⟨heq₁, rfl⟩ := Runs.unique hunordered hruns₁ hruns₂
  obtain ⟨heq₂, rfl⟩ := Runs.unique hunordered hruns₂ hruns₃
  exact ⟨heq₁, heq₂, m₁, hholds₁, hholds₂, hholds₃⟩

end Runs

/-- **One transactional map.** From states that hold one map, each store takes every run of
calls that are safe on it as the map may: rejected mutations change nothing, the changes of
a resolved one are what later calls find, and a token that is not there gives nothing.
Where the calls are safe on all three and do not depend on the order of the entries, the
results are equal, and the stores hold one map again. -/
theorem stores_transactional (hlist : ∀ h, Lists (hgetall h) h) {m : Records ν}
    {file : Option (Entries ν)} {memory : Entries ν} {redis : Redis.TokenData}
    (hfile : FileHolds file m) (hmemory : Lists memory m) (hredis : RedisHolds redis m)
    (calls : List (StoreCall ν ε α)) :
    let onFile := results fileStore file calls
    let onMemory := results memoryStore memory calls
    let onRedis := results (redisStore hgetall) redis calls
    (Along answer FileSafe m calls →
      ∃ m', Runs answer m calls onFile.1 m' ∧ FileHolds onFile.2 m') ∧
    (Along answer MemorySafe m calls →
      ∃ m', Runs answer m calls onMemory.1 m' ∧ Lists onMemory.2 m') ∧
    (Along answer RedisSafe m calls →
      ∃ m', Runs answer m calls onRedis.1 m' ∧ RedisHolds onRedis.2 m') ∧
    (Along answer Portable m calls →
      onFile.1 = onMemory.1 ∧ onMemory.1 = onRedis.1 ∧
      ∃ m', FileHolds onFile.2 m' ∧ Lists onMemory.2 m' ∧ RedisHolds onRedis.2 m') :=
  ⟨fileStore_runs hfile, memoryStore_runs hmemory, redisStore_runs hlist hredis,
    results_equal hlist hfile hmemory hredis⟩

end OnRedis

/-! ### A hash listed by token -/

/-- Tokens in the order of their code units. -/
def TokenLe (s t : JsString) : Prop := s.map UInt16.toNat ≤ t.map UInt16.toNat

instance : DecidableRel TokenLe := fun _ _ => inferInstanceAs (Decidable (_ ≤ _))

instance : IsTrans JsString TokenLe := ⟨fun _ _ _ h h' => le_trans (α := List ℕ) h h'⟩

instance : Std.Antisymm TokenLe := ⟨fun _ _ h h' =>
  List.map_injective_iff.mpr (fun _ _ => UInt16.toNat_inj.mp) (le_antisymm h h')⟩

instance : Std.Total TokenLe := ⟨fun s t => le_total (s.map UInt16.toNat) (t.map UInt16.toNat)⟩

def byToken (h : Redis.Hash) : List (JsString × JsString) :=
  (h.keys.sort TokenLe).filterMap fun k => (h.lookup k).map fun text => (k, text)

theorem lists_byToken (h : Redis.Hash) : Lists (byToken h) h := by
  have hkeys : (byToken h).map Prod.fst = h.keys.sort TokenLe := by
    rw [byToken, List.map_filterMap]
    refine (List.filterMap_congr fun k hk => ?_).trans List.filterMap_some
    have hmem := Finmap.mem_keys.mp ((Finset.mem_sort TokenLe).mp hk)
    obtain ⟨text, htext⟩ := Finmap.mem_iff.mp hmem
    rw [htext]
    rfl
  refine ⟨hkeys ▸ Finset.sort_nodup h.keys TokenLe, fun k text => ?_⟩
  rw [byToken, List.mem_filterMap]
  constructor
  · rintro ⟨k', -, hk⟩
    obtain ⟨text', htext, heq⟩ := Option.map_eq_some_iff.mp hk
    obtain ⟨rfl, rfl⟩ := Prod.mk.inj heq
    exact htext
  · intro hk
    have hmem := Finmap.mem_keys.mpr (Finmap.mem_of_lookup_eq_some hk)
    refine ⟨k, (Finset.mem_sort TokenLe).mpr hmem, ?_⟩
    rw [hk]
    rfl

/-! ### Two runs -/

/-- Whether `get` gave something. -/
def isFound : Property ν → Bool
  | .value .undef => false
  | _ => true

/-- A token is set, and looked up by a later call. -/
def keptRun : List (StoreCall NumberToken Unit Bool) :=
  [.mutate (.set (js "a") [] (.done true)) .passes, .read (.get (js "a") fun p => .done (isFound p))]

theorem portable_keptRun : Along answer Portable ∅ keptRun := by
  have hget : js "a" ∉ prototypeMembers := by decide
  have hset : redisRules.set (js "a") ([] : Members NumberToken) :=
    ⟨⟨by decide, rfl, by simp [JsValue.Distinct, JsValue.DistinctFields]⟩, by decide⟩
  refine ⟨⟨⟨⟨hset.1, trivial⟩, by decide⟩, ⟨rfl, ?_⟩, ⟨⟨hset, trivial⟩, by decide⟩, ?_⟩, ?_⟩
  · rintro e m' (_ | _ | _ | ⟨⟨⟩⟩)
  · exact unordered_mutate (settled_set (settled_done true _))
  · intro r m' _
    refine ⟨⟨⟨.inr hget, trivial⟩, trivial, ⟨.inr hget, trivial⟩, ?_⟩, fun _ _ _ => trivial⟩
    exact unordered_read (settled_get (settled_done _ m'))

theorem stores_transactional_kept :
    (results fileStore none keptRun).1 = (results memoryStore [] keptRun).1 ∧
    (results memoryStore [] keptRun).1 = (results (redisStore byToken) ⟨none, ∅⟩ keptRun).1 := by
  have hrecords : AllRecords (∅ : Records NumberToken) := by
    intro token record h
    cases h
  have hfile : FileHolds none (∅ : Records NumberToken) := ⟨lists_nil, rfl, hrecords⟩
  have hredis : RedisHolds ⟨none, ∅⟩ (∅ : Records NumberToken) := ⟨fun _ => rfl, hrecords, rfl⟩
  have h := (stores_transactional lists_byToken hfile lists_nil hredis keptRun).2.2.2
    portable_keptRun
  exact ⟨h.1, h.2.1⟩

/-- A token is set by a mutation that throws, and looked up by a later call. -/
def thrownRun : List (StoreCall NumberToken Unit Bool) :=
  [.mutate (.set (js "a") [] (.throw (.thrown ()))) .passes,
    .read (.get (js "a") fun p => .done (isFound p))]

/-- The memory store keeps what a mutation has set before it throws. -/
theorem thrown_change_stays : ¬∀ calls : List (StoreCall NumberToken Unit Bool),
    (∃ m', Runs answer ∅ calls (results memoryStore [] calls).1 m') ∧
    (results memoryStore [] calls).1 = (results fileStore none calls).1 := by
  intro h
  exact absurd (h thrownRun).2 (by decide)

end Haechi.Stores
