import Haechi.Audit.Tamper
import Haechi.Fence

/-! The Redis audit store. A record is built on the head that was read and appended
by a script that runs only if the head's hash is still the one the record is chained
to. Since a hash fixes the sequence number, a head that has moved never looks the
same again. -/

namespace Haechi.Redis

open Text Json Audit

variable {ν : Type} [JsNumber ν]

/-! ### The store -/

/-- What the audit store keeps in Redis: the list, and the two head keys. -/
structure AuditData where
  chain : List JsString
  head : Option JsString
  headHash : Option JsString
deriving DecidableEq

/-- `APPEND_SCRIPT`. -/
def appendScript (expectedPrev record integrity newEventHash : JsString) (d : AuditData) :
    Fence.Reply × AuditData :=
  if d.headHash = none ∧ expectedPrev = [] ∨ d.headHash = some expectedPrev then
    (.committed, ⟨d.chain ++ [record], some integrity, some newEventHash⟩)
  else (.conflict, d)

/-- `readLastIntegrity`, from what `GET` gave; `none` if the text does not parse. -/
def readLastIntegrity (head : Option JsString) : Option (Option (Integrity ν)) :=
  match head with
  | none | some [] => some none
  | some text => (parse text : Option (JsValue ν)).map Integrity.ofValue

/-- A hash as an argument of the script: `hash ?? ""`. -/
def hashText : JsValue ν → JsString
  | .str s => s
  | _ => []

/-- `persist`. -/
def persist (record : List (JsString × JsValue ν)) (d : AuditData) : Fence.Reply × AuditData :=
  let integrity := (JsValue.obj record).get (js "auditIntegrity")
  appendScript (hashText (integrity.get (js "previousHash"))) (jsonLine (.obj record))
    (jsonLine integrity) (hashText (integrity.get (js "eventHash"))) d

/-- The store of `createRedisAuditStore` under the sink's `record`: the head is the
version that is read, and there is nothing more to read. -/
def auditStore (sha256 : Digest) : Fence.Store AuditData (Event ν) (Option JsString) Unit where
  version d := d.head
  snapshot _ := ()
  write e _ head _ d :=
    match readLastIntegrity (ν := ν) head with
    | none => (.error, d)
    | some previous => persist (buildIntegrityRecord sha256 previous e.sanitized) d
  retries := 64

/-! ### The store of a chain -/

variable (sha256 : Digest)

/-- What Redis holds after these events. -/
def AuditData.ofEvents (es : List (Event ν)) : AuditData where
  chain := (logLinks sha256 es).map (Link.line sha256)
  head := (logLinks sha256 es).getLast?.map fun l => jsonLine (.obj (l.members sha256))
  headHash := (logLinks sha256 es).getLast?.map (Link.hash sha256)

variable {sha256}

theorem getLast?_logLinks (es : List (Event ν)) (e : Event ν) :
    (logLinks sha256 (es ++ [e])).getLast? = some ⟨chainHead sha256 none es, e⟩ := by
  rw [logLinks, links_append]
  exact List.getLast?_concat

theorem chained_chainHead (es : List (Event ν)) (e : Event ν) :
    Link.Chained sha256 ⟨chainHead sha256 none es, e⟩ :=
  chained_of_mem (List.mem_of_getLast? (getLast?_logLinks es e))

/-- The integrity of a chained link reads back from its text. -/
theorem readLastIntegrity_members {l : Link ν} (h : l.Chained sha256) :
    readLastIntegrity (some (jsonLine (.obj (l.members sha256)))) =
      some (some (l.integrity sha256)) := by
  have hsome := stringify_isSome (v := JsValue.obj (l.members sha256)) (by simp)
  have htext : stringify (.obj (l.members sha256)) = some (jsonLine (.obj (l.members sha256))) := by
    rw [jsonLine, Option.eq_some_of_isSome hsome, Option.getD_some]
  have hparse := parse_stringify htext (Link.members_distinct h)
  rw [JsValue.prune_of_isJson _ (Link.members_isJson h)] at hparse
  rw [readLastIntegrity]
  · rw [hparse, Option.map_some, Link.ofValue_members]
  · intro hnil
    rw [hnil] at hparse
    cases hparse

theorem readLastIntegrity_ofEvents (es : List (Event ν)) :
    readLastIntegrity (AuditData.ofEvents sha256 es).head = some (chainHead sha256 none es) := by
  rcases List.eq_nil_or_concat es with rfl | ⟨fs, e, rfl⟩
  · rfl
  · rw [List.concat_eq_append, AuditData.ofEvents, getLast?_logLinks, Option.map_some,
      readLastIntegrity_members (chained_chainHead fs e), chainHead_append]
    rfl

theorem get_unsigned (previous : Option (Integrity ν)) (e : Event ν) :
    (JsValue.obj (buildIntegrityRecord sha256 previous e.sanitized)).get (js "auditIntegrity") =
      .obj (Link.members sha256 ⟨previous, e⟩) :=
  Link.get_integrity ⟨previous, e⟩

/-- The hash a link is chained to, as the script is given it. -/
theorem hashText_previousHash (es : List (Event ν)) :
    hashText (previousHash (chainHead sha256 none es)) =
      (AuditData.ofEvents sha256 es).headHash.getD [] := by
  rcases List.eq_nil_or_concat es with rfl | ⟨fs, e, rfl⟩
  · rfl
  · rw [List.concat_eq_append, AuditData.ofEvents, getLast?_logLinks, chainHead_append]
    rfl

/-- The write of an event, based on the head of a chain. -/
theorem write_ofEvents (e : Event ν) (n : ℕ) (es : List (Event ν)) (d : AuditData) :
    (auditStore sha256).write e n (AuditData.ofEvents sha256 es).head () d =
      if d.headHash = none ∧ (AuditData.ofEvents sha256 es).headHash.getD [] = [] ∨
          d.headHash = some ((AuditData.ofEvents sha256 es).headHash.getD []) then
        (.committed, ⟨d.chain ++ [Link.line sha256 ⟨chainHead sha256 none es, e⟩],
          (AuditData.ofEvents sha256 (es ++ [e])).head,
          (AuditData.ofEvents sha256 (es ++ [e])).headHash⟩)
      else (.conflict, d) := by
  simp only [auditStore, readLastIntegrity_ofEvents, persist, get_unsigned, Link.get_previousHash,
    Link.get_eventHash, hashText_previousHash, appendScript]
  simp only [AuditData.ofEvents, getLast?_logLinks, Option.map_some]
  rfl

/-- On the chain it was based on, the write adds one event. -/
theorem write_current (e : Event ν) (n : ℕ) (es : List (Event ν)) :
    (auditStore sha256).write e n (AuditData.ofEvents sha256 es).head ()
        (AuditData.ofEvents sha256 es) =
      (.committed, AuditData.ofEvents sha256 (es ++ [e])) := by
  have hchain : (AuditData.ofEvents sha256 (es ++ [e])).chain =
      (AuditData.ofEvents sha256 es).chain ++ [Link.line sha256 ⟨chainHead sha256 none es, e⟩] := by
    simp only [AuditData.ofEvents, logLinks, links_append, List.map_append]
    rfl
  rw [write_ofEvents, if_pos, ← hchain]
  cases (AuditData.ofEvents sha256 es).headHash <;> simp

/-- The hash of a record without holes fixes its sequence number. -/
theorem sequence_eq_of_hash {k l : Link ν} (hk : k.Chained sha256) (hl : l.Chained sha256)
    (hkh : k.event.NoHole) (hlh : l.event.NoHole)
    (hinj : Set.InjOn sha256.digest {t | ∃ v : JsValue ν, canonicalize v = some t})
    (h : k.hash sha256 = l.hash sha256) : k.sequence = l.sequence := by
  have hjson : ∀ {m : Link ν}, m.Chained sha256 → m.event.NoHole →
      (JsValue.obj m.unsigned).isJson = true := by
    intro m hm he
    refine JsValue.isJson_obj.mpr fun kv hkv => ?_
    rcases JsValue.mem_setField hkv with rfl | ⟨hmem, -⟩
    · refine JsValue.isJson_obj.mpr fun kv hkv => ?_
      exact JsValue.isJson_obj.mp (Link.members_isJson hm) kv (Link.mem_members hkv)
    · exact JsValue.isJson_obj.mp he kv hmem
  have hsame : SameJson (.obj k.unsigned) (.obj l.unsigned) :=
    sameJson_of_canonicalize ⟨hjson hl hlh, Link.unsigned_distinct hl⟩ (Link.unsigned_distinct hk)
      (hasLone_of_isJson _ (hjson hk hkh)) (canonicalize_eq_of_hash hinj h)
  have hintegrity := (sameJson_obj k.unsigned_nodup l.unsigned_nodup).mp hsame (js "auditIntegrity")
  rw [Link.unsigned, unsignedRecord, JsValue.field?_setField_self _ _ (Link.sanitized_nodup _),
    Link.unsigned, unsignedRecord, JsValue.field?_setField_self _ _ (Link.sanitized_nodup _)]
    at hintegrity
  have hsequence := (sameJson_obj k.unsignedIntegrity_nodup l.unsignedIntegrity_nodup).mp
    (Option.some.inj hintegrity) (js "sequence")
  exact JsNumber.ofNat_injective (JsValue.num.inj (Option.some.inj hsequence))

/-- A digest of a text that is not empty. -/
def NonEmpty (sha256 : Digest) : Prop := ∀ t, t ≠ [] → sha256 t ≠ []

theorem hash_ne_nil (hne : NonEmpty sha256) (l : Link ν) : l.hash sha256 ≠ [] :=
  hne _ (List.cons_ne_nil _ _)

/-- The chains a run reaches: their events have no holes. -/
def Chain (sha256 : Digest) (ν : Type) [JsNumber ν] (d : AuditData) : Prop :=
  ∃ es : List (Event ν), (∀ e ∈ es, e.NoHole) ∧ d = AuditData.ofEvents sha256 es

theorem length_chain (es : List (Event ν)) :
    (AuditData.ofEvents sha256 es).chain.length = es.length := by
  simp [AuditData.ofEvents]

theorem headHash_nil : (AuditData.ofEvents (ν := ν) sha256 []).headHash = none := rfl

theorem headHash_append (es : List (Event ν)) (e : Event ν) :
    (AuditData.ofEvents sha256 (es ++ [e])).headHash =
      some (Link.hash sha256 ⟨chainHead sha256 none es, e⟩) := by
  simp only [AuditData.ofEvents, getLast?_logLinks, Option.map_some]

/-- Chains with one head hash have one length. -/
theorem length_eq_of_headHash
    (hinj : Set.InjOn sha256.digest {t | ∃ v : JsValue ν, canonicalize v = some t})
    (hne : NonEmpty sha256) {es₀ es : List (Event ν)} (hes₀ : ∀ e ∈ es₀, e.NoHole)
    (hes : ∀ e ∈ es, e.NoHole)
    (h : (AuditData.ofEvents sha256 es).headHash = none ∧
          (AuditData.ofEvents sha256 es₀).headHash.getD [] = [] ∨
        (AuditData.ofEvents sha256 es).headHash =
          some ((AuditData.ofEvents sha256 es₀).headHash.getD [])) :
    es₀.length = es.length := by
  rcases List.eq_nil_or_concat es₀ with rfl | ⟨fs, f, rfl⟩ <;>
    rcases List.eq_nil_or_concat es with rfl | ⟨gs, g, rfl⟩ <;>
      simp only [List.concat_eq_append, headHash_nil, headHash_append, Option.getD_none,
        Option.getD_some, hash_ne_nil hne, and_false, false_or, Option.some.injEq, reduceCtorEq,
        false_and] at h hes₀ hes ⊢
  have hseq := sequence_eq_of_hash (chained_chainHead gs g) (chained_chainHead fs f)
    (hes g (by simp)) (hes₀ f (by simp)) hinj h
  rw [Link.sequence, Link.sequence, nextSequence_chainHead, nextSequence_chainHead] at hseq
  simp only [List.length_append, List.length_singleton]
  omega

/-- The head fence pins the chain. -/
theorem auditStore_fenced
    (hinj : Set.InjOn sha256.digest {t | ∃ v : JsValue ν, canonicalize v = some t})
    (hne : NonEmpty sha256) :
    Fence.Fenced (auditStore (ν := ν) sha256) (Chain sha256 ν) (fun d => d.chain.length)
      (fun e _ _ _ _ => e.NoHole) where
  raises := by
    rintro d d' e n ⟨es, hes, rfl⟩ he h
    obtain rfl := (Prod.mk.inj ((write_current e n es).symm.trans h)).2
    refine ⟨⟨es ++ [e], ?_, rfl⟩, by simp [length_chain]⟩
    intro e' he'
    rcases List.mem_append.mp he' with he' | he'
    · exact hes e' he'
    · exact List.mem_singleton.mp he' ▸ he
  fences := by
    rintro _ _ d' e n t ⟨es₀, hes₀, rfl⟩ ⟨es, hes, rfl⟩ - h
    have hw := (write_ofEvents e n es₀ (AuditData.ofEvents sha256 es)).symm.trans h
    rw [length_chain, length_chain]
    split_ifs at hw with hcond
    · exact length_eq_of_headHash hinj hne hes₀ hes hcond
    · cases (Prod.mk.inj hw).1
  keeps := by
    intro d e n head _ _ h
    simp only [auditStore] at h ⊢
    split at h
    · rfl
    · simp only [persist, appendScript] at h ⊢
      split_ifs at h ⊢
      · exact absurd rfl h
      · rfl

/-! ### Linear runs -/

theorem replay_ofEvents {log : List (Fence.Entry (Event ν))} {es : List (Event ν)} {d : AuditData}
    (h : Fence.replay (auditStore sha256) (AuditData.ofEvents sha256 es) log = some d) :
    d = AuditData.ofEvents sha256 (es ++ log.map Fence.Entry.input) := by
  induction log generalizing es with
  | nil =>
    obtain rfl := Option.some.inj h
    rw [List.map_nil, List.append_nil]
  | cons e log ih =>
    have hw : (auditStore sha256).write e.input e.attempt
        ((auditStore (ν := ν) sha256).version (AuditData.ofEvents sha256 es))
        ((auditStore (ν := ν) sha256).snapshot (AuditData.ofEvents sha256 es))
        (AuditData.ofEvents sha256 es) = _ := write_current e.input e.attempt es
    rw [Fence.replay, hw] at h
    rw [ih h, List.map_cons, List.append_assoc]
    rfl

/-- The list of a chain without holes verifies. -/
theorem verifyLines_ofEvents {es : List (Event ν)} (hes : ∀ e ∈ es, e.NoHole) :
    ∃ head, verifyLines sha256 none (AuditData.ofEvents sha256 es).chain =
      (.valid es.length head none : Verdict ν) := by
  obtain ⟨st, hrun, -, hrec⟩ := @verifyLines_links _ _ sha256 none es none ⟨none, 1, 0⟩
    ⟨rfl, rfl⟩ (fun l hl => chained_of_mem hl) hes fun l _ => l.agrees_none
  refine ⟨st.expectedPreviousHash, ?_⟩
  simp only [verifyLines, AuditData.ofEvents, hrun, closeChain, hrec, Nat.zero_add]

/-- A call that goes from the lock to its release. -/
def appendOnce (e : Event NumberToken) : List (Fence.Action (Event NumberToken) ℕ) :=
  [.call e 0, .move 0 .acquire, .move 0 .readVersion, .move 0 .readSnapshot,
    .move 0 (.write false), .move 0 (.release true)]

theorem hexDigest_nonEmpty : NonEmpty hexDigest := fun _ ht h => ht (hexDigest_injective h)

end Haechi.Redis
