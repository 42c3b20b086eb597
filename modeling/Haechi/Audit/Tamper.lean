import Haechi.Audit.Verify

/-! Tamper evidence. A replaced log that verifies against the intact anchor file
agrees with the original up to the last anchor, record for record: the anchor
fixes the hash of its record, the hash fixes the record, and the record fixes
the hash of the one before it. The digest is injective on stable texts; no
event holds an array whose only item is `undefined`, since such an array and
the empty one have the same stable text. -/

namespace Haechi.Audit

open Text Json

variable {ν : Type} [JsNumber ν]

/-! ### What the verifier establishes -/

/-- The hash a record claims for itself. -/
def claimedHash (r : JsValue ν) : Option JsString :=
  match (r.get (js "auditIntegrity")).get (js "eventHash") with
  | .str s => some s
  | _ => none

/-- The facts about one record that made it pass. -/
structure Passes (sha256 : Digest) (anchors : Option (Anchors ν)) (previous : Option JsString)
    (sequence : ℕ) (r : JsValue ν) (fields members : List (JsString × JsValue ν)) : Prop where
  wellFormed : WellFormed r
  record : r = .obj fields
  integrity : JsValue.field? (js "auditIntegrity") fields = some (.obj members)
  previousHash : isHash ((JsValue.obj members).get (js "previousHash")) previous = true
  eventHash : (JsValue.obj members).get (js "eventHash") =
    .str (recordHash sha256 (withoutHash fields members))
  anchored : ∀ a ∈ anchors, ∀ h, getAnchor (JsNumber.ofNat sequence) a.bySequence = some h →
    h = recordHash sha256 (withoutHash fields members)

/-- The records passed one after the other. -/
def Verified (sha256 : Digest) (anchors : Option (Anchors ν)) :
    Option JsString → ℕ → List (JsValue ν) → Prop
  | _, _, [] => True
  | previous, sequence, r :: rs =>
    (∃ fields members, Passes sha256 anchors previous sequence r fields members) ∧
      Verified sha256 anchors (claimedHash r) (sequence + 1) rs

variable {sha256 : Digest} {anchors : Option (Anchors ν)}

theorem Passes.claimedHash_eq {previous : Option JsString} {sequence : ℕ} {r : JsValue ν}
    {fields members : List (JsString × JsValue ν)}
    (h : Passes sha256 anchors previous sequence r fields members) :
    claimedHash r = some (recordHash sha256 (withoutHash fields members)) := by
  have hget : r.get (js "auditIntegrity") = .obj members := by
    rw [h.record, JsValue.get, h.integrity, Option.getD_some]
  rw [claimedHash, hget, h.eventHash]

omit [JsNumber ν] in
theorem eq_str_of_isHash {v : JsValue ν} {s : JsString} (h : isHash v (some s) = true) :
    v = .str s := by
  cases v <;> simp_all [isHash]

omit [JsNumber ν] in
theorem field?_of_get {fields : List (JsString × JsValue ν)} {k : JsString} {v : JsValue ν}
    (h : (JsValue.obj fields).get k = v) (hv : v ≠ .undef) :
    JsValue.field? k fields = some v := by
  rw [JsValue.get] at h
  cases hf : JsValue.field? k fields with
  | none => exact absurd (by rw [← h, hf]; rfl) hv
  | some w => rw [← h, hf, Option.getD_some]

/-- A record that passes satisfies every check. -/
theorem passes_of_verifyRecord {st st' : ChainState} {r : JsValue ν} (hr : WellFormed r)
    (h : verifyRecord sha256 anchors st r = .ok st') :
    (∃ fields members,
      Passes sha256 anchors st.expectedPreviousHash st.expectedSequence r fields members) ∧
      st'.expectedPreviousHash = claimedHash r ∧
      st'.expectedSequence = st.expectedSequence + 1 ∧ st'.records = st.records + 1 := by
  unfold verifyRecord at h
  simp only at h
  split_ifs at h with htruthy hseq hprev
  split at h
  next fields members hintegrity =>
    split_ifs at h with hhash
    simp only [Bool.not_eq_true', Bool.not_eq_false] at hprev hhash
    rw [hintegrity] at hprev hhash
    have hpass : (∀ a ∈ anchors, ∀ h,
        getAnchor (JsNumber.ofNat st.expectedSequence) a.bySequence = some h →
          h = recordHash sha256 (withoutHash fields members)) →
        Passes sha256 anchors st.expectedPreviousHash st.expectedSequence (.obj fields) fields
          members := fun ha =>
      ⟨hr, rfl, field?_of_get hintegrity (by simp), hprev, eq_str_of_isHash hhash, ha⟩
    split at h
    next hash hget =>
      split_ifs at h with heq
      cases h
      have ha := hpass fun a haa h' hh' => by
        obtain rfl : hash = h' := Option.some.inj
          (hget.symm.trans (Option.bind_eq_some_iff.mpr ⟨a, haa, hh'⟩))
        exact heq
      exact ⟨⟨fields, members, ha⟩, ha.claimedHash_eq.symm, rfl, rfl⟩
    next hget =>
      cases h
      have ha := hpass fun a haa h' hh' => by
        exact absurd (hget.symm.trans (Option.bind_eq_some_iff.mpr ⟨a, haa, hh'⟩)) (by simp)
      exact ⟨⟨fields, members, ha⟩, ha.claimedHash_eq.symm, rfl, rfl⟩
  next => cases h

/-- The lines of a log that passes are JSON texts of records that pass. -/
theorem verified_of_foldlM {lines : List JsString} {st st' : ChainState}
    (h : lines.foldlM (verifyLine sha256 anchors) st = .ok st') :
    ∃ rs : List (JsValue ν), lines.mapM parse = some rs ∧ st'.records = st.records + rs.length ∧
      Verified sha256 anchors st.expectedPreviousHash st.expectedSequence rs := by
  induction lines generalizing st with
  | nil =>
    cases h
    exact ⟨[], rfl, rfl, trivial⟩
  | cons line lines ih =>
    rw [List.foldlM_cons] at h
    cases hline : verifyLine sha256 anchors st line with
    | error v => rw [hline] at h; cases h
    | ok st₁ =>
      rw [hline] at h
      rw [verifyLine] at hline
      split at hline
      · cases hline
      · cases hline
      · next r hnull hparse =>
        obtain ⟨hpass, hprev, hseq, hrec⟩ :=
          passes_of_verifyRecord (parse_wellFormed hparse) hline
        obtain ⟨rs, hmap, hrecs, hver⟩ := ih h
        rw [hprev, hseq] at hver
        refine ⟨r :: rs, ?_, by rw [hrecs, hrec, List.length_cons]; omega, hpass, hver⟩
        simp [List.mapM_cons, hparse, hmap]

/-- The record at each position passed, after the one before it. -/
theorem Verified.getElem {previous : Option JsString} {sequence : ℕ} {rs : List (JsValue ν)}
    (h : Verified sha256 anchors previous sequence rs) (i : ℕ) (hi : i < rs.length) :
    ∃ p fields members, Passes sha256 anchors p (sequence + i) rs[i] fields members ∧
      (i = 0 → p = previous) ∧ ∀ j, (hj : j + 1 = i) → p = claimedHash (rs.get ⟨j, by omega⟩) := by
  induction rs generalizing previous sequence i with
  | nil => exact absurd hi (by simp)
  | cons r rs ih =>
    obtain ⟨⟨fields, members, hr⟩, hrs⟩ := h
    cases i with
    | zero => exact ⟨previous, fields, members, hr, fun _ => rfl, fun j hj => absurd hj (by omega)⟩
    | succ i =>
      obtain ⟨p, fields', members', hp, hzero, hprev⟩ := ih hrs i (by simpa using hi)
      refine ⟨p, fields', members', ?_, fun h => absurd h (by omega), fun j hj => ?_⟩
      · rwa [List.getElem_cons_succ, Nat.add_comm i 1, ← Nat.add_assoc]
      · obtain rfl : j = i := by omega
        cases j with
        | zero => exact hzero rfl
        | succ j => exact hprev j rfl

/-! ### The hash fixes the record -/

/-- After sanitizing, no array of the event holds `undefined` as its only item. -/
def Event.NoLone (e : Event ν) : Prop := hasLone (.obj e.sanitized) = false

/-- The value whose JSON text the sink appended for the link. -/
def Link.json (sha256 : Digest) (l : Link ν) : JsValue ν := (JsValue.obj (l.record sha256)).prune

theorem Link.unsigned_nodup (l : Link ν) : (l.unsigned.map Prod.fst).Nodup :=
  JsValue.nodup_setField _ _ (sanitized_nodup l.event)

theorem Link.unsignedIntegrity_nodup (l : Link ν) :
    ((unsignedIntegrity l.previous).map Prod.fst).Nodup := by
  show [js "alg", js "canonicalization", js "sequence", js "previousHash"].Nodup
  decide

theorem Link.mem_members {l : Link ν} {kv : JsString × JsValue ν}
    (h : kv ∈ unsignedIntegrity l.previous) : kv ∈ l.members sha256 :=
  List.mem_append_left _ h

theorem Link.unsigned_distinct {l : Link ν} (h : l.Chained sha256) :
    (JsValue.obj l.unsigned).Distinct := by
  refine JsValue.distinct_obj.mpr ⟨l.unsigned_nodup, fun kv hkv => ?_⟩
  rcases JsValue.mem_setField hkv with rfl | ⟨hmem, -⟩
  · refine JsValue.distinct_obj.mpr ⟨l.unsignedIntegrity_nodup, fun kv hkv => ?_⟩
    exact (JsValue.distinct_obj.mp (members_distinct h)).2 kv (mem_members hkv)
  · exact (JsValue.distinct_obj.mp l.event.sanitized_distinct).2 kv hmem

theorem Link.unsigned_hasLone {l : Link ν} (h : l.Chained sha256) (he : l.event.NoLone) :
    hasLone (.obj l.unsigned) = false := by
  rw [hasLone, hasLoneFields_eq_false]
  intro kv hkv
  rcases JsValue.mem_setField hkv with rfl | ⟨hmem, -⟩
  · refine hasLone_of_isJson _ (JsValue.isJson_obj.mpr fun kv hkv => ?_)
    exact JsValue.isJson_obj.mp (members_isJson h) kv (mem_members hkv)
  · exact hasLoneFields_eq_false.mp he kv hmem

theorem Link.field?_record (l : Link ν) {k : JsString} (hk : k ≠ js "auditIntegrity") :
    JsValue.field? k (l.record sha256) = JsValue.field? k l.unsigned := by
  rw [record_eq, unsigned, unsignedRecord, JsValue.field?_setField_of_ne hk,
    JsValue.field?_setField_of_ne hk]

/-- A record without holes was hashed as it was written. -/
theorem Link.json_eq {l : Link ν} (h : l.Chained sha256)
    (hj : (JsValue.obj l.unsigned).isJson = true) : l.json sha256 = .obj (l.record sha256) := by
  refine JsValue.prune_of_isJson _ (JsValue.isJson_obj.mpr fun kv hkv => ?_)
  rw [record_eq] at hkv
  rcases JsValue.mem_setField hkv with rfl | ⟨hmem, hk⟩
  · exact members_isJson h
  · exact JsValue.isJson_obj.mp hj kv (JsValue.mem_setField_of_ne _ hmem hk)

/-- Stable texts of objects with one digest are equal. -/
theorem canonicalize_eq_of_hash {fs gs : List (JsString × JsValue ν)}
    (hinj : Set.InjOn sha256.digest {t | ∃ v : JsValue ν, canonicalize v = some t})
    (h : recordHash sha256 fs = recordHash sha256 gs) :
    canonicalize (.obj fs) = canonicalize (.obj gs) := by
  have htext : ∀ hs : List (JsString × JsValue ν), ∃ t, canonicalize (.obj hs) = some t :=
    fun hs => ⟨_, rfl⟩
  obtain ⟨t, ht⟩ := htext fs
  obtain ⟨u, hu⟩ := htext gs
  rw [recordHash, recordHash, ht, hu] at h
  rw [ht, hu, hinj ⟨_, ht⟩ ⟨_, hu⟩ h]

/-- **One record.** A record that passes with the hash of a link is the link's
record, as a JSON value, and is chained to the same hash. -/
theorem sameJson_of_hash {l : Link ν} (hc : l.Chained sha256) (he : l.event.NoLone)
    (hinj : Set.InjOn sha256.digest {t | ∃ v : JsValue ν, canonicalize v = some t})
    {previous : Option JsString} {sequence : ℕ} {r : JsValue ν}
    {fields members : List (JsString × JsValue ν)}
    (h : Passes sha256 anchors previous sequence r fields members)
    (hhash : claimedHash r = some (l.hash sha256)) :
    SameJson r (l.json sha256) ∧ isHash (previousHash l.previous) previous = true := by
  have hrecord : recordHash sha256 (withoutHash fields members) = recordHash sha256 l.unsigned :=
    Option.some.inj (h.claimedHash_eq.symm.trans hhash)
  obtain ⟨hjson, hdistinct⟩ := h.record ▸ h.wellFormed
  obtain ⟨hfn, hfd⟩ := JsValue.distinct_obj.mp hdistinct
  have hmembers := JsValue.mem_of_field? h.integrity
  obtain ⟨hmn, hmd⟩ := JsValue.distinct_obj.mp (hfd _ hmembers)
  have hen : ((JsValue.eraseField (js "eventHash") members).map Prod.fst).Nodup :=
    JsValue.nodup_eraseField _ hmn
  have hwn : ((withoutHash fields members).map Prod.fst).Nodup := JsValue.nodup_setField _ _ hfn
  -- what was hashed is a JSON value, so the stable texts tell it apart
  have hwf : WellFormed (.obj (withoutHash fields members)) := by
    refine wellFormed_obj hwn fun kv hkv => ?_
    rcases JsValue.mem_setField hkv with rfl | ⟨hmem, -⟩
    · refine wellFormed_obj hen fun kv hkv => ?_
      have hmem := (List.mem_filter.mp hkv).1
      exact ⟨JsValue.isJson_obj.mp (JsValue.isJson_obj.mp hjson _ hmembers) kv hmem, hmd kv hmem⟩
    · exact ⟨JsValue.isJson_obj.mp hjson kv hmem, hfd kv hmem⟩
  have hsame : SameJson (.obj l.unsigned) (.obj (withoutHash fields members)) :=
    sameJson_of_canonicalize hwf (Link.unsigned_distinct hc) (Link.unsigned_hasLone hc he)
      (canonicalize_eq_of_hash hinj hrecord.symm)
  have hlookup := (sameJson_obj l.unsigned_nodup hwn).mp hsame
  have hintegrity : SameJson (.obj (unsignedIntegrity l.previous))
      (.obj (JsValue.eraseField (js "eventHash") members)) := by
    have := hlookup (js "auditIntegrity")
    rw [Link.unsigned, unsignedRecord, withoutHash,
      JsValue.field?_setField_self _ _ (Link.sanitized_nodup _),
      JsValue.field?_setField_self _ _ hfn] at this
    exact Option.some.inj this
  have hmemberLookup := (sameJson_obj l.unsignedIntegrity_nodup hen).mp hintegrity
  have hmembersSame : SameJson (.obj members) (.obj (l.members sha256)) := by
    refine (sameJson_obj hmn (JsValue.distinct_obj.mp (Link.members_distinct hc)).1).mpr
      fun k => ?_
    by_cases hk : k = js "eventHash"
    · subst hk
      rw [field?_of_get h.eventHash (by simp), field?_of_get l.get_eventHash (by simp), hrecord]
      rfl
    · have := hmemberLookup k
      rw [JsValue.field?_eraseField_of_ne hk] at this
      have hmembers : JsValue.eraseField (js "eventHash") (l.members sha256) = _ := l.eraseField_members
      rw [← this, ← hmembers, JsValue.field?_eraseField_of_ne hk]
  constructor
  · rw [h.record, Link.json_eq hc (hsame.isJson_eq.trans hwf.1)]
    refine (sameJson_obj hfn l.record_nodup).mpr fun k => ?_
    by_cases hk : k = js "auditIntegrity"
    · subst hk
      rw [h.integrity, l.field?_integrity]
      exact congrArg some hmembersSame
    · rw [l.field?_record hk, hlookup k, withoutHash, JsValue.field?_setField_of_ne hk]
  · have hprev := hmemberLookup (js "previousHash")
    rw [field?_of_get (v := previousHash l.previous) rfl (Link.previousHash_ne_undef hc),
      JsValue.field?_eraseField_of_ne (by decide), Option.map_some] at hprev
    obtain ⟨v, hv, hsort⟩ := Option.map_eq_some_iff.mp hprev.symm
    have hget : (JsValue.obj members).get (js "previousHash") = v := by
      rw [JsValue.get, hv, Option.getD_some]
    have heq : v = previousHash l.previous := by
      rcases Link.previousHash_cases hc with hp | ⟨k, hp⟩
      · rw [hp] at hsort ⊢
        exact sortKeys_eq_null.mp hsort
      · rw [hp] at hsort ⊢
        exact sortKeys_eq_str.mp hsort
    rw [← heq, ← hget]
    exact h.previousHash

/-! ### The anchor fixes the prefix -/

omit [JsNumber ν] in
theorem eq_of_isHash_str {h : JsString} {previous : Option JsString}
    (hh : isHash (.str h : JsValue ν) previous = true) : previous = some h := by
  cases previous <;> simp_all [isHash]

/-- Back from an anchored record: every record before it is the original. -/
theorem sameJson_prefix {es : List (Event ν)} (he : ∀ e ∈ es, e.NoLone)
    (hinj : Set.InjOn sha256.digest {t | ∃ v : JsValue ν, canonicalize v = some t})
    {rs : List (JsValue ν)} (hver : Verified sha256 anchors none 1 rs) {m : ℕ}
    (hm : m < rs.length) (hml : m < (logLinks sha256 es).length)
    (hlast : claimedHash rs[m] = some ((logLinks sha256 es)[m].hash sha256)) :
    ∀ i, (hi : i ≤ m) → SameJson rs[i] ((logLinks sha256 es)[i].json sha256) := by
  have hback : ∀ d i, (hi : i + d = m) →
      claimedHash rs[i] = some ((logLinks sha256 es)[i].hash sha256) := by
    intro d
    induction d with
    | zero =>
      rintro i rfl
      exact hlast
    | succ d ih =>
      intro i hi
      have hhash := ih (i + 1) (by omega)
      obtain ⟨p, fields, members, hpass, -, hprev⟩ := hver.getElem (i + 1) (by omega)
      have hmem : (logLinks sha256 es)[i + 1] ∈ logLinks sha256 es := List.getElem_mem _
      obtain ⟨-, hchain⟩ := sameJson_of_hash (chained_of_mem hmem)
        (he _ (event_mem_of_mem hmem)) hinj hpass hhash
      have hlen : i + 1 < (logLinks sha256 es).length := by omega
      rw [links_succ sha256 none es i hlen] at hchain
      refine (hprev i rfl).symm.trans ?_
      exact eq_of_isHash_str hchain
  intro i hi
  have hhash := hback (m - i) i (by omega)
  obtain ⟨p, fields, members, hpass, -⟩ := hver.getElem i (by omega)
  have hmem : (logLinks sha256 es)[i] ∈ logLinks sha256 es := List.getElem_mem _
  exact (sameJson_of_hash (chained_of_mem hmem) (he _ (event_mem_of_mem hmem)) hinj hpass hhash).1

/-- The number of the last record that is anchored among `n`. -/
def lastAnchored (cfg : SinkConfig) (n : ℕ) : ℕ := n / cfg.everyRecords * cfg.everyRecords

theorem lastAnchored_le (cfg : SinkConfig) (n : ℕ) : lastAnchored cfg n ≤ n := Nat.div_mul_le_self _ _

/-- The link at the last anchored position is among those anchored. -/
theorem mem_due_lastAnchored (cfg : SinkConfig) {es : List (Event ν)} {m : ℕ}
    (hm : m + 1 = lastAnchored cfg es.length) (hml : m < (logLinks sha256 es).length) :
    (logLinks sha256 es)[m] ∈ Link.due cfg.everyRecords (logLinks sha256 es) := by
  rw [Link.due, List.mem_filter]
  refine ⟨List.getElem_mem _, ?_⟩
  rw [logLinks_sequence es m hml, hm, lastAnchored, Nat.mul_mod_left]
  rfl

omit [JsNumber ν] in
theorem le_lastSequence {ls : List (Link ν)} (h : ls.Pairwise fun k l => k.sequence < l.sequence)
    {l : Link ν} (hl : l ∈ ls) : l.sequence ≤ (ls.getLast?.map Link.sequence).getD 0 := by
  rcases List.eq_nil_or_concat ls with rfl | ⟨ks, k, rfl⟩
  · cases hl
  · rw [List.concat_eq_append] at h hl ⊢
    rw [List.getLast?_concat, Option.map_some, Option.getD_some]
    rcases List.mem_append.mp hl with hl | hl
    · exact ((List.pairwise_append.mp h).2.2 l hl k (by simp)).le
    · rw [List.mem_singleton.mp hl]

/-- A valid verdict against anchors: the lines passed, and none is missing. -/
theorem verified_of_valid {file : Option JsString} {anchorFile : Option JsString}
    {a : Anchors ν} (ha : readAnchors anchorFile = some a) {n : ℕ} {head : Option JsString}
    {anchored : Option (ℕ × ν)}
    (h : verifyAuditChain sha256 file (some anchorFile) = .valid n head anchored) :
    ∃ text, file = some text ∧ ∃ rs : List (JsValue ν),
      (nonBlank (readLines text)).mapM parse = some rs ∧ rs.length = n ∧
      JsNumber.lt (JsNumber.ofNat n) a.lastSequence = false ∧
      Verified sha256 (some a) none 1 rs := by
  rw [verifyAuditChain, Option.map_some, ha] at h
  cases file with
  | none => cases h
  | some text =>
    refine ⟨text, rfl, ?_⟩
    simp only [verifyLines] at h
    split at h
    next => cases h
    next st hfold =>
      obtain ⟨rs, hmap, hrec, hver⟩ := verified_of_foldlM hfold
      refine ⟨rs, hmap, ?_⟩
      rw [Nat.zero_add] at hrec
      simp only [Option.join_some, closeChain] at h
      split_ifs at h with hlt
      cases h
      exact ⟨hrec.symm, by simpa using hlt, hver⟩

/-- The verdict is valid with one record, and anchored. -/
def isValidOnce (v : Verdict ν) : Bool :=
  match v with
  | .valid 1 _ (some _) => true
  | _ => false

omit [JsNumber ν] in
theorem exists_of_isValidOnce {v : Verdict ν} (h : isValidOnce v = true) :
    ∃ head anchored, v = .valid 1 head (some anchored) := by
  unfold isValidOnce at h
  split at h
  · exact ⟨_, _, rfl⟩
  · cases h

end Haechi.Audit
