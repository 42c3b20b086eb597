import Haechi.Audit.Sink

/-! Verifying what the sink wrote. A log verifies, with and without its anchor
file, as long as no sanitized event holds `undefined` or a line separator; the
anchor file reads back as the anchored links. -/

namespace Haechi.Audit

open Text Json

variable {ν : Type} [JsNumber ν]

/-! ### Reading anchors back -/

/-- The anchors that attest these links. -/
def Anchors.ofLinks (sha256 : Digest) (ls : List (Link ν)) : Anchors ν where
  bySequence := ls.map fun l => (JsNumber.ofNat l.sequence, l.hash sha256)
  lastSequence := JsNumber.ofNat ((ls.getLast?.map Link.sequence).getD 0)

theorem setAnchor_of_not_mem {sequence : ν} (hash : JsString) {m : List (ν × JsString)}
    (h : sequence ∉ m.map Prod.fst) : setAnchor sequence hash m = m ++ [(sequence, hash)] :=
  if_neg h

/-- The timestamp an anchor carries. -/
def Event.timestamp (e : Event ν) : JsValue ν := (JsValue.obj e.sanitized).get (js "timestamp")

variable {sha256 : Digest}

theorem Link.get_timestamp (l : Link ν) :
    (JsValue.obj (l.record sha256)).get (js "timestamp") = l.event.timestamp := by
  rw [JsValue.get, Link.record_eq, JsValue.field?_setField_of_ne (by decide)]
  rfl

omit [JsNumber ν] in
theorem Event.timestamp_cases (e : Event ν) :
    e.timestamp = .undef ∨ (js "timestamp", e.timestamp) ∈ e.sanitized := by
  rw [timestamp, JsValue.get]
  cases h : JsValue.field? (js "timestamp") e.sanitized with
  | none => exact .inl rfl
  | some v => exact .inr (JsValue.mem_of_field? h)

omit [JsNumber ν] in
theorem Event.timestamp_distinct (e : Event ν) : e.timestamp.Distinct := by
  rcases e.timestamp_cases with h | h
  · rw [h]; trivial
  · exact (JsValue.distinct_obj.mp e.sanitized_distinct).2 _ h

/-- The value an anchor line holds. -/
def Link.attestation (sha256 : Digest) (l : Link ν) : List (JsString × JsValue ν) :=
  [(js "sequence", .num (JsNumber.ofNat l.sequence)), (js "eventHash", .str (l.hash sha256)),
    (js "timestamp", l.event.timestamp)]

theorem Link.anchor_eq (l : Link ν) : l.anchor sha256 = jsonLine (.obj (l.attestation sha256)) := by
  rw [anchor, anchorLine]
  simp only [get_integrity, get_sequence, get_eventHash, get_timestamp]
  rfl

theorem Link.attestation_distinct (l : Link ν) :
    (JsValue.obj (l.attestation sha256)).Distinct := by
  have hnodup : ((l.attestation sha256).map Prod.fst).Nodup := by
    show [js "sequence", js "eventHash", js "timestamp"].Nodup
    decide
  refine JsValue.distinct_obj.mpr ⟨hnodup, ?_⟩
  simp only [attestation, List.forall_mem_cons, List.not_mem_nil, false_imp_iff, implies_true,
    and_true]
  exact ⟨trivial, trivial, l.event.timestamp_distinct⟩

theorem Link.parse_anchor (l : Link ν) :
    parse (l.anchor sha256) = some (JsValue.obj (l.attestation sha256)).prune := by
  have h := stringify_isSome (v := JsValue.obj (l.attestation sha256)) (by simp)
  have hs : stringify (.obj (l.attestation sha256)) = some (l.anchor sha256) := by
    rw [anchor_eq, jsonLine, Option.eq_some_of_isSome h, Option.getD_some]
  exact parse_stringify hs l.attestation_distinct

/-- The line of a link adds its anchor, when the link comes after those read. -/
theorem readAnchor_anchor {ls : List (Link ν)} {l : Link ν}
    (h : ∀ k ∈ ls, k.sequence < l.sequence) :
    readAnchor (Anchors.ofLinks sha256 ls) (l.anchor sha256) =
      some (Anchors.ofLinks sha256 (ls ++ [l])) := by
  have hmem : JsNumber.ofNat l.sequence ∉ (Anchors.ofLinks sha256 ls).bySequence.map Prod.fst := by
    simp only [Anchors.ofLinks, List.map_map, List.mem_map, not_exists, not_and]
    intro k hk heq
    have := JsNumber.ofNat_injective heq
    exact absurd this (h k hk).ne
  have hlast : JsNumber.lt (Anchors.ofLinks sha256 ls).lastSequence
      (JsNumber.ofNat (ν := ν) l.sequence) = decide ((ls.getLast?.map Link.sequence).getD 0 < l.sequence) :=
    JsNumber.lt_ofNat _ _
  have hseq : (JsValue.obj (l.attestation sha256)).prune.get (js "sequence") =
      .num (JsNumber.ofNat l.sequence) := rfl
  have hhash : (JsValue.obj (l.attestation sha256)).prune.get (js "eventHash") =
      .str (l.hash sha256) := rfl
  have hpos : (ls.getLast?.map Link.sequence).getD 0 < l.sequence := by
    cases hl : ls.getLast? with
    | none => exact Nat.succ_le_of_lt (by
        simp only [Link.sequence, nextSequence]
        split <;> simp)
    | some k => exact h k (List.mem_of_getLast? hl)
  have hprune : (JsValue.obj (l.attestation sha256)).prune =
      .obj (JsValue.pruneFields (l.attestation sha256)) := rfl
  rw [readAnchor, l.parse_anchor]
  simp only [hprune] at hseq hhash ⊢
  simp only [hseq, hhash, hlast, hpos, decide_true, if_true, setAnchor_of_not_mem _ hmem]
  simp [Anchors.ofLinks]

/-- The line of an anchor breaks in two only at a separator in its timestamp. -/
theorem Link.anchor_oneLine {l : Link ν}
    (h : AllTexts (∀ c ∈ ·, ¬ isSeparator c) l.event.timestamp) : OneLine (l.anchor sha256) := by
  have hlit : ∀ s ∈ [js "sequence", js "eventHash", js "timestamp"], ∀ c ∈ s,
      ¬ isSeparator c := by
    unfold isSeparator
    decide
  have hhash : ∀ c ∈ l.hash sha256, ¬ isSeparator c := fun c hc =>
    not_isSeparator_of_isBase64Url (sha256.alphabet _ c hc)
  rw [anchor_eq]
  refine jsonLine_oneLine (allTexts_obj.mpr ?_)
  simp only [attestation, List.forall_mem_cons, List.not_mem_nil, false_imp_iff, implies_true,
    and_true]
  exact ⟨⟨hlit _ (by simp), trivial⟩, ⟨hlit _ (by simp), hhash⟩, ⟨hlit _ (by simp), h⟩⟩

theorem readAnchor_run {ls : List (Link ν)} (h : ls.Pairwise fun k l => k.sequence < l.sequence) :
    (ls.map (Link.anchor sha256)).foldlM readAnchor (Anchors.ofLinks sha256 []) =
      some (Anchors.ofLinks sha256 ls) := by
  induction ls using List.reverseRecOn with
  | nil => rfl
  | append_singleton ls l ih =>
    rw [List.pairwise_append] at h
    rw [List.map_append, List.foldlM_append, ih h.1, List.map_singleton]
    have hl : ∀ k ∈ ls, k.sequence < l.sequence := fun k hk => h.2.2 k hk l (by simp)
    have : readAnchor (Anchors.ofLinks sha256 ls) (l.anchor sha256) = _ := readAnchor_anchor hl
    simp [this]

/-- An anchor file without broken lines reads back as the links it attests. -/
theorem readAnchors_fileOf {ls : List (Link ν)}
    (h : ls.Pairwise fun k l => k.sequence < l.sequence)
    (hone : ∀ l ∈ ls, OneLine (l.anchor sha256)) :
    readAnchors (fileOf (ls.map (Link.anchor sha256))) = some (Anchors.ofLinks sha256 ls) := by
  rw [readAnchors, readLines_fileOf (List.forall_mem_map.mpr hone), nonBlank_jsonLines (ν := ν)]
  · exact readAnchor_run h
  · exact List.forall_mem_map.mpr fun l _ => ⟨_, l.anchor_eq⟩

/-! ### Sequence numbers -/

theorem logLinks_sequence (es : List (Event ν)) (i : ℕ) (hi : i < (logLinks sha256 es).length) :
    (logLinks sha256 es)[i].sequence = i + 1 := by
  rw [(links_getElem sha256 none es i hi).2.2, nextSequence, Nat.add_comm]

theorem logLinks_pairwise (es : List (Event ν)) :
    (logLinks sha256 es).Pairwise fun k l => k.sequence < l.sequence := by
  rw [List.pairwise_iff_getElem]
  intro i j hi hj hij
  rw [logLinks_sequence es i hi, logLinks_sequence es j hj]
  omega

/-- A sequence number names one link of a log. -/
theorem logLinks_inj {es : List (Event ν)} {k l : Link ν} (hk : k ∈ logLinks sha256 es)
    (hl : l ∈ logLinks sha256 es) (h : k.sequence = l.sequence) : k = l := by
  obtain ⟨i, hi, rfl⟩ := List.getElem_of_mem hk
  obtain ⟨j, hj, rfl⟩ := List.getElem_of_mem hl
  rw [logLinks_sequence es i hi, logLinks_sequence es j hj] at h
  obtain rfl : i = j := by omega
  rfl

theorem logLinks_sequence_le {es : List (Event ν)} {l : Link ν} (h : l ∈ logLinks sha256 es) :
    l.sequence ≤ es.length := by
  obtain ⟨i, hi, rfl⟩ := List.getElem_of_mem h
  rw [logLinks_sequence es i hi]
  rw [length_links] at hi
  omega

theorem mem_of_getAnchor {ls : List (Link ν)} {n : ℕ} {hash : JsString}
    (h : getAnchor (JsNumber.ofNat n) (Anchors.ofLinks sha256 ls).bySequence = some hash) :
    ∃ l ∈ ls, l.sequence = n ∧ l.hash sha256 = hash := by
  rw [getAnchor, Option.map_eq_some_iff] at h
  obtain ⟨kv, hfind, rfl⟩ := h
  have hmem := List.mem_of_find?_eq_some hfind
  have heq := List.find?_some hfind
  obtain ⟨l, hl, rfl⟩ := List.mem_map.mp hmem
  exact ⟨l, hl, JsNumber.ofNat_injective (by simpa using heq), rfl⟩

theorem getAnchor_of_mem {es : List (Event ν)} {ls : List (Link ν)}
    (hsub : ∀ k ∈ ls, k ∈ logLinks sha256 es) {l : Link ν} (hl : l ∈ ls) :
    getAnchor (JsNumber.ofNat l.sequence) (Anchors.ofLinks sha256 ls).bySequence =
      some (l.hash sha256) := by
  have hsome : (getAnchor (JsNumber.ofNat l.sequence)
      (Anchors.ofLinks sha256 ls).bySequence).isSome := by
    rw [getAnchor, Option.isSome_map, List.find?_isSome]
    exact ⟨_, List.mem_map_of_mem hl, by simp⟩
  obtain ⟨hash, h⟩ := Option.isSome_iff_exists.mp hsome
  obtain ⟨k, hk, hseq, rfl⟩ := mem_of_getAnchor h
  rw [h, logLinks_inj (hsub k hk) (hsub l hl) hseq]

/-- The anchors of a log's own links agree with the log. -/
theorem agrees_ofLinks {es : List (Event ν)} {ls : List (Link ν)}
    (hsub : ∀ k ∈ ls, k ∈ logLinks sha256 es) {l : Link ν} (hl : l ∈ logLinks sha256 es) :
    l.Agrees sha256 (some (Anchors.ofLinks sha256 ls)) := by
  rintro a ⟨⟩ hash h
  obtain ⟨k, hk, hseq, rfl⟩ := mem_of_getAnchor h
  rw [logLinks_inj (hsub k hk) hl hseq]

/-! ### Verifying a log -/

/-- The lines of a log without holes and separators pass, whatever agrees with it. -/
theorem verifyLines_log {es : List (Event ν)} (hhole : ∀ e ∈ es, e.NoHole)
    (hsep : ∀ e ∈ es, e.NoSeparator) {anchors : Option (Anchors ν)}
    (ha : ∀ l ∈ logLinks sha256 es, l.Agrees sha256 anchors) :
    ∃ st : ChainState, st.records = es.length ∧
      verifyLines sha256 anchors (nonBlank (readLines
        ((fileOf ((logLinks sha256 es).map (Link.line sha256))).getD []))) =
        closeChain anchors st := by
  have hone : ∀ l ∈ logLinks sha256 es, OneLine (l.line sha256) := fun l hl =>
    jsonLine_oneLine (Link.record_allTexts (chained_of_mem hl) (hsep _ (event_mem_of_mem hl)))
  obtain ⟨st, hrun, -, hrec⟩ := verifyLines_links es none ⟨none, 1, 0⟩
    ⟨rfl, rfl⟩ (fun l hl => chained_of_mem hl) hhole ha
  refine ⟨st, by rw [hrec, Nat.zero_add], ?_⟩
  rw [readLines_fileOf (List.forall_mem_map.mpr hone), nonBlank_jsonLines (ν := ν)
    (List.forall_mem_map.mpr fun l _ => ⟨l.record sha256, rfl⟩), verifyLines, hrun]

theorem lastSequence_le {es : List (Event ν)} {ls : List (Link ν)}
    (hsub : ∀ k ∈ ls, k ∈ logLinks sha256 es) :
    (ls.getLast?.map Link.sequence).getD 0 ≤ es.length := by
  cases h : ls.getLast? with
  | none => exact Nat.zero_le _
  | some l => exact logLinks_sequence_le (hsub l (List.mem_of_getLast? h))

/-- Anchors within the log leave the verdict valid. -/
theorem closeChain_valid {es : List (Event ν)} {ls : List (Link ν)}
    (hsub : ∀ k ∈ ls, k ∈ logLinks sha256 es) {st : ChainState} (hst : st.records = es.length) :
    closeChain (some (Anchors.ofLinks sha256 ls)) st =
      .valid es.length st.expectedPreviousHash
        (some (ls.length, (Anchors.ofLinks sha256 ls).lastSequence)) := by
  have hlt : JsNumber.lt (JsNumber.ofNat (ν := ν) st.records)
      (Anchors.ofLinks sha256 ls).lastSequence = false := by
    rw [Anchors.ofLinks, JsNumber.lt_ofNat, hst]
    simpa using lastSequence_le hsub
  rw [closeChain, hlt, hst]
  simp [Anchors.ofLinks]

theorem due_subset {k : ℕ} {es fs : List (Event ν)} :
    ∀ l ∈ Link.due k (logLinks sha256 es), l ∈ logLinks sha256 (es ++ fs) := by
  intro l hl
  rw [logLinks, links_append]
  exact List.mem_append_left _ (List.mem_filter.mp hl).1

omit [JsNumber ν] in
theorem Event.NoSeparator.timestamp {e : Event ν} (h : e.NoSeparator) :
    AllTexts (∀ c ∈ ·, ¬ isSeparator c) e.timestamp := by
  rcases e.timestamp_cases with ht | ht
  · rw [ht]; trivial
  · exact (allTexts_obj.mp h _ ht).2

/-- A log and the anchors of its first links, as the verifier reads them. -/
theorem verifyAuditChain_log {es : List (Event ν)} (hne : es ≠ []) (hhole : ∀ e ∈ es, e.NoHole)
    (hsep : ∀ e ∈ es, e.NoSeparator) :
    (∃ head, verifyAuditChain sha256 (fileOf ((logLinks sha256 es).map (Link.line sha256))) none =
      (.valid es.length head none : Verdict ν)) ∧
    ∀ ls : List (Link ν), (∀ l ∈ ls, l ∈ logLinks sha256 es) →
      (ls.Pairwise fun k l => k.sequence < l.sequence) →
      ∃ head anchored,
        verifyAuditChain sha256 (fileOf ((logLinks sha256 es).map (Link.line sha256)))
          (some (fileOf (ls.map (Link.anchor sha256)))) =
          (.valid es.length head (some anchored) : Verdict ν) := by
  have hfile : fileOf ((logLinks sha256 es).map (Link.line sha256)) =
      some ((fileOf ((logLinks sha256 es).map (Link.line sha256))).getD []) := by
    have : (logLinks sha256 es).map (Link.line sha256) ≠ [] := by
      simpa [← List.length_pos_iff] using hne
    rw [fileOf, if_neg this, Option.getD_some]
  constructor
  · obtain ⟨st, hst, h⟩ := verifyLines_log hhole hsep
      fun (l : Link ν) (_ : l ∈ logLinks sha256 es) => l.agrees_none
    refine ⟨st.expectedPreviousHash, ?_⟩
    rw [hfile]
    exact h.trans (by rw [closeChain, hst])
  · intro ls hsub hsorted
    have hread : readAnchors (fileOf (ls.map (Link.anchor sha256))) =
        some (Anchors.ofLinks sha256 ls) :=
      readAnchors_fileOf hsorted fun l hl =>
        l.anchor_oneLine (hsep _ (event_mem_of_mem (hsub l hl))).timestamp
    obtain ⟨st, hst, h⟩ := verifyLines_log hhole hsep
      fun l hl => agrees_ofLinks hsub hl
    refine ⟨st.expectedPreviousHash, (ls.length, (Anchors.ofLinks sha256 ls).lastSequence), ?_⟩
    rw [verifyAuditChain, Option.map_some, hread, hfile]
    exact h.trans (closeChain_valid hsub hst)

/-- **Round trip.** In every state a sink reaches, whatever the interleaving of
its calls, no call was rejected and the log verifies with one record for each
call whose record is written; so does the anchor file. The events must be free
of holes and of line separators. -/
theorem verify_run (cfg : SinkConfig) (sha256 : Digest) (actions : List (Action ν))
    (hhole : ∀ e ∈ (Sink.run cfg sha256 actions).calls, e.NoHole)
    (hsep : ∀ e ∈ (Sink.run cfg sha256 actions).calls, e.NoSeparator) :
    let s := Sink.run cfg sha256 actions
    let written := s.resolved + s.phase.written.length
    s.rejected = 0 ∧ s.calls.length = s.resolved + s.phase.current.length + s.queue.length ∧
    (written ≠ 0 →
      (∃ head, verifyAuditChain sha256 s.files.log none =
        (.valid written head none : Verdict ν)) ∧
      (cfg.anchorMode = .file → ∃ head anchored,
        verifyAuditChain sha256 s.files.log (some s.files.anchors) =
          (.valid written head (some anchored) : Verdict ν))) := by
  obtain ⟨done, h⟩ := Sink.consistent_run cfg sha256 actions
  generalize Sink.run cfg sha256 actions = s at h hhole hsep
  have hsub : ∀ e ∈ done ++ s.phase.written, e ∈ s.calls := by
    rw [h.calls]
    intro e he
    rcases List.mem_append.mp he with he | he
    · simp [he]
    · have : s.phase.written ⊆ s.phase.current := by
        cases s.phase <;> simp [Phase.written, Phase.current]
      simp [this he]
  refine ⟨h.rejected, by rw [h.calls, h.resolved, List.length_append, List.length_append],
    fun hwritten => ?_⟩
  have hlen : s.resolved + s.phase.written.length = (done ++ s.phase.written).length := by
    rw [h.resolved, List.length_append]
  have hne : done ++ s.phase.written ≠ [] := by
    rw [← List.length_pos_iff]
    omega
  have hvalid := @verifyAuditChain_log _ _ sha256 _ hne (fun e he => hhole e (hsub e he))
    (fun e he => hsep e (hsub e he))
  rw [h.files, hlen]
  obtain ⟨hplain, hanchored⟩ := hvalid
  refine ⟨hplain, fun hmode => ?_⟩
  simp only [filesOf, hmode, if_true]
  exact hanchored _ due_subset ((logLinks_pairwise done).filter _)

/-- An event with one member. -/
def Event.single (k : JsString) (v : JsValue ν) (hv : v.Distinct) : Event ν where
  fields := [(k, v)]
  distinct := JsValue.distinct_obj.mpr ⟨List.nodup_singleton k, by simpa using hv⟩

/-- A call and the four steps of its transaction, with every record anchored. -/
def recordOnce (e : Event ν) : List (Action ν) :=
  [.call e, .advance, .advance, .advance, .advance]

def anchoringConfig : SinkConfig where
  anchorMode := .file
  everyRecords := 1
  everyRecords_pos := Nat.one_pos

/-- Runs that `verify_run` speaks about exist. -/
theorem verify_run_single :
    let e : Event NumberToken := .single (js "type") (.str (js "ready")) trivial
    let s := Sink.run anchoringConfig hexDigest (recordOnce e ++ [.call e])
    s.rejected = 0 ∧ s.calls.length = s.resolved + s.phase.current.length + s.queue.length ∧
    (s.resolved + s.phase.written.length ≠ 0 →
      (∃ head, verifyAuditChain hexDigest s.files.log none =
        (.valid (s.resolved + s.phase.written.length) head none : Verdict NumberToken)) ∧
      (anchoringConfig.anchorMode = .file → ∃ head anchored,
        verifyAuditChain hexDigest s.files.log (some s.files.anchors) =
          (.valid (s.resolved + s.phase.written.length) head (some anchored) :
            Verdict NumberToken))) := by
  intro e s
  have hcalls : s.calls = [e, e] := rfl
  have hsep : e.NoSeparator := by
    refine allTexts_obj.mpr ?_
    rw [show e.sanitized = [(js "type", .str (js "ready"))] from rfl, List.forall_mem_singleton]
    unfold isSeparator
    exact ⟨by decide, by show ∀ c ∈ js "ready", _; decide⟩
  refine verify_run anchoringConfig hexDigest _ ?_ ?_
  · show ∀ e ∈ s.calls, e.NoHole
    rw [hcalls]
    simp only [List.mem_cons, List.not_mem_nil, or_false, or_self, forall_eq]
    rfl
  · show ∀ e ∈ s.calls, e.NoSeparator
    rw [hcalls]
    simpa using hsep

/-- The record of an event with an undefined member is written without it, but
hashed with it. -/
theorem verify_run_hole :
    ¬ ∀ (cfg : SinkConfig) (sha256 : Digest) (actions : List (Action NumberToken)),
      let s := Sink.run cfg sha256 actions
      s.phase.current = [] → s.resolved ≠ 0 →
      ∃ head, verifyAuditChain sha256 s.files.log none =
        (.valid s.resolved head none : Verdict NumberToken) := by
  intro h
  let e : Event NumberToken := .single (js "reason") .undef trivial
  obtain ⟨head, hvalid⟩ := h anchoringConfig hexDigest (recordOnce e) rfl (by decide +kernel)
  have hinvalid : verifyAuditChain hexDigest
      (Sink.run anchoringConfig hexDigest (recordOnce e)).files.log none =
      (.failed (.invalid 0 (js "event hash mismatch")) : Verdict NumberToken) := by
    decide +kernel
  rw [hinvalid] at hvalid
  cases hvalid

/-- The line of an event with a line separator breaks in two. -/
example :
    let e : Event NumberToken := .single (js "reason") (.str [0x2028]) trivial
    verifyAuditChain hexDigest (Sink.run anchoringConfig hexDigest (recordOnce e)).files.log none =
      (.failed .threw : Verdict NumberToken) := by
  decide +kernel

end Haechi.Audit
