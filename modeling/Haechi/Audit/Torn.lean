import Haechi.Audit.TailRead
import Haechi.Audit.Verify
import Haechi.Runs

/-! The audit sink over bytes, where an append may be cut short and the process may end at any
time. As long as no cut tears a line of the log, the log is one chain, the calls that follow
resolve, and the log verifies; a torn line stops the sink for good. -/

namespace Haechi.Audit

open Text Json

variable {ν : Type} [JsNumber ν]

/-- The sink and its two files. -/
structure TornSink (ν : Type) where
  queue : List (Event ν)
  phase : Phase ν
  log : Option (List ℕ)
  anchors : Option (List ℕ)
  resolved : List (Event ν)
  rejected : List (Event ν)

/-- A call arrives, the transaction under way proceeds, or its append is cut after some bytes
and throws, or the process ends and the files are opened anew. -/
inductive TornAction (ν : Type) where
  | call (event : Event ν)
  | advance
  | cut (bytes : ℕ)
  | reopen

/-- `appendFile`. -/
def appendBytes (file : Option (List ℕ)) (bytes : List ℕ) : Option (List ℕ) :=
  some (file.getD [] ++ bytes)

/-- The integrity that the next record is chained to; the outer `none` is an exception. -/
def previousIntegrity (file : Option (List ℕ)) : Option (Option (Integrity ν)) :=
  (Tail.readLastIntegrity file : Option (Option (JsValue ν))).map (·.bind Integrity.ofValue)

/-- The record gets a line in the anchor file. -/
def anchored (cfg : SinkConfig) (record : List (JsString × JsValue ν)) : Bool :=
  cfg.anchorMode = .file &&
    anchorDue cfg.everyRecords
      (((JsValue.obj record).get (js "auditIntegrity")).get (js "sequence"))

def anchorBytes (record : List (JsString × JsValue ν)) : List ℕ :=
  encodeUtf8 (anchorLine record ++ [10])

namespace TornSink

variable (cfg : SinkConfig) (sha256 : Digest)

/-- The next step of the transaction under way, or the start of the next one. -/
def advance (s : TornSink ν) : TornSink ν :=
  match s.phase with
  | .idle =>
    match s.queue with
    | [] => s
    | e :: queue => { s with queue := queue, phase := .locked e }
  | .locked e =>
    match previousIntegrity s.log with
    | none => { s with phase := .idle, rejected := s.rejected ++ [e] }
    | some previous => { s with phase := .read e previous }
  | .read e previous =>
    let record := buildIntegrityRecord sha256 previous e.sanitized
    { s with phase := .persisted e record, log := appendBytes s.log (lineBytes record) }
  | .persisted e record =>
    { s with
      phase := .idle
      anchors :=
        if anchored cfg record then appendBytes s.anchors (anchorBytes record) else s.anchors
      resolved := s.resolved ++ [e] }

/-- The append under way is cut short, so the call rejects. -/
def cut (k : ℕ) (s : TornSink ν) : TornSink ν :=
  match s.phase with
  | .read e previous =>
    let record := buildIntegrityRecord sha256 previous e.sanitized
    { s with
      phase := .idle
      log := appendBytes s.log ((lineBytes record).take k)
      rejected := s.rejected ++ [e] }
  | .persisted e record =>
    if anchored cfg record then
      { s with
        phase := .idle
        anchors := appendBytes s.anchors ((anchorBytes record).take k)
        rejected := s.rejected ++ [e] }
    else s
  | _ => s

def step (s : TornSink ν) : TornAction ν → TornSink ν
  | .call e => { s with queue := s.queue ++ [e] }
  | .advance => s.advance cfg sha256
  | .cut k => s.cut cfg sha256 k
  | .reopen => { s with queue := [], phase := .idle }

/-- A sink over missing files. -/
def init : TornSink ν := ⟨[], .idle, none, none, [], []⟩

def run (actions : List (TornAction ν)) : TornSink ν := actions.foldl (step cfg sha256) init

/-- The step leaves a part of a line in the log, but not the whole line. -/
def tears (s : TornSink ν) : TornAction ν → Bool
  | .cut k =>
    match s.phase with
    | .read e previous =>
      0 < k && k < (lineBytes (buildIntegrityRecord sha256 previous e.sanitized)).length
    | _ => false
  | _ => false

end TornSink

/-! ### A log of whole lines -/

section Log

variable (sha256 : Digest)

/-- The log of these events. -/
def logBytes (es : List (Event ν)) : List ℕ :=
  (logLinks sha256 es).flatMap fun l => lineBytes (l.record sha256)

theorem logBytes_concat (es : List (Event ν)) (e : Event ν) :
    logBytes sha256 (es ++ [e]) =
      logBytes sha256 es ++
        lineBytes (buildIntegrityRecord sha256 (chainHead sha256 none es) e.sanitized) := by
  have hlinks : logLinks sha256 (es ++ [e]) =
      logLinks sha256 es ++ [⟨chainHead sha256 none es, e⟩] := links_append sha256 none es [e]
  rw [logBytes, hlinks, List.flatMap_append]
  simp [logBytes, Link.record]

theorem decodeLossy_lineBytes (fields : List (JsString × JsValue ν)) (rest : List ℕ) :
    decodeLossy (lineBytes fields ++ rest) = jsonLine (.obj fields) ++ 10 :: decodeLossy rest := by
  rw [lineBytes_eq, List.append_assoc]
  have hfeed := decodeLossy_ascii (encodeUtf8 (jsonLine (.obj fields))) rest (b := 10) (by norm_num)
  rw [decodeLossy_jsonLine] at hfeed
  exact hfeed

/-- The text of a log is its lines. -/
theorem decodeLossy_logBytes (es : List (Event ν)) :
    decodeLossy (logBytes sha256 es) = unlines ((logLinks sha256 es).map (Link.line sha256)) := by
  unfold logBytes
  induction logLinks sha256 es with
  | nil => rfl
  | cons l ls ih =>
    rw [List.flatMap_cons, decodeLossy_lineBytes, ih]
    simp [unlines, Link.line]

theorem previousIntegrity_eq (file : Option (List ℕ)) :
    (previousIntegrity file : Option (Option (Integrity ν))) =
      readLastIntegrity (file.map decodeLossy) :=
  (Tail.readLastIntegrity_decodeLossy file).symm

omit [JsNumber ν] in
theorem getD_map_decodeLossy (file : Option (List ℕ)) :
    (file.map decodeLossy).getD [] = decodeLossy (file.getD []) := by
  cases file <;> rfl

/-- A missing file is read like an empty one. -/
theorem readLastIntegrity_getD (file : Option JsString) :
    (readLastIntegrity file : Option (Option (Integrity ν))) =
      readLastIntegrity (some (file.getD [])) := by
  cases file with
  | none =>
    have hempty : lastLine [] = none := by decide
    simp [readLastIntegrity, hempty]
  | some text => rfl

/-- The last record of a log is found. -/
theorem previousIntegrity_logBytes {file : Option (List ℕ)} {es : List (Event ν)}
    (h : file.getD [] = logBytes sha256 es) :
    previousIntegrity file = some (chainHead sha256 none es) := by
  have hread : readLastIntegrity (fileOf ((logLinks sha256 es).map (Link.line sha256))) =
      some (chainHead sha256 none es) :=
    readLastIntegrity_filesOf ⟨.none, 1, Nat.one_pos⟩ sha256 es []
  have hunlines : (fileOf ((logLinks sha256 es).map (Link.line sha256))).getD [] =
      unlines ((logLinks sha256 es).map (Link.line sha256)) := by
    unfold fileOf
    split_ifs with hnil
    · rw [hnil]
      rfl
    · rfl
  rw [previousIntegrity_eq, readLastIntegrity_getD, getD_map_decodeLossy, h, decodeLossy_logBytes,
    ← hunlines, ← readLastIntegrity_getD, hread]

end Log

/-! ### Runs that tear no line -/

namespace TornSink

variable {cfg : SinkConfig} {sha256 : Digest} {s : TornSink ν} {written : List (Event ν)}

/-- The log holds the records of the events `written`, the last of them that of the event
whose anchor is still to be written, if there is one, and those resolved are among the others. -/
structure Whole (sha256 : Digest) (written : List (Event ν)) (s : TornSink ν) : Prop where
  log : s.log.getD [] = logBytes sha256 written
  resolved : (s.resolved ++ s.phase.written).Sublist written
  previous : ∀ e p, s.phase = .read e p → p = chainHead sha256 none written

theorem whole_init : Whole sha256 [] (init : TornSink ν) := by
  refine ⟨rfl, List.Sublist.refl _, ?_⟩
  rintro e p ⟨⟩

/-- The whole line is appended. -/
theorem Whole.append (h : Whole sha256 written s) {e : Event ν} {previous : Option (Integrity ν)}
    (hphase : s.phase = .read e previous) :
    (appendBytes s.log
      (lineBytes (buildIntegrityRecord sha256 previous e.sanitized))).getD [] =
        logBytes sha256 (written ++ [e]) := by
  rw [logBytes_concat, ← h.previous e previous hphase, ← h.log]
  rfl

/-- What the sink has still to do, in steps. -/
def remaining (s : TornSink ν) : ℕ :=
  4 * s.queue.length +
    match s.phase with
    | .idle => 0
    | .locked _ => 3
    | .read _ _ => 2
    | .persisted _ _ => 1

/-- The calls that have resolved, and those that are to. -/
def expected (s : TornSink ν) : List (Event ν) := s.resolved ++ s.phase.current ++ s.queue

/-- A step of a transaction does its work. -/
structure Proceeds (sha256 : Digest) (written : List (Event ν)) (s t : TornSink ν) : Prop where
  whole : ∃ more, Whole sha256 (written ++ more) t
  rejected : t.rejected = s.rejected
  expected : t.expected = s.expected
  remaining : t.remaining = s.remaining - 1

theorem Whole.advance (h : Whole sha256 written s) :
    Proceeds sha256 written s (s.advance cfg sha256) := by
  obtain ⟨queue, phase, log, anchors, resolved, rejected⟩ := s
  cases phase with
  | idle =>
    cases queue with
    | nil => exact ⟨⟨[], by rwa [List.append_nil]⟩, rfl, rfl, rfl⟩
    | cons e queue =>
      refine ⟨⟨[], ?_⟩, rfl, ?_, ?_⟩
      · rw [List.append_nil]
        exact ⟨h.log, h.resolved, by rintro e p ⟨⟩⟩
      · simp [TornSink.advance, TornSink.expected, Phase.current]
      · simp only [TornSink.advance, TornSink.remaining, List.length_cons]
        omega
  | locked e =>
    have hread : previousIntegrity log = some (chainHead sha256 none written) :=
      previousIntegrity_logBytes sha256 h.log
    simp only [TornSink.advance, hread]
    refine ⟨⟨[], ?_⟩, rfl, rfl, rfl⟩
    rw [List.append_nil]
    refine ⟨h.log, h.resolved, ?_⟩
    rintro e' p ⟨⟩
    rfl
  | read e previous =>
    refine ⟨⟨[e], ?_⟩, rfl, rfl, rfl⟩
    refine ⟨h.append rfl, ?_, by rintro e p ⟨⟩⟩
    have hresolved := h.resolved
    simp only [Phase.written, List.append_nil] at hresolved
    exact hresolved.append (List.Sublist.refl [e])
  | persisted e record =>
    refine ⟨⟨[], ?_⟩, rfl, ?_, rfl⟩
    · rw [List.append_nil]
      refine ⟨h.log, ?_, by rintro e p ⟨⟩⟩
      simpa [TornSink.advance, Phase.written] using h.resolved
    · simp [TornSink.advance, TornSink.expected, Phase.current]

/-- A cut that tears no line leaves the log as it is, or one record longer. -/
theorem Whole.cut (h : Whole sha256 written s) {k : ℕ} (hclean : tears sha256 s (.cut k) = false) :
    ∃ more, Whole sha256 (written ++ more) (s.cut cfg sha256 k) := by
  obtain ⟨queue, phase, log, anchors, resolved, rejected⟩ := s
  cases phase with
  | idle => exact ⟨[], by rwa [List.append_nil]⟩
  | locked e => exact ⟨[], by rwa [List.append_nil]⟩
  | read e previous =>
    have hresolved := h.resolved
    simp only [Phase.written, List.append_nil] at hresolved
    have hcases : k = 0 ∨
        (lineBytes (buildIntegrityRecord sha256 previous e.sanitized)).length ≤ k := by
      simpa [tears, Nat.pos_iff_ne_zero, or_iff_not_imp_left] using hclean
    rcases hcases with rfl | hwhole
    · refine ⟨[], ?_⟩
      rw [List.append_nil]
      refine ⟨?_, by simpa [TornSink.cut, Phase.written] using hresolved, by rintro e p ⟨⟩⟩
      simpa [TornSink.cut, appendBytes] using h.log
    · refine ⟨[e], ?_, ?_, by rintro e p ⟨⟩⟩
      · simp only [TornSink.cut, List.take_of_length_le hwhole]
        exact h.append rfl
      · simp only [TornSink.cut, Phase.written, List.append_nil]
        exact hresolved.trans (List.sublist_append_left written [e])
  | persisted e record =>
    refine ⟨[], ?_⟩
    rw [List.append_nil]
    simp only [TornSink.cut]
    split_ifs
    · refine ⟨h.log, ?_, by rintro e p ⟨⟩⟩
      have hresolved := h.resolved
      simp only [Phase.written, List.append_nil] at hresolved ⊢
      exact (List.sublist_append_left resolved [e]).trans hresolved
    · exact h

theorem Whole.step (h : Whole sha256 written s) {a : TornAction ν}
    (hclean : tears sha256 s a = false) :
    ∃ more, Whole sha256 (written ++ more) (s.step cfg sha256 a) := by
  cases a with
  | call e => exact ⟨[], by rw [List.append_nil]; exact ⟨h.log, h.resolved, h.previous⟩⟩
  | advance => exact h.advance.whole
  | cut k => exact h.cut hclean
  | reopen =>
    refine ⟨[], ?_⟩
    rw [List.append_nil]
    refine ⟨h.log, ?_, by rintro e p ⟨⟩⟩
    have hresolved := h.resolved
    simp only [TornSink.step, Phase.written, List.append_nil]
    exact (List.sublist_append_left _ _).trans hresolved

theorem whole_run {actions : List (TornAction ν)}
    (h : Allowed (step cfg sha256) (fun s a => tears sha256 s a = false) init actions) :
    ∃ written, Whole sha256 written (run cfg sha256 actions) := by
  have hstep : ∀ (s : TornSink ν) a, (∃ written, Whole sha256 written s) →
      tears sha256 s a = false → ∃ written, Whole sha256 written (s.step cfg sha256 a) := by
    rintro s a ⟨written, hwhole⟩ hclean
    have hmore : ∃ more, Whole sha256 (written ++ more) (s.step cfg sha256 a) := hwhole.step hclean
    obtain ⟨more, hmore⟩ := hmore
    exact ⟨written ++ more, hmore⟩
  exact Allowed.invariant hstep ⟨[], whole_init⟩ h

/-- Left alone, the sink resolves every call. -/
theorem Whole.drains (h : Whole sha256 written s) :
    ∃ n, let t := (TornSink.advance cfg sha256)^[n] s
      t.phase = .idle ∧ t.queue = [] ∧ t.rejected = s.rejected ∧ t.resolved = s.expected := by
  induction hn : s.remaining generalizing s written with
  | zero =>
    refine ⟨0, ?_⟩
    obtain ⟨queue, phase, log, anchors, resolved, rejected⟩ := s
    cases phase with
    | idle =>
      have hqueue : queue = [] := by simpa [remaining] using hn
      simp [hqueue, TornSink.expected, Phase.current]
    | locked e => simp [remaining] at hn
    | read e previous => simp [remaining] at hn
    | persisted e record => simp [remaining] at hn
  | succ n ih =>
    have hadvance : Proceeds sha256 written s (s.advance cfg sha256) := h.advance
    obtain ⟨more, hmore⟩ := hadvance.whole
    obtain ⟨m, hphase, hqueue, hrejected, hresolved⟩ :=
      ih hmore (by rw [hadvance.remaining, hn, Nat.add_sub_cancel])
    refine ⟨m + 1, ?_⟩
    rw [Function.iterate_succ_apply]
    exact ⟨hphase, hqueue, hrejected.trans hadvance.rejected, hresolved.trans hadvance.expected⟩

/-- The log verifies, with a record for each event written. -/
theorem verify_logBytes (hhole : ∀ e ∈ written, e.NoHole) (hsep : ∀ e ∈ written, e.NoSeparator) :
    ∃ head, verifyAuditChain sha256 (some (decodeLossy (logBytes sha256 written))) none =
      (.valid written.length head none : Verdict ν) := by
  rw [decodeLossy_logBytes]
  by_cases hne : written = []
  · subst hne
    exact ⟨none, rfl⟩
  · have hlines : (logLinks sha256 written).map (Link.line sha256) ≠ [] := by
      simpa [← List.length_pos_iff] using hne
    have hvalid := (@verifyAuditChain_log _ _ sha256 _ hne hhole hsep).1
    rwa [fileOf, if_neg hlines] at hvalid

/-- A sink that recovers: the calls under way and queued resolve when it is left alone, and the
log is one chain, which holds every record whose call resolved, in order, and verifies. -/
def Recovers (cfg : SinkConfig) (sha256 : Digest) (s : TornSink ν) : Prop :=
  (∃ n, let t := (TornSink.advance cfg sha256)^[n] s
    t.phase = .idle ∧ t.queue = [] ∧ t.rejected = s.rejected ∧
      t.resolved = s.resolved ++ s.phase.current ++ s.queue) ∧
  ∃ written, s.resolved.Sublist written ∧ s.log.getD [] = logBytes sha256 written ∧
    ((∀ e ∈ written, e.NoHole ∧ e.NoSeparator) → ∀ file, s.log = some file →
      ∃ head, verifyAuditChain sha256 (some (decodeLossy file)) none =
        (.valid written.length head none : Verdict ν))

/-- In every run in which no cut append leaves a part of a line in the log, the sink recovers
in every state reached. -/
theorem recovers_run {actions : List (TornAction ν)}
    (h : Allowed (step cfg sha256) (fun s a => tears sha256 s a = false) init actions) :
    Recovers cfg sha256 (run cfg sha256 actions) := by
  obtain ⟨written, hwhole⟩ := whole_run h
  refine ⟨hwhole.drains, written, ?_, hwhole.log, ?_⟩
  · exact (List.sublist_append_left _ _).trans hwhole.resolved
  · intro hevents file hfile
    have hlog := hwhole.log
    rw [hfile, Option.getD_some] at hlog
    rw [hlog]
    exact verify_logBytes (fun e he => (hevents e he).1) fun e he => (hevents e he).2

/-- A run with a cut that leaves nothing and one that leaves the whole line. -/
theorem recovers_run_cut :
    let e : Event NumberToken := .single (js "type") (.str (js "ready")) trivial
    Recovers anchoringConfig hexDigest (run anchoringConfig hexDigest
      [.call e, .advance, .advance, .cut 0, .call e, .advance, .advance, .cut 1000, .reopen,
        .call e, .advance]) :=
  recovers_run (by decide +kernel)

/-- A log whose last line cannot be read stops the sink: no call resolves any more. -/
theorem not_recovers_of_torn {e : Event ν} (hphase : s.phase = .locked e) (hqueue : s.queue = [])
    (hread : (previousIntegrity s.log : Option (Option (Integrity ν))) = none) :
    ¬Recovers cfg sha256 s := by
  rintro ⟨⟨n, hidle, -, hrejected, -⟩, -⟩
  have hfirst : s.advance cfg sha256 = { s with phase := .idle, rejected := s.rejected ++ [e] } := by
    simp only [TornSink.advance, hphase, hread]
  have hfixed : TornSink.advance cfg sha256 { s with phase := .idle, rejected := s.rejected ++ [e] } =
      { s with phase := .idle, rejected := s.rejected ++ [e] } := by
    simp only [TornSink.advance, hqueue]
  cases n with
  | zero =>
    rw [Function.iterate_zero_apply, hphase] at hidle
    cases hidle
  | succ n =>
    rw [Function.iterate_succ_apply, hfirst, Function.iterate_fixed hfixed] at hrejected
    simp at hrejected

/-- The first append is cut after its first byte, and the sink is opened again and called. -/
def tornActions (e : Event ν) : List (TornAction ν) :=
  [.call e, .advance, .advance, .cut 1, .reopen, .call e, .advance]

/-- One torn line, and every later call rejects, and the log does not verify. -/
theorem torn_stops :
    let e : Event NumberToken := .single (js "type") (.str (js "ready")) trivial
    let s := run anchoringConfig hexDigest (tornActions e)
    s.log = some [123] ∧ ¬Recovers anchoringConfig hexDigest s ∧
      verifyAuditChain hexDigest (s.log.map decodeLossy) none =
        (.failed .threw : Verdict NumberToken) := by
  intro e s
  have hlog : s.log = some [123] := by decide +kernel
  have hread : (previousIntegrity (some [123]) : Option (Option (Integrity NumberToken))) = none := by
    have hline : lastLine (decodeLossy [123]) = some [123] := by decide +kernel
    have hparse : (parse [123] : Option (JsValue NumberToken)) = none :=
      Option.isNone_iff_eq_none.mp (by decide +kernel)
    rw [previousIntegrity_eq, Option.map_some, readLastIntegrity, Option.bind_some, hline]
    simp only [hparse]
  refine ⟨hlog, not_recovers_of_torn rfl rfl (hlog ▸ hread), ?_⟩
  rw [hlog]
  decide +kernel

end TornSink

end Haechi.Audit
