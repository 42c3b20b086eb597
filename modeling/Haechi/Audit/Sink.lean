import Haechi.Audit.Links

/-! The audit sink as a state machine. Calls of `record` queue up; each runs one
transaction of four steps (take the lock, read the last line, append the record,
append its anchor), and further calls may arrive between any two of them. The
files are always the lines of one chain, whatever the interleaving. -/

namespace Haechi.Audit

open Text Json

variable {ν : Type}

inductive AnchorMode where
  | none
  | file
  | stdout
deriving DecidableEq

structure SinkConfig where
  anchorMode : AnchorMode
  everyRecords : ℕ
  everyRecords_pos : 0 < everyRecords

/-- What the sink writes to. A file that was never written to is missing. -/
structure Files where
  log : Option JsString
  anchors : Option JsString
  stdout : JsString

/-- `appendFile`. -/
def appendFile (file : Option JsString) (text : JsString) : Option JsString :=
  some (file.getD [] ++ text)

/-- The file with these lines; it is missing when there is none. -/
def fileOf (ls : List JsString) : Option JsString :=
  if ls = [] then none else some (unlines ls)

theorem appendFile_fileOf (ls : List JsString) (l : JsString) :
    appendFile (fileOf ls) (l ++ [10]) = fileOf (ls ++ [l]) := by
  by_cases h : ls = [] <;> simp [appendFile, fileOf, h, unlines]

theorem readLines_fileOf {ls : List JsString} (h : ∀ l ∈ ls, OneLine l) :
    readLines ((fileOf ls).getD []) = ls ++ [[]] := by
  rw [← readLines_unlines h]
  by_cases hls : ls = []
  · subst hls; rfl
  · rw [fileOf, if_neg hls, Option.getD_some]

variable [JsNumber ν]

/-- `readLastIntegrity`; the outer `none` is an exception. -/
def readLastIntegrity (file : Option JsString) : Option (Option (Integrity ν)) :=
  match file.bind lastLine with
  | none => some none
  | some line =>
    match (parse line : Option (JsValue ν)) with
    | none | some .null => none
    | some last => some (Integrity.ofValue (last.get (js "auditIntegrity")))

/-- `sequence % everyRecords === 0`. -/
def anchorDue (everyRecords : ℕ) (sequence : JsValue ν) : Bool :=
  match sequence with
  | .num x => (JsNumber.toNat? x).any fun n => n % everyRecords == 0
  | _ => false

/-- The line that attests a record. -/
def anchorLine (record : List (JsString × JsValue ν)) : JsString :=
  let integrity := (JsValue.obj record).get (js "auditIntegrity")
  jsonLine (.obj
    [(js "sequence", integrity.get (js "sequence")),
      (js "eventHash", integrity.get (js "eventHash")),
      (js "timestamp", (JsValue.obj record).get (js "timestamp"))])

/-- `writeAnchor`. -/
def writeAnchor (cfg : SinkConfig) (record : List (JsString × JsValue ν)) (files : Files) :
    Files :=
  let integrity := (JsValue.obj record).get (js "auditIntegrity")
  if cfg.anchorMode = .none || !anchorDue cfg.everyRecords (integrity.get (js "sequence")) then
    files
  else if cfg.anchorMode = .stdout then
    { files with stdout := files.stdout ++ (anchorLine record ++ [10]) }
  else { files with anchors := appendFile files.anchors (anchorLine record ++ [10]) }

/-- `persist`. -/
def persist (record : List (JsString × JsValue ν)) (files : Files) : Files :=
  { files with log := appendFile files.log (jsonLine (.obj record) ++ [10]) }

/-- Where the transaction under way stands. -/
inductive Phase (ν : Type) where
  | idle
  | locked (event : Event ν)
  | read (event : Event ν) (previous : Option (Integrity ν))
  | persisted (event : Event ν) (record : List (JsString × JsValue ν))

namespace Phase

/-- The event of the transaction under way. -/
def current : Phase ν → List (Event ν)
  | .idle => []
  | .locked e | .read e _ | .persisted e _ => [e]

/-- The event whose record is in the log although its call has not resolved. -/
def written : Phase ν → List (Event ν)
  | .persisted e _ => [e]
  | _ => []

end Phase

structure Sink (ν : Type) where
  calls : List (Event ν)
  queue : List (Event ν)
  phase : Phase ν
  files : Files
  resolved : ℕ
  rejected : ℕ

/-- A new sink over missing files. -/
def Sink.init : Sink ν := ⟨[], [], .idle, ⟨none, none, []⟩, 0, 0⟩

/-- What happens next: a call arrives, or the transaction under way proceeds. -/
inductive Action (ν : Type) where
  | call (event : Event ν)
  | advance

variable (cfg : SinkConfig) (sha256 : Digest)

/-- The next step of the transaction under way, or the start of the next one. -/
def advance (s : Sink ν) : Sink ν :=
  match s.phase with
  | .idle =>
    match s.queue with
    | [] => s
    | e :: queue => { s with queue := queue, phase := .locked e }
  | .locked e =>
    match readLastIntegrity s.files.log with
    | none => { s with phase := .idle, rejected := s.rejected + 1 }
    | some previous => { s with phase := .read e previous }
  | .read e previous =>
    let record := buildIntegrityRecord sha256 previous e.sanitized
    { s with phase := .persisted e record, files := persist record s.files }
  | .persisted _ record =>
    { s with phase := .idle, files := writeAnchor cfg record s.files, resolved := s.resolved + 1 }

def Sink.step (s : Sink ν) : Action ν → Sink ν
  | .call e => { s with calls := s.calls ++ [e], queue := s.queue ++ [e] }
  | .advance => advance cfg sha256 s

def Sink.run (actions : List (Action ν)) : Sink ν :=
  actions.foldl (Sink.step cfg sha256) Sink.init

/-! ### What a record leaves in the files -/

namespace Link

/-- The line that attests the link. -/
def anchor (l : Link ν) : JsString := anchorLine (l.record sha256)

/-- The links that are anchored when every `k`-th is. -/
def due (k : ℕ) (ls : List (Link ν)) : List (Link ν) := ls.filter fun l => l.sequence % k == 0

end Link

theorem anchorDue_sequence (k : ℕ) (l : Link ν) :
    anchorDue k (((JsValue.obj (l.record sha256)).get (js "auditIntegrity")).get
      (js "sequence")) = (l.sequence % k == 0) := by
  rw [Link.get_integrity, Link.get_sequence]
  simp [anchorDue, JsNumber.toNat?_ofNat]

/-- The anchors a log leaves behind, line by line. -/
def anchorLines (ls : List (Link ν)) : List JsString :=
  (Link.due cfg.everyRecords ls).map (Link.anchor sha256)

/-- The files after the links `written` were appended and the links `done` anchored. -/
def filesOf (written done : List (Link ν)) : Files where
  log := fileOf (written.map (Link.line sha256))
  anchors := if cfg.anchorMode = .file then fileOf (anchorLines cfg sha256 done) else none
  stdout := if cfg.anchorMode = .stdout then unlines (anchorLines cfg sha256 done) else []

theorem persist_filesOf (written done : List (Link ν)) (l : Link ν) :
    persist (l.record sha256) (filesOf cfg sha256 written done) =
      filesOf cfg sha256 (written ++ [l]) done := by
  simp only [persist, filesOf, List.map_append, List.map_singleton, ← appendFile_fileOf]
  rfl

theorem writeAnchor_filesOf (written done : List (Link ν)) (l : Link ν) :
    writeAnchor cfg (l.record sha256) (filesOf cfg sha256 written done) =
      filesOf cfg sha256 written (done ++ [l]) := by
  have hlines : anchorLines cfg sha256 (done ++ [l]) =
      anchorLines cfg sha256 done ++
        if l.sequence % cfg.everyRecords == 0 then [l.anchor sha256] else [] := by
    simp only [anchorLines, Link.due, List.filter_append, List.map_append]
    by_cases h : l.sequence % cfg.everyRecords == 0 <;> simp [h]
  rw [writeAnchor, anchorDue_sequence]
  by_cases hdue : (l.sequence % cfg.everyRecords == 0) = true
  · simp only [hdue, if_true] at hlines
    cases hmode : cfg.anchorMode with
    | none => simp [filesOf, hmode]
    | file => simp [filesOf, hmode, hdue, hlines, ← appendFile_fileOf, Link.anchor]
    | stdout => simp [filesOf, hmode, hdue, hlines, unlines_append, Link.anchor]
  · simp only [hdue, Bool.false_eq_true, if_false, List.append_nil] at hlines
    simp [hdue, filesOf, hlines]

variable {sha256} in
/-- The last record of a log gives what the next one is chained to. -/
theorem readLastIntegrity_line {text : JsString} {l : Link ν} (h : l.Chained sha256)
    (hlast : lastLine text = some (l.line sha256)) :
    readLastIntegrity (some text) = some (some (l.integrity sha256)) := by
  have hget : (JsValue.obj (l.record sha256)).prune.get (js "auditIntegrity") =
      .obj (l.members sha256) := by
    rw [JsValue.get_prune l.record_nodup l.field?_integrity (by simp),
      JsValue.prune_of_isJson _ (Link.members_isJson h)]
  rw [readLastIntegrity, Option.bind_some, hlast]
  simp only [Link.parse_line h]
  rw [← Link.ofValue_members, ← hget]
  rfl

theorem readLastIntegrity_filesOf (es : List (Event ν)) (done : List (Link ν)) :
    readLastIntegrity (filesOf cfg sha256 (logLinks sha256 es) done).log =
      some (chainHead sha256 none es) := by
  rcases chainHead_cases sha256 es with ⟨hhead, rfl⟩ | ⟨fs, e, rfl, hhead⟩
  · rw [hhead]
    simp [filesOf, fileOf, links, readLastIntegrity]
  · have hlinks : logLinks sha256 (fs ++ [e]) =
        logLinks sha256 fs ++ [⟨chainHead sha256 none fs, e⟩] := links_append sha256 none fs [e]
    rw [hhead, filesOf, fileOf, if_neg (by rw [hlinks]; simp)]
    refine readLastIntegrity_line (chained_of_mem (show _ ∈ logLinks sha256 (fs ++ [e]) by rw [hlinks]; simp)) ?_
    rw [hlinks, List.map_append]
    refine lastLine_unlines (ν := ν) fun m hm => ?_
    obtain ⟨l, -, rfl⟩ : ∃ l ∈ logLinks sha256 (fs ++ [e]), Link.line sha256 l = m := by
      rwa [hlinks, ← List.mem_map, List.map_append]
    exact ⟨l.record sha256, rfl⟩

/-! ### Runs -/

/-- What every state reached looks like: the files are those of one chain over
the calls whose turn has come, in the order of the calls. -/
structure Sink.Consistent (done : List (Event ν)) (s : Sink ν) : Prop where
  calls : s.calls = done ++ s.phase.current ++ s.queue
  files : s.files = filesOf cfg sha256 (logLinks sha256 (done ++ s.phase.written))
    (logLinks sha256 done)
  resolved : s.resolved = done.length
  rejected : s.rejected = 0
  previous : ∀ e p, s.phase = .read e p → p = chainHead sha256 none done
  record : ∀ e r, s.phase = .persisted e r →
    r = Link.record sha256 ⟨chainHead sha256 none done, e⟩

theorem Sink.consistent_init : (Sink.init : Sink ν).Consistent cfg sha256 [] where
  calls := rfl
  files := by
    simp [Sink.init, filesOf, Phase.written, links, fileOf, anchorLines, Link.due, unlines]
  resolved := rfl
  rejected := rfl
  previous := by rintro e p ⟨⟩
  record := by rintro e r ⟨⟩

/-- A call changes nothing but the queue. -/
theorem Sink.consistent_call {done : List (Event ν)} {s : Sink ν}
    (h : s.Consistent cfg sha256 done) (e : Event ν) :
    (s.step cfg sha256 (.call e)).Consistent cfg sha256 done where
  calls := by simp [Sink.step, h.calls]
  files := h.files
  resolved := h.resolved
  rejected := h.rejected
  previous := h.previous
  record := h.record

/-- A step of a transaction keeps the files those of one chain. -/
theorem Sink.consistent_advance {done : List (Event ν)} {s : Sink ν}
    (h : s.Consistent cfg sha256 done) :
    ∃ done', (s.step cfg sha256 .advance).Consistent cfg sha256 done' := by
  obtain ⟨calls, queue, phase, files, resolved, rejected⟩ := s
  obtain ⟨hcalls, hfiles, hresolved, hrejected, hprevious, hrecord⟩ := h
  simp only at hcalls hfiles hresolved hrejected hprevious hrecord
  cases phase with
  | idle =>
    cases queue with
    | nil => exact ⟨done, hcalls, hfiles, hresolved, hrejected, hprevious, hrecord⟩
    | cons e queue =>
      refine ⟨done, ?_, hfiles, hresolved, hrejected, by rintro e p ⟨⟩, by rintro e r ⟨⟩⟩
      simpa [Sink.step, advance, Phase.current] using hcalls
  | locked e =>
    have hread : readLastIntegrity files.log = some (chainHead sha256 none done) := by
      rw [hfiles, show (Phase.locked e).written = [] from rfl, List.append_nil,
        readLastIntegrity_filesOf]
    refine ⟨done, ?_⟩
    simp only [Sink.step, advance, hread]
    refine ⟨hcalls, hfiles, hresolved, hrejected, ?_, by rintro e r ⟨⟩⟩
    rintro e' p ⟨⟩
    rfl
  | read e p =>
    have hp := hprevious e p rfl
    refine ⟨done, hcalls, ?_, hresolved, hrejected, by rintro e p ⟨⟩, ?_⟩
    · have hlinks : logLinks sha256 (done ++ [e]) =
          logLinks sha256 done ++ [⟨chainHead sha256 none done, e⟩] :=
        links_append sha256 none done [e]
      rw [show (Phase.read e p).written = [] from rfl, List.append_nil] at hfiles
      simp only [Sink.step, advance, hfiles, hp]
      rw [show (Phase.persisted e _).written = [e] from rfl, hlinks]
      exact persist_filesOf cfg sha256 _ _ ⟨chainHead sha256 none done, e⟩
    · rintro e' r ⟨⟩
      rw [hp]
      rfl
  | persisted e r =>
    have hr := hrecord e r rfl
    refine ⟨done ++ [e], by simpa [Sink.step, advance, Phase.current] using hcalls, ?_, ?_, hrejected,
      by rintro e p ⟨⟩, by rintro e r ⟨⟩⟩
    · have hlinks : logLinks sha256 (done ++ [e]) =
          logLinks sha256 done ++ [⟨chainHead sha256 none done, e⟩] :=
        links_append sha256 none done [e]
      rw [show (Phase.persisted e r).written = [e] from rfl] at hfiles
      simp only [Sink.step, advance, hfiles, hr, writeAnchor_filesOf]
      rw [show (Phase.idle (ν := ν)).written = [] from rfl, List.append_nil, ← hlinks]
    · simp [Sink.step, advance, hresolved]

/-- Whatever the interleaving, the files are those of one chain. -/
theorem Sink.consistent_run (actions : List (Action ν)) :
    ∃ done, (Sink.run cfg sha256 actions).Consistent cfg sha256 done := by
  induction actions using List.reverseRecOn with
  | nil => exact ⟨[], Sink.consistent_init cfg sha256⟩
  | append_singleton actions a ih =>
    obtain ⟨done, h⟩ := ih
    have hstep : Sink.run cfg sha256 (actions ++ [a]) =
        (Sink.run cfg sha256 actions).step cfg sha256 a := by
      simp [Sink.run]
    rw [hstep]
    cases a with
    | call e => exact ⟨done, Sink.consistent_call cfg sha256 h e⟩
    | advance => exact Sink.consistent_advance cfg sha256 h

end Haechi.Audit
