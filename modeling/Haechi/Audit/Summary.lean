import Haechi.Audit.ProtectRun
import Haechi.Audit.Sink
import Haechi.Text.Extension

/-! The summary of an audit log: the counts of its records are added up under their names.
The sanitizer takes members out by name at every depth, also out of the counts by type.
Proved: for every list of protected payloads, the counts by type that are recorded are those
in memory and add up to the number of detections, and the summary of the log is the sum of
the summaries in memory, if and only if no detection has a type whose name the sanitizer
takes out or every object inherits, and no line of the log breaks in two. -/

namespace Haechi.Audit

open Text Json Core

variable {ν : Type} [JsNumber ν]

/-! ### Reading the log -/

section Reading

variable (other : JsValue ν → JsValue ν → JsValue ν)

/-- The operator `+`; `other` is what it makes of operands that are neither counts nor texts. -/
def plus : JsValue ν → JsValue ν → JsValue ν
  | .num x, .num y =>
    match JsNumber.toNat? x, JsNumber.toNat? y with
    | some m, some n => .num (JsNumber.ofNat (m + n))
    | _, _ => other (.num x) (.num y)
  | .num x, .str t => .str (JsNumber.toText x ++ t)
  | .str s, .num y => .str (s ++ JsNumber.toText y)
  | .str s, .str t => .str (s ++ t)
  | v, w => other v w

/-- `target[name] ?? 0`; an inherited member counts as the text that `+` makes of it. -/
def readCount (target : Fields ν) (name : JsString) : JsValue ν :=
  match JsValue.property target name with
  | .value v => v.orElse (.num (JsNumber.ofNat 0))
  | .inherited => .str (prototypeText name)

/-- `target[name] = v` for a number or a text. -/
def assignCount (target : Fields ν) (name : JsString) (v : JsValue ν) : Fields ν :=
  if name = js "__proto__" then target else JsValue.setField name v target

def addCount (target : Fields ν) (kv : JsString × JsValue ν) : Fields ν :=
  assignCount target kv.1 (plus other (readCount target kv.1) kv.2)

/-- `Object.entries`, which throws on `undefined` and `null`. -/
def entries : JsValue ν → Option (Fields ν)
  | .undef | .null => none
  | .obj fields => some fields
  | .arr items => some (items.zipIdx.map fun vi => (natText vi.2, vi.1))
  | .str s => some (s.zipIdx.map fun ci => (natText ci.2, .str [ci.1]))
  | .bool _ | .num _ => some []

def mergeCounts (target : Fields ν) (source : JsValue ν) : Option (Fields ν) :=
  (entries (source.orDefault (.obj []))).map fun es => es.foldl (addCount other) target

structure AuditSummary (ν : Type) where
  events : ℕ
  blocked : ℕ
  detections : JsValue ν
  byType : Fields ν
  byAction : Fields ν

def AuditSummary.empty : AuditSummary ν := ⟨0, 0, .num (JsNumber.ofNat 0), [], []⟩

/-- A record is added. The members of `null` cannot be read. -/
def AuditSummary.addRecord (s : AuditSummary ν) (event : JsValue ν) : Option (AuditSummary ν) :=
  match event with
  | .null => none
  | event => do
    let summary := event.get (js "summary")
    let count := (summary.get (js "detectionCount")).orElse (.num (JsNumber.ofNat 0))
    let byType ← mergeCounts other s.byType (summary.get (js "byType"))
    let byAction ← mergeCounts other s.byAction (summary.get (js "byAction"))
    return {
      events := s.events + 1
      blocked := if (event.get (js "blocked")).truthy then s.blocked + 1 else s.blocked
      detections := plus other s.detections count
      byType := byType
      byAction := byAction }

def AuditSummary.addLine (s : AuditSummary ν) (line : JsString) : Option (AuditSummary ν) :=
  (parse line).bind (s.addRecord other)

/-- `readAuditSummary`; a missing file is an empty log, and `none` is an exception. -/
def readAuditSummary (file : Option JsString) : Option (AuditSummary ν) :=
  (nonBlank (readLines (file.getD []))).foldlM (AuditSummary.addLine other) .empty

end Reading

/-! ### The counts of one record -/

/-- The whole number a value is. -/
def wholeNumber : JsValue ν → Option ℕ
  | .num x => JsNumber.toNat? x
  | _ => none

def sumFields : Fields ν → Option ℕ
  | [] => some 0
  | (_, v) :: fields => (wholeNumber v).bind fun n => (sumFields fields).map (n + ·)

/-- The sum of the members of an object, if all are whole numbers. -/
def sumCounts : JsValue ν → Option ℕ
  | .obj fields => sumFields fields
  | _ => none

theorem wholeNumber_value (c : Count) : wholeNumber (c.value : JsValue ν) = c.toNat? := by
  cases c with
  | number n => exact JsNumber.toNat?_ofNat n
  | text s => rfl

theorem sumCounts_countsObject (counts : Counts) :
    sumCounts (countsObject counts : JsValue ν) = total counts := by
  show sumFields (counts.map fun kc => (kc.1, (kc.2.value : JsValue ν))) = total counts
  induction counts with
  | nil => rfl
  | cons kc counts ih => rw [List.map_cons, sumFields, total, wholeNumber_value, ih]

theorem sanitizeAudit_countsObject (counts : Counts) :
    sanitizeAudit (countsObject counts : JsValue ν) =
      countsObject (counts.filter fun kc => kc.1 ∉ forbiddenKeys) := by
  rw [countsObject, countsObject, sanitizeAudit]
  congr 1
  induction counts with
  | nil => rfl
  | cons kc counts ih =>
    have hvalue : sanitizeAudit (kc.2.value : JsValue ν) = kc.2.value := by
      cases kc.2 <;> rfl
    rw [List.map_cons, sanitizeFields, ih, hvalue, List.filter_cons]
    by_cases hk : kc.1 ∈ forbiddenKeys <;> simp [hk]

/-- An object of counts passes the sanitizer unchanged if and only if no key is forbidden. -/
theorem sanitizeAudit_countsObject_eq {counts : Counts} :
    sanitizeAudit (countsObject counts : JsValue ν) = countsObject counts ↔
      ∀ k ∈ counts.map Prod.fst, k ∉ forbiddenKeys := by
  rw [sanitizeAudit_countsObject, List.forall_mem_map]
  constructor
  · intro h kc hkc
    have hlength := congrArg List.length (JsValue.obj.inj h)
    rw [List.length_map, List.length_map] at hlength
    have hall := List.length_filter_eq_length_iff.mp hlength kc hkc
    exact of_decide_eq_true hall
  · intro h
    rw [List.filter_eq_self.mpr fun kc hkc => decide_eq_true (h kc hkc)]

namespace ProtectRun

variable (run : ProtectRun ν)

def types : List JsString := run.detections.map Filter.Detection.type

theorem byType_eq : run.summary.get (js "byType") = countsObject (countNames run.types) := rfl

theorem byAction_eq : run.summary.get (js "byAction") = countsObject (countNames run.actions) := rfl

theorem detectionCount_eq :
    run.summary.get (js "detectionCount") = .num (JsNumber.ofNat run.detections.length) := rfl

/-- The recorded counts by type are those in memory and add up to the number of detections. -/
def Conserves (sha256 : Digest) : Prop :=
  ∀ previous, let persisted := run.persisted sha256 previous
    persisted.get (js "byType") = run.summary.get (js "byType") ∧
      ∃ n, wholeNumber (persisted.get (js "detectionCount")) = some n ∧
        sumCounts (persisted.get (js "byType")) = some n

/-- No type is a key that the sanitizer takes out or a name that every object inherits. -/
def Countable : Prop := ∀ type ∈ run.types, type ∉ forbiddenKeys ∧ type ∉ prototypeMembers

theorem conserves_iff (sha256 : Digest) : run.Conserves sha256 ↔ run.Countable := by
  have hproto : js "__proto__" ∉ forbiddenKeys := by decide
  have hcount : ∀ previous, wholeNumber ((run.persisted sha256 previous).get (js "detectionCount")) =
      some run.types.length := by
    intro previous
    rw [persisted_eq, get_sanitizeAudit (by decide), detectionCount_eq, types, List.length_map]
    exact JsNumber.toNat?_ofNat _
  constructor
  · intro h
    obtain ⟨heq, n, hn, hsum⟩ := h none
    rw [hcount, Option.some.injEq] at hn
    rw [heq, byType_eq, sumCounts_countsObject, ← hn] at hsum
    rw [persisted_eq, get_sanitizeAudit (by decide), byType_eq, sanitizeAudit_countsObject_eq] at heq
    intro type htype
    refine ⟨?_, total_countNames_eq_length.mp hsum type htype⟩
    by_cases hname : type = js "__proto__"
    · rwa [hname]
    · exact heq type (mem_keys_countNames.mpr ⟨htype, hname⟩)
  · intro h previous
    have hkept : sanitizeAudit (countsObject (countNames run.types) : JsValue ν) =
        countsObject (countNames run.types) :=
      sanitizeAudit_countsObject_eq.mpr fun k hk => (h k (mem_keys_countNames.mp hk).1).1
    have hbyType : (run.persisted sha256 previous).get (js "byType") =
        countsObject (countNames run.types) := by
      rw [persisted_eq, get_sanitizeAudit (by decide), byType_eq, hkept]
    refine ⟨hbyType, run.types.length, hcount previous, ?_⟩
    rw [hbyType, sumCounts_countsObject]
    exact total_countNames_eq_length.mpr fun type htype => (h type htype).2

end ProtectRun

/-! ### Adding up -/

/-- The count of an object under a name. -/
def countAt (v : JsValue ν) (name : JsString) : ℕ := (wholeNumber (v.get name)).getD 0

/-- The object holds these counts: a member for every name that is counted. -/
structure Holds (fields : Fields ν) (count : JsString → ℕ) : Prop where
  nodup : (fields.map Prod.fst).Nodup
  member : ∀ name, JsValue.field? name fields =
    if count name = 0 then none else some (.num (JsNumber.ofNat (count name)))

theorem holds_nil : Holds ([] : Fields ν) fun _ => 0 := ⟨List.nodup_nil, fun _ => rfl⟩

section Adding

variable {other : JsValue ν → JsValue ν → JsValue ν} {fields : Fields ν} {count : JsString → ℕ}

theorem plus_ofNat (m n : ℕ) :
    plus other (.num (JsNumber.ofNat m)) (.num (JsNumber.ofNat n)) =
      .num (JsNumber.ofNat (m + n)) := by
  simp only [plus, JsNumber.toNat?_ofNat]

theorem Holds.readCount (h : Holds fields count) {name : JsString} (hname : name ∉ prototypeMembers) :
    readCount fields name = .num (JsNumber.ofNat (count name)) := by
  have hmember := h.member name
  unfold Audit.readCount
  split_ifs at hmember with hzero
  · rw [JsValue.property_of_absent hmember hname, hzero]
    rfl
  · rw [JsValue.property_of_field? hmember]
    rfl

variable (other) in
theorem Holds.addCount (h : Holds fields count) {name : JsString} (hname : name ∉ prototypeMembers)
    {n : ℕ} (hn : 0 < n) :
    Holds (addCount other fields (name, .num (JsNumber.ofNat n)))
      fun k => count k + if k = name then n else 0 := by
  have hproto : name ≠ js "__proto__" := by
    rintro rfl
    exact hname (by decide)
  unfold Audit.addCount
  simp only [assignCount, if_neg hproto, h.readCount hname, plus_ofNat]
  refine ⟨JsValue.nodup_setField _ _ h.nodup, fun k => ?_⟩
  by_cases hk : k = name
  · rw [hk, JsValue.field?_setField_self _ _ h.nodup, if_pos rfl, if_neg (by omega)]
  · rw [JsValue.field?_setField_of_ne hk, h.member, if_neg hk, Nat.add_zero]

/-- The members of an object of counts. -/
def AreCounts (es : Fields ν) : Prop :=
  ∀ kv ∈ es, kv.1 ∉ prototypeMembers ∧ ∃ n, 0 < n ∧ kv.2 = .num (JsNumber.ofNat n)

/-- The members of an object of counts are added. -/
theorem Holds.foldl {es : Fields ν} (hes : AreCounts es) (hnodup : (es.map Prod.fst).Nodup)
    (h : Holds fields count) :
    Holds (es.foldl (Audit.addCount other) fields) fun k => count k + countAt (.obj es) k := by
  induction es generalizing fields count with
  | nil => exact h
  | cons kv es ih =>
    obtain ⟨name, v⟩ := kv
    obtain ⟨⟨hname, n, hn, rfl⟩, hrest⟩ := List.forall_mem_cons.mp hes
    obtain ⟨hfresh, hnodup⟩ := List.nodup_cons.mp hnodup
    have hadd := ih hrest hnodup (h.addCount other hname hn)
    have hcount : (fun k => count k + countAt (.obj ((name, .num (JsNumber.ofNat n)) :: es)) k) =
        fun k => count k + (if k = name then n else 0) + countAt (.obj es) k := by
      funext k
      by_cases hk : k = name
      · have hnone : JsValue.field? name es = none := JsValue.field?_eq_none.mpr hfresh
        subst hk
        simp [countAt, JsValue.get, JsValue.field?, hnone, wholeNumber, JsNumber.toNat?_ofNat]
      · simp [countAt, JsValue.get, JsValue.field?, hk, Ne.symm hk]
    rw [List.foldl_cons, hcount]
    exact hadd

variable (other) in
/-- An object of counts is merged. -/
theorem Holds.mergeCounts (h : Holds fields count) {names : List JsString}
    (hnames : ∀ name ∈ names, name ∉ prototypeMembers) :
    ∃ fields', mergeCounts other fields (countsObject (countNames names)) = some fields' ∧
      Holds fields' fun k => count k + countAt (countsObject (countNames names) : JsValue ν) k := by
  refine ⟨_, rfl, ?_⟩
  have hnodup : (((countNames names).map fun kc => (kc.1, (kc.2.value : JsValue ν))).map
      Prod.fst).Nodup := by
    rw [List.map_map]
    exact nodup_countNames names
  refine h.foldl ?_ hnodup
  rw [AreCounts, List.forall_mem_map]
  intro kc hkc
  have hkey : kc.1 ∈ names := (mem_keys_countNames.mp (List.mem_map_of_mem hkc)).1
  refine ⟨hnames _ hkey, ?_⟩
  have htotal := total_countNames_eq_length.mpr hnames
  cases hc : kc.2 with
  | number n => exact ⟨n, positive_countNames names kc hkc n hc, rfl⟩
  | text s =>
    have hnone : total (countNames names) = none := total_eq_none hkc (by rw [hc]; rfl)
    rw [hnone] at htotal
    cases htotal

end Adding

/-! ### The summary of a log -/

/-- The summary of the log holds the sums of these summaries. -/
structure Sums (s : AuditSummary ν) (summaries : List (JsValue ν)) : Prop where
  detections : s.detections =
    .num (JsNumber.ofNat (summaries.map (countAt · (js "detectionCount"))).sum)
  byType : Holds s.byType fun name => (summaries.map fun v => countAt (v.get (js "byType")) name).sum
  byAction : Holds s.byAction fun name =>
    (summaries.map fun v => countAt (v.get (js "byAction")) name).sum

section Log

variable {sha256 : Digest} {other : JsValue ν → JsValue ν → JsValue ν} {run : ProtectRun ν}

theorem sanitizeAudit_countNames {names : List JsString} (h : ∀ name ∈ names, name ∉ forbiddenKeys) :
    sanitizeAudit (countsObject (countNames names) : JsValue ν) = countsObject (countNames names) :=
  sanitizeAudit_countsObject_eq.mpr fun k hk => h k (mem_keys_countNames.mp hk).1

theorem mem_actions (run : ProtectRun ν) {action : JsString} (h : action ∈ run.actions) :
    action ∉ forbiddenKeys ∧ action ∉ prototypeMembers := by
  have htext : ∀ a : Core.Action, actionText a ∉ forbiddenKeys ∧ actionText a ∉ prototypeMembers := by
    intro a
    cases a <;> decide
  obtain ⟨item, -, rfl⟩ := List.mem_map.mp h
  exact htext item.2

variable (other) in
/-- The record of a run is added to a summary. -/
theorem Sums.addLine {s : AuditSummary ν} {summaries : List (JsValue ν)} (h : Sums s summaries)
    (hrun : run.Countable) {previous : Option (Integrity ν)}
    (hl : Link.Chained sha256 ⟨previous, run.event⟩) :
    ∃ s', s.addLine other (Link.line sha256 ⟨previous, run.event⟩) = some s' ∧
      Sums s' (summaries ++ [run.summary]) := by
  have hget : ∀ k, k ∉ forbiddenKeys →
      ((JsValue.obj (Link.record sha256 ⟨previous, run.event⟩)).prune.get (js "summary")).get k =
        sanitizeAudit (run.summary.get k) := by
    intro k hk
    rw [ProtectRun.get_summary_parsed, get_sanitizeAudit hk]
  obtain ⟨byType, htypeMerge, htype⟩ := h.byType.mergeCounts other
    fun type htype => (hrun type htype).2
  obtain ⟨byAction, hactionMerge, haction⟩ := h.byAction.mergeCounts other
    fun action haction => (mem_actions run haction).2
  have hadd : ∃ blocked, s.addRecord other
      (JsValue.obj (Link.record sha256 ⟨previous, run.event⟩)).prune =
        some ⟨s.events + 1, blocked,
          plus other s.detections (.num (JsNumber.ofNat run.detections.length)), byType, byAction⟩ := by
    refine ⟨if ((JsValue.obj (Link.record sha256 ⟨previous, run.event⟩)).prune.get
      (js "blocked")).truthy then s.blocked + 1 else s.blocked, ?_⟩
    rw [JsValue.prune] at hget ⊢
    simp only [AuditSummary.addRecord, hget _ (show js "byType" ∉ forbiddenKeys by decide),
      hget _ (show js "byAction" ∉ forbiddenKeys by decide),
      hget _ (show js "detectionCount" ∉ forbiddenKeys by decide), run.byType_eq, run.byAction_eq,
      run.detectionCount_eq, sanitizeAudit_countNames fun type htype => (hrun type htype).1,
      sanitizeAudit_countNames fun action haction => (mem_actions run haction).1,
      htypeMerge, hactionMerge, Option.bind_eq_bind, Option.bind_some, Option.pure_def]
    rfl
  obtain ⟨blocked, hadd⟩ := hadd
  refine ⟨_, by rw [AuditSummary.addLine, Link.parse_line hl, Option.bind_some, hadd], ?_, ?_, ?_⟩
  · have hcount : countAt run.summary (js "detectionCount") = run.detections.length := by
      rw [countAt, run.detectionCount_eq, wholeNumber, JsNumber.toNat?_ofNat]
      rfl
    rw [h.detections, plus_ofNat, List.map_append, List.sum_append, List.map_singleton,
      List.sum_singleton, hcount]
  · simpa [List.sum_append, run.byType_eq] using htype
  · simpa [List.sum_append, run.byAction_eq] using haction

/-- The records of runs are added to a summary. -/
theorem Sums.foldlM {runs : List (ProtectRun ν)} (hruns : ∀ run ∈ runs, run.Countable)
    {previous : Option (Integrity ν)}
    (hl : ∀ l ∈ links sha256 previous (runs.map ProtectRun.event), l.Chained sha256)
    {s : AuditSummary ν} {summaries : List (JsValue ν)} (h : Sums s summaries) :
    ∃ s', ((links sha256 previous (runs.map ProtectRun.event)).map (Link.line sha256)).foldlM
        (AuditSummary.addLine other) s = some s' ∧
      Sums s' (summaries ++ runs.map ProtectRun.summary) := by
  induction runs generalizing previous s summaries with
  | nil => exact ⟨s, rfl, by rwa [List.map_nil, List.append_nil]⟩
  | cons run runs ih =>
    obtain ⟨hrun, hruns⟩ := List.forall_mem_cons.mp hruns
    obtain ⟨hfirst, hrest⟩ := List.forall_mem_cons.mp hl
    obtain ⟨s₁, hs₁, h₁⟩ := h.addLine other hrun hfirst
    obtain ⟨s₂, hs₂, h₂⟩ := ih hruns hrest h₁
    refine ⟨s₂, ?_, by rwa [List.append_assoc] at h₂⟩
    rw [List.map_cons, links, List.map_cons, List.foldlM_cons, hs₁]
    exact hs₂

theorem sums_empty : Sums (.empty : AuditSummary ν) [] := ⟨rfl, holds_nil, holds_nil⟩

theorem foldlM_eq_none {α β : Type} {f : β → α → Option β} {a : α} (ha : ∀ b, f b a = none)
    {l : List α} (hl : a ∈ l) (b : β) : l.foldlM f b = none := by
  induction l generalizing b with
  | nil => cases hl
  | cons a' l ih =>
    rw [List.foldlM_cons]
    rcases List.mem_cons.mp hl with rfl | hl
    · rw [ha]
      rfl
    · cases f b a' with
      | none => rfl
      | some b' => exact ih hl b'

/-- A log with a line that breaks in two is not read. -/
theorem readAuditSummary_eq_none {es : List (Event ν)} {l : Link ν} (hl : l ∈ logLinks sha256 es)
    (hbroken : ¬OneLine (l.line sha256)) :
    readAuditSummary other (fileOf ((logLinks sha256 es).map (Link.line sha256))) = none := by
  have hfile : (fileOf ((logLinks sha256 es).map (Link.line sha256))).getD [] =
      unlines ((logLinks sha256 es).map (Link.line sha256)) := by
    unfold fileOf
    split_ifs with hnil
    · rw [hnil]
      rfl
    · rfl
  obtain ⟨s, c, t, hline, hc, hmem⟩ := exists_piece (List.mem_map_of_mem hl) hbroken
  have hparse : (parse s : Option (JsValue ν)) = none :=
    parse_piece hline (Link.parse_line (chained_of_mem hl)) hc
  have hbrace : ∃ s', s = 123 :: s' := by
    obtain ⟨rest, hrest⟩ := jsonLine_obj (l.record sha256)
    rw [Link.line, hrest] at hline
    cases s with
    | nil =>
      rw [List.nil_append, List.cons.injEq] at hline
      rw [← hline.1] at hc
      exact absurd hc (by decide)
    | cons d s' =>
      rw [List.cons_append, List.cons.injEq] at hline
      exact ⟨s', by rw [hline.1]⟩
  obtain ⟨s', rfl⟩ := hbrace
  rw [readAuditSummary, hfile]
  refine foldlM_eq_none (fun b => ?_) (List.mem_filter.mpr ⟨hmem, ?_⟩) _
  · rw [AuditSummary.addLine, hparse, Option.bind_none]
  · simpa using trim_ne_nil s' (by decide)

/-- The counts of these runs are conserved: each record's counts by type, and the summary of
the log of all. -/
def CountsConserved (other : JsValue ν → JsValue ν → JsValue ν) (sha256 : Digest)
    (runs : List (ProtectRun ν)) : Prop :=
  (∀ run ∈ runs, run.Conserves sha256) ∧
    ∃ s, readAuditSummary other (fileOf ((logLinks sha256 (runs.map ProtectRun.event)).map
        (Link.line sha256))) = some s ∧
      Sums s (runs.map ProtectRun.summary)

/-- Counts are conserved if and only if no type of a detection is a key that the sanitizer
takes out or a name that every object inherits, and no line of the log breaks in two. -/
theorem countsConserved_iff (other : JsValue ν → JsValue ν → JsValue ν) (sha256 : Digest)
    (runs : List (ProtectRun ν)) :
    CountsConserved other sha256 runs ↔
      (∀ run ∈ runs, run.Countable) ∧
        ∀ l ∈ logLinks sha256 (runs.map ProtectRun.event), OneLine (l.line sha256) := by
  constructor
  · rintro ⟨hconserves, s, hread, -⟩
    refine ⟨fun run hrun => (run.conserves_iff sha256).mp (hconserves run hrun), fun l hl => ?_⟩
    by_contra hbroken
    rw [readAuditSummary_eq_none hl hbroken] at hread
    cases hread
  · rintro ⟨hruns, hlines⟩
    refine ⟨fun run hrun => (run.conserves_iff sha256).mpr (hruns run hrun), ?_⟩
    rw [readAuditSummary, readLines_fileOf (List.forall_mem_map.mpr hlines),
      nonBlank_jsonLines (ν := ν) (List.forall_mem_map.mpr fun l _ => ⟨l.record sha256, rfl⟩)]
    exact sums_empty.foldlM hruns fun l hl => chained_of_mem hl

end Log

/-! ### The type `secret` -/

/-- Requests in which anything detected blocks. -/
def blockingRequests : Setup where
  engine := ⟨.plain, false, Filter.defaultRules⟩
  context := ⟨some .request, false⟩
  decide _ := .block
  replacer := ⟨id, none, fun _ _ => []⟩
  enforced := true
  maxNestingDepth := 256
  minConfidence := 0
  allowlist := []
  maxMatchBytes := 256

/-- The payload `"token=abcdefghijkl"` is protected. -/
def secretRun : ProtectRun NumberToken where
  setup := blockingRequests
  number _ := JsNumber.ofNat 0
  context := ⟨js "generic", js "protect", none, .undef⟩
  identity_distinct := by simp
  profile_distinct := trivial
  mode := js "enforce"
  stamp := ⟨js "1", js "1", js "2026-01-01T00:00:00.000Z"⟩
  payload := .str (js "token=abcdefghijkl")
  result := ((protectJson blockingRequests (.str (js "token=abcdefghijkl"))).get
    (by decide +kernel))
  ran := (Option.some_get _).symm

/-- The one detection is a secret, and the record has no count of it. -/
theorem secret_uncounted :
    secretRun.types = [js "secret"] ∧
      secretRun.summary.get (js "byType") = .obj [(js "secret", .num (JsNumber.ofNat 1))] ∧
      (secretRun.persisted hexDigest none).get (js "byType") = .obj [] ∧
      (secretRun.persisted hexDigest none).get (js "detectionCount") = .num (JsNumber.ofNat 1) ∧
      ¬CountsConserved (fun v _ => v) hexDigest [secretRun] := by
  have htypes : secretRun.types = [js "secret"] := by decide +kernel
  have hlength : secretRun.detections.length = 1 := by
    rw [← List.length_map (f := Filter.Detection.type)]
    exact congrArg List.length htypes
  have hmemory : secretRun.summary.get (js "byType") =
      .obj [(js "secret", .num (JsNumber.ofNat 1))] := by
    rw [ProtectRun.byType_eq, htypes]
    rfl
  refine ⟨htypes, hmemory, ?_, ?_, ?_⟩
  · rw [ProtectRun.persisted_eq, get_sanitizeAudit (by decide), hmemory]
    rfl
  · rw [ProtectRun.persisted_eq, get_sanitizeAudit (by decide), ProtectRun.detectionCount_eq, hlength]
    rfl
  · rintro ⟨hconserves, -⟩
    have hcountable := (secretRun.conserves_iff hexDigest).mp (hconserves secretRun (by simp))
    exact (hcountable (js "secret") (by simp [htypes])).1 (by decide)

end Haechi.Audit
