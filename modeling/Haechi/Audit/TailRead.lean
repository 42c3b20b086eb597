import Haechi.Audit.Sink
import Haechi.Text.Resync

/-! The tail of an audit file, read in windows of bytes that double until the last line in the
window is known to be complete. A window may begin anywhere, also inside a character. What is
found is the last line of the whole file. -/

namespace Haechi.Audit

open Text Json

/-! ### Lines of a buffer -/

/-- The lines of a buffer that are not blank. -/
def bufferLines (buffer : List ℕ) : List JsString := nonBlank (splitCrLf (decodeLossy buffer))

/-- What comes after a line feed is split by itself. -/
theorem splitCrLf_feed (xs ys : JsString) :
    ∃ ls, ls ≠ [] ∧ splitCrLf (xs ++ 10 :: ys) = ls ++ splitCrLf ys ∧
      (10 ∉ xs → ls.length = 1) := by
  induction xs with
  | nil => exact ⟨[[]], by simp, by simp [splitCrLf], fun _ => rfl⟩
  | cons c xs ih =>
    obtain ⟨ls, hne, hsplit, hlen⟩ := ih
    rw [List.cons_append, splitCrLf, hsplit]
    split_ifs with hfeed hreturn
    · exact ⟨[] :: ls, by simp, rfl, fun h => absurd (hfeed ▸ List.mem_cons_self) h⟩
    · exact ⟨ls, hne, rfl, fun h => hlen (mt (List.mem_cons_of_mem c) h)⟩
    · cases ls with
      | nil => exact absurd rfl hne
      | cons l ls =>
        exact ⟨(c :: l) :: ls, by simp, rfl, fun h => hlen (mt (List.mem_cons_of_mem c) h)⟩

theorem splitCrLf_one {s : JsString} (h : 10 ∉ s) : (splitCrLf s).length = 1 := by
  induction s with
  | nil => rfl
  | cons c s ih =>
    obtain ⟨hc, hs⟩ := not_or.mp (mt List.mem_cons.mpr h)
    rw [splitCrLf, if_neg fun hfeed => hc hfeed.symm]
    split_ifs
    · exact ih hs
    · simpa using ih hs

/-- Bytes without a line feed are one line at most. -/
theorem length_bufferLines {buffer : List ℕ} (h : 10 ∉ buffer) : (bufferLines buffer).length ≤ 1 :=
  (List.length_filter_le _ _).trans (splitCrLf_one (feed_decodeLossy h)).le

theorem nonBlank_append (ls ms : List JsString) : nonBlank (ls ++ ms) = nonBlank ls ++ nonBlank ms :=
  List.filter_append ..

/-- The lines after a line feed are the same whatever comes before it. -/
theorem bufferLines_feed (xs ys : List ℕ) :
    ∃ ls, bufferLines (xs ++ 10 :: ys) = ls ++ bufferLines ys ∧ (10 ∉ xs → ls.length ≤ 1) := by
  obtain ⟨ls, -, hsplit, hlen⟩ := splitCrLf_feed (decodeLossy xs) (decodeLossy ys)
  refine ⟨nonBlank ls, ?_, fun h => ?_⟩
  · have hdecode : decodeLossy (xs ++ 10 :: ys) = decodeLossy xs ++ 10 :: decodeLossy ys :=
      decodeLossy_ascii xs ys (by norm_num)
    rw [bufferLines, hdecode, hsplit, nonBlank_append, bufferLines]
  · exact (List.length_filter_le _ ls).trans (hlen (feed_decodeLossy h)).le

/-- A window with two lines in it holds the last line of the file whole. -/
theorem getLast?_bufferLines {file : List ℕ} {start : ℕ}
    (h : 1 < (bufferLines (file.drop start)).length) :
    (bufferLines (file.drop start)).getLast? = (bufferLines file).getLast? := by
  by_cases hfeed : 10 ∈ file.drop start
  · obtain ⟨fragment, rest, hwindow, hfirst⟩ := List.eq_append_cons_of_mem hfeed
    have hfile : file = (file.take start ++ fragment) ++ 10 :: rest := by
      rw [List.append_assoc, ← hwindow, List.take_append_drop]
    obtain ⟨ls, hls, hlen⟩ := bufferLines_feed fragment rest
    obtain ⟨ms, hms, -⟩ := bufferLines_feed (file.take start ++ fragment) rest
    rw [← hfile] at hms
    rw [hwindow, hls, List.length_append] at h
    have hshort := hlen hfirst
    have hne : bufferLines rest ≠ [] := by
      intro hnil
      rw [hnil, List.length_nil] at h
      omega
    rw [hwindow, hls, hms, List.getLast?_append_of_ne_nil _ hne, List.getLast?_append_of_ne_nil _ hne]
  · have hone := length_bufferLines hfeed
    omega

/-! ### The loop -/

namespace Tail

/-- The loop of `readLastIntegrity`, from some window size on. -/
def lastLine (file : List ℕ) (chunkSize : ℕ) (h : 0 < chunkSize) : Option JsString :=
  let start := file.length - chunkSize
  let lines := bufferLines (file.drop start)
  if 0 < lines.length ∧ (start = 0 ∨ 1 < lines.length) then lines.getLast?
  else if start = 0 then none
  else lastLine file (chunkSize * 2) (by omega)
termination_by file.length - chunkSize

/-- Whatever the first window, the loop ends with the last line of the whole file. -/
theorem lastLine_eq (file : List ℕ) (chunkSize : ℕ) (h : 0 < chunkSize) :
    lastLine file chunkSize h = (bufferLines file).getLast? := by
  fun_induction lastLine file chunkSize h with
  | case1 chunkSize h start lines hfound =>
    rcases hfound.2 with hwhole | htwo
    · simp only [lines, hwhole, List.drop_zero]
    · exact getLast?_bufferLines htwo
  | case2 chunkSize h start lines hfound hwhole =>
    simp only [lines, hwhole, List.drop_zero, true_or, and_true, not_lt, nonpos_iff_eq_zero,
      List.length_eq_zero_iff] at hfound
    rw [hfound, List.getLast?_nil]
  | case3 chunkSize h start lines hfound hwhole ih => exact ih

variable {ν : Type} [JsNumber ν]

/-- `last.auditIntegrity ?? null`. -/
def integrityOf (last : JsValue ν) : Option (JsValue ν) :=
  match last.get (js "auditIntegrity") with
  | .undef | .null => none
  | integrity => some integrity

/-- What is made of the last line; the outer `none` is an exception. -/
def readLine (line : Option JsString) : Option (Option (JsValue ν)) :=
  match line with
  | none => some none
  | some line =>
    match (parse line : Option (JsValue ν)) with
    | none | some .null => none
    | some last => some (integrityOf last)

/-- `readLastIntegrity`. A missing file is `none`. -/
def readLastIntegrity (file : Option (List ℕ)) : Option (Option (JsValue ν)) :=
  match file with
  | none => some none
  | some file => if file.length = 0 then some none else readLine (lastLine file 65536 (by norm_num))

/-- The same of a file that is read whole. -/
def readWhole (file : Option (List ℕ)) : Option (Option (JsValue ν)) :=
  readLine (file.bind fun file => (bufferLines file).getLast?)

theorem readLastIntegrity_eq (file : Option (List ℕ)) :
    (readLastIntegrity file : Option (Option (JsValue ν))) = readWhole file := by
  cases file with
  | none => rfl
  | some file =>
    rw [readLastIntegrity]
    split_ifs with hempty
    · rw [List.length_eq_zero_iff.mp hempty]
      rfl
    · rw [lastLine_eq]
      rfl

theorem integrityOf_bind (last : JsValue ν) :
    (integrityOf last).bind Integrity.ofValue =
      Integrity.ofValue (last.get (js "auditIntegrity")) := by
  unfold integrityOf
  cases last.get (js "auditIntegrity") <;> rfl

/-- The sink reads the text of the file the same way. -/
theorem readLastIntegrity_decodeLossy (file : Option (List ℕ)) :
    Audit.readLastIntegrity (file.map decodeLossy) =
      (readLastIntegrity file : Option (Option (JsValue ν))).map (·.bind Integrity.ofValue) := by
  rw [readLastIntegrity_eq]
  cases file with
  | none => rfl
  | some file =>
    rw [Audit.readLastIntegrity, readWhole, Option.map_some, Option.bind_some, Option.bind_some,
      Text.lastLine_eq, bufferLines]
    cases (nonBlank (splitCrLf (decodeLossy file))).getLast? with
    | none => rfl
    | some line =>
      simp only [readLine]
      cases (parse line : Option (JsValue ν)) with
      | none => rfl
      | some last =>
        have hlast := integrityOf_bind last
        cases last with
        | null => rfl
        | _ => exact congrArg some hlast.symm

end Tail

/-! ### Files of records -/

variable {ν : Type} [JsNumber ν]

/-- A record in a file: its bytes hold a JSON object on one line, ended by `\n` or `\r\n`. -/
structure FileRecord (ν : Type) [JsNumber ν] where
  bytes : List ℕ
  fields : List (JsString × JsValue ν)
  crlf : Bool
  noFeed : 10 ∉ bytes
  parsed : parse (decodeLossy bytes) = some (.obj fields)
  noReturn : crlf = false → (decodeLossy bytes).getLast? ≠ some 13

namespace FileRecord

def terminated (r : FileRecord ν) : List ℕ := r.bytes ++ if r.crlf then [13, 10] else [10]

def line (r : FileRecord ν) : JsString := decodeLossy r.bytes

end FileRecord

/-- The bytes that are appended for an object. -/
def lineBytes (fields : List (JsString × JsValue ν)) : List ℕ :=
  encodeUtf8 (jsonLine (.obj fields) ++ [10])

theorem decodeLossy_jsonLine (v : JsValue ν) : decodeLossy (encodeUtf8 (jsonLine v)) = jsonLine v := by
  rw [decodeLossy_encodeUtf8, jsonLine, stringify, (paired_render v.prune).toWellFormed_eq]

theorem lineBytes_eq (fields : List (JsString × JsValue ν)) :
    lineBytes fields = encodeUtf8 (jsonLine (.obj fields)) ++ [10] := by
  rw [lineBytes, encodeUtf8, codePoints_append (by decide), List.flatMap_append]
  rfl

/-- What is appended for an object is a record. -/
def FileRecord.ofObject (fields : List (JsString × JsValue ν)) (h : (JsValue.obj fields).Distinct) :
    FileRecord ν where
  bytes := encodeUtf8 (jsonLine (.obj fields))
  fields := JsValue.pruneFields fields
  crlf := false
  noFeed hfeed := by
    obtain ⟨xs, ys, hbytes, -⟩ := List.eq_append_cons_of_mem hfeed
    have hmem : 10 ∈ decodeLossy (encodeUtf8 (jsonLine (.obj fields))) := by
      rw [hbytes, decodeLossy_ascii xs ys (by norm_num)]
      exact List.mem_append_right _ List.mem_cons_self
    rw [decodeLossy_jsonLine] at hmem
    exact (jsonLine_not_break _ 10 hmem).1 rfl
  parsed := by
    rw [decodeLossy_jsonLine]
    have hsome := stringify_isSome (v := JsValue.obj fields) (by simp)
    have hline : stringify (.obj fields) = some (jsonLine (.obj fields)) := by
      rw [jsonLine, Option.eq_some_of_isSome hsome, Option.getD_some]
    exact parse_stringify hline h
  noReturn _ hlast := by
    rw [decodeLossy_jsonLine] at hlast
    exact (jsonLine_not_break _ 13 (List.mem_of_getLast? hlast)).2 rfl

theorem FileRecord.terminated_ofObject (fields : List (JsString × JsValue ν))
    (h : (JsValue.obj fields).Distinct) : (FileRecord.ofObject fields h).terminated = lineBytes fields := by
  rw [lineBytes_eq]
  rfl

/-- The records, one after the other. -/
def recordFile (rs : List (FileRecord ν)) : List ℕ := rs.flatMap FileRecord.terminated

theorem parseValue_obj {fuel : ℕ} {s r : JsString} {fields : List (JsString × JsValue ν)}
    (h : parseValue (fuel + 1) s = some (.obj fields, r)) : ∃ t, skipSpace s = 123 :: t := by
  rw [parseValue] at h
  cases hs : skipSpace s with
  | nil =>
    rw [hs] at h
    cases h
  | cons c t =>
    rw [hs] at h
    simp only at h
    split_ifs at h with hquote hbracket hbrace hnumber
    · obtain ⟨p, -, hp⟩ := Option.map_eq_some_iff.mp h
      cases hp
    · split at h
      · cases h
      · split_ifs at h
        · cases h
        · obtain ⟨p, -, hp⟩ := Option.map_eq_some_iff.mp h
          cases hp
    · exact ⟨t, by rw [hbrace]⟩
    · rw [readNumber] at h
      split_ifs at h
      cases h
    · rw [readLiteral] at h
      split at h <;> cases h

/-- What is read as an object has an opening brace. -/
theorem mem_brace_of_parse {s : JsString} {fields : List (JsString × JsValue ν)}
    (h : parse s = some (.obj fields)) : 123 ∈ s := by
  have hvalue : ∃ r, parseValue (s.length + 1) s = some (JsValue.obj fields, r) := by
    rw [parse] at h
    split at h
    · next v r hv =>
      split_ifs at h
      cases h
      exact ⟨r, hv⟩
    · cases h
  obtain ⟨r, hr⟩ := hvalue
  obtain ⟨t, ht⟩ := parseValue_obj hr
  have hsuffix : skipSpace s <:+ s := List.dropWhile_suffix isJsonSpace
  exact hsuffix.subset (ht ▸ List.mem_cons_self)

theorem splitCrLf_return {l : JsString} (h : 10 ∉ l) (rest : JsString) :
    splitCrLf (l ++ 13 :: 10 :: rest) = l :: splitCrLf rest := by
  induction l with
  | nil => simp [splitCrLf]
  | cons c l ih =>
    obtain ⟨hc, hl⟩ := not_or.mp (mt List.mem_cons.mpr h)
    have hnext : ¬(c = 13 ∧ (l ++ 13 :: 10 :: rest).head? = some 10) := by
      rintro ⟨-, hhead⟩
      cases l with
      | nil => simp at hhead
      | cons d l =>
        obtain rfl : d = 10 := by simpa using hhead
        exact hl List.mem_cons_self
    rw [List.cons_append, splitCrLf, if_neg fun hfeed => hc hfeed.symm, if_neg hnext, ih hl]
    rfl

theorem splitCrLf_newline {l : JsString} (h : 10 ∉ l) (hlast : l.getLast? ≠ some 13)
    (rest : JsString) : splitCrLf (l ++ 10 :: rest) = l :: splitCrLf rest := by
  induction l with
  | nil => simp [splitCrLf]
  | cons c l ih =>
    obtain ⟨hc, hl⟩ := not_or.mp (mt List.mem_cons.mpr h)
    have hnext : ¬(c = 13 ∧ (l ++ 10 :: rest).head? = some 10) := by
      rintro ⟨rfl, hhead⟩
      cases l with
      | nil => exact hlast rfl
      | cons d l =>
        obtain rfl : d = 10 := by simpa using hhead
        exact hl List.mem_cons_self
    have hlast' : l.getLast? ≠ some 13 := by
      cases l with
      | nil => simp
      | cons d l => simpa using hlast
    rw [List.cons_append, splitCrLf, if_neg fun hfeed => hc hfeed.symm, if_neg hnext, ih hl hlast']
    rfl

theorem splitCrLf_terminated (r : FileRecord ν) (rest : List ℕ) :
    splitCrLf (decodeLossy (r.terminated ++ rest)) = r.line :: splitCrLf (decodeLossy rest) := by
  have hfeed := feed_decodeLossy r.noFeed
  rw [FileRecord.terminated]
  split_ifs with hcrlf
  · have hdecode : decodeLossy (r.bytes ++ [13, 10] ++ rest) =
        decodeLossy r.bytes ++ 13 :: 10 :: decodeLossy rest := by
      have hreturn := decodeLossy_ascii r.bytes (10 :: rest) (b := 13) (by norm_num)
      have hnewline := decodeLossy_ascii [] rest (b := 10) (by norm_num)
      rw [List.append_assoc]
      exact hreturn.trans (congrArg (decodeLossy r.bytes ++ 13 :: ·) hnewline)
    rw [hdecode, splitCrLf_return hfeed]
    rfl
  · have hdecode : decodeLossy (r.bytes ++ [10] ++ rest) =
        decodeLossy r.bytes ++ 10 :: decodeLossy rest := by
      rw [List.append_assoc]
      exact decodeLossy_ascii r.bytes rest (by norm_num)
    rw [hdecode, splitCrLf_newline hfeed (r.noReturn (by simpa using hcrlf))]
    rfl

theorem trim_ne_nil_of_mem {s : JsString} {c : UInt16} (hc : c ∈ s) (hspace : isSpace c = false) :
    trim s ≠ [] := by
  rw [trim, ne_eq, List.rdropWhile_eq_nil_iff]
  intro hall
  rw [← List.takeWhile_append_dropWhile (p := isSpace) (l := s)] at hc
  rcases List.mem_append.mp hc with hc | hc
  · rw [List.mem_takeWhile_imp hc] at hspace
    cases hspace
  · rw [hall c hc] at hspace
    cases hspace

theorem nonBlank_line (r : FileRecord ν) : nonBlank [r.line] = [r.line] := by
  have hbrace := mem_brace_of_parse r.parsed
  have hne : trim r.line ≠ [] := trim_ne_nil_of_mem hbrace (by decide)
  simp [nonBlank, hne]

/-- The lines of a file of records. -/
theorem bufferLines_recordFile (rs : List (FileRecord ν)) :
    bufferLines (recordFile rs) = rs.map FileRecord.line := by
  induction rs with
  | nil => rfl
  | cons r rs ih =>
    have hcons : recordFile (r :: rs) = r.terminated ++ recordFile rs := List.flatMap_cons
    rw [hcons, bufferLines, splitCrLf_terminated, ← List.singleton_append, nonBlank_append,
      nonBlank_line]
    exact congrArg (r.line :: ·) ih

/-- Reading the tail of a file of records is reading the whole file: it gives the integrity of
the last record. -/
theorem readLastIntegrity_recordFile (rs : List (FileRecord ν)) :
    Tail.readLastIntegrity (some (recordFile rs)) = Tail.readWhole (ν := ν) (some (recordFile rs)) ∧
      Tail.readLastIntegrity (some (recordFile rs)) =
        some (rs.getLast?.bind fun r => Tail.integrityOf (.obj r.fields)) := by
  have hwhole := Tail.readLastIntegrity_eq (ν := ν) (some (recordFile rs))
  refine ⟨hwhole, ?_⟩
  rw [hwhole, Tail.readWhole, Option.bind_some, bufferLines_recordFile, List.getLast?_map]
  cases rs.getLast? with
  | none => rfl
  | some r =>
    simp only [Option.map_some, Tail.readLine, FileRecord.line, r.parsed]
    rfl

end Haechi.Audit
