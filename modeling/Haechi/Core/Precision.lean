import Haechi.Core.Counts
import Haechi.Filter.Scan

/-! The precision dials, which trim soft detections after the scan. A hard-block
detection passes them untouched, but a hard-block match has to become a detection
first: it does when it lies in hard-block tiles of the leftmost-longest tiling of
the leaf by the matches of all rules, and the dials can expose it when it does
not. -/

namespace Haechi.Core

open Text Haechi.Filter

/-! ### The dials -/

/-- An operator exception: a matched value, or an object with a value, a path, or both. -/
inductive AllowEntry where
  | value (v : JsString)
  | fields (value path : Option JsString)

structure Allowlist where
  values : List JsString
  paths : List JsString
  pairs : List (JsString × JsString)

def compileAllowlist (allowlist : List AllowEntry) : Option Allowlist :=
  if allowlist.isEmpty then none
  else some {
    values := allowlist.filterMap fun
      | .value v => some v
      | .fields (some v) none => some v
      | _ => none
    paths := allowlist.filterMap fun
      | .fields none (some p) => some p
      | _ => none
    pairs := allowlist.filterMap fun
      | .fields (some v) (some p) => some (v, p)
      | _ => none }

def isAllowlisted (d : Detection) : Option Allowlist → Bool
  | none => false
  | some a =>
    a.values.contains d.value || a.paths.contains d.pathText ||
      a.pairs.any fun pair => d.value == pair.1 && d.pathText == pair.2

def isHardBlock (type : JsString) : Bool := hardBlockTypes.contains type

/-- How many detections were removed, in all and of each type. -/
structure Tally where
  count : ℕ
  byType : Counts

def Tally.empty : Tally := ⟨0, []⟩

def Tally.add (t : Tally) (type : JsString) : Tally := ⟨t.count + 1, bumpName type t.byType⟩

structure Precision where
  detections : List Detection
  suppressed : Tally
  dropped : Tally

/-- The detection is of a soft type and below the threshold. -/
def isLowConfidence (minConfidence : ℚ) (d : Detection) : Bool :=
  d.confidence.any (· < minConfidence)

/-- The dials leave the detection alone. -/
def survives (minConfidence : ℚ) (allowlist : Option Allowlist) (d : Detection) : Bool :=
  isHardBlock d.type || !isAllowlisted d allowlist && !isLowConfidence minConfidence d

def Precision.step (minConfidence : ℚ) (allowlist : Option Allowlist) (p : Precision)
    (d : Detection) : Precision :=
  if !isHardBlock d.type && isAllowlisted d allowlist then
    { p with suppressed := p.suppressed.add d.type }
  else if !isHardBlock d.type && isLowConfidence minConfidence d then
    { p with dropped := p.dropped.add d.type }
  else { p with detections := p.detections ++ [d] }

def applyPrecisionControls (detections : List Detection) (minConfidence : ℚ)
    (allowlist : Option Allowlist) : Precision :=
  detections.foldl (Precision.step minConfidence allowlist) ⟨[], .empty, .empty⟩

/-- What is kept of a leaf's detections under given dials. -/
def keptDetections (nfkc : Nfkc) (rules : List Rule) (ctx : Context) (entry : Entry)
    (minConfidence : ℚ) (allowlist : List AllowEntry) : List Detection :=
  (applyPrecisionControls (scanEntry nfkc entry rules ctx) minConfidence
    (compileAllowlist allowlist)).detections

theorem foldl_step_detections (minConfidence : ℚ) (allowlist : Option Allowlist)
    (ds : List Detection) (p : Precision) :
    (ds.foldl (Precision.step minConfidence allowlist) p).detections =
      p.detections ++ ds.filter (survives minConfidence allowlist) := by
  induction ds generalizing p with
  | nil => simp
  | cons d ds ih =>
    rw [List.foldl_cons, ih, List.filter_cons, Precision.step, survives]
    cases isHardBlock d.type <;> cases isAllowlisted d allowlist <;>
      cases isLowConfidence minConfidence d <;> simp

theorem applyPrecisionControls_detections (ds : List Detection) (minConfidence : ℚ)
    (allowlist : Option Allowlist) :
    (applyPrecisionControls ds minConfidence allowlist).detections =
      ds.filter (survives minConfidence allowlist) := by
  rw [applyPrecisionControls, foldl_step_detections, List.nil_append]

variable {nfkc : Nfkc} {rules : List Rule} {ctx : Context} {entry : Entry} {d : Detection}
  {minConfidence : ℚ} {allowlist : List AllowEntry}

theorem mem_keptDetections :
    d ∈ keptDetections nfkc rules ctx entry minConfidence allowlist ↔
      d ∈ scanEntry nfkc entry rules ctx ∧
        survives minConfidence (compileAllowlist allowlist) d = true := by
  rw [keptDetections, applyPrecisionControls_detections, List.mem_filter]

theorem survives_of_isHardBlock {allowlist : Option Allowlist} (h : isHardBlock d.type = true) :
    survives minConfidence allowlist d = true := by simp [survives, h]

/-- Dials that trim every soft detection of a leaf: an exception for its path. -/
theorem survives_path {path : JsString} (h : d.pathText = path) :
    survives minConfidence (compileAllowlist [.fields none (some path)]) d = isHardBlock d.type := by
  simp [survives, compileAllowlist, isAllowlisted, h]

/-! ### Hard-block matches -/

/-- The part of the leaf that a match of the scanned text stands for. -/
def place (nfkc : Nfkc) (entry : Entry) (m : Span) : Span :=
  if isAligned nfkc entry.value then m else ⟨0, entry.value.length⟩

/-- The detection shares a character with the span, or is at the same place. -/
def Meets (d : Detection) (m : Span) : Prop :=
  d.start < m.stop ∧ m.start < d.stop ∨ d.start = m.start ∧ d.stop = m.stop

/-- A rule of a hard-block type has a validated match in the leaf. -/
def HardMatch (nfkc : Nfkc) (rules : List Rule) (ctx : Context) (entry : Entry) (m : Span) : Prop :=
  ∃ r ∈ rules, r.applies ctx = true ∧ isHardBlock r.type = true ∧
    m ∈ r.hits (nfkc.normalize entry.value)

/-- The detections include a hard-block one that meets each hard-block match, and
leave none of its characters uncovered. -/
def Enforced (nfkc : Nfkc) (rules : List Rule) (ctx : Context) (entry : Entry)
    (kept : List Detection) : Prop :=
  ∀ m, HardMatch nfkc rules ctx entry m →
    (∃ d ∈ kept, isHardBlock d.type = true ∧ Meets d (place nfkc entry m)) ∧
      ∀ i, (place nfkc entry m).start ≤ i → i < (place nfkc entry m).stop →
        ∃ d ∈ kept, d.start ≤ i ∧ i < d.stop

/-- The detections that overlap resolution chooses from. -/
def candidates (nfkc : Nfkc) (rules : List Rule) (ctx : Context) (entry : Entry) :
    List Detection :=
  if skipsNumber entry ctx then []
  else
    scanForDetections (nfkc.normalize entry.value) rules ctx (markerSpans entry rules ctx) entry
      entry.value

/-- Each hard-block match meets a hard-block tile of the leftmost-longest tiling of
the leaf and lies in hard-block tiles. A leaf that is reported whole has no tiling. -/
def HardTiled (nfkc : Nfkc) (rules : List Rule) (ctx : Context) (entry : Entry) : Prop :=
  isAligned nfkc entry.value = true ∨ skipsNumber entry ctx = true →
    ∃ T, Select.IsTiling Detection.start Detection.stop (candidates nfkc rules ctx entry) T ∧
      ∀ m, HardMatch nfkc rules ctx entry m →
        (∃ i ∈ T, isHardBlock ((candidates nfkc rules ctx entry).get i).type = true ∧
          Meets ((candidates nfkc rules ctx entry).get i) (place nfkc entry m)) ∧
        ∀ x, (place nfkc entry m).start ≤ x → x < (place nfkc entry m).stop →
          ∃ i ∈ T, isHardBlock ((candidates nfkc rules ctx entry).get i).type = true ∧
            ((candidates nfkc rules ctx entry).get i).start ≤ x ∧
            x < ((candidates nfkc rules ctx entry).get i).stop

/-- Where offsets are kept, the scan reports what selection takes of the candidates. -/
theorem scanEntry_eq_removeOverlaps
    (h : isAligned nfkc entry.value = true ∨ skipsNumber entry ctx = true) :
    scanEntry nfkc entry rules ctx = removeOverlaps (candidates nfkc rules ctx entry) := by
  unfold scanEntry candidates
  simp only
  split_ifs with hskip haligned
  · rfl
  · rfl
  · tauto

/-- A leaf reported whole is enforced under all dials. -/
theorem enforced_of_whole (haligned : isAligned nfkc entry.value ≠ true)
    (hskip : skipsNumber entry ctx ≠ true) :
    Enforced nfkc rules ctx entry (keptDetections nfkc rules ctx entry minConfidence allowlist) := by
  rintro m ⟨r, hr, happlies, hhard, hm⟩
  obtain ⟨d, hd, htype, hstart, hstop⟩ := exists_wholeLeaf_of_hit entry hr happlies
    (List.ne_nil_of_mem hm)
  have hmem : d ∈ scanEntry nfkc entry rules ctx := by
    rw [scanEntry, if_neg hskip, if_neg haligned]
    exact hd
  have hdhard : isHardBlock d.type = true := by rw [htype, hhard]
  have hkept : d ∈ keptDetections nfkc rules ctx entry minConfidence allowlist :=
    mem_keptDetections.mpr ⟨hmem, survives_of_isHardBlock hdhard⟩
  rw [place, if_neg haligned]
  exact ⟨⟨d, hkept, hdhard, .inr ⟨hstart, hstop⟩⟩, fun i _ hi => ⟨d, hkept, by omega, by simp only at hi; omega⟩⟩

/-- A key that an address begins with, in the field `note` of a request. -/
def addressWithKey : Entry where
  path := [.key (js "note")]
  pathText := js "key_note"
  value := js "sk_abcdefghijklmnopqrstuvwxyz@example.com"
  kind := .value

end Haechi.Core
