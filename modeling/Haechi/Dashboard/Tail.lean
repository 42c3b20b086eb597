import Haechi.Text.Lines
import Haechi.Text.Resync

/-! The bounded read of the end of the audit file. A window that begins inside the file loses
its first line, which is likely torn; a line that is no record is skipped. Proved: the window
holds the last events of the file, and all of them when it begins at the start. -/

namespace Haechi.Dashboard

open Text Json

variable {ν : Type} [JsNumber ν]

/-- The record of a line, if it is one. -/
def eventOf (line : JsString) : Option (JsValue ν) :=
  if trim line = [] then none
  else
    match (parse (trim line) : Option (JsValue ν)) with
    | none => none
    | some record => if (record.get (js "auditIntegrity")).truthy then some record else none

/-- The events of the lines of some bytes. -/
def eventsOf (bytes : List ℕ) : List (JsValue ν) :=
  (splitLines (decodeLossy bytes)).filterMap eventOf

structure TailEvents (ν : Type) where
  events : List (JsValue ν)
  coveredFromStart : Bool

/-- `readTailEvents`. -/
def readTailEvents (file : Option (List ℕ)) (windowBytes : ℕ) : TailEvents ν :=
  match file with
  | none => ⟨[], true⟩
  | some bytes =>
    if bytes.length = 0 then ⟨[], true⟩
    else
      let start := bytes.length - windowBytes
      let lines := splitLines (decodeLossy (bytes.drop start))
      ⟨(if start = 0 then lines else lines.drop 1).filterMap eventOf, start = 0⟩

/-- The events of the whole log. -/
def logEvents (file : Option (List ℕ)) : List (JsValue ν) := eventsOf (file.getD [])

/-! ### The window and the log -/

theorem splitLines_feed (xs ys : JsString) :
    splitLines (xs ++ 10 :: ys) = splitLines xs ++ splitLines ys := by
  unfold splitLines
  exact List.splitOn_append_cons_self xs ys

theorem splitLines_decode_feed (xs ys : List ℕ) :
    splitLines (decodeLossy (xs ++ 10 :: ys)) =
      splitLines (decodeLossy xs) ++ splitLines (decodeLossy ys) := by
  rw [decodeLossy_ascii xs ys (b := 10) (by norm_num)]
  exact splitLines_feed _ _

theorem eventsOf_feed (xs ys : List ℕ) :
    (eventsOf (xs ++ 10 :: ys) : List (JsValue ν)) = eventsOf xs ++ eventsOf ys := by
  rw [eventsOf, splitLines_decode_feed, List.filterMap_append]
  rfl

theorem splitLines_one {s : JsString} (h : 10 ∉ s) : splitLines s = [s] := by
  unfold splitLines
  exact List.splitOn_eq_singleton h

/-- The window holds the last events of the log, and all of them when it begins at the start. -/
theorem logEvents_eq (file : Option (List ℕ)) (windowBytes : ℕ) :
    ∃ older, logEvents file = older ++ (readTailEvents file windowBytes : TailEvents ν).events ∧
      ((readTailEvents file windowBytes : TailEvents ν).coveredFromStart = true → older = []) := by
  cases file with
  | none => exact ⟨[], rfl, fun _ => rfl⟩
  | some bytes =>
    simp only [readTailEvents]
    split_ifs with hempty hstart
    · rw [List.length_eq_zero_iff.mp hempty]
      exact ⟨[], rfl, fun _ => rfl⟩
    · refine ⟨[], ?_, fun _ => rfl⟩
      rw [hstart, List.drop_zero, List.nil_append]
      rfl
    · set start := bytes.length - windowBytes
      by_cases hfeed : 10 ∈ bytes.drop start
      · obtain ⟨fragment, rest, hwindow, hfirst⟩ := List.eq_append_cons_of_mem hfeed
        have hfile : bytes = (bytes.take start ++ fragment) ++ 10 :: rest := by
          rw [List.append_assoc, ← hwindow, List.take_append_drop]
        -- the fragment is one line, which is the one dropped
        have htail : (splitLines (decodeLossy (bytes.drop start))).drop 1 =
            splitLines (decodeLossy rest) := by
          rw [hwindow, splitLines_decode_feed, splitLines_one (feed_decodeLossy hfirst)]
          rfl
        refine ⟨eventsOf (bytes.take start ++ fragment), ?_, fun h => absurd h (by simpa using hstart)⟩
        rw [htail]
        exact (congrArg eventsOf hfile).trans (eventsOf_feed _ _)
      · have hone : (splitLines (decodeLossy (bytes.drop start))).drop 1 = [] := by
          rw [splitLines_one (feed_decodeLossy hfeed)]
          rfl
        refine ⟨logEvents (some bytes), ?_, fun h => absurd h (by simpa using hstart)⟩
        rw [hone, List.filterMap_nil, List.append_nil]

end Haechi.Dashboard
