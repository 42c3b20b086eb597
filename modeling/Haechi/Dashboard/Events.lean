import Haechi.Audit.Chain
import Haechi.Dashboard.Tail
import Haechi.Text.Plain

/-! The pages of audit events that the dashboard serves. The window at the end of the log is
put newest first, cut at the cursor, projected, filtered and cut to the limit, and the lowest
sequence number of a page is the cursor of the next. Proved: where the log's sequence numbers
are consecutive, following the cursors gives each matching event of the window once, newest
first, and ends; the last page says that the window is exceeded exactly when the window does
not begin with the log and its oldest event matches. -/

namespace Haechi.Dashboard

open Text Json JsValue

variable {ν : Type} [JsNumber ν]

/-- The conversions of the language that are left open. -/
structure Conversions (ν : Type) [JsNumber ν] where
  toLowerCase : JsString → JsString
  /-- `Number.isFinite` of a number. -/
  isFinite : ν → Bool
  /-- Whether the first value is less than the second, both as numbers. -/
  less : JsValue ν → JsValue ν → Bool
  /-- `String(v)`. -/
  string : JsValue ν → JsString
  /-- `Number(s)` of a run of digits, where it is an integer. -/
  number : JsString → Option ν
  less_num : ∀ x y, less (.num x) (.num y) = JsNumber.lt x y
  string_count : ∀ n, string (.num (JsNumber.ofNat n)) = natText n
  number_count : ∀ n, number (natText n) = some (JsNumber.ofNat n)

/-- Conversions over number tokens, for ASCII texts. -/
def tokenConversions : Conversions NumberToken where
  toLowerCase := lowerAscii
  isFinite _ := true
  less v w :=
    match v, w with
    | .num x, .num y => JsNumber.lt x y
    | _, _ => false
  string v :=
    match v with
    | .num x => JsNumber.toText x
    | _ => []
  number s := some (JsNumber.ofNat (natValue s))
  less_num _ _ := rfl
  string_count _ := rfl
  number_count n := by rw [natValue_natText]

variable (conv : Conversions ν)

/-! ### The projection -/

/-- A value that is not `undefined`. -/
def defined (v : JsValue ν) : Option (JsValue ν) :=
  match v with
  | .undef => none
  | v => some v

/-- `pick`. No other value than an object has members to read. -/
def pick (source : JsValue ν) (keys : List JsString) : List (JsString × JsValue ν) :=
  keys.filterMap fun key => (defined (source.get key)).map (key, ·)

def projectDetection (detection : JsValue ν) : JsValue ν :=
  .obj (pick detection
    [js "type", js "ruleId", js "path", js "kind", js "confidence", js "action", js "enforced"])

def projectIdentity (identity : JsValue ν) : JsValue ν :=
  match identity with
  | .obj _ | .arr _ =>
    .obj (pick identity [js "id", js "type", js "subjectHash", js "issuerHash", js "provider"])
  | _ => .null

/-- `sanitizeCounts`. A number assigned to `__proto__` is not kept. -/
def sanitizeCounts (counts : JsValue ν) : List (JsString × JsValue ν) :=
  match counts with
  | .obj fields =>
    fields.filter fun kv =>
      match kv.2 with
      | .num x => conv.isFinite x && kv.1 != js "__proto__"
      | _ => false
  | _ => []

def projectSummary (summary : JsValue ν) : JsValue ν :=
  .obj
    [(js "byType", .obj (sanitizeCounts conv (summary.get (js "byType")))),
      (js "byAction", .obj (sanitizeCounts conv (summary.get (js "byAction")))),
      (js "detectionCount",
        match summary.get (js "detectionCount") with
        | .num x => if conv.isFinite x then .num x else .num (JsNumber.ofNat 0)
        | _ => .num (JsNumber.ofNat 0))]

def projectIntegrity (integrity : JsValue ν) : JsValue ν :=
  .obj (pick integrity [js "sequence", js "previousHash", js "eventHash"])

def projectEvent (event : JsValue ν) : JsValue ν :=
  .obj (pick event
      [js "schemaVersion", js "id", js "correlationId", js "timestamp", js "protocol",
        js "operation", js "mode", js "enforced", js "blocked", js "direction",
        js "payloadShapeHash"] ++
    [(js "identity", projectIdentity (event.get (js "identity"))),
      (js "detections",
        match event.get (js "detections") with
        | .arr items => .arr (items.map projectDetection)
        | _ => .arr []),
      (js "summary", projectSummary conv (event.get (js "summary"))),
      (js "auditIntegrity", projectIntegrity (event.get (js "auditIntegrity")))])

/-! ### The query -/

/-- The search parameters, as they come. -/
structure Query where
  limit : Option JsString
  cursor : Option JsString
  correlationId : Option JsString
  decision : Option JsString

/-- What a query that is not refused asks for. -/
structure Request (ν : Type) where
  limit : ℕ
  limit_pos : 0 < limit
  cursor : Option ν
  correlationFilter : Option JsString
  decisionFilter : Option JsString

/-- `MAX_LIMIT`. -/
def maxLimit : ℕ := 200

/-- `KNOWN_DECISIONS`. -/
def knownDecisions : List JsString :=
  [js "redact", js "mask", js "tokenize", js "encrypt", js "block", js "allow", js "pass",
    js "deny"]

/-- `UUID_RE`. -/
def isUuid (s : JsString) : Bool :=
  (s.splitOn 45).map List.length = [8, 4, 4, 4, 12] &&
    (s.splitOn 45).all fun group => group.all fun c => (hexValue c).isSome

/-- The limit, 50 by default. -/
def limitOf (raw : Option JsString) : Option ℕ :=
  match raw with
  | none => some 50
  | some raw =>
    if isDigits raw ∧ 1 ≤ natValue raw ∧ natValue raw ≤ maxLimit then some (natValue raw) else none

theorem limitOf_pos {raw : Option JsString} {n : ℕ} (h : limitOf raw = some n) : 0 < n := by
  cases raw with
  | none => simp [← Option.some.inj h]
  | some raw =>
    simp only [limitOf, Option.ite_none_right_eq_some, Option.some.injEq] at h
    omega

/-- The cursor, if there is one; the outer `none` is a refusal. -/
def cursorOf (raw : Option JsString) : Option (Option ν) :=
  match raw with
  | none => some none
  | some raw => if isDigits raw then (conv.number raw).map some else none

def correlationFilterOf (raw : Option JsString) : Option (Option JsString) :=
  match raw with
  | none => some none
  | some raw => if isUuid raw then some (some (conv.toLowerCase raw)) else none

def decisionFilterOf (raw : Option JsString) : Option (Option JsString) :=
  match raw with
  | none => some none
  | some raw => if raw ∈ knownDecisions then some (some raw) else none

/-- The checks of a query; `none` is the status 400. -/
def parseQuery (q : Query) : Option (Request ν) :=
  match h : limitOf q.limit, cursorOf conv q.cursor, correlationFilterOf conv q.correlationId,
    decisionFilterOf q.decision with
  | some limit, some cursor, some correlation, some decision =>
    some ⟨limit, limitOf_pos h, cursor, correlation, decision⟩
  | _, _, _, _ => none

/-- Whether the filters let a projected event pass. -/
def Request.accepts (r : Request ν) (event : JsValue ν) : Bool :=
  (match r.correlationFilter with
    | none => true
    | some filter =>
      match event.get (js "correlationId") with
      | .str id => conv.toLowerCase id == filter
      | _ => false) &&
  match r.decisionFilter with
  | none => true
  | some decision =>
    match (event.get (js "summary")).get (js "byAction") with
    | .obj byAction => (field? decision byAction).isSome
    | _ => false

/-! ### A page -/

structure Page (ν : Type) where
  events : List (JsValue ν)
  nextCursor : Option JsString
  windowExceeded : Bool

def sequenceOf (event : JsValue ν) : JsValue ν := (event.get (js "auditIntegrity")).get (js "sequence")

/-- `event.auditIntegrity?.sequence ?? 0`. -/
def sequenceOrZero (event : JsValue ν) : JsValue ν :=
  orElse (sequenceOf event) (.num (JsNumber.ofNat 0))

/-- The events newest first. -/
def ordered (events : List (JsValue ν)) : List (JsValue ν) :=
  events.insertionSort fun a b => conv.less (sequenceOrZero a) (sequenceOrZero b) = false

/-- The lowest sequence number; `none` is `Infinity`. -/
def minSequence (events : List (JsValue ν)) : Option ν :=
  events.foldl (fun lowest event =>
    match sequenceOf event with
    | .num x => if lowest.all (JsNumber.lt x) then some x else lowest
    | _ => lowest) none

/-- `events[events.length - 1].auditIntegrity?.sequence ?? null`, as a text. -/
def nextCursor (events : List (JsValue ν)) : Option JsString :=
  match events.getLast? with
  | none => none
  | some last =>
    match sequenceOf last with
    | .undef | .null => none
    | sequence => some (conv.string sequence)

/-- The events of the window that are older than the cursor. -/
def olderThan (cursor : Option ν) (events : List (JsValue ν)) : List (JsValue ν) :=
  match cursor with
  | none => ordered conv events
  | some c => (ordered conv events).filter fun event => conv.less (sequenceOrZero event) (.num c)

/-- The answer to a request. -/
def respond (window : TailEvents ν) (r : Request ν) : Page ν :=
  let projected := (olderThan conv r.cursor window.events).map (projectEvent conv)
  let events := (projected.filter (r.accepts conv)).take r.limit
  { events
    nextCursor := nextCursor conv events
    windowExceeded :=
      match r.cursor with
      | none => false
      | some c =>
        !window.coveredFromStart &&
          (minSequence (ordered conv window.events)).all fun lowest => !JsNumber.lt lowest c }

/-- `handleEvents`; `none` is the status 400. -/
def handleEvents (file : Option (List ℕ)) (windowBytes : ℕ) (q : Query) : Option (Page ν) :=
  (parseQuery conv q).map (respond conv (readTailEvents file windowBytes))

/-! ### What the projection keeps -/

omit [JsNumber ν] in
theorem getD_defined (v : JsValue ν) : (defined v).getD .undef = v := by
  cases v <;> rfl

omit [JsNumber ν] in
theorem field?_pick (source : JsValue ν) (keys : List JsString) (key : JsString) :
    field? key (pick source keys) = if key ∈ keys then defined (source.get key) else none := by
  induction keys with
  | nil => rfl
  | cons k keys ih =>
    have hcons : pick source (k :: keys) =
        ((defined (source.get k)).map (k, ·)).toList ++ pick source keys := by
      rw [pick, List.filterMap_cons]
      cases defined (source.get k) <;> rfl
    rw [hcons, field?_append, ih]
    by_cases hk : k = key
    · subst hk
      cases hv : defined (source.get k) <;> simp [field?]
    · cases defined (source.get k) <;> simp [field?, hk, Ne.symm hk]

theorem sequenceOf_projectEvent (event : JsValue ν) :
    sequenceOf (projectEvent conv event) = sequenceOf event := by
  have hmember : (projectEvent conv event).get (js "auditIntegrity") =
      projectIntegrity (event.get (js "auditIntegrity")) := by
    rw [projectEvent, JsValue.get, field?_append, field?_pick, if_neg (by decide)]
    rfl
  rw [sequenceOf, hmember, projectIntegrity, JsValue.get, field?_pick, if_pos (by decide),
    getD_defined]
  rfl

/-! ### Consecutive sequence numbers -/

/-- The events have the sequence numbers from `n` on. -/
def Numbered : ℕ → List (JsValue ν) → Prop
  | _, [] => True
  | n, event :: events => Audit.isCount (sequenceOf event) n = true ∧ Numbered (n + 1) events

instance decidableNumbered : (n : ℕ) → (events : List (JsValue ν)) → Decidable (Numbered n events)
  | _, [] => .isTrue trivial
  | n, _ :: events =>
    have := decidableNumbered (n + 1) events
    inferInstanceAs (Decidable (_ ∧ _))

/-- The sequence numbers of the log are consecutive. -/
def Consecutive (file : Option (List ℕ)) : Prop := ∃ first, Numbered first (logEvents (ν := ν) file)

theorem sequenceOf_of_isCount {v : JsValue ν} {n : ℕ} (h : Audit.isCount v n = true) :
    v = .num (JsNumber.ofNat n) := by
  cases v with
  | num x => exact congrArg JsValue.num (beq_iff_eq.mp h)
  | _ => cases h

theorem numbered_append {n : ℕ} {xs ys : List (JsValue ν)} :
    Numbered n (xs ++ ys) ↔ Numbered n xs ∧ Numbered (n + xs.length) ys := by
  induction xs generalizing n with
  | nil => simp [Numbered]
  | cons x xs ih =>
    rw [List.cons_append, Numbered, Numbered, ih, and_assoc, List.length_cons, Nat.add_assoc,
      Nat.add_comm 1]

theorem Numbered.sequence {n : ℕ} {events : List (JsValue ν)} (h : Numbered n events) :
    ∀ event ∈ events, ∃ m, n ≤ m ∧ m < n + events.length ∧
      sequenceOf event = .num (JsNumber.ofNat m) := by
  induction events generalizing n with
  | nil => exact fun _ hmem => absurd hmem List.not_mem_nil
  | cons e events ih =>
    intro event hmem
    rcases List.mem_cons.mp hmem with rfl | hmem
    · exact ⟨n, le_rfl, by simp, sequenceOf_of_isCount h.1⟩
    · obtain ⟨m, hlow, hhigh, hm⟩ := ih h.2 event hmem
      exact ⟨m, by omega, by rw [List.length_cons]; omega, hm⟩

theorem sequenceOrZero_of {event : JsValue ν} {n : ℕ}
    (h : sequenceOf event = .num (JsNumber.ofNat n)) :
    sequenceOrZero event = .num (JsNumber.ofNat n) := by
  rw [sequenceOrZero, h]
  rfl

theorem less_count {v w : JsValue ν} {m n : ℕ} (hv : v = .num (JsNumber.ofNat m))
    (hw : w = .num (JsNumber.ofNat n)) : conv.less v w = decide (m < n) := by
  rw [hv, hw, conv.less_num, JsNumber.lt_ofNat]

theorem orderedInsert_last {α : Type} (r : α → α → Prop) [DecidableRel r] (a : α) {l : List α}
    (h : ∀ b ∈ l, ¬r a b) : l.orderedInsert r a = l ++ [a] := by
  induction l with
  | nil => rfl
  | cons b l ih =>
    rw [List.orderedInsert, if_neg (h b List.mem_cons_self),
      ih fun c hc => h c (List.mem_cons_of_mem b hc), List.cons_append]

/-- Newest first is last first. -/
theorem Numbered.ordered_eq {n : ℕ} {events : List (JsValue ν)} (h : Numbered n events) :
    ordered conv events = events.reverse := by
  induction events generalizing n with
  | nil => rfl
  | cons e events ih =>
    rw [ordered, List.insertionSort_cons, ← ordered, ih h.2, List.reverse_cons]
    apply orderedInsert_last
    intro event hmem
    obtain ⟨m, hlow, -, hm⟩ := h.2.sequence event (List.mem_reverse.mp hmem)
    have hless := less_count conv (sequenceOrZero_of (sequenceOf_of_isCount h.1))
      (sequenceOrZero_of hm)
    simp [hless, show n < m by omega]

theorem Numbered.pairwise {n : ℕ} {events : List (JsValue ν)} (h : Numbered n events) :
    events.Pairwise fun a b => conv.less (sequenceOf a) (sequenceOf b) = true := by
  induction events generalizing n with
  | nil => exact List.Pairwise.nil
  | cons e events ih =>
    refine List.Pairwise.cons (fun event hmem => ?_) (ih h.2)
    obtain ⟨m, hlow, -, hm⟩ := h.2.sequence event hmem
    rw [less_count conv (sequenceOf_of_isCount h.1) hm]
    exact decide_eq_true (by omega)

/-- The window of a log with consecutive sequence numbers has consecutive ones. -/
theorem Consecutive.window {file : Option (List ℕ)} (h : Consecutive (ν := ν) file)
    (windowBytes : ℕ) :
    ∃ first, Numbered first (readTailEvents file windowBytes : TailEvents ν).events := by
  obtain ⟨first, hlog⟩ := h
  obtain ⟨older, holder, -⟩ := logEvents_eq (ν := ν) file windowBytes
  rw [holder, numbered_append] at hlog
  exact ⟨first + older.length, hlog.2⟩

/-- The cursor cuts where the number of the events that are older says. -/
theorem Numbered.olderThan_eq {first : ℕ} {older newer : List (JsValue ν)}
    (h : Numbered first (older ++ newer)) :
    olderThan conv (some (JsNumber.ofNat (first + older.length))) (older ++ newer) =
      older.reverse := by
  obtain ⟨holder, hnewer⟩ := numbered_append.mp h
  have hkept : older.reverse.filter (fun event => conv.less (sequenceOrZero event)
      (.num (JsNumber.ofNat (first + older.length)))) = older.reverse := by
    rw [List.filter_eq_self]
    intro event hmem
    obtain ⟨m, -, hhigh, hm⟩ := holder.sequence event (List.mem_reverse.mp hmem)
    rw [less_count conv (sequenceOrZero_of hm) rfl]
    exact decide_eq_true hhigh
  have hcut : newer.reverse.filter (fun event => conv.less (sequenceOrZero event)
      (.num (JsNumber.ofNat (first + older.length)))) = [] := by
    rw [List.filter_eq_nil_iff]
    intro event hmem
    obtain ⟨m, hlow, -, hm⟩ := hnewer.sequence event (List.mem_reverse.mp hmem)
    rw [less_count conv (sequenceOrZero_of hm) rfl]
    simpa using hlow
  rw [olderThan, h.ordered_eq, List.reverse_append, List.filter_append, hkept, hcut,
    List.nil_append]

theorem Numbered.minSequence_eq {first : ℕ} {e : JsValue ν} {events : List (JsValue ν)}
    (h : Numbered first (e :: events)) :
    minSequence (e :: events).reverse = some (JsNumber.ofNat first) := by
  induction events generalizing first e with
  | nil =>
    simp [minSequence, sequenceOf_of_isCount h.1]
  | cons e' events ih =>
    have hrest := ih h.2
    rw [minSequence] at hrest ⊢
    rw [List.reverse_cons, List.foldl_append, hrest]
    simp [sequenceOf_of_isCount h.1, JsNumber.lt_ofNat]

/-! ### Splitting a page off -/

/-- What matches in a list, cut to a page: nothing, or up to an element after which the
rest goes on. -/
theorem split_page {α : Type} (p : α → Bool) (l : List α) {limit : ℕ} (h : 0 < limit) :
    l.filter p = [] ∨ ∃ before last after, l = before ++ last :: after ∧ p last = true ∧
      (l.filter p).take limit = before.filter p ++ [last] := by
  induction l generalizing limit with
  | nil => exact .inl rfl
  | cons x l ih =>
    by_cases hx : p x = true
    · right
      rw [List.filter_cons_of_pos hx]
      obtain ⟨n, rfl⟩ : ∃ n, limit = n + 1 := ⟨limit - 1, by omega⟩
      rcases Nat.eq_zero_or_pos n with rfl | hn
      · exact ⟨[], x, l, rfl, hx, rfl⟩
      · rcases ih hn with hnone | ⟨before, last, after, hl, hlast, htake⟩
        · refine ⟨[], x, l, rfl, hx, ?_⟩
          rw [hnone, List.take_succ_cons, List.take_nil]
          rfl
        · refine ⟨x :: before, last, after, by rw [hl, List.cons_append], hlast, ?_⟩
          rw [List.take_succ_cons, htake, List.filter_cons_of_pos hx, List.cons_append]
    · rw [List.filter_cons_of_neg hx]
      rcases ih h with hnone | ⟨before, last, after, hl, hlast, htake⟩
      · exact .inl hnone
      · right
        refine ⟨x :: before, last, after, by rw [hl, List.cons_append], hlast, ?_⟩
        rw [htake, List.filter_cons_of_neg hx]

/-! ### Following the cursors -/

theorem parseQuery_eq_some {q : Query} {r : Request ν} :
    parseQuery conv q = some r ↔ limitOf q.limit = some r.limit ∧
      cursorOf conv q.cursor = some r.cursor ∧
      correlationFilterOf conv q.correlationId = some r.correlationFilter ∧
      decisionFilterOf q.decision = some r.decisionFilter := by
  obtain ⟨limit, hpos, cursor, correlation, decision⟩ := r
  rw [parseQuery]
  split
  · next hl hc hi hd => simp [hl, hc, hi, hd]
  · next hnone =>
    simp only [false_iff, reduceCtorEq]
    rintro ⟨hl, hc, hi, hd⟩
    exact hnone _ _ _ _ hl hc hi hd

/-- The same query with the cursor of a count. -/
theorem parseQuery_next {q : Query} {r : Request ν} (h : parseQuery conv q = some r) (n : ℕ) :
    parseQuery conv { q with cursor := some (natText n) } =
      some { r with cursor := some (JsNumber.ofNat n) } := by
  obtain ⟨hlimit, -, hcorrelation, hdecision⟩ := (parseQuery_eq_some conv).mp h
  have hcursor : cursorOf conv (some (natText n)) = some (some (JsNumber.ofNat n)) := by
    rw [cursorOf, if_pos (isDigits_natText n), conv.number_count]
    rfl
  exact (parseQuery_eq_some conv).mpr ⟨hlimit, hcursor, hcorrelation, hdecision⟩

/-- The event passes the filters of the request. -/
def Request.Matches (r : Request ν) (event : JsValue ν) : Bool :=
  r.accepts conv (projectEvent conv event)

/-- The pages from a query on, up to the one without a next cursor. -/
inductive Follows (file : Option (List ℕ)) (windowBytes : ℕ) : Query → List (Page ν) → Prop
  | last {q page} (h : handleEvents conv file windowBytes q = some page)
    (hnext : page.nextCursor = none) : Follows file windowBytes q [page]
  | next {q page cursor pages} (h : handleEvents conv file windowBytes q = some page)
    (hnext : page.nextCursor = some cursor)
    (hrest : Follows file windowBytes { q with cursor := some cursor } pages) :
    Follows file windowBytes q (page :: pages)

theorem Follows.unique {file : Option (List ℕ)} {windowBytes : ℕ} {q : Query}
    {pages pages' : List (Page ν)} (h : Follows conv file windowBytes q pages)
    (h' : Follows conv file windowBytes q pages') : pages = pages' := by
  induction h generalizing pages' with
  | last hpage hnext =>
    cases h' with
    | last hpage' hnext' => rw [Option.some.inj (hpage.symm.trans hpage')]
    | next hpage' hnext' hrest' =>
      rw [Option.some.inj (hpage.symm.trans hpage'), hnext'] at hnext
      cases hnext
  | next hpage hnext hrest ih =>
    cases h' with
    | last hpage' hnext' =>
      rw [Option.some.inj (hpage.symm.trans hpage'), hnext'] at hnext
      cases hnext
    | next hpage' hnext' hrest' =>
      obtain rfl := Option.some.inj (hpage.symm.trans hpage')
      obtain rfl := Option.some.inj (hnext.symm.trans hnext')
      rw [ih hrest']

/-- The last page has no next cursor. -/
theorem Follows.nextCursor_getLast {file : Option (List ℕ)} {windowBytes : ℕ} {q : Query}
    {pages : List (Page ν)} (h : Follows conv file windowBytes q pages) (final : Page ν)
    (hfinal : pages.getLast? = some final) : final.nextCursor = none := by
  induction h with
  | last hpage hnext =>
    obtain rfl := Option.some.inj hfinal
    exact hnext
  | next hpage hnext hrest ih =>
    apply ih
    cases hrest <;> exact hfinal

/-- A request that leaves `newer` behind it: the first, or one whose cursor is the sequence
number of an event that matched. -/
structure Position (window : TailEvents ν) (first : ℕ) (r : Request ν)
    (older newer : List (JsValue ν)) : Prop where
  events : window.events = older ++ newer
  cursor : r.cursor = none ∧ newer = [] ∨
    r.cursor = some (JsNumber.ofNat (first + older.length)) ∧
      ∃ event ∈ newer.head?, r.Matches conv event = true

section Position

variable {conv} {window : TailEvents ν} {first : ℕ} {r : Request ν} {older newer : List (JsValue ν)}

theorem Position.olderThan_eq (h : Position conv window first r older newer)
    (hwindow : Numbered first window.events) :
    olderThan conv r.cursor window.events = older.reverse := by
  rcases h.cursor with ⟨hcursor, hnewer⟩ | ⟨hcursor, -⟩
  · have hevents : window.events = older := by rw [h.events, hnewer, List.append_nil]
    rw [hcursor, olderThan, hwindow.ordered_eq, hevents]
  · rw [hcursor, h.events]
    exact Numbered.olderThan_eq conv (h.events ▸ hwindow)

theorem Position.respond_events (h : Position conv window first r older newer)
    (hwindow : Numbered first window.events) :
    (respond conv window r).events =
      ((older.reverse.filter (r.Matches conv)).take r.limit).map (projectEvent conv) := by
  rw [respond, h.olderThan_eq hwindow, List.filter_map, List.map_take]
  rfl

/-- A request is past the window when nothing older is left in it. -/
theorem Position.respond_exceeded (h : Position conv window first r older newer)
    (hwindow : Numbered first window.events) :
    (respond conv window r).windowExceeded = true ↔
      window.coveredFromStart = false ∧ older = [] ∧ newer ≠ [] := by
  rcases h.cursor with ⟨hcursor, hnewer⟩ | ⟨hcursor, event, hhead, -⟩
  · simp [respond, hcursor, hnewer]
  · have hne : newer ≠ [] := by
      rintro rfl
      cases hhead
    have hlowest : minSequence (ordered conv window.events) = some (JsNumber.ofNat first) := by
      rw [hwindow.ordered_eq]
      cases hevents : window.events with
      | nil => exact absurd (List.append_eq_nil_iff.mp (h.events.symm.trans hevents)).2 hne
      | cons e events => exact Numbered.minSequence_eq (hevents ▸ hwindow)
    simp [respond, hcursor, hlowest, JsNumber.lt_ofNat, hne, List.length_eq_zero_iff]

/-- Where nothing older matches, the window is exceeded if its oldest event matches. -/
theorem Position.last_exceeded (h : Position conv window first r older newer)
    (hwindow : Numbered first window.events) (hnone : older.filter (r.Matches conv) = []) :
    (respond conv window r).windowExceeded = true ↔ window.coveredFromStart = false ∧
      ∃ oldest ∈ (older ++ newer).head?, r.Matches conv oldest = true := by
  rw [h.respond_exceeded hwindow]
  apply and_congr_right
  intro _
  cases older with
  | nil =>
    constructor
    · rintro ⟨-, hne⟩
      rcases h.cursor with ⟨-, hnewer⟩ | ⟨-, hhead⟩
      · exact absurd hnewer hne
      · exact hhead
    · rintro ⟨oldest, hhead, -⟩
      refine ⟨rfl, ?_⟩
      rintro rfl
      cases hhead
  | cons e older =>
    constructor
    · rintro ⟨hnil, -⟩
      cases hnil
    · rintro ⟨oldest, hhead, hmatch⟩
      obtain rfl : e = oldest := Option.some.inj hhead
      rw [List.filter_cons_of_pos hmatch] at hnone
      cases hnone

/-- A request without a cursor is before the whole window. -/
theorem Position.start (hcursor : r.cursor = none) :
    Position conv window first r window.events [] where
  events := (List.append_nil _).symm
  cursor := .inl ⟨hcursor, rfl⟩

/-- A page either ends the run or moves the position to its last event. -/
theorem Position.step (h : Position conv window first r older newer)
    (hwindow : Numbered first window.events) :
    older.filter (r.Matches conv) = [] ∨
      ∃ before last after, older = before ++ last :: after ∧
        nextCursor conv (respond conv window r).events = some (natText (first + before.length)) ∧
        (respond conv window r).events = ((last :: after).filter (r.Matches conv)).reverse.map
          (projectEvent conv) ∧
        Position conv window first { r with cursor := some (JsNumber.ofNat (first + before.length)) }
          before (last :: after ++ newer) := by
  rcases split_page (r.Matches conv) older.reverse r.limit_pos with
    hnone | ⟨after, last, before, hsplit, hlast, htake⟩
  · left
    rwa [List.filter_reverse, List.reverse_eq_nil_iff] at hnone
  · right
    have holder : older = before.reverse ++ last :: after.reverse := by
      rw [← List.reverse_reverse older, hsplit]
      simp
    have hevents : (respond conv window r).events =
        ((last :: after.reverse).filter (r.Matches conv)).reverse.map (projectEvent conv) := by
      rw [h.respond_events hwindow, htake, List.filter_cons_of_pos hlast, List.filter_reverse]
      simp
    have hnumbered : Numbered (first + before.reverse.length) (last :: after.reverse ++ newer) := by
      have hwhole := h.events ▸ hwindow
      rw [holder, List.append_assoc] at hwhole
      exact (numbered_append.mp hwhole).2
    refine ⟨before.reverse, last, after.reverse, holder, ?_, hevents, ?_, .inr ⟨rfl, last, rfl, hlast⟩⟩
    · have hgetLast : (respond conv window r).events.getLast? = some (projectEvent conv last) := by
        rw [hevents, List.filter_cons_of_pos hlast]
        simp
      rw [nextCursor, hgetLast]
      simp only [sequenceOf_projectEvent, sequenceOf_of_isCount hnumbered.1, conv.string_count]
    · rw [h.events, holder, List.append_assoc]

end Position

/-- From a position on, the cursors lead through what matches of the older events. -/
theorem Position.exists_follows (file : Option (List ℕ)) (windowBytes : ℕ) {first : ℕ} {q : Query}
    {r : Request ν} {older newer : List (JsValue ν)} (hq : parseQuery conv q = some r)
    (hwindow : Numbered first (readTailEvents file windowBytes : TailEvents ν).events)
    (h : Position conv (readTailEvents file windowBytes) first r older newer) :
    ∃ pages final, Follows conv file windowBytes q pages ∧ pages.getLast? = some final ∧
      pages.flatMap Page.events =
        (older.filter (r.Matches conv)).reverse.map (projectEvent conv) ∧
      (final.windowExceeded = true ↔
        (readTailEvents file windowBytes : TailEvents ν).coveredFromStart = false ∧
          ∃ oldest ∈ (older ++ newer).head?, r.Matches conv oldest = true) := by
  induction hn : older.length using Nat.strong_induction_on generalizing q r older newer with
  | _ n ih =>
    have hpage : handleEvents conv file windowBytes q =
        some (respond conv (readTailEvents file windowBytes) r) := by
      rw [handleEvents, hq]
      rfl
    rcases h.step hwindow with hnone | ⟨before, last, after, holder, hnext, hevents, hposition⟩
    · have hempty : (respond conv (readTailEvents file windowBytes) r).events = [] := by
        rw [h.respond_events hwindow, List.filter_reverse, hnone]
        simp
      have hend : (respond conv (readTailEvents file windowBytes) r).nextCursor = none := by
        show nextCursor conv (respond conv (readTailEvents file windowBytes) r).events = none
        rw [hempty]
        rfl
      exact ⟨[respond conv (readTailEvents file windowBytes) r],
        respond conv (readTailEvents file windowBytes) r, .last hpage hend, rfl,
        by simp [hempty, hnone], h.last_exceeded hwindow hnone⟩
    · obtain ⟨pages, final, hfollows, hfinal, hall, hexceeded⟩ :=
        ih before.length (by simp [← hn, holder]) (parseQuery_next conv hq (first + before.length))
          hposition rfl
      refine ⟨_ :: pages, final, .next hpage hnext hfollows, ?_, ?_, ?_⟩
      · rw [List.getLast?_cons, hfinal]
        rfl
      · rw [List.flatMap_cons, hall, hevents, holder, List.filter_append, List.reverse_append,
          List.map_append]
        rfl
      · rw [hexceeded, holder, List.append_assoc]
        rfl

/-- A query without a cursor starts before the whole window. -/
theorem Consecutive.exists_follows {file : Option (List ℕ)} (hlog : Consecutive (ν := ν) file)
    (windowBytes : ℕ) {q : Query} {r : Request ν} (hq : parseQuery conv q = some r)
    (hcursor : q.cursor = none) :
    ∃ pages final, Follows conv file windowBytes q pages ∧ pages.getLast? = some final ∧
      pages.flatMap Page.events = ((readTailEvents file windowBytes).events.filter
        (r.Matches conv)).reverse.map (projectEvent conv) ∧
      (final.windowExceeded = true ↔
        (readTailEvents file windowBytes : TailEvents ν).coveredFromStart = false ∧
          ∃ oldest ∈ (readTailEvents file windowBytes).events.head?,
            r.Matches conv oldest = true) := by
  obtain ⟨first, hwindow⟩ := hlog.window windowBytes
  have hparsed := ((parseQuery_eq_some conv).mp hq).2.1
  rw [hcursor] at hparsed
  have hstart := Position.exists_follows conv file windowBytes hq hwindow
    (Position.start (Option.some.inj hparsed).symm)
  rwa [List.append_nil] at hstart

/-- Over a log with consecutive sequence numbers, a query without a cursor leads through every
matching event of the window once, newest first, and to an end. The last page says that the
window is exceeded exactly if the window does not begin with the log and its oldest event
matches; so if that event matches and the last page says nothing, nothing is older. -/
theorem follows_window (file : Option (List ℕ)) (windowBytes : ℕ) {q : Query} {r : Request ν}
    (hlog : Consecutive (ν := ν) file) (hq : parseQuery conv q = some r)
    (hcursor : q.cursor = none) :
    ∃ (pages : List (Page ν)) (final : Page ν) (older : List (JsValue ν)),
      Follows conv file windowBytes q pages ∧
      (∀ pages' : List (Page ν), Follows conv file windowBytes q pages' → pages' = pages) ∧
      pages.getLast? = some final ∧
      pages.flatMap Page.events = ((readTailEvents file windowBytes).events.filter
        (r.Matches conv)).reverse.map (projectEvent conv) ∧
      ((pages.flatMap Page.events).map sequenceOf).Pairwise (fun a b => conv.less b a = true) ∧
      logEvents file = older ++ (readTailEvents file windowBytes).events ∧
      (final.windowExceeded = true ↔
        (readTailEvents file windowBytes : TailEvents ν).coveredFromStart = false ∧
          ∃ oldest ∈ (readTailEvents file windowBytes).events.head?, r.Matches conv oldest = true) ∧
      ((∃ oldest ∈ (readTailEvents file windowBytes).events.head?, r.Matches conv oldest = true) →
        final.windowExceeded = false → older = []) := by
  obtain ⟨older, holder, hcovered⟩ := logEvents_eq (ν := ν) file windowBytes
  obtain ⟨pages, final, hfollows, hfinal, hall, hexceeded⟩ :=
    hlog.exists_follows conv windowBytes hq hcursor
  obtain ⟨first, hwindow⟩ := hlog.window windowBytes
  refine ⟨pages, final, older, hfollows, fun pages' h' => h'.unique conv hfollows, hfinal, hall, ?_,
    holder, hexceeded, ?_⟩
  · have hsequences : (pages.flatMap Page.events).map sequenceOf =
        (((readTailEvents file windowBytes).events.filter (r.Matches conv)).map
          sequenceOf).reverse := by
      rw [hall, List.map_map, List.map_reverse]
      exact congrArg List.reverse (List.map_congr_left fun e _ => sequenceOf_projectEvent conv e)
    rw [hsequences, List.pairwise_reverse, List.pairwise_map]
    exact (hwindow.pairwise conv).sublist List.filter_sublist
  · intro hmatch hfalse
    apply hcovered
    by_contra hpartial
    rw [hexceeded.mpr ⟨by simpa using hpartial, hmatch⟩] at hfalse
    cases hfalse

/-- A line of a log, with `pad` bytes of an operation's name. -/
def sampleLine (sequence : ℕ) (action : JsString) (pad : ℕ) : JsString :=
  js "\x7b\"operation\":\"" ++ List.replicate pad 120 ++
    js "\",\"summary\":\x7b\"byAction\":\x7b\"" ++ action ++
    js "\":1\x7d\x7d,\"auditIntegrity\":\x7b\"sequence\":" ++ natText sequence ++
    js "\x7d\x7d\n"

/-- Four events, of which a window of 4096 bytes holds the last two. -/
def sampleLog : Option (List ℕ) :=
  some ((sampleLine 1 (js "block") 0 ++ sampleLine 2 (js "redact") 4000 ++
    sampleLine 3 (js "redact") 0 ++ sampleLine 4 (js "block") 0).map UInt16.toNat)

/-- The events with a block, one on a page. -/
def blockQuery : Query := ⟨some (js "1"), none, none, some (js "block")⟩

def blockRequest : Request NumberToken := ⟨1, by decide, none, none, some (js "block")⟩

theorem sampleLog_events : Consecutive (ν := NumberToken) sampleLog ∧
    (logEvents sampleLog).map (blockRequest.Matches tokenConversions) =
      [true, false] ++ [false, true] := by
  have hevents : Numbered 1 (logEvents (ν := NumberToken) sampleLog) ∧
      (logEvents sampleLog).map (blockRequest.Matches tokenConversions) =
        [true, false] ++ [false, true] := by
    decide +kernel
  exact hevents.imp_left (Exists.intro 1)

theorem parseQuery_blockQuery : parseQuery tokenConversions blockQuery = some blockRequest :=
  (parseQuery_eq_some tokenConversions).mpr ⟨by decide +kernel, rfl, rfl, by decide +kernel⟩

theorem follows_window_block :
    ∃ pages : List (Page NumberToken), Follows tokenConversions sampleLog 4096 blockQuery pages ∧
      pages.flatMap Page.events = ((readTailEvents sampleLog 4096).events.filter
        (blockRequest.Matches tokenConversions)).reverse.map (projectEvent tokenConversions) := by
  obtain ⟨pages, -, -, hfollows, -, -, hevents, -⟩ :=
    follows_window tokenConversions sampleLog 4096 sampleLog_events.1 parseQuery_blockQuery rfl
  exact ⟨pages, hfollows, hevents⟩

/-- The oldest event of the window does not match, so the last page says nothing of the block
before the window. -/
theorem silent_end :
    Consecutive (ν := NumberToken) sampleLog ∧
      ∃ (pages : List (Page NumberToken)) (final : Page NumberToken)
        (older : List (JsValue NumberToken)),
        Follows tokenConversions sampleLog 4096 blockQuery pages ∧
          pages.getLast? = some final ∧ final.nextCursor = none ∧ final.windowExceeded = false ∧
          logEvents sampleLog = older ++ (readTailEvents sampleLog 4096).events ∧
          ∃ event ∈ older, blockRequest.Matches tokenConversions event = true := by
  refine ⟨sampleLog_events.1, ?_⟩
  obtain ⟨pages, final, hfollows, hfinal, -, hexceeded⟩ :=
    sampleLog_events.1.exists_follows tokenConversions 4096 parseQuery_blockQuery rfl
  obtain ⟨older, holder, -⟩ := logEvents_eq (ν := NumberToken) sampleLog 4096
  have hinside : (readTailEvents sampleLog 4096).events.map
      (blockRequest.Matches tokenConversions) = [false, true] := by
    decide +kernel
  refine ⟨pages, final, older, hfollows, hfinal, hfollows.nextCursor_getLast _ final hfinal, ?_,
    holder, ?_⟩
  · rw [← Bool.not_eq_true, hexceeded]
    rintro ⟨-, event, hhead, hmatch⟩
    have holdest := congrArg List.head? hinside
    rw [List.head?_map, Option.mem_def.mp hhead, Option.map_some, hmatch] at holdest
    cases holdest
  · have hall := sampleLog_events.2
    rw [holder, List.map_append, hinside] at hall
    apply List.mem_map.mp
    rw [List.append_cancel_right hall]
    exact List.mem_cons_self

end Haechi.Dashboard
