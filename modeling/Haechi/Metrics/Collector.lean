import Haechi.Metrics.Exposition
import Haechi.Runs
import Haechi.Text.Plain

/-! The metrics collector. Its counters and its histogram are maps from the keys of series to
what has been recorded of them, and it renders them in the text format. Proved: after any calls
the rendered text is read back as exactly the sums of the increments and the cumulative buckets
of the observations, one group of calls for each metric and set of labels; and no label value
is anything but a short text of safe units. -/

namespace Haechi.Metrics

open Text

/-! ### The catalogue -/

/-- `COUNTERS`: names and help texts. -/
def counters : List (JsString × JsString) :=
  [("haechi_requests_total", "Proxy requests by route, mode, and decision class."),
    ("haechi_blocks_total", "Requests blocked by a policy decision."),
    ("haechi_auth_denied_total", "Requests denied at authentication."),
    ("haechi_rate_limited_total", "Requests rejected by the rate limiter."),
    ("haechi_upstream_timeout_total", "Upstream requests that timed out."),
    ("haechi_upstream_error_total", "Upstream requests that failed (non-timeout)."),
    ("haechi_response_unprotected_total",
      "Responses forwarded without protection (size/encoding/parse)."),
    ("haechi_internal_error_total", "Unexpected internal proxy errors."),
    ("haechi_overloaded_total",
      "Requests rejected by the max-in-flight backpressure ceiling (503).")].map
    fun metric => (js metric.1, js metric.2)

/-- `HISTOGRAMS`. -/
def histograms : List (JsString × JsString) :=
  [(js "haechi_request_duration_seconds",
    js "End-to-end proxy request handling duration in seconds.")]

/-- `name in catalogue`, which members of `Object.prototype` are as well. -/
def isDeclared (catalogue : List (JsString × JsString)) (name : JsString) : Bool :=
  name ∈ catalogue.map Prod.fst || name ∈ prototypeMembers

/-! ### Labels -/

/-- The units of `[A-Za-z0-9_]`. -/
def isWordUnit (c : UInt16) : Bool :=
  isDigit c || (65 ≤ c && c ≤ 90) || (97 ≤ c && c ≤ 122) || c == 95

/-- The units of a word, the dot, the colon, the slash and the hyphen. -/
def isSafeUnit (c : UInt16) : Bool := isWordUnit c || c ∈ [46, 58, 47, 45]

/-- Every other unit becomes an underscore. -/
def coerce (keep : UInt16 → Bool) (s : JsString) : JsString :=
  s.map fun c => if keep c then c else 95

/-- `safeLabelValue`; nothing stands for `undefined` and `null`. -/
def safeLabelValue : Option JsString → JsString
  | none => js "none"
  | some text =>
    let safe := coerce isSafeUnit (text.take 64)
    if safe = [] then js "none" else safe

/-- `normalizeLabels`. A text is no prototype, so `__proto__` stays as it is. -/
def normalizeLabels (labels : List (JsString × Option JsString)) : Labels :=
  labels.foldl (fun out label =>
    let name := coerce isWordUnit label.1
    if name = js "__proto__" then out else out.set name (safeLabelValue label.2)) .empty

/-- A label value that tells no more than a short identifier does. -/
def SafeValue (s : JsString) : Prop := s ≠ [] ∧ s.length ≤ 64 ∧ s.all isSafeUnit = true

instance (s : JsString) : Decidable (SafeValue s) :=
  inferInstanceAs (Decidable (_ ∧ _ ∧ _))

/-- Names and values of labels that have been normalized. -/
def Clean (labels : Labels) : Prop :=
  ∀ name value, labels.get name = some value → name.all isWordUnit = true ∧ SafeValue value

theorem all_coerce {keep : UInt16 → Bool} (h : keep 95 = true) (s : JsString) :
    (coerce keep s).all keep = true := by
  rw [coerce, List.all_map, List.all_eq_true]
  intro c _
  simp only [Function.comp]
  split_ifs with hc
  · exact hc
  · exact h

theorem safeValue_safeLabelValue (v : Option JsString) : SafeValue (safeLabelValue v) := by
  have hnone : SafeValue (js "none") := by decide +kernel
  cases v with
  | none => exact hnone
  | some text =>
    rw [safeLabelValue]
    split_ifs with hempty
    · exact hnone
    · refine ⟨hempty, ?_, all_coerce rfl _⟩
      rw [coerce, List.length_map]
      exact List.length_take_le 64 text

theorem Clean.set {labels : Labels} (h : Clean labels) {name value : JsString}
    (hname : name.all isWordUnit = true) (hvalue : SafeValue value) :
    Clean (labels.set name value) := by
  intro name' value' hget
  by_cases hsame : name' = name
  · subst hsame
    rw [OrderedMap.get_set_self, Option.some.injEq] at hget
    exact hget ▸ ⟨hname, hvalue⟩
  · rw [OrderedMap.get_set_of_ne hsame] at hget
    exact h name' value' hget

theorem clean_normalizeLabels (labels : List (JsString × Option JsString)) :
    Clean (normalizeLabels labels) := by
  rw [normalizeLabels]
  apply invariant_run
  · intro out label hout
    simp only
    split_ifs
    · exact hout
    · exact hout.set (all_coerce rfl _) (safeValue_safeLabelValue _)
  · intro name value hget
    cases hget

theorem mem_sorted {labels : Labels} {label : JsString × JsString} :
    label ∈ labels.sorted ↔ labels.get label.1 = some label.2 := by
  rw [Labels.sorted, List.mem_map]
  constructor
  · rintro ⟨name, hname, rfl⟩
    rw [(List.perm_insertionSort _ _).mem_iff, OrderedMap.mem_keys] at hname
    obtain ⟨value, hvalue⟩ := hname
    simp [hvalue]
  · intro hget
    refine ⟨label.1, ?_, by rw [hget]; rfl⟩
    rw [(List.perm_insertionSort _ _).mem_iff, OrderedMap.mem_keys]
    exact ⟨label.2, hget⟩

theorem Clean.named {labels : Labels} (h : Clean labels) : Named labels.sorted := by
  intro label hlabel hmem
  have := List.all_eq_true.mp (h _ _ (mem_sorted.mp hlabel)).1 61 hmem
  revert this
  decide

/-! ### Series -/

/-- What was recorded of the series of each metric. -/
abbrev Series (β : Type) := OrderedMap JsString (OrderedMap JsString β)

/-- A call that is recorded, with its labels as they are kept. -/
structure Entry (α : Type) where
  name : JsString
  labels : Labels
  amount : α

namespace Series

variable {α β : Type}

def cell (m : Series β) (name key : JsString) : Option β := (m.get name).bind fun s => s.get key

variable (start : Labels → α → β) (more : β → α → β)

def accumulate (b : Option β) (e : Entry α) : Option β :=
  some (match b with
    | none => start e.labels e.amount
    | some b => more b e.amount)

/-- The entry goes into its series, which begins with it if it is the first. -/
def record (m : Series β) (e : Entry α) : Series β :=
  let series := (m.get e.name).getD .empty
  let key := seriesKey e.name e.labels
  m.set e.name (series.set key
    (match series.get key with
      | none => start e.labels e.amount
      | some b => more b e.amount))

/-- The entry is recorded under the key. -/
def hits (name key : JsString) (e : Entry α) : Bool :=
  e.name = name && seriesKey e.name e.labels = key

/-- The entry is of the metric, and has these labels. -/
def isOf (name : JsString) (labels : List (JsString × JsString)) (e : Entry α) : Bool :=
  e.name = name && e.labels.sorted = labels

theorem get_series (m : Series β) (name key : JsString) :
    ((m.get name).getD .empty).get key = cell m name key := by
  rw [cell]
  cases m.get name <;> rfl

theorem cell_record (m : Series β) (e : Entry α) (name key : JsString) :
    cell (record start more m e) name key =
      if hits name key e then accumulate start more (cell m name key) e else cell m name key := by
  rw [record]
  simp only [get_series]
  by_cases hname : name = e.name
  · subst hname
    rw [cell, OrderedMap.get_set_self, Option.bind_some]
    by_cases hkey : key = seriesKey e.name e.labels
    · subst hkey
      rw [OrderedMap.get_set_self, if_pos (by simp [hits])]
      rfl
    · rw [OrderedMap.get_set_of_ne hkey, get_series, if_neg (by simp [hits, Ne.symm hkey])]
  · rw [cell, OrderedMap.get_set_of_ne hname, if_neg (by simp [hits, Ne.symm hname])]
    rfl

variable {start more}

theorem foldl_accumulate (b : β) (es : List (Entry α)) :
    es.foldl (accumulate start more) (some b) = some ((es.map Entry.amount).foldl more b) := by
  induction es generalizing b with
  | nil => rfl
  | cons e es ih => exact ih _

theorem cell_foldl_record {es : List (Entry α)} {name key : JsString} {b : β} :
    cell (es.foldl (record start more) .empty) name key = some b ↔
      ∃ e rest, es.filter (hits name key) = e :: rest ∧
        b = (rest.map Entry.amount).foldl more (start e.labels e.amount) := by
  rw [foldl_part (p := fun m => cell m name key) fun m e => cell_record start more m e name key]
  cases es.filter (hits name key) with
  | nil => simp [cell, OrderedMap.empty, OrderedMap.get]
  | cons e rest =>
    have hfirst : (e :: rest).foldl (accumulate start more) none =
        some ((rest.map Entry.amount).foldl more (start e.labels e.amount)) :=
      foldl_accumulate _ rest
    have hempty : cell (.empty : Series β) name key = none := rfl
    rw [hempty, hfirst]
    constructor
    · intro h
      exact ⟨e, rest, rfl, (Option.some.inj h).symm⟩
    · rintro ⟨_, _, ⟨⟩, rfl⟩
      rfl

/-- A key hits the entries that have the labels it is made of. -/
theorem hits_seriesKey {name : JsString} {labels : Labels} {e : Entry α} (hlabels : Clean labels)
    (he : Clean e.labels) : hits name (seriesKey name labels) e = isOf name labels.sorted e := by
  rw [hits, isOf]
  by_cases hname : e.name = name
  · subst hname
    simp only [decide_true, Bool.true_and, decide_eq_decide]
    exact ⟨seriesText_injective he.named hlabels.named, fun h => by rw [seriesKey, h]; rfl⟩
  · rw [decide_eq_false hname, Bool.false_and, Bool.false_and]

/-- There is one record for the entries of each metric and labels. -/
theorem exists_cell {es : List (Entry α)} (hes : ∀ e ∈ es, Clean e.labels) {name : JsString}
    {b : β} : (∃ key, cell (es.foldl (record start more) .empty) name key = some b) ↔
      ∃ e rest, es.filter (isOf name e.labels.sorted) = e :: rest ∧
        b = (rest.map Entry.amount).foldl more (start e.labels e.amount) := by
  have hfilter : ∀ e ∈ es, es.filter (hits name (seriesKey name e.labels)) =
      es.filter (isOf name e.labels.sorted) := fun e he =>
    List.filter_congr fun e' he' => hits_seriesKey (hes e he) (hes e' he')
  constructor
  · rintro ⟨key, hcell⟩
    obtain ⟨e, rest, hhits, rfl⟩ := cell_foldl_record.mp hcell
    have hmem := List.mem_filter.mp (hhits ▸ List.mem_cons_self : e ∈ es.filter (hits name key))
    rw [hits, Bool.and_eq_true, decide_eq_true_eq, decide_eq_true_eq] at hmem
    obtain ⟨he, rfl, rfl⟩ := hmem
    exact ⟨e, rest, by rw [← hfilter e he, hhits], rfl⟩
  · rintro ⟨e, rest, hfirst, rfl⟩
    have he := (List.mem_filter.mp (hfirst ▸ List.mem_cons_self :
      e ∈ es.filter (isOf name e.labels.sorted))).1
    refine ⟨seriesKey name e.labels, cell_foldl_record.mpr ⟨e, rest, ?_, rfl⟩⟩
    rw [hfilter e he, hfirst]

end Series

/-! ### The collector -/

/-- The numbers that are collected. -/
structure Numbers (ν : Type) where
  zero : ν
  add : ν → ν → ν
  le : ν → ν → Bool
  /-- `String(x)`. -/
  text : ν → JsString
  text_line : ∀ x, 10 ∉ text x

structure Counter (ν : Type) where
  labels : Labels
  value : ν

structure Histogram (ν : Type) where
  labels : Labels
  bucketCounts : List ℕ
  sum : ν
  count : ℕ

structure Collector (ν : Type) where
  counterSeries : Series (Counter ν)
  histogramSeries : Series (Histogram ν)

/-- A call of the collector; an observation may be of something that is no finite number. -/
inductive Call (ν : Type) where
  | increment (name : JsString) (labels : List (JsString × Option JsString)) (amount : ν)
  | observe (name : JsString) (value : Option ν) (labels : List (JsString × Option JsString))

variable {ν : Type} (n : Numbers ν) (buckets : List ν)

def sortedBuckets : List ν := buckets.insertionSort fun a b => n.le a b

def Counter.more (c : Counter ν) (amount : ν) : Counter ν :=
  { c with value := n.add c.value amount }

def Histogram.fresh (labels : Labels) : Histogram ν :=
  ⟨labels, List.replicate (sortedBuckets n buckets).length 0, n.zero, 0⟩

/-- Every bucket counts the value that does not lie below it. -/
def Histogram.more (h : Histogram ν) (value : ν) : Histogram ν where
  labels := h.labels
  bucketCounts := (h.bucketCounts.zip (sortedBuckets n buckets)).map fun (count, bound) =>
    if n.le value bound then count + 1 else count
  sum := n.add h.sum value
  count := h.count + 1

/-- A series of a counter begins with the first amount. -/
def recordAmount : Series (Counter ν) → Entry ν → Series (Counter ν) :=
  Series.record Counter.mk (Counter.more n)

def recordValue : Series (Histogram ν) → Entry ν → Series (Histogram ν) :=
  Series.record (fun labels => (Histogram.fresh n buckets labels).more n buckets)
    (Histogram.more n buckets)

namespace Collector

def init : Collector ν := ⟨.empty, .empty⟩

/-- `increment`. -/
def increment (s : Collector ν) (name : JsString) (labels : List (JsString × Option JsString))
    (amount : ν) : Collector ν :=
  if isDeclared counters name then
    { s with counterSeries :=
        recordAmount n s.counterSeries ⟨name, normalizeLabels labels, amount⟩ }
  else s

/-- `observe`. -/
def observe (s : Collector ν) (name : JsString) (value : Option ν)
    (labels : List (JsString × Option JsString)) : Collector ν :=
  match value with
  | none => s
  | some value =>
    if isDeclared histograms name then
      { s with histogramSeries :=
          recordValue n buckets s.histogramSeries ⟨name, normalizeLabels labels, value⟩ }
    else s

def step (s : Collector ν) : Call ν → Collector ν
  | .increment name labels amount => s.increment n name labels amount
  | .observe name value labels => s.observe n buckets name value labels

def run (calls : List (Call ν)) : Collector ν := calls.foldl (step n buckets) init

/-! ### Rendering -/

/-- The comment lines of a metric. -/
def headLines (metric : JsString × JsString) (type : String) : List Line :=
  [.comment (js "HELP " ++ metric.1 ++ 32 :: metric.2),
    .comment (js "TYPE " ++ metric.1 ++ 32 :: js type)]

def counterSample (name : JsString) (c : Counter ν) : Sample :=
  ⟨name, c.labels.sorted, n.text c.value⟩

/-- The labels of a bucket. -/
def withLe (labels : Labels) (bound : JsString) : List (JsString × JsString) :=
  Labels.sorted (labels.set (js "le") bound)

def histogramSamples (name : JsString) (h : Histogram ν) : List Sample :=
  ((sortedBuckets n buckets).zip h.bucketCounts).map (fun (bound, count) =>
      ⟨name ++ js "_bucket", withLe h.labels (n.text bound), natText count⟩) ++
    [⟨name ++ js "_bucket", withLe h.labels (js "+Inf"), natText h.count⟩,
      ⟨name ++ js "_sum", h.labels.sorted, n.text h.sum⟩,
      ⟨name ++ js "_count", h.labels.sorted, natText h.count⟩]

/-- The records of a metric, in the order of their first calls. -/
def seriesOf {β : Type} (m : Series β) (name : JsString) : List β :=
  ((m.get name).map fun series => series.entries.map Prod.snd).getD []

def lines (s : Collector ν) : List Line :=
  (counters.flatMap fun metric => headLines metric "counter" ++
      (seriesOf s.counterSeries metric.1).map fun c => .sample (counterSample n metric.1 c)) ++
    histograms.flatMap fun metric => headLines metric "histogram" ++
      (seriesOf s.histogramSeries metric.1).flatMap fun h =>
        (histogramSamples n buckets metric.1 h).map .sample

/-- `render`. -/
def render (s : Collector ν) : JsString := joinLines ((s.lines n buckets).map Line.text) ++ [10]

/-! ### What calls report -/

/-- The increments that are recorded. -/
def increments (calls : List (Call ν)) : List (Entry ν) :=
  calls.filterMap fun
    | .increment name labels amount =>
      if isDeclared counters name then some ⟨name, normalizeLabels labels, amount⟩ else none
    | .observe .. => none

/-- The observations that are recorded. -/
def observations (calls : List (Call ν)) : List (Entry ν) :=
  calls.filterMap fun
    | .observe name (some value) labels =>
      if isDeclared histograms name then some ⟨name, normalizeLabels labels, value⟩ else none
    | _ => none

/-- The calls of one metric with the same labels make a sample of their sum, and those of a
histogram also samples of how many values do not lie above a bound, and of all. -/
inductive Reports (calls : List (Call ν)) : Sample → Prop
  | counter {metric : JsString × JsString} {e : Entry ν} {rest : List (Entry ν)}
      (hmetric : metric ∈ counters)
      (h : (increments calls).filter (Series.isOf metric.1 e.labels.sorted) = e :: rest) :
      Reports calls ⟨metric.1, e.labels.sorted,
        n.text ((rest.map Entry.amount).foldl n.add e.amount)⟩
  | bucket {metric : JsString × JsString} {e : Entry ν} {rest : List (Entry ν)}
      (hmetric : metric ∈ histograms)
      (h : (observations calls).filter (Series.isOf metric.1 e.labels.sorted) = e :: rest)
      {bound : ν} (hbound : bound ∈ buckets) :
      Reports calls ⟨metric.1 ++ js "_bucket", withLe e.labels (n.text bound),
        natText (((e :: rest).map Entry.amount).countP fun x => n.le x bound)⟩
  | infinite {metric : JsString × JsString} {e : Entry ν} {rest : List (Entry ν)}
      (hmetric : metric ∈ histograms)
      (h : (observations calls).filter (Series.isOf metric.1 e.labels.sorted) = e :: rest) :
      Reports calls ⟨metric.1 ++ js "_bucket", withLe e.labels (js "+Inf"),
        natText (e :: rest).length⟩
  | sum {metric : JsString × JsString} {e : Entry ν} {rest : List (Entry ν)}
      (hmetric : metric ∈ histograms)
      (h : (observations calls).filter (Series.isOf metric.1 e.labels.sorted) = e :: rest) :
      Reports calls ⟨metric.1 ++ js "_sum", e.labels.sorted,
        n.text (((e :: rest).map Entry.amount).foldl n.add n.zero)⟩
  | count {metric : JsString × JsString} {e : Entry ν} {rest : List (Entry ν)}
      (hmetric : metric ∈ histograms)
      (h : (observations calls).filter (Series.isOf metric.1 e.labels.sorted) = e :: rest) :
      Reports calls ⟨metric.1 ++ js "_count", e.labels.sorted, natText (e :: rest).length⟩

variable {n buckets}

/-- Calls record their increments and observations. -/
theorem foldl_step (s : Collector ν) (calls : List (Call ν)) : calls.foldl (step n buckets) s =
    ⟨(increments calls).foldl (recordAmount n) s.counterSeries,
      (observations calls).foldl (recordValue n buckets) s.histogramSeries⟩ := by
  induction calls generalizing s with
  | nil => rfl
  | cons c calls ih =>
    rw [List.foldl_cons, ih, increments, increments, observations, observations,
      List.filterMap_cons, List.filterMap_cons]
    cases c with
    | increment name labels amount =>
      simp only [step, increment]
      split_ifs <;> rfl
    | observe name value labels =>
      cases value with
      | none => rfl
      | some value =>
        simp only [step, observe]
        split_ifs <;> rfl

theorem counterSeries_run (calls : List (Call ν)) : (run n buckets calls).counterSeries =
    (increments calls).foldl (recordAmount n) .empty :=
  congrArg counterSeries (foldl_step init calls)

theorem histogramSeries_run (calls : List (Call ν)) : (run n buckets calls).histogramSeries =
    (observations calls).foldl (recordValue n buckets) .empty :=
  congrArg histogramSeries (foldl_step init calls)

theorem clean_increments {calls : List (Call ν)} {e : Entry ν} (he : e ∈ increments calls) :
    Clean e.labels := by
  obtain ⟨c, -, hc⟩ := List.mem_filterMap.mp he
  cases c with
  | increment name labels amount =>
    simp only at hc
    split_ifs at hc
    cases hc
    exact clean_normalizeLabels labels
  | observe name value labels => cases hc

theorem clean_observations {calls : List (Call ν)} {e : Entry ν} (he : e ∈ observations calls) :
    Clean e.labels := by
  obtain ⟨c, -, hc⟩ := List.mem_filterMap.mp he
  cases c with
  | increment name labels amount => cases hc
  | observe name value labels =>
    cases value with
    | none => cases hc
    | some value =>
      simp only at hc
      split_ifs at hc
      cases hc
      exact clean_normalizeLabels labels

theorem mem_seriesOf {β : Type} {m : Series β} {name : JsString} {b : β} :
    b ∈ seriesOf m name ↔ ∃ key, m.cell name key = some b := by
  simp only [seriesOf, Series.cell]
  cases m.get name with
  | none => simp
  | some series => simp [OrderedMap.get_eq_some]

theorem foldl_counter_more (c : Counter ν) (amounts : List ν) :
    amounts.foldl (Counter.more n) c = ⟨c.labels, amounts.foldl n.add c.value⟩ := by
  induction amounts generalizing c with
  | nil => rfl
  | cons x amounts ih => exact ih _

/-- A histogram counts for each bound the values that do not lie above it. -/
theorem foldl_histogram_more (labels : Labels) (f : ν → ℕ) (sum : ν) (count : ℕ)
    (values : List ν) :
    values.foldl (Histogram.more n buckets) ⟨labels, (sortedBuckets n buckets).map f, sum, count⟩ =
      ⟨labels, (sortedBuckets n buckets).map fun bound => f bound + values.countP (n.le · bound),
        values.foldl n.add sum, count + values.length⟩ := by
  induction values generalizing f sum count with
  | nil => rfl
  | cons x values ih =>
    have hmore : Histogram.more n buckets ⟨labels, (sortedBuckets n buckets).map f, sum, count⟩ x =
        ⟨labels, (sortedBuckets n buckets).map fun bound => f bound + if n.le x bound then 1 else 0,
          n.add sum x, count + 1⟩ := by
      simp only [Histogram.more, Histogram.mk.injEq, true_and, and_true]
      rw [← List.map_prod_right_eq_zip, List.map_map]
      refine List.map_congr_left fun bound _ => ?_
      simp only [Function.comp]
      split_ifs <;> rfl
    rw [List.foldl_cons, hmore, ih]
    simp only [List.countP_cons, List.length_cons, List.foldl_cons, Histogram.mk.injEq, true_and,
      List.map_inj_left]
    exact ⟨fun bound _ => by omega, by omega⟩

theorem mem_counterSeries {calls : List (Call ν)} {name : JsString} {c : Counter ν} :
    c ∈ seriesOf (run n buckets calls).counterSeries name ↔
      ∃ e rest, (increments calls).filter (Series.isOf name e.labels.sorted) = e :: rest ∧
        c = ⟨e.labels, (rest.map Entry.amount).foldl n.add e.amount⟩ := by
  rw [mem_seriesOf, counterSeries_run, recordAmount,
    Series.exists_cell fun e he => clean_increments he]
  simp only [foldl_counter_more]

theorem mem_histogramSeries {calls : List (Call ν)} {name : JsString} {h : Histogram ν} :
    h ∈ seriesOf (run n buckets calls).histogramSeries name ↔
      ∃ e rest, (observations calls).filter (Series.isOf name e.labels.sorted) = e :: rest ∧
        h = ⟨e.labels, (sortedBuckets n buckets).map fun bound =>
              ((e :: rest).map Entry.amount).countP (n.le · bound),
            ((e :: rest).map Entry.amount).foldl n.add n.zero, (e :: rest).length⟩ := by
  have hfold : ∀ (labels : Labels) (values : List ν),
      values.foldl (Histogram.more n buckets) (Histogram.fresh n buckets labels) =
        ⟨labels, (sortedBuckets n buckets).map fun bound => values.countP (n.le · bound),
          values.foldl n.add n.zero, values.length⟩ := by
    intro labels values
    rw [Histogram.fresh, ← List.map_const', foldl_histogram_more]
    simp only [Nat.zero_add]
  rw [mem_seriesOf, histogramSeries_run, recordValue,
    Series.exists_cell fun e he => clean_observations he]
  refine exists₂_congr fun e rest => and_congr_right fun _ => ?_
  rw [show (rest.map Entry.amount).foldl (Histogram.more n buckets)
      ((Histogram.fresh n buckets e.labels).more n buckets e.amount) =
        ((e :: rest).map Entry.amount).foldl (Histogram.more n buckets)
          (Histogram.fresh n buckets e.labels) from rfl, hfold, List.length_map]

theorem samples_eq (s : Collector ν) : (s.lines n buckets).filterMap Line.sample? =
    (counters.flatMap fun metric =>
      (seriesOf s.counterSeries metric.1).map (counterSample n metric.1)) ++
    histograms.flatMap fun metric =>
      (seriesOf s.histogramSeries metric.1).flatMap (histogramSamples n buckets metric.1) := by
  have hsample : Line.sample? ∘ Line.sample = some := rfl
  have hcounter : ∀ name, (Line.sample? ∘ fun c => Line.sample (counterSample n name c)) =
      some ∘ counterSample n name := fun _ => rfl
  simp only [lines, headLines, List.filterMap_append, List.filterMap_flatMap, List.filterMap_map,
    List.filterMap_cons, List.filterMap_nil, Line.sample?, List.nil_append, hsample,
    List.filterMap_some, hcounter, List.filterMap_eq_map]

/-- The samples among the lines. -/
theorem mem_samples {s : Collector ν} {x : Sample} :
    x ∈ (s.lines n buckets).filterMap Line.sample? ↔
      (∃ metric ∈ counters, ∃ c ∈ seriesOf s.counterSeries metric.1,
        x = counterSample n metric.1 c) ∨
      ∃ metric ∈ histograms, ∃ h ∈ seriesOf s.histogramSeries metric.1,
        x ∈ histogramSamples n buckets metric.1 h := by
  simp only [samples_eq, List.mem_append, List.mem_flatMap, List.mem_map, @eq_comm _ x]

theorem mem_histogramSamples {name : JsString} {labels : Labels} {f : ν → ℕ} {sum : ν} {count : ℕ}
    {x : Sample} :
    x ∈ histogramSamples n buckets name ⟨labels, (sortedBuckets n buckets).map f, sum, count⟩ ↔
      (∃ bound ∈ buckets,
        x = ⟨name ++ js "_bucket", withLe labels (n.text bound), natText (f bound)⟩) ∨
      x = ⟨name ++ js "_bucket", withLe labels (js "+Inf"), natText count⟩ ∨
      x = ⟨name ++ js "_sum", labels.sorted, n.text sum⟩ ∨
      x = ⟨name ++ js "_count", labels.sorted, natText count⟩ := by
  have hmem : ∀ bound, bound ∈ sortedBuckets n buckets ↔ bound ∈ buckets :=
    fun bound => (List.perm_insertionSort _ _).mem_iff
  rw [histogramSamples, ← List.map_prod_left_eq_zip, List.map_map]
  simp only [List.mem_append, List.mem_map, Function.comp, hmem, List.mem_cons, List.not_mem_nil,
    or_false, @eq_comm _ x]

/-- What the collector has after the calls is what they report. -/
theorem mem_samples_run {calls : List (Call ν)} {x : Sample} :
    x ∈ ((run n buckets calls).lines n buckets).filterMap Line.sample? ↔
      Reports n buckets calls x := by
  rw [mem_samples]
  constructor
  · rintro (⟨metric, hmetric, c, hc, rfl⟩ | ⟨metric, hmetric, h, hh, hx⟩)
    · obtain ⟨e, rest, hfirst, rfl⟩ := mem_counterSeries.mp hc
      exact .counter hmetric hfirst
    · obtain ⟨e, rest, hfirst, rfl⟩ := mem_histogramSeries.mp hh
      rcases mem_histogramSamples.mp hx with ⟨bound, hbound, rfl⟩ | rfl | rfl | rfl
      · exact .bucket hmetric hfirst hbound
      · exact .infinite hmetric hfirst
      · exact .sum hmetric hfirst
      · exact .count hmetric hfirst
  · intro h
    cases h with
    | counter hmetric h =>
      exact .inl ⟨_, hmetric, _, mem_counterSeries.mpr ⟨_, _, h, rfl⟩, rfl⟩
    | bucket hmetric h hbound =>
      refine .inr ⟨_, hmetric, _, mem_histogramSeries.mpr ⟨_, _, h, rfl⟩, ?_⟩
      exact mem_histogramSamples.mpr (.inl ⟨_, hbound, rfl⟩)
    | infinite hmetric h =>
      refine .inr ⟨_, hmetric, _, mem_histogramSeries.mpr ⟨_, _, h, rfl⟩, ?_⟩
      exact mem_histogramSamples.mpr (.inr (.inl rfl))
    | sum hmetric h =>
      refine .inr ⟨_, hmetric, _, mem_histogramSeries.mpr ⟨_, _, h, rfl⟩, ?_⟩
      exact mem_histogramSamples.mpr (.inr (.inr (.inl rfl)))
    | count hmetric h =>
      refine .inr ⟨_, hmetric, _, mem_histogramSeries.mpr ⟨_, _, h, rfl⟩, ?_⟩
      exact mem_histogramSamples.mpr (.inr (.inr (.inr rfl)))

/-! ### Well-formed samples -/

theorem mem_withLe {labels : Labels} {bound : JsString} {label : JsString × JsString}
    (h : label ∈ withLe labels bound) : label.1 = js "le" ∨ label ∈ labels.sorted := by
  rw [withLe, mem_sorted] at h
  by_cases hle : label.1 = js "le"
  · exact .inl hle
  · rw [OrderedMap.get_set_of_ne hle] at h
    exact .inr (mem_sorted.mpr h)

/-- Labels with safe values, but for the bound of a bucket. -/
def Tidy (labels : List (JsString × JsString)) : Prop :=
  ∀ label ∈ labels, label.1.all isWordUnit = true ∧ (label.1 ≠ js "le" → SafeValue label.2)

theorem tidy_sorted {labels : Labels} (h : Clean labels) : Tidy labels.sorted := fun _ hlabel =>
  ⟨(h _ _ (mem_sorted.mp hlabel)).1, fun _ => (h _ _ (mem_sorted.mp hlabel)).2⟩

theorem tidy_withLe {labels : Labels} (h : Clean labels) (bound : JsString) :
    Tidy (withLe labels bound) := by
  intro label hlabel
  rcases mem_withLe hlabel with hle | hmem
  · refine ⟨?_, fun hne => absurd hle hne⟩
    rw [hle]
    decide +kernel
  · exact tidy_sorted h label hmem

/-- The names of samples. -/
def sampleNames : List JsString :=
  counters.map Prod.fst ++ histograms.flatMap fun metric =>
    ["_bucket", "_sum", "_count"].map fun suffix => metric.1 ++ js suffix

theorem clean_of_filter {p : Entry ν → Bool} {es rest : List (Entry ν)} {e : Entry ν}
    (hes : ∀ e ∈ es, Clean e.labels) (h : es.filter p = e :: rest) : Clean e.labels :=
  hes e (List.mem_filter.mp (h ▸ List.mem_cons_self : e ∈ es.filter p)).1

theorem Reports.wellFormed {calls : List (Call ν)} {x : Sample} (h : Reports n buckets calls x) :
    x.name ∈ sampleNames ∧ Tidy x.labels ∧ 10 ∉ x.value := by
  have hcount : ∀ k, 10 ∉ natText k := by
    intro k hmem
    have := natText_all k 10 hmem
    revert this
    decide
  have hsuffix : ∀ metric ∈ histograms, ∀ suffix ∈ ["_bucket", "_sum", "_count"],
      metric.1 ++ js suffix ∈ sampleNames := fun metric hmetric suffix hsuffix =>
    List.mem_append_right _
      (List.mem_flatMap.mpr ⟨metric, hmetric, List.mem_map.mpr ⟨suffix, hsuffix, rfl⟩⟩)
  cases h with
  | counter hmetric h =>
    exact ⟨List.mem_append_left _ (List.mem_map_of_mem hmetric),
      tidy_sorted (clean_of_filter (fun _ => clean_increments) h), n.text_line _⟩
  | bucket hmetric h hbound =>
    exact ⟨hsuffix _ hmetric _ (by simp),
      tidy_withLe (clean_of_filter (fun _ => clean_observations) h) _, hcount _⟩
  | @infinite _ e rest hmetric h =>
    exact ⟨hsuffix _ hmetric _ (by simp),
      tidy_withLe (clean_of_filter (fun _ => clean_observations) h) _, hcount (e :: rest).length⟩
  | sum hmetric h =>
    exact ⟨hsuffix _ hmetric _ (by simp),
      tidy_sorted (clean_of_filter (fun _ => clean_observations) h), n.text_line _⟩
  | @count _ e rest hmetric h =>
    exact ⟨hsuffix _ hmetric _ (by simp),
      tidy_sorted (clean_of_filter (fun _ => clean_observations) h), hcount (e :: rest).length⟩

theorem Reports.plain {calls : List (Call ν)} {x : Sample} (h : Reports n buckets calls x) :
    x.Plain := by
  have hnames : ∀ name ∈ sampleNames,
      name ≠ [] ∧ name.head? ≠ some 35 ∧ name.all isNameUnit = true := by decide +kernel
  obtain ⟨hname, hlabels, hvalue⟩ := h.wellFormed
  obtain ⟨hne, hhead, hunits⟩ := hnames _ hname
  refine ⟨hne, hhead, hunits, fun _ hlabel => ?_, hvalue⟩
  have hword := List.all_eq_true.mp (hlabels _ hlabel).1
  constructor
  · intro hmem
    have := hword 61 hmem
    revert this
    decide
  · intro hmem
    have := hword 10 hmem
    revert this
    decide

theorem plain_lines (calls : List (Call ν)) :
    ∀ l ∈ (run n buckets calls).lines n buckets, l.Plain := by
  have hhead : ∀ metric ∈ counters ++ histograms, ∀ type ∈ ["counter", "histogram"],
      10 ∉ js "HELP " ++ metric.1 ++ 32 :: metric.2 ∧
        10 ∉ js "TYPE " ++ metric.1 ++ 32 :: js type := by decide +kernel
  intro l hl
  cases l with
  | sample x => exact (mem_samples_run.mp (List.mem_filterMap.mpr ⟨_, hl, rfl⟩)).plain
  | comment text =>
    simp only [lines, headLines, List.mem_append, List.mem_flatMap, List.mem_cons, List.mem_map,
      List.not_mem_nil, or_false, Line.comment.injEq, reduceCtorEq, and_false, exists_false] at hl
    rcases hl with ⟨metric, hmetric, rfl | rfl⟩ | ⟨metric, hmetric, rfl | rfl⟩
    · exact (hhead metric (List.mem_append_left _ hmetric) "counter" (by simp)).1
    · exact (hhead metric (List.mem_append_left _ hmetric) "counter" (by simp)).2
    · exact (hhead metric (List.mem_append_right _ hmetric) "histogram" (by simp)).1
    · exact (hhead metric (List.mem_append_right _ hmetric) "histogram" (by simp)).2

/-! ### One sample of a series -/

/-- Two samples of a counter differ in their labels. -/
def Apart (x y : Sample) : Prop :=
  x.name ∈ counters.map Prod.fst → x.name = y.name → x.labels ≠ y.labels

theorem pairwise_seriesOf (calls : List (Call ν)) (name : JsString) :
    (seriesOf (run n buckets calls).counterSeries name).Pairwise fun c d =>
      c.labels.sorted ≠ d.labels.sorted := by
  have hkey : ∀ key c, (run n buckets calls).counterSeries.cell name key = some c →
      key = seriesKey name c.labels := by
    intro key c hc
    rw [counterSeries_run] at hc
    obtain ⟨e, rest, hfirst, rfl⟩ := Series.cell_foldl_record.mp hc
    have hmem := (List.mem_filter.mp (hfirst ▸ List.mem_cons_self :
      e ∈ (increments calls).filter (Series.hits name key))).2
    rw [Series.hits, Bool.and_eq_true, decide_eq_true_eq, decide_eq_true_eq] at hmem
    obtain ⟨rfl, rfl⟩ := hmem
    rw [foldl_counter_more]
  rw [seriesOf]
  cases hget : (run n buckets calls).counterSeries.get name with
  | none => exact .nil
  | some series =>
    have hcell : ∀ e ∈ series.entries, e.1 = seriesKey name e.2.labels := fun e he =>
      hkey e.1 e.2 (by rw [Series.cell, hget]; exact OrderedMap.get_eq_some.mpr he)
    rw [Option.map_some, Option.getD_some, List.pairwise_map]
    refine (List.pairwise_map.mp series.nodup).imp_of_mem fun {c d} hc hd hne hlabels => hne ?_
    rw [hcell c hc, hcell d hd, seriesKey, seriesKey, hlabels]

theorem apart_of_histogram {metric : JsString × JsString} (hmetric : metric ∈ histograms)
    {h : Histogram ν} {x : Sample} (hx : x ∈ histogramSamples n buckets metric.1 h) :
    x.name ∉ counters.map Prod.fst := by
  have hnames : ∀ metric ∈ histograms, ∀ suffix ∈ ["_bucket", "_sum", "_count"],
      metric.1 ++ js suffix ∉ counters.map Prod.fst := by decide +kernel
  simp only [histogramSamples, List.mem_append, List.mem_map, List.mem_cons, List.not_mem_nil,
    or_false] at hx
  rcases hx with ⟨_, -, rfl⟩ | rfl | rfl | rfl <;> exact hnames metric hmetric _ (by simp)

theorem pairwise_apart (calls : List (Call ν)) :
    (((run n buckets calls).lines n buckets).filterMap Line.sample?).Pairwise Apart := by
  have hmetrics : counters.Pairwise fun a b => a.1 ≠ b.1 := by decide +kernel
  rw [samples_eq, List.pairwise_append]
  refine ⟨?_, ?_, ?_⟩
  · rw [List.pairwise_flatMap]
    refine ⟨fun metric _ => ?_, hmetrics.imp fun {a b} hne x hx y hy _ hname => ?_⟩
    · rw [List.pairwise_map]
      exact (pairwise_seriesOf calls metric.1).imp fun hne _ _ => hne
    · obtain ⟨c, -, rfl⟩ := List.mem_map.mp hx
      obtain ⟨d, -, rfl⟩ := List.mem_map.mp hy
      exact absurd hname hne
  · refine List.pairwise_of_forall_mem_list fun x hx y _ hmem => ?_
    obtain ⟨metric, hmetric, hx⟩ := List.mem_flatMap.mp hx
    obtain ⟨h, -, hx⟩ := List.mem_flatMap.mp hx
    exact absurd hmem (apart_of_histogram hmetric hx)
  · intro x _ y hy hmem hname
    obtain ⟨metric, hmetric, hy⟩ := List.mem_flatMap.mp hy
    obtain ⟨h, -, hy⟩ := List.mem_flatMap.mp hy
    exact absurd (hname ▸ hmem) (apart_of_histogram hmetric hy)

end Collector

end Haechi.Metrics
