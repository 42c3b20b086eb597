import Haechi.Filter.Rules
import Haechi.Select
import Haechi.Text.Encoding
import Haechi.Text.Path

/-! The filter engine on one leaf: the rules are run over the text or over its
NFKC folding, matches inside the gateway's own markers are left out of responses,
and overlapping matches are resolved. A folding that moves offsets, and a decoded
text, are reported as detections of the whole leaf. -/

namespace Haechi.Filter

open Text

/-! ### Entries and detections -/

/-- What a scanned text is: a string leaf, a number leaf or an object key. -/
inductive Kind where
  | value
  | number
  | key
deriving DecidableEq

structure Entry where
  path : Path
  pathText : JsString
  value : JsString
  kind : Kind
deriving DecidableEq

structure Detection where
  type : JsString
  ruleId : JsString
  path : Path
  pathText : JsString
  kind : Kind
  start : ℕ
  stop : ℕ
  confidence : Option ℚ
  value : JsString
deriving DecidableEq

/-- What the filter reads of a request context. -/
structure Context where
  direction : Option Traffic
  scanNumbers : Bool

/-- `String.prototype.normalize("NFKC")`, whose tables are the platform's. It
leaves ASCII text as it is. -/
structure Nfkc where
  normalize : JsString → JsString
  ascii : ∀ s, (∀ c ∈ s, c < 128) → normalize s = s

/-- The platform's folding on ASCII text, on which it does nothing. -/
def Nfkc.plain : Nfkc := ⟨id, fun _ _ => rfl⟩

/-! ### Running the rules -/

/-- A rule that is limited to one direction runs in that direction only. -/
def Rule.applies (r : Rule) (ctx : Context) : Bool :=
  r.direction.isNone || r.direction == ctx.direction

/-- The matches of a rule that its validator accepts. -/
def Rule.hits (r : Rule) (text : JsString) : List Span :=
  (r.matchAll text).filter fun m => r.accepts (slice text m.start m.stop)

def overlapsAny (start stop : ℕ) (spans : List Span) : Bool :=
  spans.any fun m => start < m.stop && stop > m.start

/-- The detection of a rule at a span of a leaf. -/
def Entry.detection (entry : Entry) (r : Rule) (m : Span) (value : JsString) : Detection where
  type := r.type
  ruleId := r.id
  path := entry.path
  pathText := entry.pathText
  kind := entry.kind
  start := m.start
  stop := m.stop
  confidence := r.confidence
  value := value

def scanForDetections (scanText : JsString) (rules : List Rule) (ctx : Context)
    (markerSpans : List Span) (entry : Entry) (originalValue : JsString) : List Detection :=
  rules.flatMap fun r =>
    if r.applies ctx then
      ((r.hits scanText).filter fun m => !overlapsAny m.start m.stop markerSpans).map fun m =>
        entry.detection r m (slice originalValue m.start m.stop)
    else []

def removeOverlaps (detections : List Detection) : List Detection :=
  Select.select Detection.start Detection.stop detections

/-- One detection of the whole leaf for each type that matches, from the rules
that pass the filter. -/
def wholeLeafFrom (normalized : JsString) (ctx : Context) (entry : Entry) (originalValue : JsString)
    (ruleFilter : Rule → Bool) : List JsString → List Rule → List Detection
  | _, [] => []
  | seenTypes, r :: rules =>
    if r.applies ctx && ruleFilter r && !seenTypes.contains r.type && !(r.hits normalized).isEmpty then
      entry.detection r ⟨0, originalValue.length⟩ originalValue ::
        wholeLeafFrom normalized ctx entry originalValue ruleFilter (r.type :: seenTypes) rules
    else wholeLeafFrom normalized ctx entry originalValue ruleFilter seenTypes rules

def wholeLeafDetections (normalized : JsString) (rules : List Rule) (ctx : Context) (entry : Entry)
    (originalValue : JsString) (ruleFilter : Rule → Bool) : List Detection :=
  wholeLeafFrom normalized ctx entry originalValue ruleFilter [] rules

/-! ### The gateway's own markers -/

section Markers

open Regex

/-- `[a-z0-9_]`. -/
def lowerWord : Regex := cls [(97, 122), (48, 57), (95, 95)]

/-- `[a-f0-9]`. -/
def lowerHex : Regex := cls [(97, 102), (48, 57)]

/-- `^[a-z][a-z0-9_]*$`. -/
def markerTypeName : Regex := cat [cls [(97, 122)], many lowerWord]

/-- `^tok_[a-z0-9_]+_[a-f0-9]{16,}$`. -/
def markerVaultToken : Regex := cat [lit "tok_", plus lowerWord, unit 95, atLeast 16 lowerHex]

/-- `^[a-z][a-z0-9_]*:[a-f0-9]{8,}$`. -/
def markerNonvaultToken : Regex :=
  cat [cls [(97, 122)], many lowerWord, unit 58, atLeast 8 lowerHex]

def isGenuineTokenInner (inner : JsString) : Bool :=
  markerVaultToken.isMatch inner || markerNonvaultToken.isMatch inner

def isGenuineRedactedInner (inner : JsString) : Bool := markerTypeName.isMatch inner

/-- The text is the base64url of a JSON object with the two members every
encryption envelope has. -/
def isGenuineEncInner (inner : JsString) : Bool :=
  match (Base64.url.decode inner).bind decodeUtf8 |>.bind (Json.parse (ν := NumberToken)) with
  | some (.obj fields) =>
    match (JsValue.obj fields).get (js "kid"), (JsValue.obj fields).get (js "aadHash") with
    | .str _, .str _ => true
    | _, _ => false
  | _ => false

def textHasDetection (text : JsString) (rules : List Rule) (ctx : Context) : Bool :=
  rules.any fun r => r.applies ctx && !(r.hits text).isEmpty

/-- What stands before a separator and a closing run of at least `n` lower-case
hexadecimal digits, the separator being none itself. -/
def beforeHex (separator : UInt16) (n : ℕ) (s : JsString) : Option JsString :=
  let isHex (c : UInt16) := (97 ≤ c && c ≤ 102) || (48 ≤ c && c ≤ 57)
  match s.reverse.dropWhile isHex with
  | c :: before =>
    if c = separator ∧ n ≤ (s.reverse.takeWhile isHex).length ∧ before ≠ [] ∧
        ¬ before.any isTerminator then
      some before.reverse
    else none
  | [] => none

inductive MarkerKind where
  | token
  | redacted
  | encrypted
deriving DecidableEq

/-- The parts of a marker in which a secret could be hidden: all of it, and the
type a token names. -/
def markerSecretSurfaces (kind : MarkerKind) (inner : JsString) : List JsString :=
  if kind = .token then
    inner :: ((stripPrefix (js "tok_") inner).bind (beforeHex 95 16)).toList ++
      (beforeHex 58 8 inner).toList
  else [inner]

def innerContainsDetection (kind : MarkerKind) (inner : JsString) (rules : List Rule)
    (ctx : Context) : Bool :=
  (markerSecretSurfaces kind inner).any fun surface => textHasDetection surface rules ctx

/-- `\[(TOKEN|HAECHI_ENC|REDACTED):([^\]]*)\]`. -/
def markerPattern : Regex :=
  cat [unit 91, words ["TOKEN", "HAECHI_ENC", "REDACTED"], unit 58, many (.set [(93, 93)] true),
    unit 93]

/-- The two captures of the marker pattern. -/
def markerParts (marker : JsString) : MarkerKind × JsString :=
  let name := (marker.drop 1).takeWhile (· ≠ 58)
  let inner := ((marker.dropWhile (· ≠ 58)).drop 1).dropLast
  (if name = js "TOKEN" then .token else if name = js "REDACTED" then .redacted else .encrypted,
    inner)

def isGenuineMarker (marker : JsString) (rules : List Rule) (ctx : Context) : Bool :=
  let (kind, inner) := markerParts marker
  match kind with
  | .token => isGenuineTokenInner inner && !innerContainsDetection kind inner rules ctx
  | .redacted => isGenuineRedactedInner inner && !innerContainsDetection kind inner rules ctx
  | .encrypted => isGenuineEncInner inner

def haechiMarkerSpans (text : JsString) (rules : List Rule) (ctx : Context) : List Span :=
  (markerPattern.matchAll false text).filter fun m =>
    isGenuineMarker (slice text m.start m.stop) rules ctx

end Markers

/-! ### Decoding a leaf -/

section Decode

open Regex

/-- `^[A-Za-z0-9+/]+={0,2}$`. -/
def base64Std : Regex :=
  cat [plus (cls [(65, 90), (97, 122), (48, 57), (43, 43), (47, 47)]), between 0 2 (unit 61)]

def decodeBase64Leaf (value : JsString) : Option JsString :=
  let bytes :=
    if base64Std.isMatch value && value.length % 4 == 0 then
      Base64.standard.decode (value.rdropWhile (· == 61))
    else if (plus urlSafe).isMatch value && value.length % 4 != 1 then Base64.url.decode value
    else none
  bytes.bind fun bytes => if bytes.isEmpty then none else decodeUtf8 bytes

def decodePercentLeaf (value : JsString) : Option JsString :=
  if hasEscape value then (decodeUriComponent value).filter (· ≠ value) else none

def decodeLeaf (value : JsString) : Option JsString :=
  if value.length < 16 || 8192 < value.length then none
  else (decodeBase64Leaf value).orElse fun _ => decodePercentLeaf value

def isDecodeEligibleRule (r : Rule) : Bool :=
  hardBlockTypes.contains r.type || r.validate.isSome && r.type != js "phone"

def decodeAndRescanEntry (entry : Entry) (rules : List Rule) (ctx : Context) : List Detection :=
  if entry.kind = .number then []
  else
    match decodeLeaf entry.value with
    | none => []
    | some decoded =>
      wholeLeafDetections decoded rules ctx entry entry.value isDecodeEligibleRule

end Decode

/-! ### One leaf -/

/-- Every code point folds to as many units as it has, and the foldings make up
the folding of the text. -/
def isPositionStableNfkc (nfkc : Nfkc) (value normalized : JsString) : Bool :=
  (codePoints value).all (fun p => (nfkc.normalize p).length == p.length) &&
    (codePoints value).flatMap nfkc.normalize == normalized

/-- The offsets of the folded text are those of the text. -/
def isAligned (nfkc : Nfkc) (value : JsString) : Bool :=
  nfkc.normalize value == value || isPositionStableNfkc nfkc value (nfkc.normalize value)

/-- Number leaves of a response are not scanned unless the context asks for it. -/
def skipsNumber (entry : Entry) (ctx : Context) : Bool :=
  ctx.direction == some .response && entry.kind == .number && !ctx.scanNumbers

/-- The markers that the scan of a leaf leaves out: none of a request. -/
def markerSpans (entry : Entry) (rules : List Rule) (ctx : Context) : List Span :=
  if ctx.direction == some .response then haechiMarkerSpans entry.value rules ctx else []

def scanEntry (nfkc : Nfkc) (entry : Entry) (rules : List Rule) (ctx : Context) : List Detection :=
  let normalized := nfkc.normalize entry.value
  if skipsNumber entry ctx then []
  else if isAligned nfkc entry.value then
    -- the scanned text is the leaf itself when nothing folds
    removeOverlaps
      (scanForDetections normalized rules ctx (markerSpans entry rules ctx) entry entry.value)
  else wholeLeafDetections normalized rules ctx entry entry.value fun _ => true

def detectEntry (nfkc : Nfkc) (decodeAndRescan : Bool) (entry : Entry) (rules : List Rule)
    (ctx : Context) : List Detection :=
  scanEntry nfkc entry rules ctx ++
    if decodeAndRescan then decodeAndRescanEntry entry rules ctx else []

/-- `detect` of the default filter engine. -/
def detect (nfkc : Nfkc) (decodeAndRescan : Bool) (rules : List Rule) (entries : List Entry)
    (ctx : Context) : List Detection :=
  entries.flatMap fun entry => detectEntry nfkc decodeAndRescan entry rules ctx

/-! ### What a scan reports -/

variable {nfkc : Nfkc} {rules : List Rule} {ctx : Context} {entry : Entry} {d : Detection}

theorem mem_hits {r : Rule} {text : JsString} {m : Span} :
    m ∈ r.hits text ↔ m ∈ r.matchAll text ∧ r.accepts (slice text m.start m.stop) = true := by
  rw [Rule.hits, List.mem_filter]

theorem hits_inRange {r : Rule} {text : JsString} {m : Span} (h : m ∈ r.hits text) :
    m.start ≤ m.stop ∧ m.stop ≤ text.length := r.inRange text m (mem_hits.mp h).1

theorem mem_scanForDetections {scanText value : JsString} {spans : List Span} :
    d ∈ scanForDetections scanText rules ctx spans entry value ↔
      ∃ r ∈ rules, r.applies ctx = true ∧ ∃ m ∈ r.hits scanText,
        overlapsAny m.start m.stop spans = false ∧
          entry.detection r m (slice value m.start m.stop) = d := by
  simp only [scanForDetections, List.mem_flatMap]
  refine exists_congr fun r => and_congr_right fun _ => ?_
  by_cases h : r.applies ctx = true
  · simp [h, and_assoc]
  · simp [h]

theorem scanForDetections_inRange {scanText value : JsString} {spans : List Span}
    (h : d ∈ scanForDetections scanText rules ctx spans entry value) :
    d.start ≤ d.stop ∧ d.stop ≤ scanText.length := by
  obtain ⟨r, -, -, m, hm, -, rfl⟩ := mem_scanForDetections.mp h
  exact hits_inRange hm

theorem scanForDetections_entry {scanText value : JsString} {spans : List Span}
    (h : d ∈ scanForDetections scanText rules ctx spans entry value) :
    d.path = entry.path ∧ d.pathText = entry.pathText ∧ d.kind = entry.kind := by
  obtain ⟨r, -, -, m, -, -, rfl⟩ := mem_scanForDetections.mp h
  exact ⟨rfl, rfl, rfl⟩

/-- A whole-leaf detection comes from a rule that applies and matches. -/
theorem of_mem_wholeLeafFrom {text value : JsString} {ok : Rule → Bool} {seen : List JsString}
    (h : d ∈ wholeLeafFrom text ctx entry value ok seen rules) :
    ∃ r ∈ rules, r.applies ctx = true ∧ ok r = true ∧ r.hits text ≠ [] ∧
      entry.detection r ⟨0, value.length⟩ value = d := by
  induction rules generalizing seen with
  | nil => cases h
  | cons r rules ih =>
    rw [wholeLeafFrom] at h
    have later : ∀ {seen}, d ∈ wholeLeafFrom text ctx entry value ok seen rules →
        ∃ r' ∈ r :: rules, r'.applies ctx = true ∧ ok r' = true ∧ r'.hits text ≠ [] ∧
          entry.detection r' ⟨0, value.length⟩ value = d := by
      intro seen h
      obtain ⟨r', hr', h'⟩ := ih h
      exact ⟨r', List.mem_cons_of_mem r hr', h'⟩
    split_ifs at h with hr
    · rcases List.mem_cons.mp h with rfl | h
      · simp only [Bool.and_eq_true, Bool.not_eq_true', List.isEmpty_eq_false_iff] at hr
        exact ⟨r, List.mem_cons_self, hr.1.1.1, hr.1.1.2, hr.2, rfl⟩
      · exact later h
    · exact later h

/-- Every type with a matching rule that passes is reported, unless it was before. -/
theorem mem_wholeLeafFrom_of_hit {text value : JsString} {ok : Rule → Bool} {seen : List JsString}
    {r : Rule} (hr : r ∈ rules) (happlies : r.applies ctx = true) (hok : ok r = true)
    (hhits : r.hits text ≠ []) (hseen : r.type ∉ seen) :
    ∃ d ∈ wholeLeafFrom text ctx entry value ok seen rules,
      d.type = r.type ∧ d.start = 0 ∧ d.stop = value.length := by
  induction rules generalizing seen with
  | nil => cases hr
  | cons r' rules ih =>
    rw [wholeLeafFrom]
    split_ifs with h
    · by_cases htype : r'.type = r.type
      · exact ⟨_, List.mem_cons_self, htype, rfl, rfl⟩
      · have hr : r ∈ rules := (List.mem_cons.mp hr).resolve_left fun h => htype (h ▸ rfl)
        have hseen' : r.type ∉ r'.type :: seen := by
          simp only [List.mem_cons, not_or]
          exact ⟨Ne.symm htype, hseen⟩
        obtain ⟨d, hd, h'⟩ := ih hr hseen'
        exact ⟨d, List.mem_cons_of_mem _ hd, h'⟩
    · rcases List.mem_cons.mp hr with rfl | hr
      · simp [happlies, hok, hseen, hhits] at h
      · exact ih hr hseen

/-- A type with a matching rule is reported for the whole leaf. -/
theorem exists_wholeLeaf_of_hit {text : JsString} {r : Rule} (entry : Entry) (hr : r ∈ rules)
    (happlies : r.applies ctx = true) (hhits : r.hits text ≠ []) :
    ∃ d ∈ wholeLeafDetections text rules ctx entry entry.value (fun _ => true),
      d.type = r.type ∧ d.start = 0 ∧ d.stop = entry.value.length :=
  mem_wholeLeafFrom_of_hit hr happlies rfl hhits List.not_mem_nil

theorem length_of_isAligned {value : JsString} (h : isAligned nfkc value = true) :
    (nfkc.normalize value).length = value.length := by
  simp only [isAligned, isPositionStableNfkc, Bool.or_eq_true, Bool.and_eq_true, beq_iff_eq,
    List.all_eq_true] at h
  rcases h with h | ⟨hall, h⟩
  · rw [h]
  · have hlen : (codePoints value).map (fun p => (nfkc.normalize p).length) =
        (codePoints value).map List.length := List.map_congr_left hall
    rw [← h, List.length_flatMap, hlen, ← List.length_flatten, flatten_codePoints]

theorem removeOverlaps_subset {ds : List Detection} (h : d ∈ removeOverlaps ds) : d ∈ ds :=
  Select.mem_of_mem_select h

theorem removeOverlaps_pairwise {ds : List Detection} (h : ∀ d ∈ ds, d.start ≤ d.stop) :
    (removeOverlaps ds).Pairwise fun a b => a.stop ≤ b.start := Select.pairwise_select h

/-- The spans of a list of detections are parts of the leaf in order, or all of
them are the whole leaf. -/
def Exact (ds : List Detection) (length : ℕ) : Prop :=
  (∀ d ∈ ds, d.start ≤ d.stop ∧ d.stop ≤ length) ∧
    (ds.Pairwise (fun a b => a.stop ≤ b.start) ∨ ∀ d ∈ ds, d.start = 0 ∧ d.stop = length)

/-- Of two spans in an exact list, one that starts inside the other ends in it. -/
theorem Exact.stop_le {ds : List Detection} {length : ℕ} (h : Exact ds length) {a b : Detection}
    (ha : a ∈ ds) (hb : b ∈ ds) (hle : b.start ≤ a.start) (hlt : a.start < b.stop) :
    a.stop ≤ b.stop := by
  rcases h.2 with hdisjoint | hwhole
  · have : Std.Symm fun a b : Detection => a.stop ≤ b.start ∨ b.stop ≤ a.start :=
      ⟨fun _ _ => Or.symm⟩
    by_cases heq : a = b
    · rw [heq]
    · have hdisjoint : ds.Pairwise fun a b => a.stop ≤ b.start ∨ b.stop ≤ a.start :=
        hdisjoint.imp Or.inl
      have := (h.1 a ha).1
      rcases hdisjoint.forall ha hb heq with h | h <;> omega
  · rw [(hwhole b hb).2]
    exact (h.1 a ha).2

/-- One scan reports disjoint parts of the leaf, or the leaf. -/
theorem exact_scanEntry (nfkc : Nfkc) (entry : Entry) (rules : List Rule) (ctx : Context) :
    Exact (scanEntry nfkc entry rules ctx) entry.value.length := by
  unfold scanEntry
  simp only
  split_ifs with hskip haligned
  · exact ⟨by simp, .inl List.Pairwise.nil⟩
  · rw [← length_of_isAligned haligned]
    refine ⟨fun d hd => scanForDetections_inRange (removeOverlaps_subset hd), .inl ?_⟩
    exact removeOverlaps_pairwise fun d hd => (scanForDetections_inRange hd).1
  · have hwhole : ∀ d ∈ wholeLeafDetections (nfkc.normalize entry.value) rules ctx entry entry.value
        (fun _ => true), d.start = 0 ∧ d.stop = entry.value.length := by
      intro d hd
      obtain ⟨r, -, -, -, -, rfl⟩ := of_mem_wholeLeafFrom hd
      exact ⟨rfl, rfl⟩
    exact ⟨fun d hd => by have := hwhole d hd; omega, .inr hwhole⟩

/-- The detections of a leaf carry its path and kind. -/
theorem scanEntry_entry (h : d ∈ scanEntry nfkc entry rules ctx) :
    d.path = entry.path ∧ d.pathText = entry.pathText ∧ d.kind = entry.kind := by
  unfold scanEntry at h
  simp only at h
  split_ifs at h
  · cases h
  · exact scanForDetections_entry (removeOverlaps_subset h)
  · obtain ⟨r, -, -, -, -, rfl⟩ := of_mem_wholeLeafFrom h
    exact ⟨rfl, rfl, rfl⟩

end Haechi.Filter
