import Haechi.Filter.Scan
import Haechi.Proxy.Restore
import Haechi.Text.Matching
import Haechi.Vault.TokenVault

/-! Tokens that a response echoes. The scan of a response leaves the gateway's own
markers out, so that they can be restored. Proved: the scan of a leaf reports nothing
that overlaps the marker of a token exactly when the folding of the leaf keeps its
offsets, no marker is left open in front of it, and no rule matches in the token. -/

namespace Haechi.Proxy

open Text Text.Regex Haechi.Filter

/-! ### Tokens and leaves -/

/-- A token of `tokenize` for the type of a default rule. -/
structure TokenId where
  type : JsString
  digits : JsString
  isRuleType : type ∈ defaultRules.map Rule.type
  length_digits : digits.length = 16 ∨ digits.length = 32
  isHex : ∀ c ∈ digits, Vault.isHexUnit c = true

def TokenId.text (t : TokenId) : JsString := Vault.tokenId t.type t.digits

/-- A string leaf in which a token is echoed. -/
def echo (path : Path) (pathText : JsString) (pre : JsString) (t : TokenId) (post : JsString) :
    Entry :=
  ⟨path, pathText, pre ++ tokenMarker t.text ++ post, .value⟩

/-- The context in which a response is scanned. -/
def responseContext (scanNumbers : Bool) : Context := ⟨some .response, scanNumbers⟩

/-- The detection covers a part of the marker behind `pre`. -/
def Touches (pre : JsString) (t : TokenId) (d : Detection) : Prop :=
  d.start < pre.length + (tokenMarker t.text).length ∧ pre.length < d.stop

instance (pre : JsString) (t : TokenId) (d : Detection) : Decidable (Touches pre t d) :=
  inferInstanceAs (Decidable (_ ∧ _))

def markerNames : List JsString := ["TOKEN", "HAECHI_ENC", "REDACTED"].map js

/-- What opens a marker stands in the text, with no closing bracket behind it. -/
def LeavesOpen (pre : JsString) : Prop :=
  ∃ a, ∃ name ∈ markerNames, ∃ body, pre = a ++ 91 :: (name ++ 58 :: body) ∧ 93 ∉ body

/-- Brackets are normalization boundaries: they compose with nothing, and ASCII text
between them is left as it is. -/
def SplitsAtBrackets (nfkc : Nfkc) : Prop :=
  ∀ a m b, (∀ c ∈ m, c < 128) →
    nfkc.normalize (a ++ 91 :: (m ++ 93 :: b)) =
      nfkc.normalize a ++ 91 :: (m ++ 93 :: nfkc.normalize b)

/-- The classes of `tokenChar`. -/
def secretRanges : List (UInt16 × UInt16) :=
  [(65, 90), (97, 122), (48, 57), (46, 46), (95, 95), (126, 126), (43, 43), (47, 47), (45, 45)]

/-- What stands before an assigned secret. -/
def assignment : Regex :=
  cat [b, secretNames, many space, cls [(58, 58), (61, 61)], many space, opt (cls [(39, 39), (34, 34)])]

/-! ### The units of a token -/

/-- The types of the default rules are lower-case names in which no rule matches. -/
theorem type_undetected {type : JsString} (h : type ∈ defaultRules.map Rule.type)
    (scanNumbers : Bool) :
    (type ≠ [] ∧ ∀ c ∈ type, Vault.isTypeUnit c = true) ∧
      textHasDetection type defaultRules (responseContext scanNumbers) = false := by
  have hall : ∀ type ∈ (defaultRules.map Rule.type).dedup,
      (type ≠ [] ∧ ∀ c ∈ type, Vault.isTypeUnit c = true) ∧
        textHasDetection type defaultRules (responseContext false) = false := by decide +kernel
  exact hall type (List.mem_dedup.mpr h)

variable {t : TokenId} {left rest pre post w : JsString}

/-- A class with the letters, the digits and the underscore holds the characters of a token. -/
theorem inSet_of_isTypeUnit {ic : Bool} {ranges : List (UInt16 × UInt16)} {c : UInt16}
    (hranges : (97, 122) ∈ ranges ∧ (48, 57) ∈ ranges ∧ (95, 95) ∈ ranges)
    (h : Vault.isTypeUnit c = true) : inSet ic ranges false c = true := by
  simp only [Vault.isTypeUnit, Bool.or_eq_true, Bool.and_eq_true, beq_iff_eq, decide_eq_true_eq] at h
  rcases h with (h | h) | rfl
  · exact inSet_of_mem hranges.1 h.1 h.2
  · exact inSet_of_mem hranges.2.1 h.1 h.2
  · exact inSet_of_mem hranges.2.2 (UInt16.le_refl _) (UInt16.le_refl _)

theorem inSet_of_isHexUnit {c : UInt16} (h : Vault.isHexUnit c = true) :
    inSet false [(97, 102), (48, 57)] false c = true := by
  simp only [Vault.isHexUnit, Bool.or_eq_true, Bool.and_eq_true, decide_eq_true_eq] at h
  rcases h with h | h
  · exact inSet_of_mem (by decide) h.1 h.2
  · exact inSet_of_mem (by decide) h.1 h.2

theorem isTypeUnit_of_isHexUnit {c : UInt16} (h : Vault.isHexUnit c = true) :
    Vault.isTypeUnit c = true := by
  simp only [Vault.isHexUnit, Vault.isTypeUnit, Bool.or_eq_true, Bool.and_eq_true, decide_eq_true_eq]
    at h ⊢
  rcases h with h | h
  · exact .inl (.inr h)
  · exact .inl (.inl ⟨h.1, UInt16.le_trans h.2 (by decide)⟩)

namespace TokenId

theorem type_ne_nil (t : TokenId) : t.type ≠ [] := (type_undetected t.isRuleType false).1.1

theorem text_eq (t : TokenId) : t.text = js "tok_" ++ (t.type ++ 95 :: t.digits) := by
  simp only [text, Vault.tokenId, List.append_assoc]
  rfl

theorem isTypeUnit_text (t : TokenId) : ∀ c ∈ t.text, Vault.isTypeUnit c = true := by
  intro c hc
  simp only [text_eq, List.mem_append, List.mem_cons] at hc
  rcases hc with hc | hc | rfl | hc
  · revert c
    decide
  · exact (type_undetected t.isRuleType false).1.2 c hc
  · decide
  · exact isTypeUnit_of_isHexUnit (t.isHex c hc)

theorem length_digits_le (t : TokenId) : 16 ≤ t.digits.length := by
  rcases t.length_digits with h | h <;> omega

theorem length_text_le (t : TokenId) : 12 ≤ t.text.length := by
  have := t.length_digits_le
  simp only [text_eq, List.length_append, List.length_cons]
  omega

theorem notMem_text (t : TokenId) {c : UInt16} (h : Vault.isTypeUnit c = false) : c ∉ t.text :=
  fun hc => by rw [t.isTypeUnit_text c hc] at h; cases h

theorem isPlain_text (t : TokenId) : IsPlain t.text :=
  ⟨t.notMem_text (by decide), t.notMem_text (by decide)⟩

end TokenId

/-! ### The token as an assigned secret -/

/-- Backwards from behind `TOKEN` the name of the token is read. -/
theorem matches_secretNames (left right : JsString) : Matches true secretNames .backward
    ⟨(js "TOKEN").reverse ++ left, right⟩ ⟨left, js "TOKEN" ++ right⟩ := by
  have htoken : Matches true (lit "token") .backward ⟨(js "TOKEN").reverse ++ left, right⟩
      ⟨left, js "TOKEN" ++ right⟩ :=
    .seqBackward (.seqBackward (.seqBackward (.seqBackward (.seqBackward .empty (.set rfl))
      (.set rfl)) (.set rfl)) (.set rfl)) (.set rfl)
  iterate 11 apply Matches.altRight
  exact .altLeft htoken

/-- Behind the opening of a token marker stands the name of a secret and a colon. -/
theorem look_tokenOpening (pre right : JsString) :
    (assignment.run true .backward ⟨58 :: ((js "TOKEN").reverse ++ 91 :: pre), right⟩ some).isSome =
      true := by
  have hcolon : Matches true (cls [(58, 58), (61, 61)]) .backward
      ⟨58 :: ((js "TOKEN").reverse ++ 91 :: pre), right⟩
      ⟨(js "TOKEN").reverse ++ 91 :: pre, 58 :: right⟩ := .set rfl
  have hboundary : Matches true b .backward ⟨91 :: pre, js "TOKEN" ++ 58 :: right⟩
      ⟨91 :: pre, js "TOKEN" ++ 58 :: right⟩ := .wordBoundary (show false ≠ true by decide)
  refine Matches.isSome_run (y := ⟨91 :: pre, js "TOKEN" ++ 58 :: right⟩) ?_ rfl
  exact .seqBackward (.seqBackward (.seqBackward (.seqBackward (.seqBackward (.seqBackward .empty
    .repDone) .repDone) hcolon) .repDone) (matches_secretNames _ _)) hboundary

/-- What the assignment rule consumes is a long run of the characters of a secret. -/
theorem consumes_assignment {right : JsString} :
    Consumes true (cat [after assignment, atLeast 12 tokenChar]) left w right ↔
      (assignment.run true .backward ⟨left, w ++ right⟩ some).isSome = true ∧
        12 ≤ w.length ∧ ∀ c ∈ w, inSet true secretRanges false c = true := by
  rw [consumes_cat_cons]
  constructor
  · rintro ⟨u, v, rfl, hu, hv⟩
    obtain ⟨rfl, hlook⟩ := consumes_after.mp hu
    exact ⟨hlook, consumes_rep_set.mp (consumes_cat_one.mp hv)⟩
  · rintro ⟨hlook, hw⟩
    exact ⟨[], w, rfl, consumes_after.mpr ⟨rfl, hlook⟩, consumes_cat_one.mpr (consumes_rep_set.mpr hw)⟩

/-- The assignment rule matches inside the marker of a token, wherever it stands. -/
theorem exists_assignment_hit (pre : JsString) (t : TokenId) (post : JsString) :
    ∃ m ∈ assignmentSecretRule.hits (pre ++ tokenMarker t.text ++ post),
      pre.length < m.start ∧ m.start < m.stop ∧
        m.stop < pre.length + (tokenMarker t.text).length := by
  have htext : pre ++ tokenMarker t.text ++ post =
      (pre ++ js "[TOKEN:") ++ t.text ++ (93 :: post) := by
    simp [tokenMarker, js]
  have hreverse : (pre ++ js "[TOKEN:").reverse = 58 :: ((js "TOKEN").reverse ++ 91 :: pre.reverse) :=
    List.reverse_append
  have hconsumes : Consumes true (cat [after assignment, atLeast 12 tokenChar])
      (pre ++ js "[TOKEN:").reverse t.text (93 :: post) :=
    consumes_assignment.mpr ⟨hreverse ▸ look_tokenOpening _ _, t.length_text_le,
      fun c hc => inSet_of_isTypeUnit (by decide) (t.isTypeUnit_text c hc)⟩
  obtain ⟨m, hm, hstart, hstop⟩ := exists_mem_matchAll
    (fun left right h => by simpa using (consumes_assignment.mp h).2.1) hconsumes
  obtain ⟨a, w, rest, heq, rfl, hw⟩ := exists_of_mem_matchAll hm
  obtain ⟨-, hlen, hall⟩ := consumes_assignment.mp hw
  have hopening : (pre ++ js "[TOKEN:").length = pre.length + 7 := by simp [js]
  have hmarker : (tokenMarker t.text).length = t.text.length + 8 := by simp [tokenMarker, js]
  rw [hopening] at hstart hstop
  simp only at hstart hstop
  -- neither the colon before the token nor the bracket behind it belongs to a secret
  have hafter : pre.length + 7 ≤ a.length := by
    by_contra hlt
    have hcolon : (a ++ w ++ rest)[pre.length + 6]? = some 58 := by
      rw [← heq]
      simp [js]
    exact absurd (hall _ (mem_of_getElem?_middle hcolon (by omega) (by omega))) (by decide)
  have hbefore : a.length + w.length ≤ pre.length + 7 + t.text.length := by
    by_contra hlt
    have hclose : (a ++ w ++ rest)[pre.length + 7 + t.text.length]? = some 93 := by
      rw [← heq, ← hopening, ← List.length_append, List.getElem?_append_right le_rfl, Nat.sub_self]
      rfl
    exact absurd (hall _ (mem_of_getElem?_middle hclose (by omega) (by omega))) (by decide)
  refine ⟨_, mem_hits.mpr ⟨htext ▸ hm, rfl⟩, ?_, ?_, ?_⟩ <;> simp only <;> omega

/-! ### Markers in a text -/

/-- A marker pattern takes the units up to the first closing bracket. -/
theorem consumes_markerPattern {right : JsString} : Consumes false markerPattern left w right ↔
    ∃ name ∈ markerNames, ∃ body, w = 91 :: (name ++ 58 :: (body ++ [93])) ∧ 93 ∉ body := by
  have hnames : ∀ {left w right}, Consumes false (words ["TOKEN", "HAECHI_ENC", "REDACTED"]) left w
      right ↔ w ∈ markerNames := by
    intro left w right
    rw [words, consumes_oneOf (by simp)]
    simp [lit, consumes_text, markerNames]
  have hbody : ∀ {c : UInt16}, inSet false [(93, 93)] true c = true ↔ c ≠ 93 := by
    intro c
    rw [← not_iff_not, Bool.not_eq_true, not_not, ← inSet_unit (c := 93) (d := c)]
    simp [inSet]
  simp only [markerPattern, many, consumes_cat_cons, consumes_cat_nil, consumes_unit, hnames,
    consumes_rep_set, hbody]
  constructor
  · rintro ⟨_, _, rfl, rfl, name, _, rfl, hname, _, _, rfl, rfl, body, _, rfl, ⟨-, hnot⟩, _, _, rfl,
      rfl, rfl⟩
    exact ⟨name, hname, body, rfl, fun h => hnot 93 h rfl⟩
  · rintro ⟨name, hname, body, rfl, hnot⟩
    exact ⟨[91], _, rfl, rfl, name, _, rfl, hname, [58], _, rfl, rfl, body, [93], rfl,
      ⟨Nat.zero_le _, fun c hc heq => hnot (heq ▸ hc)⟩, [93], [], rfl, rfl, rfl⟩

theorem consumes_tokenMarker (left : JsString) (t : TokenId) (right : JsString) :
    Consumes false markerPattern left (tokenMarker t.text) right :=
  consumes_markerPattern.mpr ⟨js "TOKEN", by decide, t.text, rfl, t.isPlain_text.2⟩

theorem not_consumes_nil {right : JsString} : ¬Consumes false markerPattern left [] right := by
  intro h
  obtain ⟨name, -, body, h, -⟩ := consumes_markerPattern.mp h
  cases h

theorem notMem_of_markerNames : ∀ name ∈ markerNames, 91 ∉ name ∧ 93 ∉ name ∧ 58 ∉ name := by decide

/-- The part of the text that holds the marker. -/
def markerSpan (pre : JsString) (t : TokenId) : Span :=
  ⟨pre.length, pre.length + (tokenMarker t.text).length⟩

/-- Two texts that go up to the first closing bracket are one. -/
theorem eq_of_append_close {u v : JsString} (hu : 93 ∉ u) (hv : 93 ∉ v)
    (h : u ++ 93 :: left = v ++ 93 :: w) : u = v := by
  have htake : ∀ {u s : JsString}, 93 ∉ u → (u ++ 93 :: s).takeWhile (· ≠ 93) = u := by
    intro u s hu
    have hne : ∀ c ∈ u, decide (c ≠ 93) = true := fun c hc =>
      decide_eq_true fun heq => hu (heq ▸ hc)
    rw [List.takeWhile_append_of_pos hne]
    simp
  rw [← htake hu, h, htake hv]

theorem tokenMarker_eq (token : JsString) :
    tokenMarker token = 91 :: (js "TOKEN" ++ 58 :: (token ++ [93])) := rfl

/-- The match that starts at the marker of a token is that marker. -/
theorem eq_tokenMarker {name body : JsString} (hname : name ∈ markerNames) (hbody : 93 ∉ body)
    (h : tokenMarker t.text ++ post = 91 :: (name ++ 58 :: (body ++ [93])) ++ rest) :
    91 :: (name ++ 58 :: (body ++ [93])) = tokenMarker t.text := by
  have hclose : ∀ n ∈ markerNames, ∀ b, 93 ∉ b → 93 ∉ 91 :: (n ++ 58 :: b) := by
    intro n hn b hb
    simp [(notMem_of_markerNames n hn).2.1, hb]
  have hinner : 91 :: (js "TOKEN" ++ 58 :: t.text) = 91 :: (name ++ 58 :: body) :=
    eq_of_append_close (hclose _ (by decide) _ t.isPlain_text.2) (hclose _ hname _ hbody)
      (by simpa [tokenMarker_eq] using h)
  have happend := congrArg (· ++ [93]) hinner
  simpa [tokenMarker_eq] using happend.symm

/-- A text in front of a bracket that a marker match runs over leaves the marker open. -/
theorem exists_body_of_open {c name body : JsString} (hname : name ∈ markerNames) (hbody : 93 ∉ body)
    (hc : c ≠ []) (heq : c ++ 91 :: left = 91 :: (name ++ 58 :: (body ++ 93 :: rest)))
    (hlen : c.length < name.length + body.length + 3) :
    ∃ b, c = 91 :: (name ++ 58 :: b) ∧ 93 ∉ b := by
  obtain ⟨hopen, -, -⟩ := notMem_of_markerNames name hname
  obtain ⟨d, c, rfl⟩ := List.exists_cons_of_ne_nil hc
  rw [List.cons_append, List.cons.injEq] at heq
  obtain ⟨rfl, heq⟩ := heq
  rcases List.append_eq_append_iff.mp heq with ⟨d, hd, hrest⟩ | ⟨d, rfl, hrest⟩
  · cases d with
    | nil => simp at hrest
    | cons d ds =>
      rw [List.cons_append, List.cons.injEq] at hrest
      exact absurd (by rw [hd, ← hrest.1]; simp) hopen
  · cases d with
    | nil => simp at hrest
    | cons d b =>
      rw [List.cons_append, List.cons.injEq] at hrest
      obtain ⟨rfl, hrest⟩ := hrest
      have hpre : b <+: body := List.prefix_of_prefix_length_le
        (hrest ▸ List.prefix_append b _) (List.prefix_append body _) (by simp at hlen; omega)
      exact ⟨b, rfl, fun h => hbody (hpre.subset h)⟩

/-- Where no marker is left open, the marker of a token is a match of its own. -/
theorem mem_markers_of_not_leavesOpen (h : ¬LeavesOpen pre) (t : TokenId) (post : JsString) :
    markerSpan pre t ∈ markerPattern.matchAll false (pre ++ tokenMarker t.text ++ post) := by
  obtain ⟨m, hm, hstart, hstop⟩ := exists_mem_matchAll (fun _ _ => not_consumes_nil)
    (consumes_tokenMarker pre.reverse t post)
  obtain ⟨a, w, rest, heq, rfl, hw⟩ := exists_of_mem_matchAll hm
  obtain ⟨name, hname, body, rfl, hbody⟩ := consumes_markerPattern.mp hw
  simp only [List.append_assoc] at heq hstart hstop
  obtain ⟨c, rfl⟩ : a <+: pre := List.prefix_of_prefix_length_le
    (heq ▸ List.prefix_append a _) (List.prefix_append pre _) hstart
  rw [List.append_assoc, List.append_cancel_left_eq] at heq
  by_cases hc : c = []
  · subst hc
    have hmarker := eq_tokenMarker hname hbody heq
    rw [hmarker] at hm
    simpa [markerSpan] using hm
  · refine absurd ?_ h
    obtain ⟨b, rfl, hb⟩ := exists_body_of_open hname hbody hc (by simpa [tokenMarker_eq] using heq)
      (by simp at hstop; omega)
    exact ⟨a, name, hname, b, rfl, hb⟩

/-- A marker that is left open takes the marker of a token into its match. -/
theorem notMem_markers_of_leavesOpen (h : LeavesOpen pre) (t : TokenId) (post : JsString) :
    markerSpan pre t ∉ markerPattern.matchAll false (pre ++ tokenMarker t.text ++ post) := by
  obtain ⟨a, name, hname, body, rfl, hbody⟩ := h
  intro hspan
  let swallowed := body ++ 91 :: (js "TOKEN" ++ 58 :: t.text)
  have hswallowed : 93 ∉ swallowed := by
    have := t.isPlain_text.2
    simp [swallowed, hbody, this, js]
  have hconsumes : Consumes false markerPattern a.reverse (91 :: (name ++ 58 :: (swallowed ++ [93])))
      post := consumes_markerPattern.mpr ⟨name, hname, swallowed, rfl, hswallowed⟩
  obtain ⟨m, hm, hstart, hstop⟩ := exists_mem_matchAll (fun _ _ => not_consumes_nil) hconsumes
  have htext : a ++ 91 :: (name ++ 58 :: (swallowed ++ [93])) ++ post =
      a ++ 91 :: (name ++ 58 :: body) ++ tokenMarker t.text ++ post := by
    simp [swallowed, tokenMarker_eq]
  rw [htext] at hm
  -- the match that holds the opening ends before the marker, where no bracket closes
  have hbefore : m.stop ≤ (a ++ 91 :: (name ++ 58 :: body)).length := by
    have hne : m ≠ markerSpan (a ++ 91 :: (name ++ 58 :: body)) t := by
      rintro rfl
      simp [markerSpan] at hstart
    refine (matchAll_disjoint hm hspan hne).resolve_right ?_
    simp [markerSpan]
    omega
  obtain ⟨a', w, rest, heq, rfl, hw⟩ := exists_of_mem_matchAll hm
  obtain ⟨name', -, body', rfl, -⟩ := consumes_markerPattern.mp hw
  simp only at hstart hstop hbefore
  have hlen : (91 :: (name' ++ 58 :: (body' ++ [93]))).length =
      (91 :: (name' ++ 58 :: body')).length + 1 := by
    simp only [List.length_cons, List.length_append, List.length_nil]
    omega
  have hclose : (a' ++ 91 :: (name' ++ 58 :: (body' ++ [93])) ++ rest)[
      (a' ++ 91 :: (name' ++ 58 :: body')).length]? = some 93 := by
    have : a' ++ 91 :: (name' ++ 58 :: (body' ++ [93])) ++ rest =
        (a' ++ 91 :: (name' ++ 58 :: body')) ++ 93 :: rest := by simp
    rw [this, List.getElem?_append_right le_rfl, Nat.sub_self]
    rfl
  rw [← heq, List.append_assoc] at hclose
  rw [hlen] at hstop hbefore
  have hmem := mem_of_getElem?_middle hclose (by rw [List.length_append]; omega)
    (by rw [List.length_append] at hbefore ⊢; omega)
  have hname' := (notMem_of_markerNames name hname).2.1
  simp [hname', hbody] at hmem

/-! ### Genuine markers -/

/-- The parts of a marker. -/
theorem markerParts_snd {name body : JsString} (hname : name ∈ markerNames) :
    (markerParts (91 :: (name ++ 58 :: (body ++ [93])))).2 = body := by
  have hne : ∀ c ∈ name, decide (c ≠ 58) = true := fun c hc =>
    decide_eq_true fun heq => (notMem_of_markerNames name hname).2.2 (heq ▸ hc)
  rw [markerParts]
  simp only
  rw [List.dropWhile_cons_of_pos (by decide), List.dropWhile_append_of_pos hne]
  simp

theorem mem_of_mapM_eq_some {α β : Type} {f : α → Option β} {s : List α} {l : List β}
    (h : s.mapM f = some l) : ∀ a ∈ s, (f a).isSome = true := by
  induction s generalizing l with
  | nil => simp
  | cons a s ih =>
    rw [List.mapM_cons] at h
    obtain ⟨b, hb, h⟩ := Option.bind_eq_some_iff.mp h
    obtain ⟨bs, hbs, -⟩ := Option.bind_eq_some_iff.mp h
    exact List.forall_mem_cons.mpr ⟨by rw [hb]; rfl, ih hbs⟩

/-- A genuine marker holds no opening bracket inside. -/
theorem notMem_of_isGenuineMarker {rules : List Rule} {ctx : Context} (marker : JsString)
    (h : isGenuineMarker marker rules ctx = true) : 91 ∉ (markerParts marker).2 := by
  have hmatch : ∀ (r : Regex) (s : JsString), r.avoids false 91 = true → r.isMatch s = true → 91 ∉ s :=
    fun r s hr h => (isMatch_iff.mp h).notMem hr
  rw [isGenuineMarker] at h
  generalize markerParts marker = parts at h
  obtain ⟨kind, inner⟩ := parts
  cases kind with
  | token =>
    simp only [isGenuineTokenInner, Bool.and_eq_true, Bool.or_eq_true] at h
    rcases h.1 with h | h
    · exact hmatch _ _ (by decide) h
    · exact hmatch _ _ (by decide) h
  | redacted =>
    simp only [isGenuineRedactedInner, Bool.and_eq_true] at h
    exact hmatch _ _ (by decide) h.1
  | encrypted =>
    intro hmem
    cases hbytes : Base64.url.decode inner with
    | none => simp [isGenuineEncInner, hbytes] at h
    | some bytes =>
      obtain ⟨digits, hdigits, -⟩ := Option.bind_eq_some_iff.mp hbytes
      exact absurd (mem_of_mapM_eq_some hdigits 91 hmem) (by decide)

/-- The text in front of the last separator, where hexadecimal digits follow it. -/
theorem beforeHex_append {separator c : UInt16} {n : ℕ} {before digits : JsString}
    (hdigits : ∀ d ∈ digits, Vault.isHexUnit d = true) (hc : Vault.isHexUnit c = false) :
    beforeHex separator n (before ++ c :: digits) =
      if c = separator ∧ n ≤ digits.length ∧ before ≠ [] ∧ ¬before.any isTerminator then some before
      else none := by
  have hhex : ∀ d, ((97 ≤ d && d ≤ 102) || (48 ≤ d && d ≤ 57)) = Vault.isHexUnit d := fun d =>
    Bool.or_comm _ _
  have hreverse : ∀ d ∈ digits.reverse, Vault.isHexUnit d = true := fun d hd =>
    hdigits d (List.mem_reverse.mp hd)
  simp only [beforeHex, hhex, List.reverse_append, List.reverse_cons, List.append_assoc,
    List.singleton_append, List.dropWhile_append_of_pos hreverse,
    List.takeWhile_append_of_pos hreverse, List.dropWhile_cons, List.takeWhile_cons, hc,
    Bool.false_eq_true, if_false, List.append_nil, List.length_reverse, List.reverse_reverse,
    List.any_reverse, ne_eq, List.reverse_eq_nil_iff]

namespace TokenId

theorem notTerminator (t : TokenId) : t.type.any isTerminator = false := by
  refine List.any_eq_false.mpr fun c hc hterminator => ?_
  have hunit := (type_undetected t.isRuleType false).1.2 c hc
  rcases isTerminator_iff.mp hterminator with rfl | rfl | rfl | rfl <;> simp [Vault.isTypeUnit] at hunit

/-- The texts in which a secret could hide are the token and its type. -/
theorem secretSurfaces (t : TokenId) : markerSecretSurfaces .token t.text = [t.text, t.type] := by
  have hvault : (stripPrefix (js "tok_") t.text).bind (beforeHex 95 16) = some t.type := by
    rw [text_eq, stripPrefix_append, Option.bind_some, beforeHex_append t.isHex (by decide),
      if_pos ⟨rfl, t.length_digits_le, t.type_ne_nil, by simp [t.notTerminator]⟩]
  have hplain : beforeHex 58 8 t.text = none := by
    rw [text_eq, ← List.append_assoc, beforeHex_append t.isHex (by decide)]
    exact if_neg fun h => absurd h.1 (by decide)
  rw [markerSecretSurfaces, if_pos rfl, hvault, hplain]
  rfl

theorem isGenuineTokenInner (t : TokenId) : Filter.isGenuineTokenInner t.text = true := by
  have hword : ∀ c ∈ t.type, inSet false [(97, 122), (48, 57), (95, 95)] false c = true := fun c hc =>
    inSet_of_isTypeUnit (by decide) ((type_undetected t.isRuleType false).1.2 c hc)
  have hhex : ∀ c ∈ t.digits, inSet false [(97, 102), (48, 57)] false c = true := fun c hc =>
    inSet_of_isHexUnit (t.isHex c hc)
  have hmatch : markerVaultToken.isMatch t.text = true := by
    refine isMatch_iff.mpr (consumes_cat_cons.mpr ⟨js "tok_", _, t.text_eq, consumes_text.mpr rfl, ?_⟩)
    refine consumes_cat_cons.mpr ⟨t.type, _, rfl, consumes_rep_set.mpr
      ⟨List.length_pos_iff.mpr t.type_ne_nil, hword⟩, ?_⟩
    refine consumes_cat_cons.mpr ⟨[95], t.digits, rfl, consumes_unit.mpr rfl, ?_⟩
    exact consumes_cat_one.mpr (consumes_rep_set.mpr ⟨t.length_digits_le, hhex⟩)
  rw [Filter.isGenuineTokenInner, hmatch, Bool.true_or]

/-- The marker of a token is genuine where no rule matches in the token. -/
theorem isGenuineMarker_iff (t : TokenId) (scanNumbers : Bool) :
    isGenuineMarker (tokenMarker t.text) defaultRules (responseContext scanNumbers) = true ↔
      textHasDetection t.text defaultRules (responseContext scanNumbers) = false := by
  have hparts : markerParts (tokenMarker t.text) = (.token, t.text) :=
    Prod.ext rfl (markerParts_snd (by decide : js "TOKEN" ∈ markerNames))
  rw [isGenuineMarker, hparts]
  simp only [t.isGenuineTokenInner, innerContainsDetection, t.secretSurfaces, List.any_cons,
    List.any_nil, (type_undetected t.isRuleType scanNumbers).2, Bool.or_false, Bool.true_and,
    Bool.not_eq_true']

end TokenId

/-! ### What the scan leaves out -/

variable {scanNumbers : Bool}

/-- A genuine marker that overlaps the marker of a token is that marker. -/
theorem eq_markerSpan {rules : List Rule} {ctx : Context} {m : Span}
    (h : m ∈ haechiMarkerSpans (pre ++ tokenMarker t.text ++ post) rules ctx)
    (hstart : m.start < pre.length + (tokenMarker t.text).length) (hstop : pre.length < m.stop) :
    m = markerSpan pre t := by
  obtain ⟨hm, hgenuine⟩ := List.mem_filter.mp h
  obtain ⟨a, w, rest, heq, rfl, hw⟩ := exists_of_mem_matchAll hm
  obtain ⟨name, hname, body, rfl, hbody⟩ := consumes_markerPattern.mp hw
  have hmarker : IsMarker (91 :: (name ++ 58 :: (body ++ [93]))) := by
    obtain ⟨hopen, hclose, -⟩ := notMem_of_markerNames name hname
    have hinner := notMem_of_isGenuineMarker _ hgenuine
    rw [heq, slice_middle, markerParts_snd hname] at hinner
    exact ⟨name ++ 58 :: body, by simp, by simp [hopen, hinner], by simp [hclose, hbody]⟩
  obtain ⟨rfl, hsame⟩ := hmarker.eq_of_overlap (isMarker_tokenMarker t.isPlain_text) heq.symm hstop hstart
  rw [markerSpan, ← hsame]

/-- The marker of a token is left out of the scan exactly when it is a genuine match. -/
theorem markerSpan_mem_iff (pre : JsString) (t : TokenId) (post : JsString) :
    markerSpan pre t ∈ haechiMarkerSpans (pre ++ tokenMarker t.text ++ post) defaultRules
        (responseContext scanNumbers) ↔
      ¬LeavesOpen pre ∧
        textHasDetection t.text defaultRules (responseContext scanNumbers) = false := by
  have hslice : slice (pre ++ tokenMarker t.text ++ post) (markerSpan pre t).start
      (markerSpan pre t).stop = tokenMarker t.text := slice_middle _ _ _
  rw [haechiMarkerSpans, List.mem_filter, hslice, t.isGenuineMarker_iff]
  refine and_congr_left fun _ => ⟨fun h hopen => ?_, fun h => ?_⟩
  · exact notMem_markers_of_leavesOpen hopen t post h
  · exact mem_markers_of_not_leavesOpen h t post

theorem lt_of_mem_tokenMarker (t : TokenId) : ∀ c ∈ tokenMarker t.text, c < 128 := by
  have hunit : ∀ c, Vault.isTypeUnit c = true → c < 128 := by
    intro c h
    simp only [Vault.isTypeUnit, Bool.or_eq_true, Bool.and_eq_true, beq_iff_eq, decide_eq_true_eq] at h
    rcases h with (h | h) | rfl
    · exact UInt16.lt_of_le_of_lt h.2 (by decide)
    · exact UInt16.lt_of_le_of_lt h.2 (by decide)
    · decide
  intro c hc
  simp only [tokenMarker, List.mem_append] at hc
  rcases hc with (hc | hc) | hc
  · revert c
    decide
  · exact hunit c (t.isTypeUnit_text c hc)
  · revert c
    decide

variable {nfkc : Nfkc}

/-- A folding that keeps the offsets keeps the marker at its place. -/
theorem exists_normalize_of_isAligned
    (h : isAligned nfkc (pre ++ tokenMarker t.text ++ post) = true) :
    ∃ pre' post', nfkc.normalize (pre ++ tokenMarker t.text ++ post) =
      pre' ++ tokenMarker t.text ++ post' ∧ pre'.length = pre.length := by
  simp only [isAligned, isPositionStableNfkc, Bool.or_eq_true, Bool.and_eq_true, beq_iff_eq] at h
  rcases h with h | ⟨hlengths, h⟩
  · exact ⟨pre, post, h, rfl⟩
  · have hcut : codePoints (pre ++ tokenMarker t.text ++ post) =
        codePoints pre ++ ((tokenMarker t.text).map (fun c => [c]) ++ codePoints post) := by
      rw [← codePoints_ascii_append (lt_of_mem_tokenMarker t), List.append_assoc, tokenMarker_eq,
        List.cons_append, codePoints_append (by decide)]
    have hmarker : ∀ w : JsString, (∀ c ∈ w, c < 128) →
        (w.map fun c => [c]).flatMap nfkc.normalize = w := by
      intro w hw
      rw [List.flatMap_map]
      calc w.flatMap (fun c => nfkc.normalize [c]) = w.flatMap fun c => [c] :=
            List.flatMap_congr fun c hc => nfkc.ascii [c] (by simpa using hw c hc)
        _ = w := List.flatMap_singleton' w
    rw [hcut] at h hlengths
    rw [List.all_append, Bool.and_eq_true, List.all_eq_true] at hlengths
    refine ⟨(codePoints pre).flatMap nfkc.normalize, (codePoints post).flatMap nfkc.normalize, ?_, ?_⟩
    · rw [← h, List.flatMap_append, List.flatMap_append, hmarker _ (lt_of_mem_tokenMarker t),
        List.append_assoc]
    · have hlen : (codePoints pre).map (fun p => (nfkc.normalize p).length) =
          (codePoints pre).map List.length :=
        List.map_congr_left fun p hp => beq_iff_eq.mp (hlengths.1 p hp)
      rw [List.length_flatMap, hlen, ← List.length_flatten, flatten_codePoints]

/-! ### What the scan reports -/

theorem assignmentSecretRule_mem : assignmentSecretRule ∈ defaultRules := by
  simp [defaultRules]

/-- Overlaps are resolved for a detection inside the marker by one that touches it. -/
theorem exists_touches_removeOverlaps {ds : List Detection} {d : Detection} (hd : d ∈ ds)
    (hstart : pre.length < d.start) (hlt : d.start < d.stop)
    (hstop : d.stop < pre.length + (tokenMarker t.text).length) :
    ∃ d ∈ removeOverlaps ds, Touches pre t d := by
  rcases Select.select_covers hd with h | ⟨a, ha, hle, hover⟩
  · exact ⟨d, h, by omega, by omega⟩
  · exact ⟨a, ha, by omega, by omega⟩

/-- A scan that keeps offsets reports nothing of the marker exactly when it leaves it out. -/
theorem scanForDetections_untouched_iff {pre' post' : JsString} (path : Path) (pathText : JsString)
    (hlen : pre'.length = pre.length) :
    (∀ d ∈ removeOverlaps (scanForDetections (pre' ++ tokenMarker t.text ++ post') defaultRules
        (responseContext scanNumbers)
        (markerSpans (echo path pathText pre t post) defaultRules (responseContext scanNumbers))
        (echo path pathText pre t post) (echo path pathText pre t post).value), ¬Touches pre t d) ↔
      markerSpan pre t ∈ haechiMarkerSpans (pre ++ tokenMarker t.text ++ post) defaultRules
        (responseContext scanNumbers) := by
  constructor
  · intro h
    by_contra hspan
    obtain ⟨m, hm, hstart, hlt, hstop⟩ := exists_assignment_hit pre' t post'
    rw [hlen] at hstart hstop
    have hout : overlapsAny m.start m.stop (haechiMarkerSpans (pre ++ tokenMarker t.text ++ post)
        defaultRules (responseContext scanNumbers)) = false := by
      refine List.any_eq_false.mpr fun s hs hoverlap => hspan ?_
      simp only [Bool.and_eq_true, decide_eq_true_eq] at hoverlap
      exact eq_markerSpan hs (by omega) (by omega) ▸ hs
    let entry := echo path pathText pre t post
    have hmem : entry.detection assignmentSecretRule m (slice entry.value m.start m.stop) ∈
        scanForDetections (pre' ++ tokenMarker t.text ++ post') defaultRules
          (responseContext scanNumbers) (markerSpans entry defaultRules (responseContext scanNumbers))
          entry entry.value :=
      mem_scanForDetections.mpr ⟨assignmentSecretRule, assignmentSecretRule_mem, rfl, m, hm, hout, rfl⟩
    obtain ⟨d, hd, htouches⟩ := exists_touches_removeOverlaps hmem hstart hlt hstop
    exact h d hd htouches
  · rintro hspan d hd ⟨hstart, hstop⟩
    obtain ⟨r, -, -, m, -, hout, rfl⟩ := mem_scanForDetections.mp (removeOverlaps_subset hd)
    refine List.any_eq_false.mp hout _ hspan ?_
    rw [Bool.and_eq_true, decide_eq_true_eq, decide_eq_true_eq]
    exact ⟨hstart, hstop⟩

/-- A folding that moves offsets has the whole leaf reported for the marker in it. -/
theorem exists_touches_of_not_isAligned (hnfkc : SplitsAtBrackets nfkc) (path : Path)
    (pathText : JsString)
    (h : isAligned nfkc (echo path pathText pre t post).value = false) :
    ∃ d ∈ scanEntry nfkc (echo path pathText pre t post) defaultRules (responseContext scanNumbers),
      Touches pre t d := by
  have hascii : ∀ c ∈ js "TOKEN" ++ 58 :: t.text, c < 128 := fun c hc =>
    lt_of_mem_tokenMarker t c (by
      rw [tokenMarker_eq]
      simp only [List.mem_append, List.mem_cons] at hc ⊢
      tauto)
  have hnormalize : nfkc.normalize (echo path pathText pre t post).value =
      nfkc.normalize pre ++ tokenMarker t.text ++ nfkc.normalize post := by
    simpa [echo, tokenMarker_eq] using hnfkc pre (js "TOKEN" ++ 58 :: t.text) post hascii
  obtain ⟨m, hm, -⟩ := exists_assignment_hit (nfkc.normalize pre) t (nfkc.normalize post)
  rw [← hnormalize] at hm
  have happlies : assignmentSecretRule.applies (responseContext scanNumbers) = true := rfl
  obtain ⟨d, hd, -, hstart, hstop⟩ := exists_wholeLeaf_of_hit (echo path pathText pre t post)
    assignmentSecretRule_mem happlies (List.ne_nil_of_mem hm)
  have hmarker : 0 < (tokenMarker t.text).length := by simp [tokenMarker_eq]
  refine ⟨d, ?_, by omega, ?_⟩
  · rw [scanEntry, if_neg (by simp [skipsNumber, echo]), if_neg (by simp [h])]
    exact hd
  · rw [hstop]
    simp only [echo, List.length_append]
    omega

/-- The scan of a response leaf reports nothing that overlaps an echoed token exactly when
the folding keeps offsets, no marker is left open before the token, and no rule matches in
the token itself. -/
theorem echo_untouched_iff (hnfkc : SplitsAtBrackets nfkc) (path : Path)
    (pathText pre : JsString) (t : TokenId) (post : JsString) (scanNumbers : Bool) :
    (∀ d ∈ scanEntry nfkc (echo path pathText pre t post) defaultRules (responseContext scanNumbers),
        ¬Touches pre t d) ↔
      isAligned nfkc (echo path pathText pre t post).value = true ∧ ¬LeavesOpen pre ∧
        textHasDetection t.text defaultRules (responseContext scanNumbers) = false := by
  cases haligned : isAligned nfkc (echo path pathText pre t post).value with
  | false =>
    simp only [Bool.false_eq_true, false_and, iff_false, not_forall, not_not, exists_prop]
    exact exists_touches_of_not_isAligned hnfkc path pathText haligned
  | true =>
    obtain ⟨pre', post', hnormalize, hlen⟩ := exists_normalize_of_isAligned haligned
    rw [← markerSpan_mem_iff pre t post, ← scanForDetections_untouched_iff path pathText hlen,
      ← hnormalize, scanEntry, if_neg (by simp [skipsNumber, echo]), if_pos haligned]
    simp only [true_and]
    rfl

theorem mem_of_leavesOpen (h : LeavesOpen pre) : 91 ∈ pre := by
  obtain ⟨a, name, -, body, rfl, -⟩ := h
  simp

/-- A folding of the half sign, which makes three characters of one. -/
def halves : Nfkc where
  normalize s := s.flatMap fun c => if c = 0xbd then [49, 0x2044, 50] else [c]
  ascii s hs := by
    have hsame : ∀ c ∈ s, (if c = 0xbd then [49, 0x2044, 50] else [c]) = [c] := fun c hc =>
      if_neg fun heq => absurd (heq ▸ hs c hc) (by decide)
    exact (List.flatMap_congr hsame).trans (List.flatMap_singleton' s)

theorem splitsAtBrackets_halves : SplitsAtBrackets halves := by
  intro a m b hm
  have hsame : halves.normalize m = m := halves.ascii m hm
  simp only [halves, List.flatMap_append, List.flatMap_cons] at hsame ⊢
  rw [hsame]
  rfl

/-- A token whose digits have no checksum of a rule. -/
def plainToken : TokenId where
  type := js "email"
  digits := js "0123456789abcdef"
  isRuleType := by decide
  length_digits := by decide
  isHex := by decide

/-- The plain token is left alone among ASCII text, and not behind a half sign. -/
theorem echo_plainToken :
    (∀ d ∈ scanEntry halves (echo [] [] (js "Mail to ") plainToken []) defaultRules
        (responseContext false), ¬Touches (js "Mail to ") plainToken d) ∧
      ∃ d ∈ scanEntry halves (echo [] [] [0xbd] plainToken []) defaultRules (responseContext false),
        Touches [0xbd] plainToken d := by
  constructor
  · refine (echo_untouched_iff splitsAtBrackets_halves _ _ _ _ _ _).mpr ⟨by decide +kernel, ?_, ?_⟩
    · exact fun h => absurd (mem_of_leavesOpen h) (by decide)
    · decide +kernel
  · by_contra h
    have hiff := echo_untouched_iff splitsAtBrackets_halves [] [] [0xbd] plainToken [] false
    have haligned := (hiff.mp fun d hd htouches => h ⟨d, hd, htouches⟩).1
    revert haligned
    decide +kernel

/-- A token whose first digits are a citizen service number by its checksum. -/
def checksumToken : TokenId where
  type := js "email"
  digits := js "111222333abcdef0"
  isRuleType := by decide
  length_digits := by decide
  isHex := by decide

/-- The marker of such a token, alone in its leaf, is detected. -/
theorem echo_checksumToken :
    ∃ d ∈ scanEntry Nfkc.plain (echo [] [] [] checksumToken []) defaultRules (responseContext false),
      Touches [] checksumToken d := by
  decide +kernel

end Haechi.Proxy
