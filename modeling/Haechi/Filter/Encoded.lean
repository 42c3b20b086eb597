import Haechi.Filter.Scan
import Haechi.Text.Base64
import Haechi.Text.Matching
import Haechi.Text.Paired
import Haechi.Text.Percent

/-! Encoded leaves. The decoding pass reads a leaf as base64, in the standard alphabet with
padding or in the alphabet for addresses without, or as a text with percent escapes. Proved:
a leaf is decoded to a text exactly when it is one of the encodings of it, of a length in
range; and so the pass reports a type exactly when a rule of it that the pass trusts matches
the text that the leaf encodes. -/

namespace Haechi.Filter

open Text Regex

/-! ### Encodings -/

/-- The text of base64 with its padding. -/
def padded (bytes : List ℕ) : JsString :=
  Base64.standard.encode bytes ++
    List.replicate ((4 - (Base64.standard.encode bytes).length % 4) % 4) 61

/-- The texts that encode a text. -/
inductive Encoded (text : JsString) : JsString → Prop
  | base64 (hne : text ≠ []) (hwell : toWellFormed text = text) :
      Encoded text (padded (encodeUtf8 text))
  | base64url (hne : text ≠ []) (hwell : toWellFormed text = text) :
      Encoded text (Base64.url.encode (encodeUtf8 text))
  | percent {value : JsString} (hne : text ≠ value) (h : Escapes text value) : Encoded text value

/-! ### The two alphabets -/

theorem inSet_point (a c : UInt16) : (decide (a ≤ c) && decide (c ≤ a)) = decide (c = a) := by
  rw [← Bool.decide_and, decide_eq_decide]
  exact ⟨fun h => UInt16.le_antisymm h.2 h.1, fun h => h ▸ ⟨UInt16.le_refl _, UInt16.le_refl _⟩⟩

theorem inSet_standard (c : UInt16) :
    inSet false [(65, 90), (97, 122), (48, 57), (43, 43), (47, 47)] false c =
      (Base64.standard.digit? c).isSome := by
  unfold Base64.digit?
  simp only [inSet, inRanges, Bool.false_and, Bool.or_false, Bool.bne_false, List.any_cons,
    List.any_nil, inSet_point]
  split_ifs <;> simp_all

theorem inSet_url (c : UInt16) :
    inSet false [(65, 90), (97, 122), (48, 57), (95, 95), (45, 45)] false c =
      (Base64.url.digit? c).isSome := by
  unfold Base64.digit?
  simp only [inSet, inRanges, Bool.false_and, Bool.or_false, Bool.bne_false, List.any_cons,
    List.any_nil, inSet_point]
  split_ifs <;> simp_all

theorem isMatch_base64Std {value : JsString} : base64Std.isMatch value = true ↔
    ∃ body n, value = body ++ List.replicate n 61 ∧ n ≤ 2 ∧ body ≠ [] ∧
      ∀ c ∈ body, (Base64.standard.digit? c).isSome = true := by
  have hpadding : ∀ c, inSet false [(61, 61)] false c = true ↔ c = 61 := fun c => inSet_unit
  rw [isMatch_iff, base64Std, consumes_cat_cons]
  simp only [consumes_cat_one, plus, cls, between, unit, consumes_rep_set,
    consumes_rep_set_le (Nat.zero_le 2), inSet_standard, hpadding]
  constructor
  · rintro ⟨body, tail, rfl, ⟨hbody, hunits⟩, ⟨-, hlen⟩, htail⟩
    refine ⟨body, tail.length, ?_, hlen, List.ne_nil_of_length_pos hbody, hunits⟩
    rw [List.eq_replicate_iff.mpr ⟨rfl, htail⟩, List.length_replicate]
  · rintro ⟨body, n, rfl, hn, hbody, hunits⟩
    refine ⟨body, _, rfl, ⟨List.length_pos_of_ne_nil hbody, hunits⟩, ?_, ?_⟩
    · simpa using hn
    · exact fun c hc => List.eq_of_mem_replicate hc

theorem isMatch_urlSafe {value : JsString} : (plus urlSafe).isMatch value = true ↔
    value ≠ [] ∧ ∀ c ∈ value, (Base64.url.digit? c).isSome = true := by
  rw [isMatch_iff, plus, urlSafe, cls, consumes_rep_set]
  simp only [inSet_url, Nat.one_le_iff_ne_zero, ne_eq, List.length_eq_zero_iff]

/-- Taking off the padding leaves the text of base64. -/
theorem rdropWhile_padding {body : JsString}
    (h : ∀ c ∈ body, (Base64.standard.digit? c).isSome = true) (n : ℕ) :
    (body ++ List.replicate n 61).rdropWhile (· == 61) = body := by
  induction n with
  | zero =>
    rw [List.replicate_zero, List.append_nil, List.rdropWhile_eq_self_iff]
    intro hne hlast
    have hdigit := h _ (List.getLast_mem hne)
    rw [beq_iff_eq.mp hlast] at hdigit
    revert hdigit
    decide
  | succ n ih =>
    rw [List.replicate_succ', ← List.append_assoc, List.rdropWhile_concat_pos _ _ _ rfl, ih]

/-! ### Base64 -/

theorem isSome_digit?_encode {v : Base64} {bytes : List ℕ} (h : ∀ b ∈ bytes, b < 256) :
    ∀ c ∈ v.encode bytes, (v.digit? c).isSome = true := by
  intro c hc
  obtain ⟨n, hn, rfl⟩ := List.mem_map.mp hc
  rw [Base64.digit?_letter v n (Base64.sextetsOfBytes_lt h n hn)]
  rfl

/-- Where both alphabets have the units of a text, they read it alike. -/
theorem decode_standard_of_url {value : JsString}
    (h : ∀ c ∈ value, (Base64.standard.digit? c).isSome = true) {bytes : List ℕ}
    (hurl : Base64.url.decode value = some bytes) : Base64.standard.decode value = some bytes := by
  have hdigit : ∀ c n, (Base64.standard.digit? c).isSome = true → Base64.url.digit? c = some n →
      Base64.standard.digit? c = some n := by
    intro c n hc hn
    unfold Base64.digit? at hc hn ⊢
    split_ifs at hc hn ⊢ <;> simp_all
  have hmap : ∀ (s : JsString) (ns : List ℕ),
      (∀ c ∈ s, (Base64.standard.digit? c).isSome = true) →
        s.mapM Base64.url.digit? = some ns → s.mapM Base64.standard.digit? = some ns := by
    intro s
    induction s with
    | nil => exact fun ns _ hns => hns
    | cons c s ih =>
      intro ns hs hns
      rw [List.mapM_cons] at hns ⊢
      obtain ⟨n, hn, hrest⟩ := Option.bind_eq_some_iff.mp hns
      obtain ⟨ns', hns', heq⟩ := Option.bind_eq_some_iff.mp hrest
      rw [hdigit c n (hs c List.mem_cons_self) hn,
        ih ns' (fun d hd => hs d (List.mem_cons_of_mem c hd)) hns']
      exact heq
  obtain ⟨ns, hns, hbytes⟩ := Option.bind_eq_some_iff.mp hurl
  exact Option.bind_eq_some_iff.mpr ⟨ns, hmap value ns h hns, hbytes⟩

/-- What base64 of either kind is of. -/
inductive Base64Of (bytes : List ℕ) : JsString → Prop
  | standard : Base64Of bytes (padded bytes)
  | url : Base64Of bytes (Base64.url.encode bytes)

/-- The first step of `decodeBase64Leaf`. -/
def leafBytes (value : JsString) : Option (List ℕ) :=
  if base64Std.isMatch value && value.length % 4 == 0 then
    Base64.standard.decode (value.rdropWhile (· == 61))
  else if (plus urlSafe).isMatch value && value.length % 4 != 1 then Base64.url.decode value
  else none

theorem decodeBase64Leaf_eq (value : JsString) : decodeBase64Leaf value =
    (leafBytes value).bind fun bytes => if bytes.isEmpty then none else decodeUtf8 bytes := rfl

theorem base64Of_of_leafBytes {value : JsString} {bytes : List ℕ}
    (h : leafBytes value = some bytes) : Base64Of bytes value := by
  rw [leafBytes] at h
  split_ifs at h with hstandard hurl
  · rw [Bool.and_eq_true, isMatch_base64Std, beq_iff_eq] at hstandard
    obtain ⟨⟨body, n, rfl, hn, -, hunits⟩, hlen⟩ := hstandard
    rw [rdropWhile_padding hunits, Base64.decode_eq_some] at h
    obtain ⟨-, rfl⟩ := h
    have hrest := Base64.length_encode .standard bytes
    rw [List.length_append, List.length_replicate] at hlen
    have hpadding : n = (4 - (Base64.standard.encode bytes).length % 4) % 4 := by omega
    rw [hpadding]
    exact .standard
  · rw [Base64.decode_eq_some] at h
    obtain ⟨-, rfl⟩ := h
    exact .url

theorem leafBytes_of_base64Of {value : JsString} {bytes : List ℕ} (hne : bytes ≠ [])
    (hbytes : ∀ b ∈ bytes, b < 256) (h : Base64Of bytes value) : leafBytes value = some bytes := by
  rw [leafBytes]
  cases h with
  | standard =>
    have hunits := isSome_digit?_encode (v := .standard) hbytes
    have hmatch : base64Std.isMatch (padded bytes) = true := by
      have hrest := Base64.length_encode .standard bytes
      exact isMatch_base64Std.mpr ⟨_, _, rfl, by omega, mt Base64.encode_eq_nil.mp hne, hunits⟩
    have hlen : (padded bytes).length % 4 = 0 := by
      rw [padded, List.length_append, List.length_replicate]
      omega
    rw [hmatch, hlen, padded, rdropWhile_padding hunits]
    exact Base64.decode_encode .standard hbytes
  | url =>
    have hunits := isSome_digit?_encode (v := .url) hbytes
    have hdecode := Base64.decode_encode .url hbytes
    have hmatch : (plus urlSafe).isMatch (Base64.url.encode bytes) = true :=
      isMatch_urlSafe.mpr ⟨mt Base64.encode_eq_nil.mp hne, hunits⟩
    have hlen : ((Base64.url.encode bytes).length % 4 != 1) = true := by
      have := Base64.length_encode .url bytes
      rw [bne_iff_ne]
      omega
    simp only [hmatch, hlen, Bool.and_self, if_true]
    split_ifs with hstandard
    · rw [Bool.and_eq_true, isMatch_base64Std] at hstandard
      obtain ⟨⟨body, n, heq, -, -, hbody⟩, -⟩ := hstandard
      rw [heq] at hunits hdecode ⊢
      cases n with
      | zero =>
        rw [rdropWhile_padding hbody]
        rw [List.replicate_zero, List.append_nil] at hdecode
        exact decode_standard_of_url hbody hdecode
      | succ n =>
        -- the padding is no unit of the alphabet
        have hdigit := hunits 61 (by simp)
        have hnone : Base64.url.digit? 61 = none := by decide
        rw [hnone] at hdigit
        cases hdigit
    · exact hdecode

theorem percent_notMem_of_base64Of {value : JsString} {bytes : List ℕ}
    (hbytes : ∀ b ∈ bytes, b < 256) (h : Base64Of bytes value) : 37 ∉ value := by
  have hunit : ∀ v : Base64, 37 ∉ v.encode bytes := by
    intro v hmem
    have hdigit := isSome_digit?_encode hbytes 37 hmem
    revert hdigit
    cases v <;> decide
  cases h with
  | standard =>
    rw [padded, List.mem_append, not_or]
    exact ⟨hunit .standard, fun hmem => absurd (List.eq_of_mem_replicate hmem) (by decide)⟩
  | url => exact hunit .url

theorem percent_mem_of_hasEscape {value : JsString} (h : hasEscape value = true) : 37 ∈ value := by
  induction value with
  | nil => cases h
  | cons c value ih =>
    by_cases hc : c = 37
    · exact hc ▸ List.mem_cons_self
    · rw [hasEscape] at h
      · exact List.mem_cons_of_mem c (ih h)
      · rintro _ _ _ rfl
        exact absurd rfl hc

/-! ### Leaves -/

theorem decodeBase64Leaf_eq_some {value text : JsString} : decodeBase64Leaf value = some text ↔
    text ≠ [] ∧ toWellFormed text = text ∧ Base64Of (encodeUtf8 text) value := by
  rw [decodeBase64Leaf_eq, Option.bind_eq_some_iff]
  constructor
  · rintro ⟨bytes, hleaf, h⟩
    split_ifs at h with hempty
    have hbytes := encodeUtf8_of_decodeUtf8 h
    refine ⟨?_, toWellFormed_of_decodeUtf8 hbytes h, hbytes ▸ base64Of_of_leafBytes hleaf⟩
    rintro rfl
    rw [← hbytes] at hempty
    exact hempty rfl
  · rintro ⟨hne, hwell, h⟩
    have hbytes : encodeUtf8 text ≠ [] := by
      intro hnil
      have hback := decodeUtf8_encodeUtf8 text
      rw [hnil, hwell] at hback
      exact hne (Option.some.inj hback).symm
    refine ⟨_, leafBytes_of_base64Of hbytes (encodeUtf8_lt text) h, ?_⟩
    rw [if_neg (by simpa using hbytes), decodeUtf8_encodeUtf8, hwell]

theorem decodePercentLeaf_eq_some {value text : JsString} :
    decodePercentLeaf value = some text ↔ text ≠ value ∧ Escapes text value := by
  rw [decodePercentLeaf]
  constructor
  · intro h
    split_ifs at h
    obtain ⟨hdecode, hne⟩ := Option.filter_eq_some_iff.mp h
    exact ⟨by simpa using hne, decodeUriComponent_eq_some.mp hdecode⟩
  · rintro ⟨hne, h⟩
    rw [if_pos (h.eq_or_hasEscape.resolve_left hne)]
    exact Option.filter_eq_some_iff.mpr ⟨decodeUriComponent_eq_some.mpr h, by simpa using hne⟩

/-- A leaf is decoded to the text that it encodes. -/
theorem decodeLeaf_eq_some {value text : JsString} : decodeLeaf value = some text ↔
    (16 ≤ value.length ∧ value.length ≤ 8192) ∧ Encoded text value := by
  have hrange : (decide (value.length < 16) || decide (8192 < value.length)) = true ↔
      ¬(16 ≤ value.length ∧ value.length ≤ 8192) := by
    rw [Bool.or_eq_true, decide_eq_true_eq, decide_eq_true_eq]
    omega
  rw [decodeLeaf]
  split_ifs with hlen
  · simp [hrange.mp hlen]
  · have hin := not_not.mp (mt hrange.mpr hlen)
    simp only [hin, true_and]
    constructor
    · intro h
      cases hbase : decodeBase64Leaf value with
      | some decoded =>
        rw [hbase] at h
        cases h
        obtain ⟨hne, hwell, hof⟩ := decodeBase64Leaf_eq_some.mp hbase
        cases hof with
        | standard => exact .base64 hne hwell
        | url => exact .base64url hne hwell
      | none =>
        rw [hbase] at h
        obtain ⟨hne, hescapes⟩ := decodePercentLeaf_eq_some.mp h
        exact .percent hne hescapes
    · intro h
      cases h with
      | base64 hne hwell => rw [decodeBase64Leaf_eq_some.mpr ⟨hne, hwell, .standard⟩]; rfl
      | base64url hne hwell => rw [decodeBase64Leaf_eq_some.mpr ⟨hne, hwell, .url⟩]; rfl
      | percent hne h =>
        have hbase : decodeBase64Leaf value = none := by
          rw [Option.eq_none_iff_forall_ne_some]
          intro decoded hdecoded
          obtain ⟨-, -, hof⟩ := decodeBase64Leaf_eq_some.mp hdecoded
          exact percent_notMem_of_base64Of (encodeUtf8_lt decoded) hof
            (percent_mem_of_hasEscape (h.eq_or_hasEscape.resolve_left hne))
        rw [hbase]
        exact decodePercentLeaf_eq_some.mpr ⟨hne, h⟩

/-- The decoding pass reports a type, and then for the whole leaf, exactly when the leaf is an
encoding of a text that a trusted rule of the type matches. -/
theorem rescan_iff (entry : Entry) (rules : List Rule) (ctx : Context) (type : JsString) :
    (∃ d ∈ decodeAndRescanEntry entry rules ctx,
        d.type = type ∧ d.start = 0 ∧ d.stop = entry.value.length) ↔
      entry.kind ≠ .number ∧ (16 ≤ entry.value.length ∧ entry.value.length ≤ 8192) ∧
        ∃ text, Encoded text entry.value ∧ ∃ r ∈ rules, r.type = type ∧
          r.applies ctx = true ∧ isDecodeEligibleRule r = true ∧ r.hits text ≠ [] := by
  rw [decodeAndRescanEntry]
  split_ifs with hkind
  · simp [hkind]
  · simp only [hkind, ne_eq, not_false_eq_true, true_and]
    constructor
    · rintro ⟨d, hd, htype, -, -⟩
      cases hdecoded : decodeLeaf entry.value with
      | none =>
        rw [hdecoded] at hd
        cases hd
      | some text =>
        rw [hdecoded] at hd
        obtain ⟨hlen, hencoded⟩ := decodeLeaf_eq_some.mp hdecoded
        obtain ⟨r, hr, happlies, heligible, hhits, rfl⟩ := of_mem_wholeLeafFrom hd
        exact ⟨hlen, text, hencoded, r, hr, htype, happlies, heligible, hhits⟩
    · rintro ⟨hlen, text, hencoded, r, hr, rfl, happlies, heligible, hhits⟩
      rw [decodeLeaf_eq_some.mpr ⟨hlen, hencoded⟩]
      exact mem_wholeLeafFrom_of_hit hr happlies heligible hhits List.not_mem_nil

end Haechi.Filter
