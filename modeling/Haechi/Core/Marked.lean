import Haechi.Core.Precision

/-! Matches beside the gateway's own markers. A match of a response that touches a marker is
given up as a whole, and of matches that overlap one is kept, so a character outside the
markers can lose its cover in two ways: every match over it touches a marker, or it lies
where a match runs over the end of a kept one and none begins. -/

namespace Haechi.Core

open Text Haechi.Filter

/-- A rule that applies has a validated match over the character. A match in a leaf whose
folding moves offsets stands for the whole leaf. -/
def Matched (nfkc : Nfkc) (rules : List Rule) (ctx : Context) (entry : Entry) (x : ℕ) : Prop :=
  ∃ r ∈ rules, r.applies ctx = true ∧ ∃ m ∈ r.hits (nfkc.normalize entry.value),
    (place nfkc entry m).start ≤ x ∧ x < (place nfkc entry m).stop

/-- The character lies in a genuine marker of the response. -/
def InMarker (rules : List Rule) (ctx : Context) (entry : Entry) (x : ℕ) : Prop :=
  ∃ m ∈ markerSpans entry rules ctx, m.start ≤ x ∧ x < m.stop

/-- Every matched character outside the markers is covered by a kept detection. -/
def HidesMarkersOnly (nfkc : Nfkc) (decodeAndRescan : Bool) (rules : List Rule) (ctx : Context)
    (entry : Entry) : Prop :=
  ∀ x, Matched nfkc rules ctx entry x → ¬InMarker rules ctx entry x →
    ∃ d ∈ detectEntry nfkc decodeAndRescan entry rules ctx, d.start ≤ x ∧ x < d.stop

/-- A rule that the decoding pass trusts matches what the leaf decodes to. -/
def DecodedMatch (rules : List Rule) (ctx : Context) (entry : Entry) : Prop :=
  entry.kind ≠ .number ∧ ∃ decoded, decodeLeaf entry.value = some decoded ∧
    ∃ r ∈ rules, r.applies ctx = true ∧ isDecodeEligibleRule r = true ∧ r.hits decoded ≠ []

/-- Each matched character outside the markers lies in a match that touches no marker. -/
def ClearOfMarkers (nfkc : Nfkc) (rules : List Rule) (ctx : Context) (entry : Entry) : Prop :=
  ∀ x, Matched nfkc rules ctx entry x → ¬InMarker rules ctx entry x →
    ∃ d ∈ candidates nfkc rules ctx entry, d.start ≤ x ∧ x < d.stop

/-- In the leftmost-longest tiling of the leaf by the matches that touch no marker, one of
them begins wherever another runs over the end of a tile. -/
def BordersMet (nfkc : Nfkc) (rules : List Rule) (ctx : Context) (entry : Entry) : Prop :=
  ∃ T, Select.IsTiling Detection.start Detection.stop (candidates nfkc rules ctx entry) T ∧
    ∀ i ∈ T, ∀ d ∈ candidates nfkc rules ctx entry,
      d.start < ((candidates nfkc rules ctx entry).get i).stop →
      ((candidates nfkc rules ctx entry).get i).stop < d.stop →
      ∃ c ∈ candidates nfkc rules ctx entry,
        c.start = ((candidates nfkc rules ctx entry).get i).stop ∧ c.start < c.stop

variable {nfkc : Nfkc} {rules : List Rule} {ctx : Context} {entry : Entry} {d : Detection} {x : ℕ}

/-! ### The decoding pass -/

/-- The decoding pass reports exactly where it finds a match, and then the whole leaf. -/
theorem decodes_iff :
    (∃ d ∈ decodeAndRescanEntry entry rules ctx, d.start ≤ x ∧ x < d.stop) ↔
      DecodedMatch rules ctx entry ∧ x < entry.value.length := by
  rw [decodeAndRescanEntry, DecodedMatch]
  split_ifs with hkind
  · simp [hkind]
  · cases hdecoded : decodeLeaf entry.value with
    | none => simp
    | some decoded =>
      constructor
      · rintro ⟨d, hd, -, hx⟩
        obtain ⟨r, hr, happlies, heligible, hhits, rfl⟩ := of_mem_wholeLeafFrom hd
        exact ⟨⟨hkind, decoded, rfl, r, hr, happlies, heligible, hhits⟩, hx⟩
      · rintro ⟨⟨-, _, ⟨⟩, r, hr, happlies, heligible, hhits⟩, hx⟩
        refine (mem_wholeLeafFrom_of_hit hr happlies heligible hhits List.not_mem_nil).imp
          fun d hd => ⟨hd.1, ?_⟩
        obtain ⟨-, hstart, hstop⟩ := hd.2
        omega

theorem Matched.lt_length (h : Matched nfkc rules ctx entry x) : x < entry.value.length := by
  obtain ⟨r, -, -, m, hm, -, hx⟩ := h
  have hrange := hits_inRange hm
  rw [place] at hx
  split_ifs at hx with haligned
  · rw [length_of_isAligned haligned] at hrange
    omega
  · exact hx

/-! ### The scan -/

theorem mem_candidates :
    d ∈ candidates nfkc rules ctx entry ↔ skipsNumber entry ctx = false ∧
      ∃ r ∈ rules, r.applies ctx = true ∧ ∃ m ∈ r.hits (nfkc.normalize entry.value),
        overlapsAny m.start m.stop (markerSpans entry rules ctx) = false ∧
          entry.detection r m (slice entry.value m.start m.stop) = d := by
  rw [candidates]
  cases skipsNumber entry ctx
  · simp [mem_scanForDetections]
  · simp

theorem candidates_inRange (h : d ∈ candidates nfkc rules ctx entry) : d.start ≤ d.stop := by
  obtain ⟨-, r, -, -, m, hm, -, rfl⟩ := mem_candidates.mp h
  exact (hits_inRange hm).1

/-- A character of a match that touches no marker is matched, and outside the markers. -/
theorem matched_of_candidate (haligned : isAligned nfkc entry.value = true)
    (hd : d ∈ candidates nfkc rules ctx entry) (hx : d.start ≤ x ∧ x < d.stop) :
    Matched nfkc rules ctx entry x ∧ ¬InMarker rules ctx entry x := by
  obtain ⟨-, r, hr, happlies, m, hm, hclear, rfl⟩ := mem_candidates.mp hd
  constructor
  · exact ⟨r, hr, happlies, m, hm, by rw [place, if_pos haligned]; exact hx⟩
  · rintro ⟨marker, hmarker, hstart, hstop⟩
    rw [overlapsAny, List.any_eq_false] at hclear
    apply hclear marker hmarker
    simp only [Entry.detection] at hx
    simp only [Bool.and_eq_true, decide_eq_true_eq]
    omega

/-- Tiles meet at their borders exactly when they leave no character of a match out. -/
theorem bordersMet_iff :
    BordersMet nfkc rules ctx entry ↔
      ∀ d ∈ candidates nfkc rules ctx entry, ∀ x, d.start ≤ x → x < d.stop →
        ∃ t ∈ removeOverlaps (candidates nfkc rules ctx entry), t.start ≤ x ∧ x < t.stop := by
  rw [removeOverlaps, Select.covers_iff_borders fun d => candidates_inRange]
  constructor
  · rintro ⟨T, hT, hborders⟩ t ht
    obtain ⟨i, hi, rfl⟩ := (Select.mem_select_of_isTiling hT).mp ht
    exact hborders i hi
  · intro h
    refine ⟨_, Select.isTiling_chosen _, fun i hi => ?_⟩
    exact h _ (Select.mem_select_iff.mpr ⟨i, hi, rfl⟩)

/-- The scan of a leaf of which offsets are kept. -/
theorem covered_scanEntry_iff
    (hexact : isAligned nfkc entry.value = true ∨ skipsNumber entry ctx = true) :
    (∀ x, Matched nfkc rules ctx entry x → ¬InMarker rules ctx entry x →
        ∃ d ∈ scanEntry nfkc entry rules ctx, d.start ≤ x ∧ x < d.stop) ↔
      ClearOfMarkers nfkc rules ctx entry ∧ BordersMet nfkc rules ctx entry := by
  rw [scanEntry_eq_removeOverlaps hexact, bordersMet_iff]
  constructor
  · intro h
    constructor
    · intro x hmatched hout
      obtain ⟨d, hd, hx⟩ := h x hmatched hout
      exact ⟨d, Select.mem_of_mem_select hd, hx⟩
    · intro d hd x hstart hstop
      have hskip := (mem_candidates.mp hd).1
      have haligned : isAligned nfkc entry.value = true := by
        rcases hexact with haligned | hskip'
        · exact haligned
        · rw [hskip] at hskip'
          cases hskip'
      obtain ⟨hmatched, hout⟩ := matched_of_candidate haligned hd ⟨hstart, hstop⟩
      exact h x hmatched hout
  · rintro ⟨hclear, hborders⟩ x hmatched hout
    obtain ⟨d, hd, hstart, hstop⟩ := hclear x hmatched hout
    exact hborders d hd x hstart hstop

/-- A leaf that is reported whole is covered. -/
theorem covered_scanEntry_whole (haligned : isAligned nfkc entry.value ≠ true)
    (hskip : skipsNumber entry ctx ≠ true) (hmatched : Matched nfkc rules ctx entry x) :
    ∃ d ∈ scanEntry nfkc entry rules ctx, d.start ≤ x ∧ x < d.stop := by
  have hlt := hmatched.lt_length
  obtain ⟨r, hr, happlies, m, hm, -⟩ := hmatched
  obtain ⟨d, hd, -, hstart, hstop⟩ := exists_wholeLeaf_of_hit entry hr happlies
    (List.ne_nil_of_mem hm)
  rw [scanEntry, if_neg hskip, if_neg haligned]
  exact ⟨d, hd, by omega, by omega⟩

/-- **What the markers hide.** Nothing but the markers is taken out of the filter exactly
when the decoding pass reports the leaf, or the leaf is reported whole, or each matched
character outside the markers has a match that touches none and the tiles meet. -/
theorem hidesMarkersOnly_iff (nfkc : Nfkc) (decodeAndRescan : Bool) (rules : List Rule)
    (ctx : Context) (entry : Entry) :
    HidesMarkersOnly nfkc decodeAndRescan rules ctx entry ↔
      decodeAndRescan = true ∧ DecodedMatch rules ctx entry ∨
        (isAligned nfkc entry.value = true ∨ skipsNumber entry ctx = true →
          ClearOfMarkers nfkc rules ctx entry ∧ BordersMet nfkc rules ctx entry) := by
  by_cases hdecoded : decodeAndRescan = true ∧ DecodedMatch rules ctx entry
  · refine iff_of_true (fun x hmatched _ => ?_) (.inl hdecoded)
    obtain ⟨d, hd, hx⟩ := decodes_iff.mpr ⟨hdecoded.2, hmatched.lt_length⟩
    exact ⟨d, List.mem_append_right _ (by rwa [if_pos hdecoded.1]), hx⟩
  · rw [or_iff_right hdecoded]
    -- the decoding pass adds nothing
    have hscan : ∀ x, (∃ d ∈ detectEntry nfkc decodeAndRescan entry rules ctx,
        d.start ≤ x ∧ x < d.stop) ↔
          ∃ d ∈ scanEntry nfkc entry rules ctx, d.start ≤ x ∧ x < d.stop := by
      intro x
      constructor
      · rintro ⟨d, hd, hx⟩
        rcases List.mem_append.mp hd with hd | hd
        · exact ⟨d, hd, hx⟩
        · split_ifs at hd with hon
          · exact absurd ⟨hon, (decodes_iff.mp ⟨d, hd, hx⟩).1⟩ hdecoded
          · cases hd
      · rintro ⟨d, hd, hx⟩
        exact ⟨d, List.mem_append_left _ hd, hx⟩
    simp only [HidesMarkersOnly, hscan]
    by_cases hexact : isAligned nfkc entry.value = true ∨ skipsNumber entry ctx = true
    · rw [covered_scanEntry_iff hexact, forall_prop_of_true hexact]
    · rw [not_or] at hexact
      exact iff_of_true (fun x hmatched _ => covered_scanEntry_whole hexact.1 hexact.2 hmatched)
        fun h => absurd h (not_or.mpr hexact)

/-- A rule of the operator's own, `pin=[^ ]+`. -/
def pinRule : Rule :=
  rule "pin" "pin" false (7 / 10) (Regex.cat [lit "pin=", Regex.plus (.set [(32, 32)] true)])

/-- A text in the field `note`. -/
def noteText (text : String) : Entry where
  path := [.key (js "note")]
  pathText := js "key_note"
  value := js text
  kind := .value

/-- A marker at the start of a secret takes all of it out of the filter, and where two
matches overlap the rest of the second is left over. -/
theorem marker_hides_pin :
    ((⟨0, 27⟩ : Span) ∈ pinRule.hits (noteText "pin=[REDACTED:email]hunter2").value ∧
        detectEntry .plain true (noteText "pin=[REDACTED:email]hunter2") (defaultRules ++ [pinRule])
          ⟨some .response, false⟩ = []) ∧
      ¬HidesMarkersOnly .plain true (defaultRules ++ [pinRule]) ⟨some .response, false⟩
          (noteText "pin=[REDACTED:email]hunter2") ∧
        ¬HidesMarkersOnly .plain true defaultRules ⟨some .response, false⟩
          (noteText "Bearer abcdefghijklmnopqrst@example.com") := by
  have hmatch : (⟨0, 27⟩ : Span) ∈ pinRule.hits (noteText "pin=[REDACTED:email]hunter2").value := by
    decide +kernel
  have hnothing : detectEntry .plain true (noteText "pin=[REDACTED:email]hunter2")
      (defaultRules ++ [pinRule]) ⟨some .response, false⟩ = [] := by decide +kernel
  refine ⟨⟨hmatch, hnothing⟩, fun h => ?_, fun h => ?_⟩
  · have hout : ¬InMarker (defaultRules ++ [pinRule]) ⟨some .response, false⟩
        (noteText "pin=[REDACTED:email]hunter2") 20 := by
      rw [InMarker]
      decide +kernel
    obtain ⟨d, hd, -⟩ := h 20 ⟨pinRule, by simp, rfl, ⟨0, 27⟩, hmatch, by decide +kernel⟩ hout
    rw [hnothing] at hd
    cases hd
  · have haddress : (⟨7, 39⟩ : Span) ∈
        emailRule.hits (noteText "Bearer abcdefghijklmnopqrst@example.com").value := by decide +kernel
    have hout : ¬InMarker defaultRules ⟨some .response, false⟩
        (noteText "Bearer abcdefghijklmnopqrst@example.com") 30 := by
      rw [InMarker]
      decide +kernel
    have hkept : ∀ d ∈ detectEntry .plain true (noteText "Bearer abcdefghijklmnopqrst@example.com")
        defaultRules ⟨some .response, false⟩, d.stop ≤ 30 := by decide +kernel
    obtain ⟨d, hd, -, hx⟩ := h 30 ⟨emailRule, List.mem_cons_self, rfl, ⟨7, 39⟩, haddress,
      by decide +kernel⟩ hout
    have := hkept d hd
    omega

end Haechi.Core
