import Haechi.Places
import Haechi.Plugin.Signing
import Haechi.Text.Number
import Mathlib.Data.List.GetD

/-! The order of versions behind the version floor. Two versions are compared segment by
segment: integers by value, and as texts where one of the two is no integer. Proved: the
comparison is opposite in its directions and right on numeric dotted versions; three versions
go round exactly when a text stands between two integers that are in the other order; and a
pre-release passes the floor of its release, always. -/

namespace Haechi.Plugin

open Text Places

/-! ### The order of texts -/

theorem text_lt_trans {s t u : JsString} (h : s < t) (h' : t < u) : s < u := by
  have : Trans (fun a b : UInt16 => a < b) (fun a b => a < b) (fun a b => a < b) :=
    ⟨UInt16.lt_trans⟩
  exact List.lt_trans h h'

theorem text_lt_asymm {s t : JsString} (h : s < t) : ¬t < s := by
  have : Std.Asymm fun a b : UInt16 => a < b := ⟨fun _ _ => UInt16.lt_asymm⟩
  exact List.lt_asymm h

theorem text_lt_irrefl (s : JsString) : ¬s < s := fun h => text_lt_asymm h h

theorem text_lt_total (s t : JsString) : s = t ∨ s < t ∨ t < s := by
  have : Std.Antisymm fun a b : UInt16 => ¬a < b := ⟨fun a b h h' =>
    UInt16.le_antisymm (UInt16.not_lt.mp h') (UInt16.not_lt.mp h)⟩
  by_cases hst : s < t
  · exact .inr (.inl hst)
  · by_cases hts : t < s
    · exact .inr (.inr hts)
    · exact .inl (List.le_antisymm hts hst)

/-! ### Segments -/

/-- A segment of a version; one that is missing is `0`. -/
def segment (version : JsString) (i : ℕ) : JsString := (version.splitOn 46).getD i (js "0")

section Segments

variable {Key ν : Type} (p : Platform Key ν)

def IsNumeric (s : JsString) : Prop := (p.toInteger s).isSome = true

/-- The comparison goes on to the next segment. -/
def Same (sa sb : JsString) : Prop :=
  sa = sb ∨ ∃ n, p.toInteger sa = some n ∧ p.toInteger sb = some n

/-- Integers by value, and texts as texts. -/
def Less (sa sb : JsString) : Prop :=
  match p.toInteger sa, p.toInteger sb with
  | some na, some nb => na < nb
  | _, _ => sa < sb

/-- No integer, and as a text between two integers. -/
def Between (sa sb sc : JsString) : Prop :=
  IsNumeric p sa ∧ ¬IsNumeric p sb ∧ IsNumeric p sc ∧ sa < sb ∧ sb < sc

variable {p} {sa sb sc : JsString} {m n : ℤ}

theorem same_of_some (ha : p.toInteger sa = some m) (hb : p.toInteger sb = some n) :
    Same p sa sb ↔ m = n := by
  constructor
  · rintro (rfl | ⟨k, hk, hk'⟩)
    · exact Option.some.inj (ha.symm.trans hb)
    · exact (Option.some.inj (ha.symm.trans hk)).trans (Option.some.inj (hk'.symm.trans hb))
  · rintro rfl
    exact .inr ⟨m, ha, hb⟩

theorem less_of_some (ha : p.toInteger sa = some m) (hb : p.toInteger sb = some n) :
    Less p sa sb ↔ m < n := by
  simp only [Less, ha, hb]

theorem not_none_of_some (ha : p.toInteger sa = some m) (hb : p.toInteger sb = some n) :
    ¬(p.toInteger sa = none ∨ p.toInteger sb = none) := by
  simp [ha, hb]

theorem same_of_none (h : p.toInteger sa = none ∨ p.toInteger sb = none) :
    Same p sa sb ↔ sa = sb := by
  constructor
  · rintro (rfl | ⟨k, hk, hk'⟩)
    · rfl
    · exact absurd h (not_none_of_some hk hk')
  · exact .inl

theorem less_of_none (h : p.toInteger sa = none ∨ p.toInteger sb = none) :
    Less p sa sb ↔ sa < sb := by
  rw [Less]
  split
  · next hna hnb => exact absurd h (not_none_of_some hna hnb)
  · exact Iff.rfl

theorem Same.symm (h : Same p sa sb) : Same p sb sa := by
  rcases h with rfl | ⟨n, ha, hb⟩
  · exact .inl rfl
  · exact .inr ⟨n, hb, ha⟩

theorem Same.trans (h : Same p sa sb) (h' : Same p sb sc) : Same p sa sc := by
  rcases h with rfl | ⟨m, ha, hb⟩
  · exact h'
  · rcases h' with rfl | ⟨n, hb', hc⟩
    · exact .inr ⟨m, ha, hb⟩
    · obtain rfl := Option.some.inj (hb.symm.trans hb')
      exact .inr ⟨m, ha, hc⟩

/-- Two segments are both integers, or one is not. -/
theorem numeric_cases (p : Platform Key ν) (sa sb : JsString) :
    (∃ m n, p.toInteger sa = some m ∧ p.toInteger sb = some n) ∨
      p.toInteger sa = none ∨ p.toInteger sb = none := by
  cases ha : p.toInteger sa with
  | none => exact .inr (.inl rfl)
  | some m =>
    cases hb : p.toInteger sb with
    | none => exact .inr (.inr rfl)
    | some n => exact .inl ⟨m, n, rfl, rfl⟩

theorem compares_segments (p : Platform Key ν) : Compares (Same p) (Less p) where
  refl _ := .inl rfl
  symm := Same.symm
  trans := Same.trans
  irrefl {a b} hless hsame := by
    rcases numeric_cases p a b with ⟨m, n, ha, hb⟩ | hnone
    · rw [less_of_some ha hb] at hless
      rw [same_of_some ha hb] at hsame
      omega
    · rw [less_of_none hnone] at hless
      rw [same_of_none hnone] at hsame
      exact text_lt_irrefl b (hsame ▸ hless)
  asymm {a b} hless hless' := by
    rcases numeric_cases p a b with ⟨m, n, ha, hb⟩ | hnone
    · rw [less_of_some ha hb] at hless
      rw [less_of_some hb ha] at hless'
      omega
    · rw [less_of_none hnone] at hless
      rw [less_of_none hnone.symm] at hless'
      exact text_lt_asymm hless hless'
  total a b := by
    rcases numeric_cases p a b with ⟨m, n, ha, hb⟩ | hnone
    · rw [same_of_some ha hb, less_of_some ha hb, less_of_some hb ha]
      omega
    · rw [same_of_none hnone, less_of_none hnone, less_of_none hnone.symm]
      exact text_lt_total a b

theorem upto_of_some (ha : p.toInteger sa = some m) (hb : p.toInteger sb = some n) :
    Upto (Same p) (Less p) sa sb ↔ m ≤ n := by
  rw [Upto, same_of_some ha hb, less_of_some ha hb]
  omega

theorem upto_of_none (h : p.toInteger sa = none ∨ p.toInteger sb = none) :
    Upto (Same p) (Less p) sa sb ↔ sa = sb ∨ sa < sb := by
  rw [Upto, same_of_none h, less_of_none h]

/-- Texts do not go round. -/
theorem eq_of_text_circle (hab : sa = sb ∨ sa < sb) (hbc : sb = sc ∨ sb < sc)
    (hca : sc = sa ∨ sc < sa) : sa = sb ∧ sb = sc := by
  rcases hab with rfl | hab
  · rcases hbc with rfl | hbc
    · exact ⟨rfl, rfl⟩
    · rcases hca with rfl | hca
      · exact absurd hbc (text_lt_irrefl _)
      · exact absurd hca (text_lt_asymm hbc)
  · have hac : sa < sc := by
      rcases hbc with rfl | hbc
      · exact hab
      · exact text_lt_trans hab hbc
    rcases hca with rfl | hca
    · exact absurd hac (text_lt_irrefl _)
    · exact absurd hca (text_lt_asymm hac)

theorem between_of_upto (ha : p.toInteger sa = some m) (hb : p.toInteger sb = none)
    (hc : p.toInteger sc = some n) (hab : Upto (Same p) (Less p) sa sb)
    (hbc : Upto (Same p) (Less p) sb sc) : Between p sa sb sc := by
  have hneq : ∀ {s k}, p.toInteger s = some k → s ≠ sb := by
    rintro s k hs rfl
    rw [hb] at hs
    cases hs
  refine ⟨by simp [IsNumeric, ha], by simp [IsNumeric, hb], by simp [IsNumeric, hc], ?_, ?_⟩
  · exact ((upto_of_none (.inr hb)).mp hab).resolve_left (hneq ha)
  · exact ((upto_of_none (.inl hb)).mp hbc).resolve_left (hneq hc).symm

/-- Three segments that go round: a text between two integers. -/
theorem between_of_circle (hne : ¬(Same p sa sb ∧ Same p sb sc))
    (hab : Upto (Same p) (Less p) sa sb) (hbc : Upto (Same p) (Less p) sb sc)
    (hca : Upto (Same p) (Less p) sc sa) :
    Between p sb sc sa ∨ Between p sc sa sb ∨ Between p sa sb sc := by
  -- two texts among the three, and all are compared as texts
  have hround : (p.toInteger sa = none ∨ p.toInteger sb = none) →
      (p.toInteger sb = none ∨ p.toInteger sc = none) →
      (p.toInteger sc = none ∨ p.toInteger sa = none) → False := by
    intro h h' h''
    rw [upto_of_none h] at hab
    rw [upto_of_none h'] at hbc
    rw [upto_of_none h''] at hca
    obtain ⟨rfl, rfl⟩ := eq_of_text_circle hab hbc hca
    exact hne ⟨.inl rfl, .inl rfl⟩
  cases ha : p.toInteger sa with
  | none =>
    cases hb : p.toInteger sb with
    | none => exact (hround (.inl ha) (.inl hb) (.inr ha)).elim
    | some n =>
      cases hc : p.toInteger sc with
      | none => exact (hround (.inl ha) (.inr hc) (.inl hc)).elim
      | some k => exact .inr (.inl (between_of_upto hc ha hb hca hab))
  | some m =>
    cases hb : p.toInteger sb with
    | none =>
      cases hc : p.toInteger sc with
      | none => exact (hround (.inr hb) (.inl hb) (.inl hc)).elim
      | some k => exact .inr (.inr (between_of_upto ha hb hc hab hbc))
    | some n =>
      cases hc : p.toInteger sc with
      | none => exact .inl (between_of_upto hb hc ha hbc hca)
      | some k =>
        rw [upto_of_some ha hb] at hab
        rw [upto_of_some hb hc] at hbc
        rw [upto_of_some hc ha] at hca
        rw [same_of_some ha hb, same_of_some hb hc] at hne
        omega

end Segments

/-! ### What the comparison answers -/

section Versions

variable {Key ν : Type} {p : Platform Key ν} {a b c : JsString}

/-- Two segments of which one is no integer are compared as texts. -/
theorem compareSegments_of_none {sa sb : JsString}
    (h : p.toInteger sa = none ∨ p.toInteger sb = none) (rest : List (JsString × JsString)) :
    compareSegments p ((sa, sb) :: rest) =
      if sa = sb then compareSegments p rest else if sa < sb then -1 else 1 := by
  rw [compareSegments]
  split
  · next hna hnb => exact absurd h (not_none_of_some hna hnb)
  · rfl

theorem compareSegments_of_same {sa sb : JsString} (h : Same p sa sb)
    (rest : List (JsString × JsString)) :
    compareSegments p ((sa, sb) :: rest) = compareSegments p rest := by
  rcases numeric_cases p sa sb with ⟨m, n, ha, hb⟩ | hnone
  · rw [same_of_some ha hb] at h
    simp only [compareSegments, ha, hb, if_pos h]
  · rw [same_of_none hnone] at h
    rw [compareSegments_of_none hnone, if_pos h]

theorem compareSegments_of_less {sa sb : JsString} (h : Less p sa sb)
    (rest : List (JsString × JsString)) : compareSegments p ((sa, sb) :: rest) = -1 := by
  rcases numeric_cases p sa sb with ⟨m, n, ha, hb⟩ | hnone
  · rw [less_of_some ha hb] at h
    simp only [compareSegments, ha, hb]
    rw [if_neg (by omega), if_pos h]
  · rw [less_of_none hnone] at h
    have hne : sa ≠ sb := fun heq => text_lt_irrefl sb (heq ▸ h)
    rw [compareSegments_of_none hnone, if_neg hne, if_pos h]

theorem compareSegments_of_greater {sa sb : JsString} (h : Less p sb sa)
    (rest : List (JsString × JsString)) : compareSegments p ((sa, sb) :: rest) = 1 := by
  rcases numeric_cases p sa sb with ⟨m, n, ha, hb⟩ | hnone
  · rw [less_of_some hb ha] at h
    simp only [compareSegments, ha, hb]
    rw [if_neg (by omega), if_neg (by omega)]
  · rw [less_of_none hnone.symm] at h
    have hne : sa ≠ sb := fun heq => text_lt_irrefl sb (heq ▸ h)
    rw [compareSegments_of_none hnone, if_neg hne, if_neg (text_lt_asymm h)]

/-- The pairs of segments up to a place. -/
def pairs (x y : ℕ → JsString) (n : ℕ) : List (JsString × JsString) :=
  (List.range n).map fun i => (x i, y i)

theorem pairs_succ (x y : ℕ → JsString) (n : ℕ) :
    pairs x y (n + 1) = (x 0, y 0) :: pairs (fun i => x (i + 1)) (fun i => y (i + 1)) n := by
  rw [pairs, List.range_succ_eq_map, List.map_cons, List.map_map]
  rfl

theorem compareSegments_pairs_of_same {x y : ℕ → JsString} {n : ℕ}
    (h : ∀ i < n, Same p (x i) (y i)) : compareSegments p (pairs x y n) = 0 := by
  induction n generalizing x y with
  | zero => rfl
  | succ n ih =>
    rw [pairs_succ, compareSegments_of_same (h 0 (Nat.succ_pos n))]
    exact ih fun i hi => h (i + 1) (Nat.succ_lt_succ hi)

/-- The first place where the segments are not the same decides. -/
theorem compareSegments_pairs {x y : ℕ → JsString} {n i : ℕ} (hi : i < n)
    (hsame : ∀ j < i, Same p (x j) (y j)) :
    (Less p (x i) (y i) → compareSegments p (pairs x y n) = -1) ∧
      (Less p (y i) (x i) → compareSegments p (pairs x y n) = 1) := by
  induction n generalizing x y i with
  | zero => exact absurd hi (Nat.not_lt_zero i)
  | succ n ih =>
    rw [pairs_succ]
    cases i with
    | zero =>
      exact ⟨fun h => compareSegments_of_less h _, fun h => compareSegments_of_greater h _⟩
    | succ i =>
      rw [compareSegments_of_same (hsame 0 (Nat.succ_pos i))]
      exact ih (Nat.lt_of_succ_lt_succ hi) fun j hj => hsame (j + 1) (Nat.succ_lt_succ hj)

/-- The segments of both are compared in pairs, up to the end of the longer. -/
theorem compareVersions_eq (a b : JsString) :
    compareVersions p a b = compareSegments p (pairs (segment a) (segment b)
      (max (a.splitOn 46).length (b.splitOn 46).length)) := rfl

/-- A version comes before another by its segments. -/
def Earlier (p : Platform Key ν) (a b : JsString) : Prop :=
  Before (Same p) (Less p) (segment a) (segment b)

/-- Behind the last segments both versions have zeros. -/
theorem segment_eq_of_le {i : ℕ} (h : max (a.splitOn 46).length (b.splitOn 46).length ≤ i) :
    segment a i = segment b i := by
  rw [segment, segment, List.getD_eq_default _ _ (by omega), List.getD_eq_default _ _ (by omega)]

theorem lt_of_differ {i : ℕ} (h : ¬Same p (segment a i) (segment b i)) :
    i < max (a.splitOn 46).length (b.splitOn 46).length :=
  Nat.not_le.mp fun hle => h (.inl (segment_eq_of_le hle))

theorem compareVersions_of_earlier (h : Earlier p a b) :
    compareVersions p a b = -1 ∧ compareVersions p b a = 1 := by
  obtain ⟨i, hsame, hless⟩ := h
  have hdiffer := (compares_segments p).irrefl hless
  have hab := compareSegments_pairs (lt_of_differ hdiffer) hsame
  have hba := compareSegments_pairs (lt_of_differ fun heq => hdiffer heq.symm)
    fun j hj => (hsame j hj).symm
  rw [compareVersions_eq, compareVersions_eq]
  exact ⟨hab.1 hless, hba.2 hless⟩

theorem compareVersions_of_same (h : ∀ i, Same p (segment a i) (segment b i)) :
    compareVersions p a b = 0 := by
  rw [compareVersions_eq]
  exact compareSegments_pairs_of_same fun i _ => h i

theorem compareVersions_neg_iff : compareVersions p a b < 0 ↔ Earlier p a b := by
  constructor
  · intro hneg
    rcases before_total (compares_segments p) (segment a) (segment b) with hsame | hab | hba
    · rw [compareVersions_of_same hsame] at hneg
      omega
    · exact hab
    · rw [(compareVersions_of_earlier hba).2] at hneg
      omega
  · intro h
    rw [(compareVersions_of_earlier h).1]
    decide

theorem compareVersions_opposite (a b : JsString) :
    compareVersions p b a = -compareVersions p a b := by
  rcases before_total (compares_segments p) (segment a) (segment b) with hsame | hab | hba
  · rw [compareVersions_of_same hsame, compareVersions_of_same fun i => (hsame i).symm, neg_zero]
  · rw [(compareVersions_of_earlier hab).1, (compareVersions_of_earlier hab).2, neg_neg]
  · rw [(compareVersions_of_earlier hba).1, (compareVersions_of_earlier hba).2]

theorem compareVersions_le_zero_iff : compareVersions p a b ≤ 0 ↔ ¬Earlier p b a := by
  rw [← compareVersions_neg_iff, compareVersions_opposite a b]
  omega

/-! ### Going round -/

/-- At the first place where the three differ, the middle one has a text between the integers
of the other two. -/
def Straddles (p : Platform Key ν) (a b c : JsString) : Prop :=
  ∃ i, (∀ j < i, Same p (segment a j) (segment b j) ∧ Same p (segment b j) (segment c j)) ∧
    Between p (segment a i) (segment b i) (segment c i)

/-- The comparison is transitive on these versions, in whatever order. -/
def TransitiveOn (p : Platform Key ν) (versions : List JsString) : Prop :=
  ∀ x ∈ versions, ∀ y ∈ versions, ∀ z ∈ versions,
    compareVersions p x y ≤ 0 → compareVersions p y z ≤ 0 → compareVersions p x z ≤ 0

theorem Straddles.earlier (h : Straddles p a b c) : Earlier p a b ∧ Earlier p b c := by
  obtain ⟨i, hsame, -, hnot, -, hab, hbc⟩ := h
  have hnone : p.toInteger (segment b i) = none := by
    simpa [IsNumeric] using hnot
  exact ⟨⟨i, fun j hj => (hsame j hj).1, (less_of_none (.inr hnone)).mpr hab⟩,
    ⟨i, fun j hj => (hsame j hj).2, (less_of_none (.inl hnone)).mpr hbc⟩⟩

/-- Versions are in order exactly if those that a text stands between are in that order. -/
theorem transitiveOn_iff {versions : List JsString} :
    TransitiveOn p versions ↔ ∀ x ∈ versions, ∀ y ∈ versions, ∀ z ∈ versions,
      Straddles p x y z → Earlier p x z := by
  constructor
  · intro htrans x hx y hy z hz hstraddles
    obtain ⟨hxy, hyz⟩ := hstraddles.earlier
    rcases before_total (compares_segments p) (segment x) (segment z) with hsame | hxz | hzx
    · have hzx : compareVersions p z x ≤ 0 :=
        (compareVersions_of_same fun i => (hsame i).symm).le
      have hzy := htrans z hz x hx y hy hzx (compareVersions_neg_iff.mpr hxy).le
      exact absurd hyz (compareVersions_le_zero_iff.mp hzy)
    · exact hxz
    · have hxz := htrans x hx y hy z hz (compareVersions_neg_iff.mpr hxy).le
        (compareVersions_neg_iff.mpr hyz).le
      exact absurd hzx (compareVersions_le_zero_iff.mp hxz)
  · intro hstraddles x hx y hy z hz hxy hyz
    rw [compareVersions_le_zero_iff] at hxy hyz ⊢
    intro hzx
    obtain ⟨i, hsame, hne, hupto, hupto', hupto''⟩ :=
      exists_circle (compares_segments p) hxy hyz hzx
    rcases between_of_circle hne hupto hupto' hupto'' with h | h | h
    · exact hxy (hstraddles y hy z hz x hx ⟨i, fun j hj =>
        ⟨(hsame j hj).2, ((hsame j hj).1.trans (hsame j hj).2).symm⟩, h⟩)
    · exact hyz (hstraddles z hz x hx y hy ⟨i, fun j hj =>
        ⟨((hsame j hj).1.trans (hsame j hj).2).symm, (hsame j hj).1⟩, h⟩)
    · exact before_asymm (compares_segments p) hzx (hstraddles x hx y hy z hz ⟨i, hsame, h⟩)

end Versions

/-! ### Releases and pre-releases -/

/-- A number that is missing reads as zero. -/
theorem getD_natText (numbers : List ℕ) (i : ℕ) :
    (numbers.map natText).getD i (js "0") = natText (numbers.getD i 0) := by
  rw [show js "0" = natText 0 by decide]
  exact List.getD_map numbers 0 natText

/-- A numeric dotted version. -/
structure Release where
  parts : List ℕ
  nonempty : parts ≠ []

namespace Release

variable (r : Release)

def part (i : ℕ) : ℕ := r.parts.getD i 0

def text : JsString := [46].intercalate (r.parts.map natText)

/-- Where the last number stands. -/
def last : ℕ := r.parts.length - 1

/-- A pre-release of the release, with this text behind the hyphen. -/
def prerelease (pre : JsString) : JsString := r.text ++ 45 :: pre

/-- The segment of a pre-release that has the hyphen. -/
def marked (pre : JsString) : JsString := natText (r.part r.last) ++ 45 :: (pre.splitOn 46).headD []

/-- The order of semantic versions. -/
def Lower (r r' : Release) : Prop := Before (fun m n : ℕ => m = n) (fun m n => m < n) r.part r'.part

/-- All numbers are safe integers. -/
def Safe : Prop := ∀ n ∈ r.parts, n < 2 ^ 53

variable {r} in
theorem Safe.part_lt (h : r.Safe) (i : ℕ) : r.part i < 2 ^ 53 := by
  rcases Nat.lt_or_ge i r.parts.length with hi | hi
  · rw [part, List.getD_eq_getElem _ _ hi]
    exact h _ (List.getElem_mem hi)
  · rw [part, List.getD_eq_default _ _ hi]
    decide

theorem segment_text (i : ℕ) : segment r.text i = natText (r.part i) := by
  have hsplit : r.text.splitOn 46 = r.parts.map natText := by
    apply List.splitOn_intercalate
    · intro t ht
      obtain ⟨n, -, rfl⟩ := List.mem_map.mp ht
      exact not_mem_natText rfl n
    · simp [r.nonempty]
  rw [segment, hsplit, part, getD_natText]

end Release

/-- What stands before the first separator is put before the first piece. -/
theorem splitOn_append_of_notMem {s t : JsString} {c : UInt16} (h : c ∉ s) :
    (s ++ t).splitOn c = (s ++ (t.splitOn c).headD []) :: (t.splitOn c).tail := by
  induction s with
  | nil =>
    obtain ⟨head, tail, heq⟩ := List.exists_cons_of_ne_nil (List.splitOn_ne_nil c t)
    rw [List.nil_append, List.nil_append, heq]
    rfl
  | cons d s ih =>
    have hne : (d == c) = false := beq_false_of_ne fun heq => h (heq ▸ List.mem_cons_self)
    rw [List.cons_append, List.splitOn_cons_eq_if_modifyHead, hne,
      ih fun hc => h (List.mem_cons_of_mem d hc)]
    rfl

/-- The segments of a pre-release: the numbers but the last, then the one with the hyphen. -/
theorem splitOn_prerelease (numbers : List ℕ) (n : ℕ) (pre : JsString) :
    ([46].intercalate ((numbers ++ [n]).map natText) ++ 45 :: pre).splitOn 46 =
      numbers.map natText ++ (natText n ++ 45 :: (pre.splitOn 46).headD []) ::
        (pre.splitOn 46).tail := by
  induction numbers with
  | nil =>
    have hpre : (45 :: pre : JsString).splitOn 46 =
        (45 :: (pre.splitOn 46).headD []) :: (pre.splitOn 46).tail :=
      splitOn_append_of_notMem (s := [45]) (t := pre) (by decide)
    rw [List.nil_append, List.map_singleton, List.intercalate_singleton,
      splitOn_append_of_notMem (not_mem_natText rfl n), hpre]
    rfl
  | cons m numbers ih =>
    obtain ⟨k, rest, hrest⟩ := List.exists_cons_of_ne_nil
      (show (numbers ++ [n]).map natText ≠ [] by simp)
    have htail : (46 :: ([46].intercalate ((numbers ++ [n]).map natText) ++ 45 :: pre) :
        JsString).splitOn 46 =
          [] :: ([46].intercalate ((numbers ++ [n]).map natText) ++ 45 :: pre).splitOn 46 := by
      rw [List.splitOn_cons_eq_if_modifyHead]
      rfl
    have hjoin : [46].intercalate (((m :: numbers) ++ [n]).map natText) =
        natText m ++ 46 :: [46].intercalate ((numbers ++ [n]).map natText) := by
      rw [List.cons_append, List.map_cons, hrest, List.intercalate_cons_cons, List.append_assoc]
      rfl
    rw [hjoin, List.append_assoc, List.cons_append, splitOn_append_of_notMem (not_mem_natText rfl m),
      htail, ih]
    simp

namespace Release

variable (r : Release) (pre : JsString)

theorem splitOn_prerelease_eq : (r.prerelease pre).splitOn 46 =
    (r.parts.dropLast.map natText) ++ r.marked pre :: (pre.splitOn 46).tail := by
  have hlast : r.part r.last = r.parts.getLast r.nonempty := by
    have hpos := List.length_pos_iff.mpr r.nonempty
    rw [part, last, List.getD_eq_getElem _ _ (by omega), List.getLast_eq_getElem]
  have hparts : r.parts.dropLast ++ [r.part r.last] = r.parts := by
    rw [hlast, List.dropLast_concat_getLast]
  have hsplit := splitOn_prerelease r.parts.dropLast (r.part r.last) pre
  rw [hparts] at hsplit
  exact hsplit

theorem segment_prerelease_of_lt {i : ℕ} (h : i < r.last) :
    segment (r.prerelease pre) i = natText (r.part i) := by
  have hlength : r.parts.dropLast.length = r.last := List.length_dropLast
  have hi : i < (r.parts.dropLast.map natText).length := by rwa [List.length_map, hlength]
  have hdrop : r.parts.dropLast.getD i 0 = r.parts.getD i 0 := by
    rw [List.getD_eq_getElem _ _ (by omega), List.getD_eq_getElem _ _ (by rw [last] at h; omega),
      List.getElem_dropLast]
  rw [segment, splitOn_prerelease_eq, List.getD_append _ _ _ _ hi, getD_natText, hdrop, part]

theorem segment_prerelease_last : segment (r.prerelease pre) r.last = r.marked pre := by
  have hlength : (r.parts.dropLast.map natText).length = r.last := by
    rw [List.length_map, List.length_dropLast, last]
  rw [segment, splitOn_prerelease_eq, List.getD_append_right _ _ _ _ hlength.le, hlength,
    Nat.sub_self]
  rfl

end Release

/-! ### When the order is right -/

section Floor

variable {Key ν : Type} {p : Platform Key ν} {a b c : JsString}

/-- `Number` reads a safe integer, and reads no number with a hyphen behind. -/
structure ReadsNumbers (p : Platform Key ν) : Prop where
  safe : ∀ n < 2 ^ 53, p.toInteger (natText n) = some (n : ℤ)
  hyphen : ∀ n t, p.toInteger (natText n ++ 45 :: t) = none

/-- The comparison of two numbers, as `Number` reads their texts. -/
def ReadSame (p : Platform Key ν) (m n : ℕ) : Prop := Same p (natText m) (natText n)

def ReadLess (p : Platform Key ν) (m n : ℕ) : Prop := Less p (natText m) (natText n)

theorem ReadsNumbers.same_iff (hp : ReadsNumbers p) {m n : ℕ} (hm : m < 2 ^ 53) (hn : n < 2 ^ 53) :
    ReadSame p m n ↔ m = n := by
  rw [ReadSame, same_of_some (hp.safe m hm) (hp.safe n hn), Nat.cast_inj]

theorem ReadsNumbers.less_iff (hp : ReadsNumbers p) {m n : ℕ} (hm : m < 2 ^ 53) (hn : n < 2 ^ 53) :
    ReadLess p m n ↔ m < n := by
  rw [ReadLess, less_of_some (hp.safe m hm) (hp.safe n hn), Nat.cast_lt]

/-- The order of the numbers as they are read. -/
def Release.ReadLower (p : Platform Key ν) (r r' : Release) : Prop :=
  Before (ReadSame p) (ReadLess p) r.part r'.part

theorem earlier_text_iff (r r' : Release) : Earlier p r.text r'.text ↔ r.ReadLower p r' := by
  simp only [Earlier, Before, Release.ReadLower, ReadSame, ReadLess, Release.segment_text]

/-- Safe integers are read as they are. -/
theorem readLower_iff (hp : ReadsNumbers p) {r r' : Release} (hr : r.Safe) (hr' : r'.Safe) :
    r.ReadLower p r' ↔ r.Lower r' := by
  apply exists_congr
  intro i
  apply and_congr
  · apply forall₂_congr
    intro j _
    exact hp.same_iff (hr.part_lt j) (hr'.part_lt j)
  · exact hp.less_iff (hr.part_lt i) (hr'.part_lt i)

/-- The numbers before the last are lower, or they are the same and the segment with the hyphen
is the lesser text. -/
def Release.LowerByText (p : Platform Key ν) (r r' : Release) (pre : JsString) : Prop :=
  (∃ i < r.last, (∀ j < i, ReadSame p (r.part j) (r'.part j)) ∧
      ReadLess p (r.part i) (r'.part i)) ∨
    (∀ j < r.last, ReadSame p (r.part j) (r'.part j)) ∧ r.marked pre < natText (r'.part r.last)

/-- Where a pre-release comes before a numeric version. -/
theorem earlier_prerelease_iff (hp : ReadsNumbers p) (r r' : Release) (pre : JsString) :
    Earlier p (r.prerelease pre) r'.text ↔ r.LowerByText p r' pre := by
  have hsame : ∀ j < r.last, (Same p (segment (r.prerelease pre) j) (segment r'.text j) ↔
      ReadSame p (r.part j) (r'.part j)) := by
    intro j hj
    rw [r.segment_prerelease_of_lt pre hj, r'.segment_text, ReadSame]
  have hless : ∀ j < r.last, (Less p (segment (r.prerelease pre) j) (segment r'.text j) ↔
      ReadLess p (r.part j) (r'.part j)) := by
    intro j hj
    rw [r.segment_prerelease_of_lt pre hj, r'.segment_text, ReadLess]
  have hnone : p.toInteger (segment (r.prerelease pre) r.last) = none := by
    rw [r.segment_prerelease_last]
    exact hp.hyphen _ _
  have hlast : ¬Same p (segment (r.prerelease pre) r.last) (segment r'.text r.last) := by
    rw [same_of_none (.inl hnone), r.segment_prerelease_last, r'.segment_text]
    intro heq
    exact not_mem_natText (c := 45) rfl (r'.part r.last) (heq ▸ by simp [Release.marked])
  constructor
  · rintro ⟨i, hbefore, hlt⟩
    rcases Nat.lt_trichotomy i r.last with hi | rfl | hi
    · exact .inl ⟨i, hi, fun j hj => (hsame j (hj.trans hi)).mp (hbefore j hj), (hless i hi).mp hlt⟩
    · refine .inr ⟨fun j hj => (hsame j hj).mp (hbefore j hj), ?_⟩
      rwa [less_of_none (.inl hnone), r.segment_prerelease_last, r'.segment_text] at hlt
    · exact absurd (hbefore r.last hi) hlast
  · rintro (⟨i, hi, hbefore, hlt⟩ | ⟨hbefore, hlt⟩)
    · exact ⟨i, fun j hj => (hsame j (hj.trans hi)).mpr (hbefore j hj), (hless i hi).mpr hlt⟩
    · refine ⟨r.last, fun j hj => (hsame j hj).mpr (hbefore j hj), ?_⟩
      rwa [less_of_none (.inl hnone), r.segment_prerelease_last, r'.segment_text]

/-- Of a version up to the other, in safe integers: a number before the last is lower, or the
segment with the hyphen is the lesser text. -/
theorem lowerByText_iff (hp : ReadsNumbers p) {r r' : Release} (hr : r.Safe) (hr' : r'.Safe)
    (h : ¬r'.Lower r) (pre : JsString) :
    r.LowerByText p r' pre ↔
      (∃ i < r.last, (∀ j < i, r.part j = r'.part j) ∧ r.part i < r'.part i) ∨
        r.marked pre < natText (r'.part r.last) := by
  simp only [Release.LowerByText, hp.same_iff (hr.part_lt _) (hr'.part_lt _),
    hp.less_iff (hr.part_lt _) (hr'.part_lt _)]
  constructor
  · exact Or.imp_right And.right
  · rintro (hlower | htext)
    · exact .inl hlower
    · by_cases hequal : ∀ j < r.last, r.part j = r'.part j
      · exact .inr ⟨hequal, htext⟩
      · -- the first number that differs is not the greater one
        classical
        have hdiffer : ∃ j, j < r.last ∧ r.part j ≠ r'.part j := by
          simpa only [not_forall, exists_prop] using hequal
        obtain ⟨hi, hne⟩ := Nat.find_spec hdiffer
        have hbefore : ∀ j < Nat.find hdiffer, r.part j = r'.part j := by
          intro j hj
          by_contra hne
          exact Nat.find_min hdiffer hj ⟨hj.trans hi, hne⟩
        rcases Nat.lt_or_gt_of_ne hne with hlt | hgt
        · exact .inl ⟨_, hi, hbefore, hlt⟩
        · exact absurd ⟨_, fun j hj => (hbefore j hj).symm, hgt⟩ h

/-- A pre-release does not come before its release. -/
theorem not_lowerByText_self (r : Release) (pre : JsString) : ¬r.LowerByText p r pre := by
  rintro (⟨i, -, -, hlt⟩ | ⟨-, htext⟩)
  · exact (compares_segments p).irrefl hlt (.inl rfl)
  · have hlonger : ∀ s t : JsString, ¬s ++ t < s := by
      intro s t
      induction s with
      | nil => exact List.not_lt_nil _
      | cons d s ih =>
        rw [List.cons_append, List.cons_lt_cons_iff]
        rintro (hlt | ⟨-, hlt⟩)
        · exact UInt16.lt_irrefl d hlt
        · exact ih hlt
    exact hlonger _ _ htext

/-- What comes before a floor: a lower numeric version, and a pre-release of a version up to
the floor. -/
inductive Precedes : JsString → JsString → Prop
  | release {r r' : Release} : r.Lower r' → Precedes r.text r'.text
  | prerelease {r r' : Release} (pre : JsString) : ¬r'.Lower r → Precedes (r.prerelease pre) r'.text

theorem checkFloor_eq_ok_iff {trust : Trust Key} {payload : JsValue ν}
    (hversion : textOf (payload.get (js "version")) = a)
    (hfloor : trust.versionFloor.lookup (textOf (payload.get (js "pluginId"))) = some b) :
    checkFloor p trust payload = .ok () ↔ ¬Earlier p a b := by
  simp only [checkFloor, hfloor, hversion]
  rw [require_ok, decide_eq_true_iff, ← compareVersions_neg_iff]
  omega

/-- What an order of versions has to do for three of them, the second the floor of the first. -/
structure Lawful (p : Platform Key ν) (a b c : JsString) : Prop where
  opposite : compareVersions p b a = -compareVersions p a b
  transitive : TransitiveOn p [a, b, c]
  semantic : ∀ r r' : Release, a = r.text → b = r'.text → (compareVersions p a b < 0 ↔ r.Lower r')
  prerelease : ∀ (r : Release) (pre : JsString), a = r.prerelease pre → b = r.text →
    compareVersions p a b < 0
  floor : Precedes a b → ∀ (trust : Trust Key) (payload : JsValue ν),
    textOf (payload.get (js "version")) = a →
      trust.versionFloor.lookup (textOf (payload.get (js "pluginId"))) = some b →
        checkFloor p trust payload ≠ .ok ()

/-- A trust state with one floor. -/
def floorOf (Key : Type) (version : JsString) : Trust Key where
  trustAnchors := []
  revokedSigners := []
  revokedEntries := []
  pin := none
  versionFloor := [(js "p", version)]
  allowCapabilities := []
  coreVersion := none

/-- The part of a payload that the floor is about. -/
def versioned (ν : Type) (version : JsString) : JsValue ν :=
  .obj [(js "pluginId", .str (js "p")), (js "version", .str version)]

theorem not_lower_self (r : Release) : ¬r.Lower r := by
  rintro ⟨i, -, hlt⟩
  exact Nat.lt_irrefl _ hlt

/-- So it is never right on a pre-release and its release. -/
theorem not_lawful_prerelease (hp : ReadsNumbers p) (r : Release) (pre c : JsString) :
    ¬Lawful p (r.prerelease pre) r.text c := by
  intro h
  have hearlier := compareVersions_neg_iff.mp (h.prerelease r pre rfl rfl)
  exact not_lowerByText_self r pre ((earlier_prerelease_iff hp r r pre).mp hearlier)

/-- The order is right on three versions exactly when those that a text stands between are in
that order, numbers too large to be read exactly are read in their order, and no pre-release
of a version up to the floor is told by a text that is not the lesser one. -/
theorem lawful_iff (hp : ReadsNumbers p) (a b c : JsString) :
    Lawful p a b c ↔
      (∀ x ∈ [a, b, c], ∀ y ∈ [a, b, c], ∀ z ∈ [a, b, c], Straddles p x y z → Earlier p x z) ∧
        (∀ r r' : Release, a = r.text → b = r'.text → ¬(r.Safe ∧ r'.Safe) →
          (r.ReadLower p r' ↔ r.Lower r')) ∧
        ∀ (r r' : Release) (pre : JsString), a = r.prerelease pre → b = r'.text → ¬r'.Lower r →
          r.LowerByText p r' pre := by
  constructor
  · intro h
    refine ⟨transitiveOn_iff.mp h.transitive, ?_, ?_⟩
    · intro r r' ha hb _
      rw [← h.semantic r r' ha hb, compareVersions_neg_iff, ha, hb, earlier_text_iff]
    · rintro r r' pre rfl rfl hnot
      have hrefused := h.floor (.prerelease pre hnot) (floorOf Key r'.text)
        (versioned ν (r.prerelease pre)) rfl rfl
      rw [Ne, checkFloor_eq_ok_iff rfl rfl, not_not] at hrefused
      exact (earlier_prerelease_iff hp r r' pre).mp hrefused
  · rintro ⟨hstraddles, hnumbers, htext⟩
    have hsemantic : ∀ r r' : Release, a = r.text → b = r'.text → (Earlier p a b ↔ r.Lower r') := by
      rintro r r' rfl rfl
      rw [earlier_text_iff]
      by_cases hsafe : r.Safe ∧ r'.Safe
      · exact readLower_iff hp hsafe.1 hsafe.2
      · exact hnumbers r r' rfl rfl hsafe
    have hprerelease : ∀ (r r' : Release) (pre : JsString), a = r.prerelease pre → b = r'.text →
        ¬r'.Lower r → Earlier p a b := by
      intro r r' pre ha hb hnot
      have hlower := htext r r' pre ha hb hnot
      rw [ha, hb]
      exact (earlier_prerelease_iff hp r r' pre).mpr hlower
    constructor
    · exact compareVersions_opposite a b
    · exact transitiveOn_iff.mpr hstraddles
    · intro r r' ha hb
      exact compareVersions_neg_iff.trans (hsemantic r r' ha hb)
    · intro r pre ha hb
      exact compareVersions_neg_iff.mpr (hprerelease r r pre ha hb (not_lower_self r))
    · intro hprecedes trust payload hversion hfloor
      rw [Ne, checkFloor_eq_ok_iff hversion hfloor, not_not]
      cases hprecedes with
      | release hlower => exact (hsemantic _ _ rfl rfl).mpr hlower
      | prerelease pre hnot => exact hprerelease _ _ pre rfl rfl hnot

/-- A platform that reads decimal numbers. -/
def decimalPlatform : Platform Unit NumberToken where
  sha256Hex _ := []
  ascii _ := List.forall_mem_nil _
  edVerify _ _ _ := false
  dateParse _ := none
  text := textOf
  toInteger s := if isDigits s then some (natValue s : ℤ) else none

theorem readsNumbers_decimalPlatform : ReadsNumbers decimalPlatform where
  safe n _ := by
    simp only [decimalPlatform, isDigits_natText, if_true, natValue_natText]
  hyphen n t := by
    have hno : ¬isDigits (natText n ++ 45 :: t) = true := by
      rw [isDigits, Bool.and_eq_true, List.all_eq_true]
      rintro ⟨-, hall⟩
      exact absurd (hall 45 (by simp)) (by decide)
    simp only [decimalPlatform, if_neg hno]

/-- The numbers of a version are those of its segments. -/
theorem safe_of_segments {r : Release} (h : ∀ i, natValue (segment r.text i) < 2 ^ 53) : r.Safe := by
  intro n hn
  obtain ⟨i, hi, rfl⟩ := List.mem_iff_getElem.mp hn
  have hvalue := h i
  rwa [r.segment_text, natValue_natText, Release.part, List.getD_eq_getElem _ _ hi] at hvalue

/-- On numeric dotted versions the order is right. -/
theorem lawful_numeric :
    Lawful decimalPlatform (js "1.2.0") (js "1.10.0") (js "2.0.0") := by
  have hsegments : ∀ y ∈ [js "1.2.0", js "1.10.0", js "2.0.0"], ∀ i,
      IsNumeric decimalPlatform (segment y i) ∧ natValue (segment y i) < 2 ^ 53 := by
    intro y hy i
    by_cases hi : i < 3
    · have hall : ∀ y ∈ [js "1.2.0", js "1.10.0", js "2.0.0"], ∀ i < 3,
          (decimalPlatform.toInteger (segment y i)).isSome = true ∧
            natValue (segment y i) < 2 ^ 53 := by decide +kernel
      exact hall y hy i hi
    · have hlength : ∀ y ∈ [js "1.2.0", js "1.10.0", js "2.0.0"], (y.splitOn 46).length = 3 := by
        decide +kernel
      rw [segment, List.getD_eq_default _ _ (by rw [hlength y hy]; omega), IsNumeric]
      decide +kernel
  apply (lawful_iff readsNumbers_decimalPlatform _ _ _).mpr
  refine ⟨?_, ?_, ?_⟩
  · rintro x - y hy z - ⟨i, -, -, hnot, -⟩
    exact absurd (hsegments y hy i).1 hnot
  · intro r r' ha hb hunsafe
    refine absurd ⟨safe_of_segments fun i => ?_, safe_of_segments fun i => ?_⟩ hunsafe
    · exact ha ▸ (hsegments _ (by simp) i).2
    · exact hb ▸ (hsegments _ (by simp) i).2
  · intro r r' pre ha
    have hhyphen : (45 : UInt16) ∈ js "1.2.0" := by
      rw [ha]
      simp [Release.prerelease]
    exact absurd hhyphen (by decide)

/-- A pre-release passes the floor of its release, and three versions go round. -/
theorem prerelease_passes :
    compareVersions decimalPlatform (js "1.0.0-rc1") (js "1.0.0") = 1 ∧
      checkFloor decimalPlatform (floorOf Unit (js "1.0.0"))
        (versioned NumberToken (js "1.0.0-rc1")) = .ok () ∧
      compareVersions decimalPlatform (js "1.9") (js "1.10") = -1 ∧
      compareVersions decimalPlatform (js "1.10") (js "1.1a") = -1 ∧
      compareVersions decimalPlatform (js "1.1a") (js "1.9") = -1 := by
  decide +kernel

end Floor

end Haechi.Plugin
