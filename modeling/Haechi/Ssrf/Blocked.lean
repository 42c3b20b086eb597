import Haechi.Ssrf.Literal

/-! Which literals the address check blocks. It blocks the declared ranges in whatever
spelling, but for the loopback and the unspecified address of IPv6, which it knows in one
spelling only, and for zones, which hide an IPv4-mapped address. The copy of the key custody
client reads the first group of an address differently. -/

namespace Haechi.Ssrf

open Text Json

/-! ### The declared ranges -/

/-- A range of addresses: a network and the length of what its addresses begin with. -/
structure Range where
  network : ℕ
  length : ℕ

/-- The address of `width` bits is in the range. -/
def Range.contains (width : ℕ) (r : Range) (address : ℕ) : Bool :=
  address / 2 ^ (width - r.length) == r.network / 2 ^ (width - r.length)

/-- 127/8, 10/8, 172.16/12, 192.168/16, 169.254/16 and 0/8. -/
def declaredV4 : List Range :=
  [⟨127 * 2 ^ 24, 8⟩, ⟨10 * 2 ^ 24, 8⟩, ⟨172 * 2 ^ 24 + 16 * 2 ^ 16, 12⟩,
    ⟨192 * 2 ^ 24 + 168 * 2 ^ 16, 16⟩, ⟨169 * 2 ^ 24 + 254 * 2 ^ 16, 16⟩, ⟨0, 8⟩]

/-- `::`, `::1`, `fe80::/10`, `fc00::/7` and `ff00::/8`. -/
def declaredV6 : List Range :=
  [⟨0, 128⟩, ⟨1, 128⟩, ⟨0xfe80 * 2 ^ 112, 10⟩, ⟨0xfc00 * 2 ^ 112, 7⟩, ⟨0xff00 * 2 ^ 112, 8⟩]

def isDeclaredV4 (address : ℕ) : Bool := declaredV4.any fun r => r.contains 32 address

/-- The IPv4-mapped form of an address in a declared range. -/
def isDeclaredMapped (address : ℕ) : Bool :=
  (⟨0xffff * 2 ^ 32, 96⟩ : Range).contains 128 address && isDeclaredV4 (address % 2 ^ 32)

/-- The address a literal denotes is in the declared set. -/
def Literal.declared : Literal → Bool
  | .v4 quad => isDeclaredV4 quad.address
  | .v6 l _ => (declaredV6.any fun r => r.contains 128 l.address) || isDeclaredMapped l.address

theorem Quad.isDeclaredV4_address (q : Quad) :
    isDeclaredV4 q.address = blockedOctets (q.a.val : ℤ) (q.b.val : ℤ) := by
  obtain ⟨⟨a, ha⟩, ⟨b, hb⟩, ⟨c, hc⟩, ⟨d, hd⟩⟩ := q
  rw [Bool.eq_iff_iff]
  simp only [isDeclaredV4, declaredV4, Range.contains, address, blockedOctets, List.any_cons,
    List.any_nil, Bool.or_false, Bool.or_eq_true, Bool.and_eq_true, beq_iff_eq, decide_eq_true_eq]
  omega

/-! ### The eight groups -/

theorem foldl_hexNumber_lt {s : JsString} (h : ∀ c ∈ s, (hexValue c).isSome = true) (n : ℕ) :
    s.foldl (fun acc c => 16 * acc + (hexValue c).getD 0) n < (n + 1) * 16 ^ s.length := by
  induction s generalizing n with
  | nil => simp
  | cons c s ih =>
    obtain ⟨hc, hs⟩ := List.forall_mem_cons.mp h
    have hlt : (hexValue c).getD 0 < 16 := by
      obtain ⟨v, hv⟩ := Option.isSome_iff_exists.mp hc
      rw [hv, Option.getD_some]
      simp only [hexValue, Bool.and_eq_true, decide_eq_true_eq, UInt16.le_iff_toNat_le,
        UInt16.reduceToNat] at hv
      split_ifs at hv <;> simp at hv <;> omega
    have hle : 16 * n + (hexValue c).getD 0 + 1 ≤ 16 * (n + 1) := by omega
    refine (ih hs _).trans_le ?_
    calc (16 * n + (hexValue c).getD 0 + 1) * 16 ^ s.length
        ≤ 16 * (n + 1) * 16 ^ s.length := Nat.mul_le_mul_right _ hle
      _ = (n + 1) * 16 ^ (c :: s).length := by rw [List.length_cons, pow_succ]; ring

theorem Hextet.value_lt (h : Hextet) : h.value < 65536 := by
  have hlt := foldl_hexNumber_lt h.hex 0
  have hpow : 16 ^ h.digits.length ≤ 16 ^ 4 := Nat.pow_le_pow_right (by norm_num) h.length_le
  rw [Hextet.value, hexNumber]
  omega

namespace V6

variable (l : V6)

theorem lastGroups_lt (hs : List Hextet) (quad : Option Quad) :
    ∀ g ∈ lastGroups hs quad, g < 65536 := by
  intro g hg
  rcases List.mem_append.mp hg with hg | hg
  · obtain ⟨h, -, rfl⟩ := List.mem_map.mp hg
    exact h.value_lt
  · obtain ⟨q, -, hg⟩ := List.mem_flatMap.mp hg
    have ha := q.a.isLt
    have hb := q.b.isLt
    have hc := q.c.isLt
    have hd := q.d.isLt
    simp only [Quad.groups, List.mem_cons, List.not_mem_nil, or_false] at hg
    omega

theorem groups_lt : ∀ g ∈ l.groups, g < 65536 := by
  rw [groups]
  split
  · exact lastGroups_lt _ _
  · intro g hg
    rcases List.mem_append.mp hg with hg | hg
    · rcases List.mem_append.mp hg with hg | hg
      · obtain ⟨h, -, rfl⟩ := List.mem_map.mp hg
        exact h.value_lt
      · rw [(List.mem_replicate.mp hg).2]
        norm_num
    · exact lastGroups_lt _ _ g hg

theorem length_groups : l.groups.length = 8 := by
  obtain ⟨head, tail, quad, hcomplete⟩ := l
  cases tail with
  | none => simpa [groups, length_lastGroups] using hcomplete
  | some tail =>
    simp only [groups, length_lastGroups, List.length_append, List.length_map,
      List.length_replicate]
    simp only at hcomplete
    omega

/-- A text that starts with a group. -/
theorem text_of_head {h : Hextet} {hs : List Hextet} (hhead : l.head = h :: hs) :
    (∃ rest : JsString, l.text = h.digits ++ 58 :: rest) ∧ l.groups.head? = some h.value := by
  obtain ⟨head, tail, quad, hcomplete⟩ := l
  subst hhead
  cases tail with
  | none =>
    obtain ⟨p, ps, hps⟩ : ∃ p ps, lastPieces hs quad = p :: ps := by
      cases hpieces : lastPieces hs quad with
      | nil =>
        obtain ⟨hnil, hquad⟩ := List.append_eq_nil_iff.mp hpieces
        rw [List.map_eq_nil_iff] at hnil hquad
        simp [hnil, hquad] at hcomplete
      | cons p ps => exact ⟨p, ps, rfl⟩
    have hcons : lastPieces (h :: hs) quad = h.digits :: lastPieces hs quad := rfl
    refine ⟨⟨joined (lastPieces hs quad), ?_⟩, rfl⟩
    simp only [text, hcons, hps, joined_cons_cons]
  | some tail =>
    refine ⟨?_, rfl⟩
    cases hs with
    | nil => exact ⟨58 :: joined (lastPieces tail quad), by simp [text, joined_singleton]⟩
    | cons h' hs =>
      refine ⟨joined ((h' :: hs).map Hextet.digits) ++ 58 :: 58 :: joined (lastPieces tail quad), ?_⟩
      simp [text, joined_cons_cons]

/-- A text that starts with `::`. -/
theorem text_of_nil (hhead : l.head = []) :
    (∃ rest : JsString, l.text = 58 :: 58 :: rest) ∧ l.groups.head? = some 0 := by
  obtain ⟨head, tail, quad, hcomplete⟩ := l
  subst hhead
  cases tail with
  | none => cases quad <;> simp at hcomplete
  | some tail =>
    refine ⟨⟨joined (lastPieces tail quad), rfl⟩, ?_⟩
    have hpos : 8 - 0 - (lastGroups tail quad).length = (7 - (lastGroups tail quad).length) + 1 := by
      rw [length_lastGroups]
      simp only [List.length_nil] at hcomplete
      omega
    simp [groups, hpos, List.replicate_succ]

end V6

theorem exists_of_length_eight {gs : List ℕ} (h : gs.length = 8) :
    ∃ g₀ g₁ g₂ g₃ g₄ g₅ g₆ g₇, gs = [g₀, g₁, g₂, g₃, g₄, g₅, g₆, g₇] := by
  match gs, h with
  | [g₀, g₁, g₂, g₃, g₄, g₅, g₆, g₇], _ => exact ⟨g₀, g₁, g₂, g₃, g₄, g₅, g₆, g₇, rfl⟩

/-! ### The characters of a literal -/

/-- Digits, letters, `-`, `.`, `:` and `%`. -/
def isLiteralUnit (c : UInt16) : Bool := isZoneUnit c || c == 37

theorem isZoneUnit_of_hex {c : UInt16} (h : (hexValue c).isSome = true) : isZoneUnit c = true := by
  rw [hexValue_isSome_iff] at h
  simp only [isZoneUnit, isDigit, Bool.or_eq_true, Bool.and_eq_true, decide_eq_true_eq,
    UInt16.le_iff_toNat_le, UInt16.reduceToNat] at h ⊢
  omega

theorem isZoneUnit_of_isDigit {c : UInt16} (h : isDigit c = true) : isZoneUnit c = true := by
  simp [isZoneUnit, h]

theorem Quad.isZoneUnit_text (q : Quad) : ∀ c ∈ q.text, isZoneUnit c = true := by
  intro c hc
  rcases mem_quadText hc with h | rfl
  · exact isZoneUnit_of_isDigit h
  · decide

theorem joined_units {ps : List JsString} (h : ∀ p ∈ ps, ∀ c ∈ p, isZoneUnit c = true) :
    ∀ c ∈ joined ps, isZoneUnit c = true := by
  intro c hc
  rcases mem_intercalate hc with rfl | ⟨p, hp, hc⟩
  · decide
  · exact h p hp c hc

theorem lastPieces_units (hs : List Hextet) (quad : Option Quad) :
    ∀ p ∈ V6.lastPieces hs quad, ∀ c ∈ p, isZoneUnit c = true := by
  intro p hp
  rcases List.mem_append.mp hp with hp | hp
  · obtain ⟨h, -, rfl⟩ := List.mem_map.mp hp
    exact fun c hc => isZoneUnit_of_hex (h.hex c hc)
  · obtain ⟨q, -, rfl⟩ := List.mem_map.mp hp
    exact q.isZoneUnit_text

theorem V6.isZoneUnit_text (l : V6) : ∀ c ∈ l.text, isZoneUnit c = true := by
  have hhead := joined_units (lastPieces_units l.head none)
  have hnone : lastPieces l.head none = l.head.map Hextet.digits := List.append_nil _
  rw [hnone] at hhead
  rw [text]
  split
  · exact joined_units (lastPieces_units _ _)
  · intro c hc
    simp only [List.mem_append, List.mem_cons] at hc
    rcases hc with hc | rfl | rfl | hc
    · exact hhead c hc
    · decide
    · decide
    · exact joined_units (lastPieces_units _ _) c hc

theorem Literal.bare_units (l : Literal) : ∀ c ∈ l.bare, isLiteralUnit c = true := by
  have hzone : ∀ c, isZoneUnit c = true → isLiteralUnit c = true := fun c hc => by
    simp [isLiteralUnit, hc]
  cases l with
  | v4 q => exact fun c hc => hzone c (q.isZoneUnit_text c hc)
  | v6 l zone =>
    intro c hc
    rcases List.mem_append.mp hc with hc | hc
    · exact hzone c (l.isZoneUnit_text c hc)
    · cases zone with
      | none => cases hc
      | some z =>
        rcases List.mem_cons.mp hc with rfl | hc
        · decide
        · exact hzone c (z.units c hc)

theorem isLiteralUnit_bounds {c : UInt16} (h : isLiteralUnit c = true) :
    33 < c ∧ c < 128 ∧ c ≠ 91 ∧ c ≠ 93 := by
  simp only [isLiteralUnit, isZoneUnit, isDigit, Bool.or_eq_true, Bool.and_eq_true, beq_iff_eq,
    decide_eq_true_eq, UInt16.le_iff_toNat_le, UInt16.lt_iff_toNat_lt, ne_eq,
    ← UInt16.toNat_inj, UInt16.reduceToNat] at h ⊢
  omega

theorem isSpace_eq_false_of_lt {c : UInt16} (h : 33 < c) (h' : c < 128) : isSpace c = false := by
  rw [← Bool.not_eq_true]
  intro hspace
  simp only [isSpace, Bool.or_eq_true, Bool.and_eq_true, beq_iff_eq,
    decide_eq_true_eq, UInt16.le_iff_toNat_le, UInt16.lt_iff_toNat_lt,
    ← UInt16.toNat_inj, UInt16.reduceToNat] at h h' hspace
  omega

/-- The brackets of a literal are stripped, and nothing else. -/
theorem Literal.stripBrackets_text (l : Literal) (brackets : Bool) :
    stripBrackets (l.text brackets) = l.bare := by
  have hunits : ∀ c ∈ l.bare, c ≠ 91 ∧ c ≠ 93 := fun c hc =>
    (isLiteralUnit_bounds (l.bare_units c hc)).2.2
  rw [text]
  split_ifs
  · simp [stripBrackets]
  · have hfirst : l.bare.head? ≠ some 91 := fun h => (hunits _ (List.mem_of_head? h)).1 rfl
    have hlast : l.bare.getLast? ≠ some 93 := fun h => (hunits _ (List.mem_of_getLast? h)).2 rfl
    simp [stripBrackets, hfirst, hlast]

/-! ### What kind of literal it is -/

theorem not_isIPv4_of_colon {s : JsString} (h : 58 ∈ s) : isIPv4 s = false := by
  by_contra h4
  simp only [isIPv4, Bool.not_eq_false, Bool.and_eq_true, List.all_eq_true] at h4
  have hsplit : [46].intercalate (s.splitOn 46) = s := List.intercalate_splitOn 46
  rw [← hsplit] at h
  rcases mem_intercalate h with h | ⟨p, hp, hc⟩
  · exact absurd h (by decide)
  · have hoctet := h4.2 p hp
    simp only [isOctet, isDigits, Bool.and_eq_true, List.all_eq_true] at hoctet
    exact absurd (hoctet.1.1.2 58 hc) (by decide)

theorem V6.mem_colon (l : V6) : 58 ∈ l.text := by
  cases hhead : l.head with
  | nil =>
    obtain ⟨rest, htext⟩ := (l.text_of_nil hhead).1
    simp [htext]
  | cons h hs =>
    obtain ⟨rest, htext⟩ := (l.text_of_head hhead).1
    simp [htext]

theorem V6.takeWhile_text (l : V6) (zone : Option Zone) :
    (l.text ++ Literal.zoneText zone).takeWhile (· ≠ 37) = l.text ∧
      (l.text ++ Literal.zoneText zone).dropWhile (· ≠ 37) = Literal.zoneText zone := by
  have hall : ∀ c ∈ l.text, decide (c ≠ 37) = true := by
    intro c hc
    have := l.isZoneUnit_text c hc
    rw [decide_eq_true_eq]
    rintro rfl
    exact absurd this (by decide)
  rw [List.takeWhile_append_of_pos hall, List.dropWhile_append_of_pos hall]
  cases zone <;> simp [Literal.zoneText]

theorem isIP_v6 (l : V6) (zone : Option Zone) : isIP (l.text ++ Literal.zoneText zone) = 6 := by
  obtain ⟨htake, hdrop⟩ := l.takeWhile_text zone
  have h6 : isIPv6 (l.text ++ Literal.zoneText zone) = true := by
    rw [isIPv6, htake, hdrop, l.isIPv6Body_text]
    cases zone with
    | none => rfl
    | some z => simpa [Literal.zoneText, List.all_eq_true, z.nonempty] using z.units
  rw [isIP, not_isIPv4_of_colon (List.mem_append_left _ l.mem_colon), h6]
  rfl

theorem isIP_v4 (q : Quad) : isIP q.text = 4 := by
  rw [isIP, q.isIPv4_text]
  rfl

/-! ### What the check makes of the groups -/

/-- The groups of an IPv4-mapped address. -/
def isMapped (gs : List ℕ) : Bool := gs.take 6 == [0, 0, 0, 0, 0, 0xffff]

theorem groupBytes_eight {g₀ g₁ g₂ g₃ g₄ g₅ g₆ g₇ : ℕ}
    (hlt : ∀ g ∈ [g₀, g₁, g₂, g₃, g₄, g₅, g₆, g₇], g < 65536) :
    groupBytes [g₀, g₁, g₂, g₃, g₄, g₅, g₆, g₇] =
      [g₀ / 256, g₀ % 256, g₁ / 256, g₁ % 256, g₂ / 256, g₂ % 256, g₃ / 256, g₃ % 256,
        g₄ / 256, g₄ % 256, g₅ / 256, g₅ % 256, g₆ / 256, g₆ % 256, g₇ / 256, g₇ % 256] := by
  simp only [List.forall_mem_cons, List.not_mem_nil, false_imp_iff, implies_true, and_true] at hlt
  have hbyte : ∀ g < 65536, g / 256 % 256 = g / 256 := by omega
  simp only [groupBytes_cons, hbyte _ hlt.1, hbyte _ hlt.2.1, hbyte _ hlt.2.2.1,
    hbyte _ hlt.2.2.2.1, hbyte _ hlt.2.2.2.2.1, hbyte _ hlt.2.2.2.2.2.1,
    hbyte _ hlt.2.2.2.2.2.2.1, hbyte _ hlt.2.2.2.2.2.2.2]
  rfl

theorem mappedIpv4_eq {p : Platform} {s : JsString} {g₀ g₁ g₂ g₃ g₄ g₅ g₆ g₇ : ℕ}
    (h : ipv6ToBytes p s = some (groupBytes [g₀, g₁, g₂, g₃, g₄, g₅, g₆, g₇]))
    (hlt : ∀ g ∈ [g₀, g₁, g₂, g₃, g₄, g₅, g₆, g₇], g < 65536) :
    mappedIpv4 p s =
      if isMapped [g₀, g₁, g₂, g₃, g₄, g₅, g₆, g₇] = true then
        some (quadText (g₆ / 256) (g₆ % 256) (g₇ / 256) (g₇ % 256))
      else none := by
  rw [mappedIpv4, h, Option.bind_some, groupBytes_eight hlt]
  by_cases hm : isMapped [g₀, g₁, g₂, g₃, g₄, g₅, g₆, g₇] = true
  · have hm' := hm
    simp only [isMapped, List.take_succ_cons, List.take_zero, beq_iff_eq, List.cons.injEq,
      and_true] at hm'
    obtain ⟨rfl, rfl, rfl, rfl, rfl, rfl⟩ := hm'
    rw [if_pos hm]
    rfl
  · rw [if_neg hm]
    simp only [isMapped, List.take_succ_cons, List.take_zero, beq_iff_eq, List.cons.injEq,
      and_true] at hm
    simp only [List.take_succ_cons, List.take_zero, List.any_cons, List.any_nil, Bool.or_false,
      Bool.or_eq_true, decide_eq_true_eq, List.getD_cons_succ, List.getD_cons_zero]
    split_ifs
    · rfl
    · rfl
    · omega

theorem mapM_eq_none {α β : Type} {f : α → Option β} {l : List α} {a : α} (ha : a ∈ l)
    (hf : f a = none) : l.mapM f = none := by
  induction l with
  | nil => cases ha
  | cons b l ih =>
    rw [List.mapM_cons]
    rcases List.mem_cons.mp ha with rfl | ha
    · rw [hf]
      rfl
    · cases f b with
      | none => rfl
      | some y =>
        rw [ih ha]
        rfl

theorem exists_mem_splitOn {s : JsString} {c x : UInt16} (h : c ∈ s) (hne : c ≠ x) :
    ∃ p ∈ s.splitOn x, c ∈ p := by
  have hsplit : [x].intercalate (s.splitOn x) = s := List.intercalate_splitOn x
  rw [← hsplit] at h
  exact (mem_intercalate h).resolve_left hne

theorem splitDouble_ne_nil (s : JsString) : splitDouble s ≠ [] := by
  fun_induction splitDouble s with
  | case4 c d rest _ ih => simpa [List.modifyHead_eq_nil_iff] using ih
  | _ => simp

theorem exists_mem_splitDouble {s : JsString} {c : UInt16} (h : c ∈ s) (hne : c ≠ 58) :
    ∃ p ∈ splitDouble s, c ∈ p := by
  fun_induction splitDouble s with
  | case1 => cases h
  | case2 d => exact ⟨[d], by simp, h⟩
  | case3 d e rest hcolon ih =>
    obtain ⟨rfl, rfl⟩ := hcolon
    rcases List.mem_cons.mp h with rfl | h
    · exact absurd rfl hne
    rcases List.mem_cons.mp h with rfl | h
    · exact absurd rfl hne
    obtain ⟨p, hp, hc⟩ := ih h
    exact ⟨p, List.mem_cons_of_mem _ hp, hc⟩
  | case4 d e rest hcolon ih =>
    cases hsplit : splitDouble (e :: rest) with
    | nil => exact absurd hsplit (splitDouble_ne_nil _)
    | cons q qs =>
      rw [hsplit] at ih
      rcases List.mem_cons.mp h with rfl | h
      · exact ⟨c :: q, by simp, by simp⟩
      · obtain ⟨p, hp, hc⟩ := ih h
        rcases List.mem_cons.mp hp with rfl | hp
        · exact ⟨d :: p, by simp, List.mem_cons_of_mem d hc⟩
        · exact ⟨p, by simp [hp], hc⟩

theorem toGroups_of_percent {g : JsString} (h : 37 ∈ g) : toGroups g = none := by
  obtain ⟨p, hp, hc⟩ := exists_mem_splitOn h (x := 58) (by decide)
  rw [toGroups, if_neg (List.ne_nil_of_mem h)]
  refine mapM_eq_none hp (if_neg fun hhex => ?_)
  exact (⟨p, hhex⟩ : Hextet).not_mem (by decide) hc

theorem hexGroups_of_percent {s : JsString} (h : 37 ∈ s) : hexGroups s = none := by
  obtain ⟨p, hp, hc⟩ := exists_mem_splitDouble h (by decide)
  rw [hexGroups]
  split
  · next whole hsplit =>
    rw [hsplit, List.mem_singleton] at hp
    rw [toGroups_of_percent (hp ▸ hc)]
    rfl
  · next left right hsplit =>
    rw [hsplit, List.mem_pair] at hp
    rcases hp with rfl | rfl
    · rw [toGroups_of_percent hc]
      rfl
    · rw [toGroups_of_percent hc]
      cases toGroups left <;> rfl
  · rfl

/-- A text with a percent sign is no IPv6 address to `ipv6ToBytes`. -/
theorem ipv6ToBytes_of_percent (p : Platform) {s : JsString} (h : 37 ∈ s) :
    ipv6ToBytes p s = none := by
  rw [ipv6ToBytes]
  split_ifs with hdot hcolon
  · have hparts : s.rdropWhile (· ≠ 58) ++ s.rtakeWhile (· ≠ 58) = s :=
      List.rdropWhile_append_rtakeWhile
    rw [← hparts, List.mem_append] at h
    simp only
    split_ifs
    · rfl
    · rcases h with h | h
      · rw [hexGroups_of_percent (List.mem_append_left _ h)]
        cases quadOctets p _ <;> rfl
      · obtain ⟨q, hq, hc⟩ := exists_mem_splitOn h (x := 46) (by decide)
        have : quadOctets p ((s.rtakeWhile (· ≠ 58)).splitOn 46) = none :=
          mapM_eq_none hq (by rw [p.percent q hc]; rfl)
        rw [this]
        rfl
  · rfl
  · rw [hexGroups_of_percent h]
    rfl

theorem V6.mappedIpv4_zone (p : Platform) (l : V6) (z : Zone) :
    mappedIpv4 p (l.text ++ Literal.zoneText (some z)) = none := by
  rw [mappedIpv4, ipv6ToBytes_of_percent p (by simp [Literal.zoneText])]
  rfl

/-! ### Lower case, and the first group -/

theorem lowerUnit_eq_iff {c d : UInt16} (hd : d < 65) : lowerUnit c = d ↔ c = d := by
  rw [lowerUnit]
  split_ifs with hc
  · simp only [Bool.and_eq_true, decide_eq_true_eq, UInt16.le_iff_toNat_le, UInt16.lt_iff_toNat_lt,
      UInt16.reduceToNat] at hc hd
    have hsum : (c + 32).toNat = c.toNat + 32 := by
      rw [UInt16.toNat_add]
      simp only [UInt16.reduceToNat]
      omega
    rw [← UInt16.toNat_inj, ← UInt16.toNat_inj, hsum]
    omega
  · rfl

/-- A text without letters is the lower case of itself alone. -/
theorem lowerAscii_eq_iff {s t : JsString} (ht : ∀ c ∈ t, c < 65) : lowerAscii s = t ↔ s = t := by
  induction t generalizing s with
  | nil => simp [lowerAscii]
  | cons d t ih =>
    obtain ⟨hd, ht⟩ := List.forall_mem_cons.mp ht
    cases s with
    | nil => simp [lowerAscii]
    | cons c s =>
      have hcons : lowerAscii (c :: s) = lowerUnit c :: lowerAscii s := rfl
      rw [hcons, List.cons.injEq, List.cons.injEq, lowerUnit_eq_iff hd, ih ht]

theorem hexValue_lowerUnit (c : UInt16) : hexValue (lowerUnit c) = hexValue c := by
  rw [lowerUnit]
  split_ifs with hc
  · simp only [Bool.and_eq_true, decide_eq_true_eq, UInt16.le_iff_toNat_le,
      UInt16.reduceToNat] at hc
    have hsum : (c + 32).toNat = c.toNat + 32 := by
      rw [UInt16.toNat_add]
      simp only [UInt16.reduceToNat]
      omega
    simp only [hexValue, Bool.and_eq_true, decide_eq_true_eq, UInt16.le_iff_toNat_le, hsum,
      UInt16.reduceToNat]
    split_ifs
    all_goals first | omega | rfl
  · rfl

theorem hexNumber_lowerAscii (s : JsString) : hexNumber (lowerAscii s) = hexNumber s := by
  rw [hexNumber, lowerAscii, List.foldl_map, hexNumber]
  simp only [hexValue_lowerUnit]

/-- A run of hexadecimal digits is a number. -/
theorem parseHex_digits {s : JsString} (hne : s ≠ []) (h : ∀ c ∈ s, (hexValue c).isSome = true) :
    parseHex s = some (hexNumber s : ℤ) := by
  have hunits : ∀ c ∈ s, isSpace c = false ∧ c ≠ 45 ∧ c ≠ 43 ∧ c ≠ 120 ∧ c ≠ 88 := by
    intro c hc
    have hbounds := isLiteralUnit_bounds (c := c) (by simp [isLiteralUnit, isZoneUnit_of_hex (h c hc)])
    refine ⟨isSpace_eq_false_of_lt hbounds.1 hbounds.2.1, ?_, ?_, ?_, ?_⟩ <;>
      · rintro rfl
        exact absurd (h _ hc) (by decide)
  have hblank : s.dropWhile isSpace = s := by
    rw [List.dropWhile_eq_self_iff]
    intro hlen
    simp [(hunits _ (List.getElem_mem hlen)).1]
  have hminus : s.head? ≠ some 45 := fun h' => (hunits _ (List.mem_of_head? h')).2.1 rfl
  have hplus : s.head? ≠ some 43 := fun h' => (hunits _ (List.mem_of_head? h')).2.2.1 rfl
  have hx : ¬(s.take 2 = js "0x" ∨ s.take 2 = js "0X") := by
    rintro (h' | h')
    · have hmem : (120 : UInt16) ∈ s := List.mem_of_mem_take (h' ▸ (by decide : (120 : UInt16) ∈ js "0x"))
      exact (hunits _ hmem).2.2.2.1 rfl
    · have hmem : (88 : UInt16) ∈ s := List.mem_of_mem_take (h' ▸ (by decide : (88 : UInt16) ∈ js "0X"))
      exact (hunits _ hmem).2.2.2.2 rfl
  have htake : s.takeWhile (fun c => (hexValue c).isSome) = s := List.takeWhile_eq_self_iff.mpr h
  simp only [parseHex, hblank, hminus, hplus, or_self, if_false, hx, htake, hne]

theorem Hextet.lower_hex (h : Hextet) : ∀ c ∈ lowerAscii h.digits, (hexValue c).isSome = true := by
  intro c hc
  obtain ⟨d, hd, rfl⟩ := List.mem_map.mp hc
  rw [hexValue_lowerUnit]
  exact h.hex d hd

theorem Hextet.lower_ne_nil (h : Hextet) : lowerAscii h.digits ≠ [] := by
  simpa [lowerAscii] using h.ne_nil

theorem Hextet.not_colon_lower (h : Hextet) : ∀ c ∈ lowerAscii h.digits, decide (c ≠ 58) = true := by
  intro c hc
  rw [decide_eq_true_eq]
  rintro rfl
  exact absurd (h.lower_hex 58 hc) (by decide)

/-- The first group of a text, as it is read in lower case. -/
theorem V6.firstGroup_of_head {l : V6} {h : Hextet} {hs : List Hextet} (hhead : l.head = h :: hs)
    (more : JsString) :
    (lowerAscii (l.text ++ more)).takeWhile (· ≠ 58) = lowerAscii h.digits := by
  obtain ⟨rest, htext⟩ := (l.text_of_head hhead).1
  have hlower : lowerAscii (l.text ++ more) =
      lowerAscii h.digits ++ 58 :: lowerAscii (rest ++ more) := by
    rw [htext]
    simp [lowerAscii, lowerUnit]
  rw [hlower, List.takeWhile_append_of_pos h.not_colon_lower]
  simp

theorem V6.firstGroup_of_nil {l : V6} (hhead : l.head = []) (more : JsString) :
    (lowerAscii (l.text ++ more)).takeWhile (· ≠ 58) = [] := by
  obtain ⟨rest, htext⟩ := (l.text_of_nil hhead).1
  rw [htext]
  simp [lowerAscii, lowerUnit]

/-! ### The core's check of a literal -/

variable {p : Platform}

theorem Literal.toLowerCase_bare (l : Literal) : p.toLowerCase l.bare = lowerAscii l.bare :=
  p.ascii _ fun c hc => (isLiteralUnit_bounds (l.bare_units c hc)).2.1

theorem checkAddress_quad (embedded : JsString → Bool) (q : Quad) (brackets : Bool) :
    checkAddress p embedded ((Literal.v4 q).text brackets) = isDeclaredV4 q.address := by
  have hoctets : octetsOf p q.text = [(q.a : ℕ), (q.b : ℕ), (q.c : ℕ), (q.d : ℕ)].map (Nat.cast : ℕ → ℤ) := by
    have h : ∀ n, (p.toInteger (natText n)).getD (-1) = (n : ℤ) := fun n => by
      rw [p.decimal _ (isDigits_natText n), natValue_natText, Option.getD_some]
    rw [octetsOf, Quad.text, splitOn_quadText]
    simp [h]
  rw [checkAddress, Literal.stripBrackets_text]
  simp only [Literal.bare, isIP_v4, if_true, hoctets]
  rw [q.isDeclaredV4_address]
  rfl

/-- The embedded address of an IPv4-mapped one. -/
def embeddedQuad {g₆ g₇ : ℕ} (h₆ : g₆ < 65536) (h₇ : g₇ < 65536) : Quad :=
  ⟨⟨g₆ / 256, by omega⟩, ⟨g₆ % 256, by omega⟩, ⟨g₇ / 256, by omega⟩, ⟨g₇ % 256, by omega⟩⟩

theorem embeddedQuad_address {g₆ g₇ : ℕ} (h₆ : g₆ < 65536) (h₇ : g₇ < 65536) :
    (embeddedQuad h₆ h₇).address = g₆ * 65536 + g₇ := by
  simp only [embeddedQuad, Quad.address]
  omega

theorem isBlockedAddress_quad (q : Quad) (brackets : Bool) :
    isBlockedAddress p ((Literal.v4 q).text brackets) = isDeclaredV4 q.address :=
  checkAddress_quad _ q brackets

/-! ### The call the check makes of itself -/

theorem groupBytes_lt (gs : List ℕ) : ∀ b ∈ groupBytes gs, b < 256 := by
  induction gs with
  | nil => simp [groupBytes]
  | cons g gs ih =>
    intro b hb
    rw [groupBytes_cons, List.mem_append] at hb
    rcases hb with hb | hb
    · simp only [List.mem_cons, List.not_mem_nil, or_false] at hb
      omega
    · exact ih b hb

theorem quadOctets_lt {quad : List JsString} {oct : List ℕ} (h : quadOctets p quad = some oct) :
    ∀ n ∈ oct, n < 256 := by
  induction quad generalizing oct with
  | nil =>
    obtain rfl := Option.some.inj h
    simp
  | cons part quad ih =>
    rw [quadOctets, List.mapM_cons] at h
    obtain ⟨n, hn, h⟩ := Option.bind_eq_some_iff.mp h
    obtain ⟨rest, hrest, h⟩ := Option.bind_eq_some_iff.mp h
    obtain rfl := Option.some.inj h
    obtain ⟨i, -, hi⟩ := Option.bind_eq_some_iff.mp hn
    split_ifs at hi with hrange
    obtain rfl := Option.some.inj hi
    rw [List.forall_mem_cons]
    exact ⟨by omega, ih hrest⟩

theorem overwriteTail_lt {bytes oct : List ℕ} (hbytes : ∀ b ∈ bytes, b < 256)
    (hoct : ∀ n ∈ oct, n < 256) : ∀ b ∈ overwriteTail bytes oct, b < 256 := by
  have hset : ∀ (l : List ℕ) (i n : ℕ), (∀ b ∈ l, b < 256) → n < 256 → ∀ b ∈ l.set i n, b < 256 := by
    intro l i n hl hn b hb
    rcases List.mem_or_eq_of_mem_set hb with hb | rfl
    · exact hl b hb
    · exact hn
  unfold overwriteTail
  split
  · simp only [List.forall_mem_cons] at hoct
    exact hset _ _ _ (hset _ _ _ (hset _ _ _ (hset _ _ _ hbytes hoct.1) hoct.2.1) hoct.2.2.1)
      hoct.2.2.2.1
  · exact hbytes

theorem ipv6ToBytes_lt {s : JsString} {bytes : List ℕ} (h : ipv6ToBytes p s = some bytes) :
    ∀ b ∈ bytes, b < 256 := by
  simp only [ipv6ToBytes] at h
  split_ifs at h
  · obtain ⟨oct, hoct, h⟩ := Option.bind_eq_some_iff.mp h
    obtain ⟨groups, -, rfl⟩ := Option.map_eq_some_iff.mp h
    exact overwriteTail_lt (groupBytes_lt groups) (quadOctets_lt hoct)
  · obtain ⟨groups, -, rfl⟩ := Option.map_eq_some_iff.mp h
    exact groupBytes_lt groups

/-- What is embedded is a dotted quad. -/
theorem exists_quad_of_mappedIpv4 {s m : JsString} (h : mappedIpv4 p s = some m) :
    ∃ q : Quad, m = (Literal.v4 q).text false := by
  obtain ⟨bytes, hbytes, h⟩ := Option.bind_eq_some_iff.mp h
  have hlt : ∀ i, bytes.getD i 0 < 256 := by
    intro i
    rw [List.getD_eq_getElem?_getD]
    cases hi : bytes[i]? with
    | none => simp
    | some b => exact ipv6ToBytes_lt hbytes b (List.mem_of_getElem? hi)
  split_ifs at h
  exact ⟨⟨⟨_, hlt 12⟩, ⟨_, hlt 13⟩, ⟨_, hlt 14⟩, ⟨_, hlt 15⟩⟩, (Option.some.inj h).symm⟩

/-- The check calls itself for the embedded address, as the source does. -/
theorem isBlockedAddress_eq (host : JsString) :
    isBlockedAddress p host = checkAddress p (isBlockedAddress p) host := by
  have hembedded : ∀ m, mappedIpv4 p (stripBrackets host) = some m →
      checkAddress p (fun _ => false) m = isBlockedAddress p m := by
    intro m hm
    obtain ⟨q, rfl⟩ := exists_quad_of_mappedIpv4 hm
    exact (checkAddress_quad _ q false).trans (isBlockedAddress_quad q false).symm
  rw [isBlockedAddress]
  simp only [checkAddress]
  cases hm : mappedIpv4 p (stripBrackets host) with
  | none => rfl
  | some m =>
    have h := hembedded m hm
    simp only [checkAddress] at h
    simp only [h]

/-! ### Which literals are classified by their address -/

/-- The only spellings of the loopback and the unspecified address the check knows. -/
def isNamed (bare : JsString) : Bool := bare = js "::1" || bare = js "::"

/-- What the check makes of an IPv6 literal, in terms of the address' groups. -/
theorem isBlockedAddress_v6 (l : V6) (zone : Option Zone) (brackets : Bool)
    {g₀ g₁ g₂ g₃ g₄ g₅ g₆ g₇ : ℕ} (hgroups : l.groups = [g₀, g₁, g₂, g₃, g₄, g₅, g₆, g₇]) :
    isBlockedAddress p ((Literal.v6 l zone).text brackets) =
      if isNamed (Literal.v6 l zone).bare = true then true
      else if zone = none ∧ isMapped l.groups = true then isDeclaredV4 (g₆ * 65536 + g₇)
      else blockedHextet g₀ := by
  have hlt := l.groups_lt
  rw [hgroups] at hlt
  rw [isBlockedAddress, checkAddress, Literal.stripBrackets_text]
  simp only [Literal.toLowerCase_bare]
  have h6 : isIP (Literal.v6 l zone).bare = 6 := isIP_v6 l zone
  have h1 : lowerAscii (Literal.v6 l zone).bare = js "::1" ↔ (Literal.v6 l zone).bare = js "::1" :=
    lowerAscii_eq_iff (by decide)
  have h0 : lowerAscii (Literal.v6 l zone).bare = js "::" ↔ (Literal.v6 l zone).bare = js "::" :=
    lowerAscii_eq_iff (by decide)
  simp only [h6, h1, h0, Nat.reduceEqDiff, if_false, if_true]
  have hfirst : (parseHex ((lowerAscii (Literal.v6 l zone).bare).takeWhile (· ≠ 58))).any
      blockedHextet = blockedHextet g₀ := by
    cases hhead : l.head with
    | nil =>
      have h₀ := (l.text_of_nil hhead).2
      rw [hgroups] at h₀
      obtain rfl := Option.some.inj h₀
      rw [Literal.bare, V6.firstGroup_of_nil hhead]
      rfl
    | cons h hs =>
      have h₀ := (l.text_of_head hhead).2
      rw [hgroups] at h₀
      obtain rfl := Option.some.inj h₀
      rw [Literal.bare, V6.firstGroup_of_head hhead, parseHex_digits h.lower_ne_nil h.lower_hex,
        hexNumber_lowerAscii]
      rfl
  by_cases hnamed : isNamed (Literal.v6 l zone).bare = true
  · rw [if_pos hnamed, if_pos (by simpa [isNamed] using hnamed)]
  · rw [if_neg hnamed, if_neg (by simpa [isNamed] using hnamed)]
    cases zone with
    | some z =>
      have hnone : mappedIpv4 p (Literal.v6 l (some z)).bare = none := l.mappedIpv4_zone p z
      rw [hnone, if_neg (by simp)]
      exact hfirst
    | none =>
      have hbare : (Literal.v6 l none).bare = l.text := List.append_nil _
      have hmapped := mappedIpv4_eq (hgroups ▸ l.ipv6ToBytes_text p) hlt
      rw [hbare] at hfirst ⊢
      rw [hmapped, hgroups]
      by_cases hm : isMapped [g₀, g₁, g₂, g₃, g₄, g₅, g₆, g₇] = true
      · simp only [List.forall_mem_cons] at hlt
        have hquad := checkAddress_quad (p := p) (fun _ => false)
          (embeddedQuad hlt.2.2.2.2.2.2.1 hlt.2.2.2.2.2.2.2.1) false
        rw [embeddedQuad_address] at hquad
        rw [if_pos hm, if_pos ⟨rfl, hm⟩]
        exact hquad
      · rw [if_neg hm, if_neg fun h => hm h.2]
        exact hfirst

/-! ### The declared set, by groups -/

section Groups

variable {g₀ g₁ g₂ g₃ g₄ g₅ g₆ g₇ : ℕ}

/-- The number that eight groups write. -/
def addressOf (groups : List ℕ) : ℕ := groups.foldl (fun acc g => acc * 2 ^ 16 + g) 0

theorem addressOf_le_one :
    addressOf [g₀, g₁, g₂, g₃, g₄, g₅, g₆, g₇] ≤ 1 ↔
      g₀ = 0 ∧ g₁ = 0 ∧ g₂ = 0 ∧ g₃ = 0 ∧ g₄ = 0 ∧ g₅ = 0 ∧ g₆ = 0 ∧ g₇ ≤ 1 := by
  simp only [addressOf, List.foldl_cons, List.foldl_nil]
  omega

theorem declaredV6_eq (hlt : ∀ g ∈ [g₀, g₁, g₂, g₃, g₄, g₅, g₆, g₇], g < 65536) :
    (declaredV6.any fun r => r.contains 128 (addressOf [g₀, g₁, g₂, g₃, g₄, g₅, g₆, g₇])) =
      (decide (addressOf [g₀, g₁, g₂, g₃, g₄, g₅, g₆, g₇] ≤ 1) || blockedHextet g₀) := by
  simp only [List.forall_mem_cons, List.not_mem_nil, false_imp_iff, implies_true, and_true] at hlt
  rw [Bool.eq_iff_iff]
  simp only [declaredV6, Range.contains, addressOf, blockedHextet, List.any_cons, List.any_nil,
    Bool.or_false, Bool.or_eq_true, Bool.and_eq_true, beq_iff_eq, decide_eq_true_eq,
    List.foldl_cons, List.foldl_nil]
  norm_num
  omega

theorem isDeclaredMapped_eq (hlt : ∀ g ∈ [g₀, g₁, g₂, g₃, g₄, g₅, g₆, g₇], g < 65536) :
    isDeclaredMapped (addressOf [g₀, g₁, g₂, g₃, g₄, g₅, g₆, g₇]) =
      (isMapped [g₀, g₁, g₂, g₃, g₄, g₅, g₆, g₇] && isDeclaredV4 (g₆ * 65536 + g₇)) := by
  simp only [List.forall_mem_cons, List.not_mem_nil, false_imp_iff, implies_true, and_true] at hlt
  have hmapped : (⟨0xffff * 2 ^ 32, 96⟩ : Range).contains 128
      (addressOf [g₀, g₁, g₂, g₃, g₄, g₅, g₆, g₇]) =
        isMapped [g₀, g₁, g₂, g₃, g₄, g₅, g₆, g₇] := by
    rw [Bool.eq_iff_iff]
    simp only [Range.contains, addressOf, isMapped, beq_iff_eq, List.foldl_cons, List.foldl_nil,
      List.take_succ_cons, List.take_zero, List.cons.injEq, and_true]
    norm_num
    omega
  have hlow : addressOf [g₀, g₁, g₂, g₃, g₄, g₅, g₆, g₇] % 2 ^ 32 = g₆ * 65536 + g₇ := by
    simp only [addressOf, List.foldl_cons, List.foldl_nil]
    omega
  rw [isDeclaredMapped, hmapped, hlow]

/-- The first group of a mapped address is zero, so its own range is not blocked. -/
theorem blockedHextet_of_isMapped (h : isMapped [g₀, g₁, g₂, g₃, g₄, g₅, g₆, g₇] = true) :
    blockedHextet g₀ = false := by
  simp only [isMapped, List.take_succ_cons, beq_iff_eq, List.cons.injEq] at h
  rw [h.1]
  rfl

theorem not_isMapped_of_le_one (h : addressOf [g₀, g₁, g₂, g₃, g₄, g₅, g₆, g₇] ≤ 1) :
    isMapped [g₀, g₁, g₂, g₃, g₄, g₅, g₆, g₇] = false ∧ blockedHextet g₀ = false := by
  obtain ⟨rfl, rfl, rfl, rfl, rfl, rfl, -⟩ := addressOf_le_one.mp h
  exact ⟨rfl, rfl⟩

end Groups

/-- The named spellings are of the two addresses. -/
theorem V6.address_le_one_of_isNamed {l : V6} {zone : Option Zone}
    (h : isNamed (Literal.v6 l zone).bare = true) : l.address ≤ 1 ∧ zone = none := by
  have hzone : zone = none := by
    cases zone with
    | none => rfl
    | some z =>
      have hmem : 37 ∈ (Literal.v6 l (some z)).bare := by simp [Literal.bare, Literal.zoneText]
      simp only [isNamed, Bool.or_eq_true, decide_eq_true_eq] at h
      rcases h with h | h <;>
        · rw [h] at hmem
          exact absurd hmem (by decide)
  subst hzone
  have hbare : (Literal.v6 l none).bare = l.text := List.append_nil _
  have hbytes := l.ipv6ToBytes_text Platform.ofAscii
  have hnamed : l.text = js "::1" ∨ l.text = js "::" := by
    simpa [isNamed, hbare] using h
  obtain ⟨g₀, g₁, g₂, g₃, g₄, g₅, g₆, g₇, hgroups⟩ := exists_of_length_eight l.length_groups
  have hlt := l.groups_lt
  rw [hgroups] at hlt hbytes
  refine ⟨?_, rfl⟩
  have haddress : l.address = addressOf [g₀, g₁, g₂, g₃, g₄, g₅, g₆, g₇] := by
    rw [V6.address, hgroups, addressOf]
  rw [haddress, addressOf_le_one]
  rw [groupBytes_eight hlt] at hbytes
  rcases hnamed with htext | htext
  · rw [htext, show ipv6ToBytes Platform.ofAscii (js "::1") =
      some [0, 0, 0, 0, 0, 0, 0, 0, 0, 0, 0, 0, 0, 0, 0, 1] by decide] at hbytes
    have hlist := Option.some.inj hbytes
    simp only [List.cons.injEq, and_true] at hlist
    omega
  · rw [htext, show ipv6ToBytes Platform.ofAscii (js "::") =
      some [0, 0, 0, 0, 0, 0, 0, 0, 0, 0, 0, 0, 0, 0, 0, 0] by decide] at hbytes
    have hlist := Option.some.inj hbytes
    simp only [List.cons.injEq, and_true] at hlist
    omega

/-- The spelling of a literal is one that the check knows: `::` or `::1` where the address is
one of the two, and no zone where the address is the IPv4-mapped form of a declared one. -/
def Literal.Known : Literal → Prop
  | .v4 _ => True
  | .v6 l zone =>
    (l.address ≤ 1 → isNamed (Literal.v6 l zone).bare = true) ∧
      (isDeclaredMapped l.address = true → zone = none)

/-- The check answers by the address of a literal, exactly when it knows the spelling. -/
theorem isBlockedAddress_iff_declared (p : Platform) (l : Literal) (brackets : Bool) :
    isBlockedAddress p (l.text brackets) = l.declared ↔ l.Known := by
  cases l with
  | v4 q => simp [isBlockedAddress_quad, Literal.declared, Literal.Known]
  | v6 l zone =>
    obtain ⟨g₀, g₁, g₂, g₃, g₄, g₅, g₆, g₇, hgroups⟩ := exists_of_length_eight l.length_groups
    have hlt := l.groups_lt
    have haddress : l.address = addressOf [g₀, g₁, g₂, g₃, g₄, g₅, g₆, g₇] := by
      rw [← hgroups]
      rfl
    rw [hgroups] at hlt
    rw [isBlockedAddress_v6 l zone brackets hgroups, Literal.declared, Literal.Known, haddress,
      declaredV6_eq hlt, isDeclaredMapped_eq hlt, ← haddress, hgroups]
    by_cases hn : isNamed (Literal.v6 l zone).bare = true
    · obtain ⟨hle, rfl⟩ := V6.address_le_one_of_isNamed hn
      simp [hn, hle]
    · by_cases hle : l.address ≤ 1
      · simp [hn, hle, not_isMapped_of_le_one (haddress ▸ hle)]
      · cases hm : isMapped [g₀, g₁, g₂, g₃, g₄, g₅, g₆, g₇] with
        | false => simp [hn, hle]
        | true =>
          cases zone with
          | none => simp [hn, hle, blockedHextet_of_isMapped hm]
          | some z => simp [hn, hle, blockedHextet_of_isMapped hm]

/-- The loopback address written in full is not blocked. -/
theorem isBlockedAddress_loopback :
    ∃ long short : V6, long.text = js "0:0:0:0:0:0:0:1" ∧ short.text = js "::1" ∧
      long.address = short.address ∧ (Literal.v6 long none).declared = true ∧
      isBlockedAddress .ofAscii ((Literal.v6 long none).text false) = false ∧
      isBlockedAddress .ofAscii ((Literal.v6 short none).text false) = true :=
  ⟨⟨List.replicate 7 ⟨js "0", rfl⟩ ++ [⟨js "1", rfl⟩], none, none, rfl⟩,
    ⟨[], some [⟨js "1", rfl⟩], none, by decide⟩, by decide, by decide, by decide, by decide,
    by decide, by decide⟩

end Haechi.Ssrf
