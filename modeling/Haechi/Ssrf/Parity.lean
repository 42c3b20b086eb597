import Haechi.Ssrf.Blocked

/-! The three address checks side by side. The bearer-token verifier's is the core's; the key
custody client's reads a text that starts with `::`, a short first group and a zone in its
own way. -/

namespace Haechi.Ssrf

open Text Json

/-! ### A first group and its mask -/

/-- Masking all but the low bits rounds down. -/
theorem and_high_mask (n w k : ℕ) : n &&& (2 ^ w - 1) <<< k = ((n >>> k) % 2 ^ w) <<< k := by
  apply Nat.eq_of_testBit_eq
  intro i
  simp only [Nat.testBit_and, Nat.testBit_shiftLeft, Nat.testBit_mod_two_pow,
    Nat.testBit_two_pow_sub_one, Nat.testBit_shiftRight]
  by_cases hi : k ≤ i
  · simp [hi, Bool.and_comm]
  · simp [hi]

/-- The masks of the copy cut out the ranges of the core. -/
theorem blockedHead_eq {n : ℕ} (h : n < 65536) : VaultKms.blockedHead n = blockedHextet n := by
  have hland : ∀ w k : ℕ, Int.land (n : ℤ) (((2 ^ w - 1) <<< k : ℕ) : ℤ) =
      ((n / 2 ^ k % 2 ^ w * 2 ^ k : ℕ) : ℤ) := by
    intro w k
    rw [← Nat.shiftRight_eq_div_pow, ← Nat.shiftLeft_eq, ← and_high_mask]
    rfl
  have hlink : Int.land (n : ℤ) 0xffc0 = ((n / 64 % 1024 * 64 : ℕ) : ℤ) := hland 10 6
  have hlocal : Int.land (n : ℤ) 0xfe00 = ((n / 512 % 128 * 512 : ℕ) : ℤ) := hland 7 9
  have hmulti : Int.land (n : ℤ) 0xff00 = ((n / 256 % 256 * 256 : ℕ) : ℤ) := hland 8 8
  rw [Bool.eq_iff_iff]
  simp only [VaultKms.blockedHead, blockedHextet, hlink, hlocal, hmulti, Bool.or_eq_true,
    Bool.and_eq_true, decide_eq_true_eq]
  omega

/-! ### The text the copy looks at -/

theorem Literal.text_units (l : Literal) (brackets : Bool) :
    ∀ c ∈ l.text brackets, isSpace c = false := by
  have hbare : ∀ c ∈ l.bare, isSpace c = false := fun c hc =>
    have hbounds := isLiteralUnit_bounds (l.bare_units c hc)
    isSpace_eq_false_of_lt hbounds.1 hbounds.2.1
  rw [text]
  split_ifs
  · intro c hc
    simp only [List.mem_cons, List.mem_append, List.not_mem_nil, or_false] at hc
    rcases hc with rfl | hc | rfl
    · decide
    · exact hbare c hc
    · decide
  · exact hbare

/-- There is nothing to trim. -/
theorem Literal.trim_text (l : Literal) (brackets : Bool) :
    trim (l.text brackets) = l.text brackets := by
  have hunits := l.text_units brackets
  have hleft : (l.text brackets).dropWhile isSpace = l.text brackets := by
    rw [List.dropWhile_eq_self_iff]
    intro hlen
    simp [hunits _ (List.getElem_mem hlen)]
  have hright : (l.text brackets).rdropWhile isSpace = l.text brackets := by
    rw [List.rdropWhile_eq_self_iff]
    intro hne
    simp [hunits _ (List.getLast_mem hne)]
  rw [trim, hleft, hright]

theorem Literal.text_ne_nil (l : Literal) (brackets : Bool) : l.text brackets ≠ [] := by
  have hbare : l.bare ≠ [] := by
    cases l with
    | v4 q => exact List.ne_nil_of_mem q.mem_dot
    | v6 l zone => exact List.ne_nil_of_mem (List.mem_append_left _ l.mem_colon)
  rw [text]
  split_ifs
  · simp
  · exact hbare

variable {p : Platform}

/-- The copy answers for what is left of the literal. -/
theorem VaultKms.isBlockedAddress_text (l : Literal) (brackets : Bool) {ip : JsString}
    (hip : l.bare.takeWhile (· ≠ 37) = ip) :
    VaultKms.isBlockedAddress p (l.text brackets) =
      match mappedIpv4 p ip with
      | some mapped => VaultKms.isBlockedV4 p mapped
      | none => if 58 ∈ ip then VaultKms.isBlockedV6 p ip else VaultKms.isBlockedV4 p ip := by
  have hbare : stripBrackets (trim (l.text brackets)) = l.bare := by
    rw [l.trim_text, l.stripBrackets_text]
  rw [← hip, ← hbare]
  exact if_neg (l.text_ne_nil brackets)

theorem VaultKms.isBlockedV4_text (q : Quad) : VaultKms.isBlockedV4 p q.text = isDeclaredV4 q.address := by
  rw [VaultKms.isBlockedV4, Quad.text, splitOn_quadText,
    quadOctets_natText p q.a.isLt q.b.isLt q.c.isLt q.d.isLt, q.isDeclaredV4_address]
  rfl

theorem VaultKms.isBlockedAddress_quad (q : Quad) (brackets : Bool) :
    VaultKms.isBlockedAddress p ((Literal.v4 q).text brackets) = isDeclaredV4 q.address := by
  have hip : (Literal.v4 q).bare.takeWhile (· ≠ 37) = q.text := by
    rw [Literal.bare, List.takeWhile_eq_self_iff]
    intro c hc
    rw [decide_eq_true_eq]
    rintro rfl
    exact q.not_mem_text (by decide) (by decide) hc
  have hcolon : 58 ∉ q.text := q.not_mem_text (by decide) (by decide)
  have hmapped : mappedIpv4 p q.text = none := by
    rw [mappedIpv4, ipv6ToBytes, if_pos q.mem_dot, if_pos hcolon]
    rfl
  rw [VaultKms.isBlockedAddress_text _ brackets hip, hmapped]
  simp only [if_neg hcolon, VaultKms.isBlockedV4_text]

/-! ### The first group, padded -/

theorem foldl_hexNumber_append (s t : JsString) :
    hexNumber (s ++ t) = t.foldl (fun acc c => 16 * acc + (hexValue c).getD 0) (hexNumber s) := by
  rw [hexNumber, List.foldl_append]
  rfl

theorem hexNumber_append_zeros (s : JsString) (n : ℕ) :
    hexNumber (s ++ List.replicate n 48) = hexNumber s * 16 ^ n := by
  induction n with
  | zero => simp
  | succ n ih =>
    rw [List.replicate_succ', ← List.append_assoc, foldl_hexNumber_append, ih, pow_succ]
    simp only [List.foldl_cons, List.foldl_nil, show hexValue 48 = some 0 from rfl, Option.getD_some]
    ring

/-- The value of a group padded to four digits on its right. -/
def Hextet.padded (h : Hextet) : ℕ := h.value * 16 ^ (4 - h.digits.length)

theorem Hextet.padded_lt (h : Hextet) : h.padded < 65536 := by
  have hlt := foldl_hexNumber_lt h.hex 0
  have hvalue : h.value < 16 ^ h.digits.length := by
    rw [Hextet.value, hexNumber]
    omega
  have hsum : h.digits.length + (4 - h.digits.length) = 4 := by
    have := h.length_le
    omega
  calc h.padded < 16 ^ h.digits.length * 16 ^ (4 - h.digits.length) :=
        Nat.mul_lt_mul_of_pos_right hvalue (by positivity)
    _ = 65536 := by rw [← pow_add, hsum]; norm_num

/-- A group of fewer than four digits is in no blocked range. -/
theorem Hextet.not_blockedHextet_of_short {h : Hextet} (hlen : h.digits.length ≠ 4) :
    blockedHextet h.value = false := by
  have hlt := foldl_hexNumber_lt h.hex 0
  have hle := h.length_le
  have hpow : 16 ^ h.digits.length ≤ 16 ^ 3 := Nat.pow_le_pow_right (by norm_num) (by omega)
  have hvalue : h.value < 4096 := by
    rw [Hextet.value, hexNumber]
    omega
  simp only [blockedHextet, Bool.or_eq_false_iff, Bool.and_eq_false_iff, decide_eq_false_iff_not]
  omega

theorem Hextet.padded_of_four {h : Hextet} (hlen : h.digits.length = 4) : h.padded = h.value := by
  simp [Hextet.padded, hlen]

theorem VaultKms.isBlockedV6_of_head {l : V6} {h : Hextet} {hs : List Hextet}
    (hhead : l.head = h :: hs) : VaultKms.isBlockedV6 p l.text = blockedHextet h.padded := by
  have hlower : p.toLowerCase l.text = lowerAscii l.text :=
    p.ascii _ fun c hc => (isLiteralUnit_bounds (by simp [isLiteralUnit, l.isZoneUnit_text c hc])).2.1
  have hfirst := V6.firstGroup_of_head hhead []
  rw [List.append_nil] at hfirst
  have hnamed : ¬(lowerAscii l.text = js "::1" ∨ lowerAscii l.text = js "::") := by
    intro h'
    have hnil : (lowerAscii l.text).takeWhile (· ≠ 58) = [] := by
      rcases h' with h' | h' <;>
        · rw [h']
          rfl
    exact h.lower_ne_nil (hfirst.symm.trans hnil)
  have hlen : (lowerAscii h.digits).length = h.digits.length := by simp [lowerAscii]
  have htake : (lowerAscii h.digits ++ List.replicate (4 - (lowerAscii h.digits).length) 48).take 4 =
      lowerAscii h.digits ++ List.replicate (4 - h.digits.length) 48 := by
    rw [hlen, List.take_of_length_le]
    have := h.length_le
    simp only [List.length_append, hlen, List.length_replicate]
    omega
  have hhex : ∀ c ∈ lowerAscii h.digits ++ List.replicate (4 - h.digits.length) 48,
      (hexValue c).isSome = true := by
    intro c hc
    rcases List.mem_append.mp hc with hc | hc
    · exact h.lower_hex c hc
    · rw [(List.mem_replicate.mp hc).2]
      rfl
  have hne : lowerAscii h.digits ++ List.replicate (4 - h.digits.length) 48 ≠ [] := by
    simp [h.lower_ne_nil]
  rw [VaultKms.isBlockedV6, hlower]
  simp only [if_neg hnamed, hfirst, if_neg h.lower_ne_nil, htake, parseHex_digits hne hhex,
    hexNumber_append_zeros, hexNumber_lowerAscii]
  exact blockedHead_eq h.padded_lt

/-- Every text that starts with `::` is blocked. -/
theorem VaultKms.isBlockedV6_of_nil {l : V6} (hhead : l.head = []) :
    VaultKms.isBlockedV6 p l.text = true := by
  have hlower : p.toLowerCase l.text = lowerAscii l.text :=
    p.ascii _ fun c hc => (isLiteralUnit_bounds (by simp [isLiteralUnit, l.isZoneUnit_text c hc])).2.1
  have hfirst := V6.firstGroup_of_nil hhead []
  rw [List.append_nil] at hfirst
  rw [VaultKms.isBlockedV6, hlower]
  simp only [hfirst, if_true, ite_self]

/-! ### Where the checks agree -/

/-- What the copy makes of an IPv6 literal, whose zone it drops. -/
theorem VaultKms.isBlockedAddress_v6 (l : V6) (zone : Option Zone) (brackets : Bool)
    {g₀ g₁ g₂ g₃ g₄ g₅ g₆ g₇ : ℕ} (hgroups : l.groups = [g₀, g₁, g₂, g₃, g₄, g₅, g₆, g₇]) :
    VaultKms.isBlockedAddress p ((Literal.v6 l zone).text brackets) =
      if isMapped l.groups = true then isDeclaredV4 (g₆ * 65536 + g₇)
      else VaultKms.isBlockedV6 p l.text := by
  have hlt := l.groups_lt
  rw [hgroups] at hlt
  have hip : (Literal.v6 l zone).bare.takeWhile (· ≠ 37) = l.text := (l.takeWhile_text zone).1
  rw [VaultKms.isBlockedAddress_text _ brackets hip, mappedIpv4_eq (hgroups ▸ l.ipv6ToBytes_text p) hlt,
    hgroups]
  by_cases hm : isMapped [g₀, g₁, g₂, g₃, g₄, g₅, g₆, g₇] = true
  · simp only [List.forall_mem_cons] at hlt
    have hquad := VaultKms.isBlockedV4_text (p := p)
      (embeddedQuad hlt.2.2.2.2.2.2.1 hlt.2.2.2.2.2.2.2.1)
    rw [embeddedQuad_address] at hquad
    simp only [if_pos hm]
    exact hquad
  · simp only [if_neg hm, if_pos l.mem_colon]

/-- The core and the copy read the spelling of a literal alike: an IPv4-mapped address of a
declared range names no zone, another text starts with `::` only if it is one of the two named,
and a first group of fewer than four digits is in no blocked range once it is padded. -/
def Literal.Alike : Literal → Prop
  | .v4 _ => True
  | .v6 l zone =>
    if isMapped l.groups = true then isDeclaredMapped l.address = true → zone = none
    else
      match l.head with
      | [] => isNamed (Literal.v6 l zone).bare = true
      | h :: _ => h.digits.length = 4 ∨ blockedHextet h.padded = false

theorem V6.not_isNamed_of_head {l : V6} {zone : Option Zone} {h : Hextet} {hs : List Hextet}
    (hhead : l.head = h :: hs) : isNamed (Literal.v6 l zone).bare = false := by
  obtain ⟨rest, htext⟩ := (l.text_of_head hhead).1
  have hcolon : (Literal.v6 l zone).bare.head? ≠ some 58 := by
    rw [Literal.bare, htext]
    cases hdigits : h.digits with
    | nil => exact absurd hdigits h.ne_nil
    | cons c cs =>
      have hc := h.not_mem (c := 58) (by decide)
      rw [hdigits] at hc
      intro heq
      simp only [List.cons_append, List.head?_cons, Option.some.injEq] at heq
      exact hc (heq ▸ List.mem_cons_self)
  simp only [isNamed, Bool.or_eq_false_iff, decide_eq_false_iff_not]
  exact ⟨fun h' => hcolon (h' ▸ rfl), fun h' => hcolon (h' ▸ rfl)⟩

/-- The three checks give one answer for a literal, exactly when the core and the key custody
client read its spelling alike. -/
theorem isBlockedAddress_parity (p : Platform) (l : Literal) (brackets : Bool) :
    isBlockedAddress p (l.text brackets) = AuthJwt.isBlockedAddress p (l.text brackets) ∧
        isBlockedAddress p (l.text brackets) = VaultKms.isBlockedAddress p (l.text brackets) ↔
      l.Alike := by
  have hjwt : isBlockedAddress p (l.text brackets) = AuthJwt.isBlockedAddress p (l.text brackets) :=
    rfl
  rw [and_iff_right hjwt]
  cases l with
  | v4 q => simp [isBlockedAddress_quad, VaultKms.isBlockedAddress_quad, Literal.Alike]
  | v6 l zone =>
    obtain ⟨g₀, g₁, g₂, g₃, g₄, g₅, g₆, g₇, hgroups⟩ := exists_of_length_eight l.length_groups
    have hlt := l.groups_lt
    have haddress : l.address = addressOf l.groups := rfl
    rw [hgroups] at hlt
    rw [isBlockedAddress_v6 l zone brackets hgroups,
      VaultKms.isBlockedAddress_v6 l zone brackets hgroups, Literal.Alike, haddress, hgroups,
      isDeclaredMapped_eq hlt]
    by_cases hm : isMapped [g₀, g₁, g₂, g₃, g₄, g₅, g₆, g₇] = true
    · have hn : isNamed (Literal.v6 l zone).bare = false := by
        rw [← Bool.not_eq_true]
        intro hn
        have hle := (V6.address_le_one_of_isNamed hn).1
        rw [haddress, hgroups] at hle
        simp [not_isMapped_of_le_one hle] at hm
      cases zone with
      | none => simp [hn, hm]
      | some z => simp [hn, hm, blockedHextet_of_isMapped hm]
    · cases hhead : l.head with
      | nil =>
        have hzero := (l.text_of_nil hhead).2
        rw [hgroups] at hzero
        obtain rfl := Option.some.inj hzero
        simp [hm, VaultKms.isBlockedV6_of_nil hhead, show blockedHextet 0 = false from rfl]
      | cons h hs =>
        have hfirst := (l.text_of_head hhead).2
        rw [hgroups] at hfirst
        obtain rfl := Option.some.inj hfirst
        simp only [V6.not_isNamed_of_head hhead, VaultKms.isBlockedV6_of_head hhead, hm,
          Bool.false_eq_true, and_false, if_false]
        by_cases hlen : h.digits.length = 4
        · rw [h.padded_of_four hlen]
          exact iff_of_true rfl (.inl hlen)
        · rw [h.not_blockedHextet_of_short hlen, or_iff_right hlen]
          exact eq_comm

/-- The copy reads the first group of `fe8::1` as `fe80`. -/
theorem isBlockedAddress_padded :
    ∃ l : V6, l.text = js "fe8::1" ∧
      isBlockedAddress .ofAscii ((Literal.v6 l none).text false) = false ∧
      AuthJwt.isBlockedAddress .ofAscii ((Literal.v6 l none).text false) = false ∧
      VaultKms.isBlockedAddress .ofAscii ((Literal.v6 l none).text false) = true :=
  ⟨⟨[⟨js "fe8", rfl⟩], some [⟨js "1", rfl⟩], none, by decide⟩, by decide, by decide, by decide,
    by decide⟩

end Haechi.Ssrf
