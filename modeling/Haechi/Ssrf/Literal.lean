import Haechi.Ssrf.Address

/-! IP address literals in every spelling, the addresses they denote, and how the address
check reads them: what `isIP` says of a literal, and which groups and octets are found in it. -/

namespace Haechi.Ssrf

open Text Json

/-- A hexadecimal group of one to four digits, of either case. -/
structure Hextet where
  digits : JsString
  isHextet : Ssrf.isHextet digits = true

def Hextet.value (h : Hextet) : ℕ := hexNumber h.digits

/-- A dotted quad. -/
structure Quad where
  a : Fin 256
  b : Fin 256
  c : Fin 256
  d : Fin 256

namespace Quad

def text (q : Quad) : JsString := quadText q.a q.b q.c q.d

/-- The 32-bit address. -/
def address (q : Quad) : ℕ := ((q.a * 256 + q.b) * 256 + q.c) * 256 + q.d

/-- The last two groups of an address that ends in the quad. -/
def groups (q : Quad) : List ℕ := [q.a * 256 + q.b, q.c * 256 + q.d]

end Quad

/-- The spelling of an IPv6 address: the groups before `::` and, if there is a `::`, those
after it, and the dotted quad at the end, if there is one. The `::` stands for one group
of zeros or more. -/
structure V6 where
  head : List Hextet
  tail : Option (List Hextet)
  quad : Option Quad
  complete : match tail with
    | none => head.length + 2 * quad.toList.length = 8
    | some tail => head.length + tail.length + 2 * quad.toList.length ≤ 7

/-- The pieces, with a colon between two of them. -/
def joined (ps : List JsString) : JsString := [58].intercalate ps

namespace V6

/-- The pieces at the end of the text. -/
def lastPieces (hextets : List Hextet) (quad : Option Quad) : List JsString :=
  hextets.map Hextet.digits ++ quad.toList.map Quad.text

def text (l : V6) : JsString :=
  match l.tail with
  | none => joined (lastPieces l.head l.quad)
  | some tail => joined (l.head.map Hextet.digits) ++ 58 :: 58 :: joined (lastPieces tail l.quad)

def lastGroups (hextets : List Hextet) (quad : Option Quad) : List ℕ :=
  hextets.map Hextet.value ++ quad.toList.flatMap Quad.groups

/-- The eight groups of 16 bits. -/
def groups (l : V6) : List ℕ :=
  match l.tail with
  | none => lastGroups l.head l.quad
  | some tail =>
    l.head.map Hextet.value ++
      List.replicate (8 - l.head.length - (lastGroups tail l.quad).length) 0 ++
        lastGroups tail l.quad

/-- The 128-bit address. -/
def address (l : V6) : ℕ := l.groups.foldl (fun acc g => acc * 2 ^ 16 + g) 0

end V6

/-- A zone id. -/
structure Zone where
  id : JsString
  nonempty : id ≠ []
  units : ∀ c ∈ id, isZoneUnit c = true

/-- An address literal; that of an IPv6 address may name a zone. -/
inductive Literal where
  | v4 (quad : Quad)
  | v6 (l : V6) (zone : Option Zone)

namespace Literal

def zoneText (zone : Option Zone) : JsString := zone.elim [] fun z => 37 :: z.id

def bare : Literal → JsString
  | .v4 quad => quad.text
  | .v6 l zone => l.text ++ zoneText zone

/-- The text of the literal, in brackets or not. -/
def text (brackets : Bool) (l : Literal) : JsString :=
  if brackets then 91 :: (l.bare ++ [93]) else l.bare

end Literal

/-! ### Splitting what is joined -/

/-- Every piece is followed by a colon. -/
def colons (ps : List JsString) : JsString := ps.flatMap (· ++ [58])

theorem joined_cons_cons (p q : JsString) (ps : List JsString) :
    joined (p :: q :: ps) = p ++ 58 :: joined (q :: ps) := by
  simp [joined, List.intercalate, List.intersperse]

theorem joined_append {ps qs : List JsString} (hqs : qs ≠ []) :
    joined (ps ++ qs) = colons ps ++ joined qs := by
  induction ps with
  | nil => rfl
  | cons p ps ih =>
    rcases h : ps ++ qs with _ | ⟨r, rs⟩
    · exact absurd (List.append_eq_nil_iff.mp h).2 hqs
    · rw [List.cons_append, h, joined_cons_cons, ← h, ih, colons, colons, List.flatMap_cons]
      simp

theorem joined_singleton (p : JsString) : joined [p] = p := by
  simp [joined, List.intercalate]

theorem pieces_joined {ps : List JsString} (h : ∀ p ∈ ps, p ≠ [] ∧ 58 ∉ p) :
    pieces (joined ps) = ps := by
  cases ps with
  | nil => rfl
  | cons p ps =>
    have hne : joined (p :: ps) ≠ [] := by
      have hp := (h p List.mem_cons_self).1
      cases ps with
      | nil => rwa [joined_singleton]
      | cons q ps => simp [joined_cons_cons]
    rw [pieces, if_neg hne]
    exact List.splitOn_intercalate 58 (fun l hl => (h l hl).2) (by simp)

/-- What holds no colon is no place to split. -/
theorem splitDouble_append {p : JsString} (h : 58 ∉ p) (rest : JsString) :
    splitDouble (p ++ rest) = (splitDouble rest).modifyHead (p ++ ·) := by
  induction p with
  | nil => cases h : splitDouble rest <;> simp [h]
  | cons c p ih =>
    obtain ⟨hc, hp⟩ := not_or.mp (mt List.mem_cons.mpr h)
    have hcons : ∀ s, splitDouble (c :: s) = (splitDouble s).modifyHead (c :: ·) := by
      intro s
      cases s with
      | nil => rfl
      | cons d s => rw [splitDouble, if_neg fun h' => hc h'.1.symm]
    rw [List.cons_append, hcons, ih hp]
    cases splitDouble rest <;> rfl

/-- Nor is a single colon. -/
theorem splitDouble_colon {p : JsString} (hne : p ≠ []) (h : 58 ∉ p) (rest : JsString) :
    splitDouble (58 :: (p ++ rest)) = (splitDouble (p ++ rest)).modifyHead (58 :: ·) := by
  cases p with
  | nil => exact absurd rfl hne
  | cons c p =>
    rw [List.cons_append, splitDouble, if_neg]
    rintro ⟨-, rfl⟩
    exact h List.mem_cons_self

/-- The pieces of one side are not split at `::`. -/
theorem splitDouble_joined {ps : List JsString} (h : ∀ p ∈ ps, p ≠ [] ∧ 58 ∉ p)
    (rest : JsString) :
    splitDouble (joined ps ++ rest) = (splitDouble rest).modifyHead (joined ps ++ ·) := by
  induction ps with
  | nil => exact splitDouble_append (by simp [joined]) rest
  | cons p ps ih =>
    obtain ⟨⟨-, hp⟩, hps⟩ := List.forall_mem_cons.mp h
    cases ps with
    | nil => rw [joined_singleton, splitDouble_append hp]
    | cons q ps =>
      obtain ⟨hne, hq⟩ := hps q List.mem_cons_self
      have hstart : ∃ s, joined (q :: ps) = q ++ s := by
        cases ps with
        | nil => exact ⟨[], by simp [joined_singleton]⟩
        | cons r ps => exact ⟨_, joined_cons_cons q r ps⟩
      obtain ⟨s, hs⟩ := hstart
      have hcolon := splitDouble_colon hne hq (s ++ rest)
      rw [← List.append_assoc, ← hs, ih hps] at hcolon
      rw [joined_cons_cons, List.append_assoc, List.cons_append, splitDouble_append hp, hcolon]
      cases splitDouble rest <;> simp

theorem splitDouble_whole {ps : List JsString} (h : ∀ p ∈ ps, p ≠ [] ∧ 58 ∉ p) :
    splitDouble (joined ps) = [joined ps] := by
  have := splitDouble_joined h []
  simpa [splitDouble] using this

theorem splitDouble_halves {ps qs : List JsString} (hps : ∀ p ∈ ps, p ≠ [] ∧ 58 ∉ p)
    (hqs : ∀ q ∈ qs, q ≠ [] ∧ 58 ∉ q) :
    splitDouble (joined ps ++ 58 :: 58 :: joined qs) = [joined ps, joined qs] := by
  rw [splitDouble_joined hps, splitDouble, if_pos ⟨rfl, rfl⟩, splitDouble_whole hqs]
  simp

/-! ### The pieces of a literal -/

theorem hexValue_isSome_iff {c : UInt16} :
    (hexValue c).isSome = true ↔ 48 ≤ c ∧ c ≤ 57 ∨ 97 ≤ c ∧ c ≤ 102 ∨ 65 ≤ c ∧ c ≤ 70 := by
  simp only [hexValue, Bool.and_eq_true, decide_eq_true_eq]
  split_ifs <;> simp [*]

namespace Hextet

variable (h : Hextet)

theorem hex : ∀ c ∈ h.digits, (hexValue c).isSome = true := by
  have := h.isHextet
  simp only [Ssrf.isHextet, Bool.and_eq_true, List.all_eq_true] at this
  exact this.2

theorem ne_nil : h.digits ≠ [] := by
  have := h.isHextet
  simp only [Ssrf.isHextet, Bool.and_eq_true, decide_eq_true_eq] at this
  rw [← List.length_pos_iff]
  omega

theorem length_le : h.digits.length ≤ 4 := by
  have := h.isHextet
  simp only [Ssrf.isHextet, Bool.and_eq_true, decide_eq_true_eq] at this
  exact this.1.2

theorem not_mem {c : UInt16} (hc : (hexValue c).isSome = false) : c ∉ h.digits := by
  intro hmem
  rw [h.hex c hmem] at hc
  cases hc

end Hextet

/-- Four decimal texts with a dot between two of them. -/
theorem quadText_eq (a b c d : ℕ) :
    quadText a b c d = [46].intercalate [natText a, natText b, natText c, natText d] := by
  simp [quadText, List.intercalate, List.intersperse]

theorem splitOn_quadText (a b c d : ℕ) :
    (quadText a b c d).splitOn 46 = [natText a, natText b, natText c, natText d] := by
  rw [quadText_eq, List.splitOn_intercalate 46 _ (by simp)]
  have h := fun n => not_mem_natText (c := 46) rfl n
  simp [h]

theorem mem_quadText {a b c d : ℕ} {u : UInt16} (h : u ∈ quadText a b c d) :
    isDigit u = true ∨ u = 46 := by
  simp only [quadText, List.mem_append, List.mem_cons] at h
  rcases h with ((h | rfl | h) | rfl | h) | rfl | h
  all_goals first | exact .inl (natText_all _ u h) | exact .inr rfl

theorem isOctet_natText {n : ℕ} (h : n < 256) : isOctet (natText n) = true := by
  rw [isOctet, isDigits_natText, natText_noLeadingZero, natValue_natText]
  simpa using Nat.le_of_lt_succ h

theorem isIPv4_quadText {a b c d : ℕ} (ha : a < 256) (hb : b < 256) (hc : c < 256) (hd : d < 256) :
    isIPv4 (quadText a b c d) = true := by
  rw [isIPv4, splitOn_quadText]
  simp [isOctet_natText, ha, hb, hc, hd]

theorem Quad.isIPv4_text (q : Quad) : isIPv4 q.text = true :=
  isIPv4_quadText q.a.isLt q.b.isLt q.c.isLt q.d.isLt

theorem Quad.not_mem_text (q : Quad) {c : UInt16} (hc : isDigit c = false) (hdot : c ≠ 46) :
    c ∉ q.text := by
  intro hmem
  rcases mem_quadText hmem with h | h
  · rw [h] at hc
    cases hc
  · exact hdot h

theorem Quad.mem_dot (q : Quad) : 46 ∈ q.text := by
  simp [Quad.text, quadText]

theorem quadOctets_natText (p : Platform) {a b c d : ℕ} (ha : a < 256) (hb : b < 256) (hc : c < 256)
    (hd : d < 256) :
    quadOctets p [natText a, natText b, natText c, natText d] = some [a, b, c, d] := by
  have h : ∀ n < 256, ((p.toInteger (natText n)).bind fun m =>
      if m < 0 ∨ m > 255 then none else some m.toNat) = some n := by
    intro n hn
    rw [p.decimal _ (isDigits_natText n), natValue_natText, Option.bind_some, if_neg (by omega)]
    simp
  simp [quadOctets, h a ha, h b hb, h c hc, h d hd]

variable {hs ts : List Hextet} {quad : Option Quad}

theorem digits_pieces (hs : List Hextet) : ∀ p ∈ hs.map Hextet.digits, p ≠ [] ∧ 58 ∉ p :=
  List.forall_mem_map.mpr fun h _ => ⟨h.ne_nil, h.not_mem (by decide)⟩

theorem lastPieces_pieces (hs : List Hextet) (quad : Option Quad) :
    ∀ p ∈ V6.lastPieces hs quad, p ≠ [] ∧ 58 ∉ p := by
  intro p hp
  rcases List.mem_append.mp hp with hp | hp
  · exact digits_pieces hs p hp
  · obtain ⟨q, -, rfl⟩ := List.mem_map.mp hp
    exact ⟨List.ne_nil_of_mem q.mem_dot, q.not_mem_text (by decide) (by decide)⟩

theorem countGroups_lastPieces (hs : List Hextet) (quad : Option Quad) :
    countGroups (V6.lastPieces hs quad) = some (hs.length + 2 * quad.toList.length) := by
  have hnot : ∀ q : Quad, Ssrf.isHextet q.text = false := by
    intro q
    by_contra h
    exact (⟨q.text, by simpa using h⟩ : Hextet).not_mem (c := 46) (by decide) q.mem_dot
  have hlast : countGroups (quad.toList.map Quad.text) = some (2 * quad.toList.length) := by
    cases quad with
    | none => rfl
    | some q => simp [countGroups, hnot, q.isIPv4_text]
  rw [V6.lastPieces]
  induction hs with
  | nil => simpa using hlast
  | cons h hs ih =>
    rw [List.map_cons, List.cons_append]
    cases hrest : hs.map Hextet.digits ++ quad.toList.map Quad.text with
    | nil =>
      rw [hrest] at ih
      have hzero : hs.length + 2 * quad.toList.length = 0 := (Option.some.inj ih).symm
      rw [countGroups, if_pos h.isHextet, List.length_cons, show hs.length + 1 + 2 * quad.toList.length = 1 by omega]
    | cons p ps =>
      rw [hrest] at ih
      rw [countGroups, if_pos h.isHextet, ih, Option.map_some, List.length_cons]
      · congr 1
        omega
      · simp

/-- The text of an IPv6 address is one. -/
theorem V6.isIPv6Body_text (l : V6) : isIPv6Body l.text = true := by
  obtain ⟨head, tail, quad, hcomplete⟩ := l
  cases tail with
  | none =>
    have hp := lastPieces_pieces head quad
    simp only [V6.text, isIPv6Body, splitDouble_whole hp, pieces_joined hp, countGroups_lastPieces]
    simpa using hcomplete
  | some tail =>
    have hp := digits_pieces head
    have hq := lastPieces_pieces tail quad
    simp only [V6.text, isIPv6Body, splitDouble_halves hp hq, pieces_joined hp, pieces_joined hq,
      countGroups_lastPieces]
    simp only [Option.any_some, List.length_map, Bool.and_eq_true, decide_eq_true_eq,
      List.all_eq_true, List.forall_mem_map]
    exact ⟨fun h _ => h.isHextet, by simpa [Nat.add_assoc] using hcomplete⟩

/-! ### The octets of a literal -/

theorem toGroups_joined (hs : List Hextet) :
    toGroups (joined (hs.map Hextet.digits)) = some (hs.map Hextet.value) := by
  have hvalues : ∀ hs : List Hextet, ((hs.map Hextet.digits).mapM fun h =>
      if Ssrf.isHextet h then some (hexNumber h) else none) = some (hs.map Hextet.value) := by
    intro hs
    induction hs with
    | nil => rfl
    | cons h hs ih =>
      rw [List.map_cons, List.mapM_cons, ih, if_pos h.isHextet]
      rfl
  have hpieces := pieces_joined (digits_pieces hs)
  rw [pieces] at hpieces
  rw [toGroups]
  split_ifs at hpieces ⊢ with hnil
  · rw [List.map_eq_nil_iff.mp hpieces.symm]
    rfl
  · rw [hpieces, hvalues]

theorem hexGroups_whole (h : hs.length = 8) :
    hexGroups (joined (hs.map Hextet.digits)) = some (hs.map Hextet.value) := by
  rw [hexGroups, splitDouble_whole (digits_pieces hs)]
  simp only [toGroups_joined, Option.bind_some]
  rw [if_neg (by simp [h])]

theorem hexGroups_halves (h : hs.length + ts.length ≤ 8) :
    hexGroups (joined (hs.map Hextet.digits) ++ 58 :: 58 :: joined (ts.map Hextet.digits)) =
      some (hs.map Hextet.value ++ List.replicate (8 - hs.length - ts.length) 0 ++
        ts.map Hextet.value) := by
  rw [hexGroups, splitDouble_halves (digits_pieces hs) (digits_pieces ts)]
  simp only [toGroups_joined, Option.bind_eq_bind, Option.bind_some, List.length_map]
  rw [if_neg (by omega)]
  rfl

theorem groupBytes_append (gs gs' : List ℕ) :
    groupBytes (gs ++ gs') = groupBytes gs ++ groupBytes gs' := List.flatMap_append

theorem groupBytes_cons (g : ℕ) (gs : List ℕ) :
    groupBytes (g :: gs) = [g / 256 % 256, g % 256] ++ groupBytes gs := by
  have hhigh : g >>> 8 &&& 0xff = g / 256 % 256 := by
    rw [Nat.shiftRight_eq_div_pow]
    exact Nat.and_two_pow_sub_one_eq_mod _ 8
  have hlow : g &&& 0xff = g % 256 := Nat.and_two_pow_sub_one_eq_mod g 8
  rw [groupBytes, List.flatMap_cons, hhigh, hlow]
  rfl

theorem length_groupBytes (gs : List ℕ) : (groupBytes gs).length = 2 * gs.length := by
  induction gs with
  | nil => rfl
  | cons g gs ih =>
    rw [groupBytes_cons, List.length_append, ih, List.length_cons]
    simp
    omega

/-- The quad overwrites what stands in for it. -/
theorem overwriteTail_groupBytes {gs : List ℕ} (h : gs.length = 6) (q : Quad) :
    overwriteTail (groupBytes (gs ++ [0, 0])) [q.a, q.b, q.c, q.d] =
      groupBytes (gs ++ q.groups) := by
  have hlen : (groupBytes gs).length = 12 := by rw [length_groupBytes, h]
  have hset : ∀ (xs ys : List ℕ) (i n : ℕ), xs.length = 12 →
      (xs ++ ys).set (12 + i) n = xs ++ ys.set i n := by
    intro xs ys i n hxs
    rw [List.set_append_right _ _ (by omega), hxs, Nat.add_sub_cancel_left]
  have ha := q.a.isLt
  have hb := q.b.isLt
  have hc := q.c.isLt
  have hd := q.d.isLt
  have hhigh : ∀ a b, b < 256 → a < 256 → (a * 256 + b) / 256 % 256 = a := by omega
  have hlow : ∀ a b, b < 256 → (a * 256 + b) % 256 = b := by omega
  rw [groupBytes_append, groupBytes_append, overwriteTail]
  rw [hset _ _ 0 _ hlen, hset _ _ 1 _ hlen, hset _ _ 2 _ hlen, hset _ _ 3 _ hlen]
  congr 1
  simp only [Quad.groups, groupBytes_cons, hhigh _ _ hb ha, hlow _ _ hb, hhigh _ _ hd hc,
    hlow _ _ hd]
  rfl

/-- Two groups of one zero, as they stand in for a quad. -/
def zeroHextet : Hextet := ⟨[48], rfl⟩

/-- The quad at the end is cut off at the last colon. -/
theorem ipv6ToBytes_quad (p : Platform) {front : JsString} (q : Quad) {gs : List ℕ}
    (hfront : front.getLast? = some 58) (hgs : gs.length = 6)
    (h : hexGroups (front ++ joined [[48], [48]]) = some (gs ++ [0, 0])) :
    ipv6ToBytes p (front ++ q.text) = some (groupBytes (gs ++ q.groups)) := by
  have hcolon : ∀ c ∈ q.text, c ≠ 58 := by
    rintro c hc rfl
    exact q.not_mem_text (by decide) (by decide) hc
  obtain ⟨init, rfl⟩ := List.getLast?_eq_some_iff.mp hfront
  have htake : (init ++ [58] ++ q.text).rtakeWhile (· ≠ 58) = q.text := by
    rw [List.rtakeWhile, List.reverse_append, List.takeWhile_append_of_pos (by simpa using hcolon),
      List.reverse_append]
    simp
  have hdrop : (init ++ [58] ++ q.text).rdropWhile (· ≠ 58) = init ++ [58] := by
    rw [List.rdropWhile, List.reverse_append, List.dropWhile_append_of_pos (by simpa using hcolon),
      List.reverse_append]
    simp
  have hoctets := quadOctets_natText p q.a.isLt q.b.isLt q.c.isLt q.d.isLt
  rw [ipv6ToBytes, if_pos (List.mem_append_right _ q.mem_dot), if_neg (by simp)]
  simp only [htake, hdrop]
  rw [show q.text.splitOn 46 = _ from splitOn_quadText q.a q.b q.c q.d, if_neg (by simp), hoctets,
    Option.bind_some, show js "0:0" = joined [[48], [48]] from rfl, h, Option.map_some,
    overwriteTail_groupBytes hgs]

theorem mem_intercalate {ps : List JsString} {c x : UInt16} (h : c ∈ [x].intercalate ps) :
    c = x ∨ ∃ p ∈ ps, c ∈ p := by
  induction ps with
  | nil => simp at h
  | cons p ps ih =>
    cases ps with
    | nil => exact .inr ⟨p, by simp, by simpa [List.intercalate] using h⟩
    | cons q ps =>
      have hcons : [x].intercalate (p :: q :: ps) = p ++ x :: [x].intercalate (q :: ps) := by
        simp [List.intercalate, List.intersperse]
      rw [hcons, List.mem_append, List.mem_cons] at h
      rcases h with h | rfl | h
      · exact .inr ⟨p, by simp, h⟩
      · exact .inl rfl
      · rcases ih h with rfl | ⟨r, hr, hc⟩
        · exact .inl rfl
        · exact .inr ⟨r, List.mem_cons_of_mem p hr, hc⟩

theorem not_mem_joined {c : UInt16} (hcolon : c ≠ 58) (hhex : (hexValue c).isSome = false)
    (hs : List Hextet) : c ∉ joined (hs.map Hextet.digits) := by
  intro h
  rcases mem_intercalate h with h | ⟨p, hp, hc⟩
  · exact hcolon h
  · obtain ⟨h, -, rfl⟩ := List.mem_map.mp hp
    exact h.not_mem hhex hc

theorem getLast?_colons {ps : List JsString} (h : ps ≠ []) : (colons ps).getLast? = some 58 := by
  induction ps using List.reverseRecOn with
  | nil => exact absurd rfl h
  | append_singleton ps p => simp [colons]

theorem V6.length_lastGroups (hs : List Hextet) (quad : Option Quad) :
    (V6.lastGroups hs quad).length = hs.length + 2 * quad.toList.length := by
  cases quad <;> simp [V6.lastGroups, Quad.groups]

/-- The octets found in a text are those of the address. -/
theorem V6.ipv6ToBytes_text (p : Platform) (l : V6) :
    ipv6ToBytes p l.text = some (groupBytes l.groups) := by
  obtain ⟨head, tail, quad, hcomplete⟩ := l
  have hdot : ∀ hs : List Hextet, 46 ∉ joined (hs.map Hextet.digits) := not_mem_joined (by decide) (by decide)
  have hlast : ∀ (hs : List Hextet) (q : Quad), joined (lastPieces hs (some q)) =
      colons (hs.map Hextet.digits) ++ q.text := by
    intro hs q
    rw [lastPieces, Option.toList_some, List.map_singleton, joined_append (by simp),
      joined_singleton]
  have hzeros : ∀ hs : List Hextet, colons (hs.map Hextet.digits) ++ joined [[48], [48]] =
      joined ((hs ++ [zeroHextet, zeroHextet]).map Hextet.digits) := by
    intro hs
    rw [List.map_append, joined_append (by simp)]
    rfl
  have hvalues : ∀ hs : List Hextet, (hs ++ [zeroHextet, zeroHextet]).map Hextet.value =
      hs.map Hextet.value ++ [0, 0] := fun hs => List.map_append
  cases quad with
  | none =>
    have hpieces : ∀ hs : List Hextet, lastPieces hs none = hs.map Hextet.digits := fun hs => List.append_nil _
    have hgroups : ∀ hs : List Hextet, lastGroups hs none = hs.map Hextet.value := fun hs => List.append_nil _
    cases tail with
    | none =>
      simp only [text, groups, hpieces, hgroups]
      rw [ipv6ToBytes, if_neg (hdot head), hexGroups_whole (by simpa using hcomplete),
        Option.map_some]
    | some tail =>
      have hle : head.length + tail.length ≤ 7 := by simpa using hcomplete
      simp only [text, groups, hpieces, hgroups, List.length_map]
      rw [ipv6ToBytes, if_neg, hexGroups_halves (by omega), Option.map_some]
      simp [hdot]
  | some q =>
    cases tail with
    | none =>
      have hsix : head.length = 6 := by
        have : head.length + 2 = 8 := by simpa using hcomplete
        omega
      have hne : head.map Hextet.digits ≠ [] := by
        rw [← List.length_pos_iff, List.length_map]
        omega
      simp only [text, groups, hlast]
      refine ipv6ToBytes_quad p q (getLast?_colons hne) (by simpa using hsix) ?_
      rw [hzeros, hexGroups_whole (by simp [hsix]), hvalues]
    | some tail =>
      have hle : head.length + tail.length + 2 ≤ 7 := by simpa using hcomplete
      have hgroups : lastGroups tail (some q) = tail.map Hextet.value ++ q.groups := by
        simp [lastGroups]
      simp only [text, groups, hlast, length_lastGroups]
      rw [hgroups, ← List.append_assoc]
      have hfront : joined (head.map Hextet.digits) ++
          58 :: 58 :: (colons (tail.map Hextet.digits) ++ q.text) =
            joined (head.map Hextet.digits) ++ 58 :: 58 :: colons (tail.map Hextet.digits) ++
              q.text := by simp
      rw [hfront]
      refine ipv6ToBytes_quad p q ?_ ?_ ?_
      · cases h : tail.map Hextet.digits with
        | nil => simp [colons]
        | cons r rs =>
          rw [List.getLast?_append_of_ne_nil _ (by simp), ← h]
          have hlast : (colons (tail.map Hextet.digits)).getLast? = some 58 :=
            getLast?_colons (by simp [h])
          simp [List.getLast?_cons, hlast]
      · simp
        omega
      · have : joined (head.map Hextet.digits) ++ 58 :: 58 :: colons (tail.map Hextet.digits) ++
            joined [[48], [48]] = joined (head.map Hextet.digits) ++ 58 :: 58 ::
              joined ((tail ++ [zeroHextet, zeroHextet]).map Hextet.digits) := by
          rw [← hzeros]
          simp
        rw [this, hexGroups_halves (by simp; omega), hvalues]
        simp

end Haechi.Ssrf
