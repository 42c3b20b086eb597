import Haechi.Text.Encoding

/-! The round trip of a text through UTF-8. Every scalar value is read back from the
bytes it is written as, so what comes back is the text with its lone surrogates
replaced; and bytes that decode are what the text is written as. -/

namespace Haechi.Text

open Json

/-- `String.prototype.toWellFormed`: every lone surrogate is replaced. -/
def toWellFormed (s : JsString) : JsString := (codePoints s).flatMap fun p => utf16Of (scalarOf p)

/-- A Unicode scalar value. -/
def IsScalar (n : ℕ) : Prop := n ≤ 0x10ffff ∧ ¬(0xd800 ≤ n ∧ n ≤ 0xdfff)

/-! ### One character -/

/-- A continuation byte that is not the last one. -/
theorem Sequence.step_more {owed bits least b : ℕ} (h : 2 ≤ owed) (hb : b < 0x40) :
    Sequence.step ⟨owed, bits, least⟩ (0x80 + b) =
      some ([], ⟨owed - 1, bits * 0x40 + b, least⟩) := by
  rw [Sequence.step, if_neg (by simp; omega), if_pos ⟨by omega, by omega⟩]
  simp only [Nat.add_sub_cancel_left]
  rw [if_pos (by omega)]

/-- The last continuation byte of a scalar value. -/
theorem Sequence.step_last {bits least b n : ℕ} (hb : b < 0x40) (hn : bits * 0x40 + b = n)
    (hleast : least ≤ n) (hs : IsScalar n) :
    Sequence.step ⟨1, bits, least⟩ (0x80 + b) = some (utf16Of n, .none) := by
  rw [Sequence.step, if_neg (by simp), if_pos ⟨by omega, by omega⟩]
  simp only [Nat.add_sub_cancel_left, hn]
  rw [if_neg (by simp), if_pos ⟨hleast, hs.1, hs.2⟩]

theorem Sequence.owed_none : Sequence.none.owed = 0 := rfl

theorem decodeUtf8From_cons {q q' : Sequence} {byte : ℕ} {units : JsString}
    (h : q.step byte = some (units, q')) (bytes : List ℕ) :
    decodeUtf8From q (byte :: bytes) = (decodeUtf8From q' bytes).map (units ++ ·) := by
  simp only [decodeUtf8From, h, Option.bind_eq_bind, Option.bind_some]
  cases decodeUtf8From q' bytes <;> rfl

/-- A byte that completes nothing. -/
theorem decodeUtf8From_cons_nil {q q' : Sequence} {byte : ℕ} (h : q.step byte = some ([], q'))
    (bytes : List ℕ) : decodeUtf8From q (byte :: bytes) = decodeUtf8From q' bytes := by
  rw [decodeUtf8From_cons h]
  cases decodeUtf8From q' bytes <;> rfl

/-- A scalar value is read back. -/
theorem decodeUtf8From_utf8Of {n : ℕ} (h : IsScalar n) (bytes : List ℕ) :
    decodeUtf8From .none (utf8Of n ++ bytes) =
      (decodeUtf8From .none bytes).map (utf16Of n ++ ·) := by
  obtain ⟨hmax, -⟩ := id h
  rw [utf8Of]
  split
  · rename_i h1
    have hstep : Sequence.none.step n = some (utf16Of n, .none) := by
      rw [Sequence.step, if_pos Sequence.owed_none, if_pos h1, utf16Of, if_pos (by omega)]
    exact decodeUtf8From_cons hstep bytes
  split
  · rename_i h1 h2
    have hstep : Sequence.none.step (0xc0 + n / 0x40) = some ([], ⟨1, n / 0x40, 0x80⟩) := by
      rw [Sequence.step, if_pos Sequence.owed_none, if_neg (by omega),
        if_pos ⟨by omega, by omega⟩, Nat.add_sub_cancel_left]
    simp only [List.cons_append, List.nil_append]
    rw [decodeUtf8From_cons_nil hstep]
    exact decodeUtf8From_cons
      (Sequence.step_last (Nat.mod_lt _ (by norm_num)) (by omega) (by omega) h) bytes
  split
  · rename_i h1 h2 h3
    have hstep : Sequence.none.step (0xe0 + n / 0x1000) =
        some ([], ⟨2, n / 0x1000, 0x800⟩) := by
      rw [Sequence.step, if_pos Sequence.owed_none, if_neg (by omega), if_neg (by omega),
        if_pos ⟨by omega, by omega⟩, Nat.add_sub_cancel_left]
    simp only [List.cons_append, List.nil_append]
    rw [decodeUtf8From_cons_nil hstep,
      decodeUtf8From_cons_nil (Sequence.step_more le_rfl (Nat.mod_lt _ (by norm_num)))]
    exact decodeUtf8From_cons
      (Sequence.step_last (Nat.mod_lt _ (by norm_num)) (by omega) (by omega) h) bytes
  · rename_i h1 h2 h3
    have hstep : Sequence.none.step (0xf0 + n / 0x40000) =
        some ([], ⟨3, n / 0x40000, 0x10000⟩) := by
      rw [Sequence.step, if_pos Sequence.owed_none, if_neg (by omega), if_neg (by omega),
        if_neg (by omega), if_pos ⟨by omega, by omega⟩, Nat.add_sub_cancel_left]
    simp only [List.cons_append, List.nil_append]
    rw [decodeUtf8From_cons_nil hstep,
      decodeUtf8From_cons_nil (Sequence.step_more (by norm_num) (Nat.mod_lt _ (by norm_num))),
      decodeUtf8From_cons_nil (Sequence.step_more (by norm_num) (Nat.mod_lt _ (by norm_num)))]
    exact decodeUtf8From_cons
      (Sequence.step_last (Nat.mod_lt _ (by norm_num)) (by omega) (by omega) h) bytes

/-! ### A text -/

theorem isScalar_scalarOf_one (c : UInt16) : IsScalar (scalarOf [c]) := by
  have hlt : c.toNat < 0x10000 := c.toNat_lt
  show IsScalar (if isHighSurrogate c || isLowSurrogate c then 0xfffd else c.toNat)
  unfold IsScalar
  split
  · norm_num
  · rename_i h
    simp only [isHighSurrogate, isLowSurrogate, Bool.or_eq_true, Bool.and_eq_true,
      decide_eq_true_eq, UInt16.le_iff_toNat_le, UInt16.reduceToNat, not_or, not_and,
      not_le] at h
    omega

theorem isScalar_scalarOf_pair {c d : UInt16} (hc : isHighSurrogate c = true)
    (hd : isLowSurrogate d = true) : IsScalar (scalarOf [c, d]) := by
  simp only [isHighSurrogate, isLowSurrogate, Bool.and_eq_true, decide_eq_true_eq,
    UInt16.le_iff_toNat_le, UInt16.reduceToNat] at hc hd
  show IsScalar (0x10000 + (c.toNat - 0xd800) * 0x400 + (d.toNat - 0xdc00))
  unfold IsScalar
  omega

theorem isScalar_scalarOf (s : JsString) : ∀ p ∈ codePoints s, IsScalar (scalarOf p) := by
  induction s using codePoints.induct with
  | case1 => simp [codePoints]
  | case2 c => simpa [codePoints] using isScalar_scalarOf_one c
  | case3 c d rest h ih =>
    rw [Bool.and_eq_true] at h
    simp only [codePoints, h, Bool.and_self, if_true, List.mem_cons, forall_eq_or_imp]
    exact ⟨isScalar_scalarOf_pair h.1 h.2, ih⟩
  | case4 c d rest h ih =>
    simp only [codePoints, h, Bool.false_eq_true, if_false, List.mem_cons, forall_eq_or_imp]
    exact ⟨isScalar_scalarOf_one c, ih⟩

/-- A text in front of other bytes comes back from UTF-8. -/
theorem decodeUtf8_encodeUtf8_append (s : JsString) (bytes : List ℕ) :
    decodeUtf8 (encodeUtf8 s ++ bytes) = (decodeUtf8 bytes).map (toWellFormed s ++ ·) := by
  rw [decodeUtf8, encodeUtf8, toWellFormed]
  have hs := isScalar_scalarOf s
  generalize codePoints s = ps at hs
  induction ps with
  | nil => cases h : decodeUtf8From .none bytes <;> simp [h]
  | cons p ps ih =>
    rw [List.forall_mem_cons] at hs
    rw [List.flatMap_cons, List.flatMap_cons, List.append_assoc, decodeUtf8From_utf8Of hs.1,
      ih hs.2, Option.map_map]
    simp only [Function.comp_def, List.append_assoc]

/-- What comes back from UTF-8. -/
theorem decodeUtf8_encodeUtf8 (s : JsString) :
    decodeUtf8 (encodeUtf8 s) = some (toWellFormed s) := by
  have happend := decodeUtf8_encodeUtf8_append s []
  rw [List.append_nil] at happend
  rw [happend]
  exact congrArg some (List.append_nil _)

/-- What decodes is well formed. -/
theorem toWellFormed_of_decodeUtf8 {bytes : List ℕ} {s : JsString}
    (h : encodeUtf8 s = bytes) (hs : decodeUtf8 bytes = some s) : toWellFormed s = s := by
  rw [← h, decodeUtf8_encodeUtf8] at hs
  exact Option.some.inj hs

/-! ### ASCII texts -/

theorem scalarOf_lone {c : UInt16} (h : (isHighSurrogate c || isLowSurrogate c) = true) :
    scalarOf [c] = 0xfffd := by
  show (if isHighSurrogate c || isLowSurrogate c then 0xfffd else c.toNat) = 0xfffd
  rw [if_pos h]

theorem scalarOf_one {c : UInt16} (h : isHighSurrogate c = false) (h' : isLowSurrogate c = false) :
    scalarOf [c] = c.toNat := by
  show (if isHighSurrogate c || isLowSurrogate c then 0xfffd else c.toNat) = c.toNat
  rw [h, h', Bool.or_self, if_neg Bool.false_ne_true]

theorem utf16Of_scalarOf_one {c : UInt16} (h : isHighSurrogate c = false)
    (h' : isLowSurrogate c = false) : utf16Of (scalarOf [c]) = [c] := by
  have hlt : c.toNat < 0x10000 := c.toNat_lt
  rw [scalarOf_one h h', utf16Of, if_pos hlt]
  simp

/-- The first unit of a pair is not ASCII. -/
theorem not_ascii_utf16Of_pair {c d : UInt16} (hc : isHighSurrogate c = true)
    (hd : isLowSurrogate d = true) : ¬∀ u ∈ utf16Of (scalarOf [c, d]), u < 128 := by
  simp only [isHighSurrogate, isLowSurrogate, Bool.and_eq_true, decide_eq_true_eq,
    UInt16.le_iff_toNat_le, UInt16.reduceToNat] at hc hd
  have hscalar : scalarOf [c, d] = 0x10000 + (c.toNat - 0xd800) * 0x400 + (d.toNat - 0xdc00) := rfl
  intro h
  rw [hscalar, utf16Of, if_neg (by omega)] at h
  have hlt := h _ List.mem_cons_self
  rw [UInt16.lt_iff_toNat_lt, Nat.toUInt16, UInt16.toNat_ofNat'] at hlt
  simp only [UInt16.reduceToNat] at hlt
  omega

theorem not_surrogate_of_ascii {c : UInt16} (h : c < 128) :
    isHighSurrogate c = false ∧ isLowSurrogate c = false := by
  rw [UInt16.lt_iff_toNat_lt] at h
  simp only [isHighSurrogate, isLowSurrogate, Bool.and_eq_false_iff, decide_eq_false_iff_not,
    UInt16.le_iff_toNat_le, UInt16.reduceToNat] at h ⊢
  omega

theorem toWellFormed_ascii {s : JsString} (h : ∀ c ∈ s, c < 128) : toWellFormed s = s := by
  have hpoints := codePoints_ascii_append h []
  rw [List.append_nil, codePoints, List.append_nil] at hpoints
  rw [toWellFormed, hpoints, List.flatMap_map]
  induction s with
  | nil => rfl
  | cons c s ih =>
    obtain ⟨hc, hs⟩ := List.forall_mem_cons.mp h
    obtain ⟨hhigh, hlow⟩ := not_surrogate_of_ascii hc
    rw [List.flatMap_cons, utf16Of_scalarOf_one hhigh hlow,
      ih hs (by simpa [codePoints] using codePoints_ascii_append hs [])]
    rfl

/-- The first unit of a replaced or a paired surrogate is not ASCII. -/
theorem eq_of_toWellFormed_ascii {s : JsString} (h : ∀ c ∈ toWellFormed s, c < 128) :
    toWellFormed s = s := by
  have one : ∀ c : UInt16, (∀ u ∈ utf16Of (scalarOf [c]), u < 128) →
      utf16Of (scalarOf [c]) = [c] := by
    intro c hc
    by_cases hsurrogate : (isHighSurrogate c || isLowSurrogate c) = true
    · have hmem : (0xfffd : UInt16) ∈ utf16Of (scalarOf [c]) := by
        rw [scalarOf_lone hsurrogate, utf16Of, if_pos (by omega)]
        exact List.mem_singleton.mpr rfl
      exact absurd (hc _ hmem) (by decide)
    · rw [Bool.or_eq_true, not_or, Bool.not_eq_true, Bool.not_eq_true] at hsurrogate
      exact utf16Of_scalarOf_one hsurrogate.1 hsurrogate.2
  induction s using codePoints.induct with
  | case1 => rfl
  | case2 c =>
    rw [toWellFormed, codePoints, List.flatMap_singleton] at h ⊢
    exact one c h
  | case3 c d rest hpair ih =>
    rw [toWellFormed, codePoints, if_pos hpair, List.flatMap_cons] at h
    obtain ⟨hc, hd⟩ := Bool.and_eq_true_iff.mp hpair
    exact absurd (fun u hu => h u (List.mem_append_left _ hu)) (not_ascii_utf16Of_pair hc hd)
  | case4 c d rest hpair ih =>
    rw [toWellFormed, codePoints, if_neg hpair, List.flatMap_cons] at h ⊢
    rw [one c fun u hu => h u (List.mem_append_left _ hu)]
    exact congrArg (c :: ·) (ih fun u hu => h u (List.mem_append_right _ hu))

/-- A text with the bytes of an ASCII text is that text. -/
theorem eq_of_encodeUtf8_eq {s t : JsString} (ht : ∀ c ∈ t, c < 128)
    (h : encodeUtf8 s = encodeUtf8 t) : s = t := by
  have hwell : toWellFormed s = t := by
    have hs := decodeUtf8_encodeUtf8 s
    rw [h, decodeUtf8_encodeUtf8, toWellFormed_ascii ht] at hs
    exact (Option.some.inj hs).symm
  rw [← hwell]
  exact (eq_of_toWellFormed_ascii fun c hc => ht c (hwell ▸ hc)).symm

/-! ### Back to the bytes -/

theorem decodeUtf8From_some_cons {q : Sequence} {byte : ℕ} {bytes : List ℕ} {s : JsString}
    (h : decodeUtf8From q (byte :: bytes) = some s) :
    ∃ units q' s', q.step byte = some (units, q') ∧ decodeUtf8From q' bytes = some s' ∧
      s = units ++ s' := by
  simp only [decodeUtf8From, Option.bind_eq_bind, Option.bind_eq_some_iff] at h
  obtain ⟨⟨units, q'⟩, hstep, s', hs', heq⟩ := h
  exact ⟨units, q', s', hstep, hs', (Option.some.inj heq).symm⟩

/-- A sequence that has begun goes on with a continuation byte. -/
theorem decodeUtf8From_begun {owed bits least : ℕ} {bytes : List ℕ} {s : JsString}
    (h : decodeUtf8From ⟨owed + 1, bits, least⟩ bytes = some s) :
    ∃ b rest units q s', b < 0x40 ∧ bytes = (0x80 + b) :: rest ∧
      Sequence.step ⟨owed + 1, bits, least⟩ (0x80 + b) = some (units, q) ∧
      decodeUtf8From q rest = some s' ∧ s = units ++ s' := by
  cases bytes with
  | nil => cases h
  | cons byte bytes =>
    obtain ⟨units, q, s', hstep, hs', rfl⟩ := decodeUtf8From_some_cons h
    have hbyte : 0x80 ≤ byte ∧ byte < 0xc0 := by
      by_contra hbyte
      rw [Sequence.step, if_neg (by simp), if_neg hbyte] at hstep
      cases hstep
    refine ⟨byte - 0x80, bytes, units, q, s', by omega, by rw [Nat.add_sub_cancel' hbyte.1], ?_,
      hs', rfl⟩
    rw [Nat.add_sub_cancel' hbyte.1]
    exact hstep

theorem decodeUtf8From_more {owed bits least : ℕ} {bytes : List ℕ} {s : JsString}
    (h : decodeUtf8From ⟨owed + 2, bits, least⟩ bytes = some s) :
    ∃ b rest, b < 0x40 ∧ bytes = (0x80 + b) :: rest ∧
      decodeUtf8From ⟨owed + 1, bits * 0x40 + b, least⟩ rest = some s := by
  obtain ⟨b, rest, units, q, s', hb, rfl, hstep, hs', rfl⟩ := decodeUtf8From_begun h
  rw [Sequence.step_more (by omega) hb] at hstep
  cases hstep
  exact ⟨b, rest, hb, rfl, hs'⟩

theorem decodeUtf8From_last {bits least : ℕ} {bytes : List ℕ} {s : JsString}
    (h : decodeUtf8From ⟨1, bits, least⟩ bytes = some s) :
    ∃ b rest s', b < 0x40 ∧ bytes = (0x80 + b) :: rest ∧ least ≤ bits * 0x40 + b ∧
      IsScalar (bits * 0x40 + b) ∧ decodeUtf8From .none rest = some s' ∧
      s = utf16Of (bits * 0x40 + b) ++ s' := by
  obtain ⟨b, rest, units, q, s', hb, rfl, hstep, hs', rfl⟩ := decodeUtf8From_begun h
  rw [Sequence.step, if_neg (by simp), if_pos ⟨by omega, by omega⟩] at hstep
  simp only [Nat.add_sub_cancel_left, ne_eq, not_true_eq_false, if_false] at hstep
  split at hstep
  · next hscalar =>
    cases hstep
    exact ⟨b, rest, s', hb, rfl, hscalar.1, hscalar.2, hs', rfl⟩
  · cases hstep

/-- A text that is decoded begins with a scalar value in its one encoding. -/
theorem decodeUtf8_cons {byte : ℕ} {bytes : List ℕ} {s : JsString}
    (h : decodeUtf8 (byte :: bytes) = some s) :
    ∃ n rest s', IsScalar n ∧ byte :: bytes = utf8Of n ++ rest ∧ decodeUtf8 rest = some s' ∧
      s = utf16Of n ++ s' := by
  obtain ⟨units, q, s', hstep, hs', rfl⟩ := decodeUtf8From_some_cons h
  rw [Sequence.step, if_pos Sequence.owed_none] at hstep
  split_ifs at hstep with h1 h2 h3 h4
  · cases hstep
    exact ⟨byte, bytes, s', ⟨by omega, by omega⟩, by simp [utf8Of, h1], hs', by
      rw [utf16Of, if_pos (by omega)]⟩
  · cases hstep
    obtain ⟨b, rest, s'', hb, rfl, hleast, hscalar, hs'', rfl⟩ := decodeUtf8From_last hs'
    refine ⟨_, rest, s'', hscalar, ?_, hs'', rfl⟩
    rw [utf8Of, if_neg (by omega), if_pos (by omega)]
    simp only [List.cons_append, List.nil_append, List.cons.injEq, and_true]
    omega
  · cases hstep
    obtain ⟨a, rest, ha, rfl, hrest⟩ := decodeUtf8From_more hs'
    obtain ⟨b, rest, s'', hb, rfl, hleast, hscalar, hs'', rfl⟩ := decodeUtf8From_last hrest
    refine ⟨_, rest, s'', hscalar, ?_, hs'', rfl⟩
    rw [utf8Of, if_neg (by omega), if_neg (by omega), if_pos (by omega)]
    simp only [List.cons_append, List.nil_append, List.cons.injEq, and_true]
    omega
  · cases hstep
    obtain ⟨a, rest, ha, rfl, hrest⟩ := decodeUtf8From_more hs'
    obtain ⟨c, rest, hc, rfl, hrest'⟩ := decodeUtf8From_more hrest
    obtain ⟨b, rest, s'', hb, rfl, hleast, hscalar, hs'', rfl⟩ := decodeUtf8From_last hrest'
    refine ⟨_, rest, s'', hscalar, ?_, hs'', rfl⟩
    rw [utf8Of, if_neg (by omega), if_neg (by omega), if_neg (by omega)]
    simp only [List.cons_append, List.nil_append, List.cons.injEq, and_true]
    omega

theorem toNat_toUInt16 {n : ℕ} (h : n < 0x10000) : n.toUInt16.toNat = n := by
  simp only [Nat.toUInt16, UInt16.toNat_ofNat']
  exact Nat.mod_eq_of_lt h

/-- The units of a scalar value are one code point. -/
theorem codePoints_utf16Of {n : ℕ} (h : IsScalar n) (s : JsString) :
    codePoints (utf16Of n ++ s) = utf16Of n :: codePoints s ∧ scalarOf (utf16Of n) = n := by
  obtain ⟨hmax, hsurrogate⟩ := h
  rw [utf16Of]
  split
  · next hlt =>
    have hn := toNat_toUInt16 hlt
    have hhigh : isHighSurrogate n.toUInt16 = false := by
      simp only [isHighSurrogate, Bool.and_eq_false_iff, decide_eq_false_iff_not,
        UInt16.le_iff_toNat_le, UInt16.reduceToNat, hn]
      omega
    have hlow : isLowSurrogate n.toUInt16 = false := by
      simp only [isLowSurrogate, Bool.and_eq_false_iff, decide_eq_false_iff_not,
        UInt16.le_iff_toNat_le, UInt16.reduceToNat, hn]
      omega
    constructor
    · rw [List.cons_append, List.nil_append, codePoints_cons hhigh]
    · show (if isHighSurrogate n.toUInt16 || isLowSurrogate n.toUInt16 then _ else _) = n
      rw [hhigh, hlow]
      exact hn
  · next hge =>
    have hfirst := toNat_toUInt16 (n := 0xd800 + (n - 0x10000) / 0x400) (by omega)
    have hsecond := toNat_toUInt16 (n := 0xdc00 + (n - 0x10000) % 0x400) (by omega)
    constructor
    · rw [List.cons_append, List.cons_append, List.nil_append, codePoints, if_pos]
      simp only [isHighSurrogate, isLowSurrogate, Bool.and_eq_true, decide_eq_true_eq,
        UInt16.le_iff_toNat_le, UInt16.reduceToNat, hfirst, hsecond]
      omega
    · show 0x10000 + (UInt16.toNat _ - 0xd800) * 0x400 + (UInt16.toNat _ - 0xdc00) = n
      rw [hfirst, hsecond]
      omega

/-- Strict decoding is undone by encoding, byte for byte. -/
theorem encodeUtf8_of_decodeUtf8 {bytes : List ℕ} {s : JsString} (h : decodeUtf8 bytes = some s) :
    encodeUtf8 s = bytes := by
  induction hlen : bytes.length using Nat.strong_induction_on generalizing bytes s with
  | _ k ih =>
    cases bytes with
    | nil =>
      cases h
      rfl
    | cons byte bytes =>
      obtain ⟨n, rest, s', hn, heq, hs', rfl⟩ := decodeUtf8_cons h
      have hlt : rest.length < k := by
        rw [← hlen, heq, List.length_append, utf8Of]
        split_ifs <;> simp
      have hrest := ih rest.length hlt hs' rfl
      obtain ⟨hpoints, hscalar⟩ := codePoints_utf16Of hn s'
      rw [heq, encodeUtf8, hpoints, List.flatMap_cons, hscalar, ← hrest, encodeUtf8]

end Haechi.Text
