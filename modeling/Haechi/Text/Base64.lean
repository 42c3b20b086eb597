import Haechi.Text.Utf8

/-! Base64 without padding. Decoding gives back the bytes that were encoded, and only what
was encoded decodes, so two texts of bytes are the same only for the same bytes. -/

namespace Haechi.Text

namespace Base64

/-- `Buffer.from(bytes).toString("base64url")`, for the second alphabet. -/
def encode (v : Base64) (bytes : List ℕ) : JsString := (sextetsOfBytes bytes).map v.letter

theorem digit?_letter (v : Base64) : ∀ n < 64, v.digit? (v.letter n) = some n := by
  cases v
  · decide
  · decide

theorem letter_lt (v : Base64) : ∀ n < 64, v.letter n < 128 := by
  cases v
  · decide
  · decide

theorem sextetsOfBytes_lt {bytes : List ℕ} (h : ∀ b ∈ bytes, b < 256) :
    ∀ n ∈ sextetsOfBytes bytes, n < 64 := by
  induction bytes using sextetsOfBytes.induct with
  | case1 => simp [sextetsOfBytes]
  | case2 a =>
    simp only [sextetsOfBytes, List.mem_cons, List.not_mem_nil, or_false, forall_eq_or_imp,
      forall_eq] at h ⊢
    omega
  | case3 a b =>
    simp only [sextetsOfBytes, List.mem_cons, List.not_mem_nil, or_false, forall_eq_or_imp,
      forall_eq] at h ⊢
    omega
  | case4 a b c rest ih =>
    simp only [List.mem_cons, forall_eq_or_imp] at h
    obtain ⟨ha, hb, hc, hrest⟩ := h
    simp only [sextetsOfBytes, List.cons_append, List.nil_append, List.mem_cons, forall_eq_or_imp]
    exact ⟨by omega, by omega, by omega, by omega, ih hrest⟩

theorem bytesOfSextets_sextetsOfBytes {bytes : List ℕ} (h : ∀ b ∈ bytes, b < 256) :
    bytesOfSextets (sextetsOfBytes bytes) = some bytes := by
  induction bytes using sextetsOfBytes.induct with
  | case1 => rfl
  | case2 a =>
    have hdigits : a % 4 * 16 % 16 = 0 := by omega
    have ha : a / 4 * 4 + a % 4 * 16 / 16 = a := by omega
    rw [sextetsOfBytes, bytesOfSextets, if_pos hdigits, ha]
  | case3 a b =>
    have hb := h b (by simp)
    have hdigits : b % 16 * 4 % 4 = 0 := by omega
    have hfirst : a / 4 * 4 + (a % 4 * 16 + b / 16) / 16 = a := by omega
    have hsecond : (a % 4 * 16 + b / 16) % 16 * 16 + b % 16 * 4 / 4 = b := by omega
    rw [sextetsOfBytes, bytesOfSextets, if_pos hdigits, hfirst, hsecond]
  | case4 a b c rest ih =>
    simp only [List.mem_cons, forall_eq_or_imp] at h
    obtain ⟨ha, hb, hc, hrest⟩ := h
    have hfirst : a / 4 * 4 + (a % 4 * 16 + b / 16) / 16 = a := by omega
    have hsecond : (a % 4 * 16 + b / 16) % 16 * 16 + (b % 16 * 4 + c / 64) / 4 = b := by omega
    have hthird : (b % 16 * 4 + c / 64) % 4 * 64 + c % 64 = c := by omega
    simp only [sextetsOfBytes, List.cons_append, List.nil_append, bytesOfSextets, ih hrest, hfirst,
      hsecond, hthird]
    rfl

theorem decode_encode (v : Base64) {bytes : List ℕ} (h : ∀ b ∈ bytes, b < 256) :
    v.decode (v.encode bytes) = some bytes := by
  have hdigits : ∀ ns : List ℕ, (∀ n ∈ ns, n < 64) → (ns.map v.letter).mapM v.digit? = some ns := by
    intro ns hns
    induction ns with
    | nil => rfl
    | cons n ns ih =>
      obtain ⟨hn, hns⟩ := List.forall_mem_cons.mp hns
      rw [List.map_cons, List.mapM_cons, digit?_letter v n hn, ih hns]
      rfl
  rw [decode, encode, hdigits _ (sextetsOfBytes_lt h)]
  exact bytesOfSextets_sextetsOfBytes h

theorem encode_injective (v : Base64) {xs ys : List ℕ} (hx : ∀ b ∈ xs, b < 256)
    (hy : ∀ b ∈ ys, b < 256) (h : v.encode xs = v.encode ys) : xs = ys := by
  have hback := decode_encode v hx
  rw [h, decode_encode v hy] at hback
  exact (Option.some.inj hback).symm

theorem ascii_encode (v : Base64) {bytes : List ℕ} (h : ∀ b ∈ bytes, b < 256) :
    ∀ c ∈ v.encode bytes, c < 128 := by
  intro c hc
  obtain ⟨n, hn, rfl⟩ := List.mem_map.mp hc
  exact letter_lt v n (sextetsOfBytes_lt h n hn)

end Base64

/-! ### Loose decoding -/

/-- The bytes of six-bit digits; bits that are left over are dropped. -/
def looseBytes : List ℕ → List ℕ
  | [] | [_] => []
  | [a, b] => [a * 4 + b / 16]
  | [a, b, c] => [a * 4 + b / 16, b % 16 * 16 + c / 4]
  | a :: b :: c :: d :: rest =>
    [a * 4 + b / 16, b % 16 * 16 + c / 4, c % 4 * 64 + d] ++ looseBytes rest

theorem looseBytes_of_bytesOfSextets {ns bytes : List ℕ} (h : bytesOfSextets ns = some bytes) :
    looseBytes ns = bytes := by
  induction ns using looseBytes.induct generalizing bytes with
  | case1 => exact Option.some.inj h
  | case2 a => cases h
  | case3 a b =>
    simp only [bytesOfSextets] at h
    split_ifs at h
    exact Option.some.inj h
  | case4 a b c =>
    simp only [bytesOfSextets] at h
    split_ifs at h
    exact Option.some.inj h
  | case5 a b c d rest ih =>
    obtain ⟨bytes', hrest, hbytes⟩ := Option.bind_eq_some_iff.mp h
    rw [looseBytes, ih hrest]
    exact Option.some.inj hbytes

/-- A digit of either alphabet. -/
def eitherDigit? (c : UInt16) : Option ℕ := (Base64.url.digit? c).or (Base64.standard.digit? c)

/-- `Buffer.from` of a base64 text: both alphabets are read, the padding ends it, and what is no
digit is skipped. -/
def bufferOf (s : JsString) : List ℕ :=
  looseBytes ((s.takeWhile (· != 61)).filterMap eitherDigit?)

theorem eitherDigit?_letter (v : Base64) : ∀ n < 64, eitherDigit? (v.letter n) = some n := by
  cases v
  · decide
  · decide

theorem letter_ne_padding (v : Base64) : ∀ n < 64, (v.letter n != 61) = true := by
  cases v
  · decide
  · decide

/-- What was encoded is read back. -/
theorem bufferOf_encode (v : Base64) {bytes : List ℕ} (h : ∀ b ∈ bytes, b < 256) :
    bufferOf (v.encode bytes) = bytes := by
  have hlt := Base64.sextetsOfBytes_lt h
  have hpadding : (v.encode bytes).takeWhile (· != 61) = v.encode bytes := by
    rw [List.takeWhile_eq_self_iff]
    intro c hc
    obtain ⟨n, hn, rfl⟩ := List.mem_map.mp hc
    exact letter_ne_padding v n (hlt n hn)
  have hdigits : (v.encode bytes).filterMap eitherDigit? = sextetsOfBytes bytes := by
    rw [Base64.encode, List.filterMap_map]
    have hsome : ∀ n ∈ sextetsOfBytes bytes, (eitherDigit? ∘ v.letter) n = some n := fun n hn =>
      eitherDigit?_letter v n (hlt n hn)
    rw [List.filterMap_congr hsome, List.filterMap_some]
  rw [bufferOf, hpadding, hdigits]
  exact looseBytes_of_bytesOfSextets (Base64.bytesOfSextets_sextetsOfBytes h)

/-! ### Only what is encoded decodes -/

namespace Base64

/-- A digit is the value of its letter only. -/
theorem letter_of_digit? {v : Base64} {c : UInt16} {n : ℕ} (h : v.digit? c = some n) :
    n < 64 ∧ v.letter n = c := by
  have hunit : ∀ m : ℕ, m < 65536 → c.toNat = m → m.toUInt16 = c := fun m hm hc =>
    UInt16.toNat_inj.mp (by rw [toNat_toUInt16 hm, hc])
  have hupper : ∀ m < 26, v.letter m = (m + 65).toUInt16 := fun m hm => if_pos hm
  have hlower : ∀ m, ¬m < 26 → m < 52 → v.letter m = (m + 71).toUInt16 := fun m hm hm' =>
    (if_neg hm).trans (if_pos hm')
  have hfigure : ∀ m, ¬m < 26 → ¬m < 52 → m < 62 → v.letter m = (m - 4).toUInt16 :=
    fun m hm hm' hm'' => (if_neg hm).trans ((if_neg hm').trans (if_pos hm''))
  have hbound := c.toNat_lt
  unfold digit? at h
  simp only [Bool.and_eq_true, decide_eq_true_eq, UInt16.le_iff_toNat_le, UInt16.reduceToNat] at h
  split at h
  · cases h
    exact ⟨by omega, (hupper _ (by omega)).trans (hunit _ (by omega) (by omega))⟩
  split at h
  · cases h
    exact ⟨by omega, (hlower _ (by omega) (by omega)).trans (hunit _ (by omega) (by omega))⟩
  split at h
  · cases h
    refine ⟨by omega, ?_⟩
    exact (hfigure _ (by omega) (by omega) (by omega)).trans (hunit _ (by omega) (by omega))
  cases v
  · simp only at h
    split_ifs at h with hplus hslash
    · cases h
      exact ⟨by decide, hplus.symm⟩
    · cases h
      exact ⟨by decide, hslash.symm⟩
  · simp only at h
    split_ifs at h with hminus hline
    · cases h
      exact ⟨by decide, hminus.symm⟩
    · cases h
      exact ⟨by decide, hline.symm⟩

theorem sextetsOfBytes_of_bytesOfSextets {ns bytes : List ℕ} (hns : ∀ n ∈ ns, n < 64)
    (h : bytesOfSextets ns = some bytes) :
    sextetsOfBytes bytes = ns ∧ ∀ b ∈ bytes, b < 256 := by
  induction ns using looseBytes.induct generalizing bytes with
  | case1 =>
    cases h
    exact ⟨rfl, by simp⟩
  | case2 a => cases h
  | case3 a b =>
    simp only [bytesOfSextets] at h
    split_ifs at h with hzero
    cases h
    simp only [List.mem_cons, List.not_mem_nil, or_false, forall_eq_or_imp, forall_eq] at hns
    simp only [sextetsOfBytes, List.mem_cons, List.not_mem_nil, or_false, forall_eq,
      List.cons.injEq, and_true]
    omega
  | case4 a b c =>
    simp only [bytesOfSextets] at h
    split_ifs at h with hzero
    cases h
    simp only [List.mem_cons, List.not_mem_nil, or_false, forall_eq_or_imp, forall_eq] at hns
    simp only [sextetsOfBytes, List.mem_cons, List.not_mem_nil, or_false, forall_eq_or_imp,
      forall_eq, List.cons.injEq, and_true]
    omega
  | case5 a b c d rest ih =>
    obtain ⟨bytes', hrest, hbytes⟩ := Option.bind_eq_some_iff.mp h
    cases hbytes
    simp only [List.mem_cons, forall_eq_or_imp] at hns
    obtain ⟨ha, hb, hc, hd, hns⟩ := hns
    obtain ⟨hsextets, hlt⟩ := ih hns hrest
    simp only [List.cons_append, List.nil_append, sextetsOfBytes, hsextets, List.cons.injEq,
      and_true, List.mem_cons, forall_eq_or_imp]
    refine ⟨by omega, by omega, by omega, by omega, hlt⟩

theorem mapM_digit? {v : Base64} {s : JsString} {ns : List ℕ} (h : s.mapM v.digit? = some ns) :
    (∀ n ∈ ns, n < 64) ∧ ns.map v.letter = s := by
  induction s generalizing ns with
  | nil =>
    cases h
    exact ⟨by simp, rfl⟩
  | cons c s ih =>
    rw [List.mapM_cons] at h
    obtain ⟨n, hn, h⟩ := Option.bind_eq_some_iff.mp h
    obtain ⟨ns', hns', h⟩ := Option.bind_eq_some_iff.mp h
    cases h
    obtain ⟨hlt, hmap⟩ := ih hns'
    obtain ⟨hnlt, hletter⟩ := letter_of_digit? hn
    exact ⟨List.forall_mem_cons.mpr ⟨hnlt, hlt⟩, by rw [List.map_cons, hletter, hmap]⟩

/-- Only what is encoded decodes. -/
theorem decode_eq_some {v : Base64} {s : JsString} {bytes : List ℕ} :
    v.decode s = some bytes ↔ (∀ b ∈ bytes, b < 256) ∧ s = v.encode bytes := by
  constructor
  · intro h
    obtain ⟨ns, hns, hbytes⟩ := Option.bind_eq_some_iff.mp h
    obtain ⟨hlt, rfl⟩ := mapM_digit? hns
    obtain ⟨hsextets, hbytes⟩ := sextetsOfBytes_of_bytesOfSextets hlt hbytes
    exact ⟨hbytes, by rw [encode, hsextets]⟩
  · rintro ⟨hbytes, rfl⟩
    exact decode_encode v hbytes

theorem encode_eq_nil {v : Base64} {bytes : List ℕ} : v.encode bytes = [] ↔ bytes = [] := by
  rw [encode, List.map_eq_nil_iff]
  constructor
  · intro h
    cases bytes with
    | nil => rfl
    | cons a bytes => rcases bytes with _ | ⟨b, _ | ⟨c, bytes⟩⟩ <;> simp [sextetsOfBytes] at h
  · rintro rfl
    rfl

/-- A text of base64 has no length that leaves one over four. -/
theorem length_encode (v : Base64) (bytes : List ℕ) :
    (v.encode bytes).length % 4 = 0 ∨ (v.encode bytes).length % 4 = 2 ∨
      (v.encode bytes).length % 4 = 3 := by
  rw [encode, List.length_map]
  induction bytes using sextetsOfBytes.induct with
  | case1 => exact .inl rfl
  | case2 a => exact .inr (.inl rfl)
  | case3 a b => exact .inr (.inr rfl)
  | case4 a b c rest ih =>
    simp only [sextetsOfBytes, List.cons_append, List.nil_append, List.length_cons]
    omega

end Base64

end Haechi.Text
