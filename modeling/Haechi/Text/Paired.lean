import Haechi.Text.Utf8

/-! Texts without a lone surrogate. UTF-8 gives them back, so they are told apart by
their bytes. What `render` writes is such a text, whatever the value, since a quoted
string has its lone surrogates escaped. -/

namespace Haechi.Text

open Json

/-- Every surrogate has its partner. -/
inductive Paired : JsString → Prop
  | nil : Paired []
  | one {c : UInt16} {s : JsString} : isHighSurrogate c = false → isLowSurrogate c = false →
      Paired s → Paired (c :: s)
  | pair {c d : UInt16} {s : JsString} : isHighSurrogate c = true → isLowSurrogate d = true →
      Paired s → Paired (c :: d :: s)

theorem Paired.append {s t : JsString} (hs : Paired s) (ht : Paired t) : Paired (s ++ t) := by
  induction hs with
  | nil => exact ht
  | one hhigh hlow _ ih => exact .one hhigh hlow ih
  | pair hhigh hlow _ ih => exact .pair hhigh hlow ih

theorem paired_of_ascii {s : JsString} (h : ∀ c ∈ s, c < 128) : Paired s := by
  induction s with
  | nil => exact .nil
  | cons c s ih =>
    obtain ⟨hc, hs⟩ := List.forall_mem_cons.mp h
    obtain ⟨hhigh, hlow⟩ := not_surrogate_of_ascii hc
    exact .one hhigh hlow (ih hs)

theorem paired_intercalate {parts : List JsString} (h : ∀ part ∈ parts, Paired part) :
    Paired (List.intercalate [44] parts) := by
  induction parts with
  | nil => exact .nil
  | cons a parts ih =>
    obtain ⟨ha, hparts⟩ := List.forall_mem_cons.mp h
    cases parts with
    | nil => simpa using ha
    | cons b parts =>
      rw [List.intercalate_cons_cons]
      exact (ha.append (paired_of_ascii (by decide))).append (ih hparts)

/-! ### UTF-8 gives the text back -/

theorem utf16Of_scalarOf_pair {c d : UInt16} (hc : isHighSurrogate c = true)
    (hd : isLowSurrogate d = true) : utf16Of (scalarOf [c, d]) = [c, d] := by
  simp only [isHighSurrogate, isLowSurrogate, Bool.and_eq_true, decide_eq_true_eq,
    UInt16.le_iff_toNat_le, UInt16.reduceToNat] at hc hd
  have hscalar : scalarOf [c, d] = 0x10000 + (c.toNat - 0xd800) * 0x400 + (d.toNat - 0xdc00) := rfl
  rw [hscalar, utf16Of, if_neg (by omega)]
  have hhigh : 0xd800 + (0x10000 + (c.toNat - 0xd800) * 0x400 + (d.toNat - 0xdc00) - 0x10000) / 0x400 =
      c.toNat := by omega
  have hlow : 0xdc00 + (0x10000 + (c.toNat - 0xd800) * 0x400 + (d.toNat - 0xdc00) - 0x10000) % 0x400 =
      d.toNat := by omega
  rw [hhigh, hlow]
  simp

theorem Paired.toWellFormed_eq {s : JsString} (h : Paired s) : toWellFormed s = s := by
  induction h with
  | nil => rfl
  | one hhigh hlow _ ih =>
    rw [toWellFormed, codePoints_cons hhigh, List.flatMap_cons, utf16Of_scalarOf_one hhigh hlow]
    exact congrArg _ ih
  | pair hhigh hlow _ ih =>
    rw [toWellFormed, codePoints, if_pos (by rw [hhigh, hlow]; rfl), List.flatMap_cons,
      utf16Of_scalarOf_pair hhigh hlow]
    exact congrArg _ ih

theorem Paired.eq_of_encodeUtf8_eq {s t : JsString} (hs : Paired s) (ht : Paired t)
    (h : encodeUtf8 s = encodeUtf8 t) : s = t := by
  have hback := decodeUtf8_encodeUtf8 s
  rw [h, decodeUtf8_encodeUtf8, hs.toWellFormed_eq, ht.toWellFormed_eq] at hback
  exact (Option.some.inj hback).symm

theorem utf8Of_lt {n : ℕ} (h : IsScalar n) : ∀ b ∈ utf8Of n, b < 256 := by
  have hle := h.1
  rw [utf8Of]
  split_ifs with h₁ h₂ h₃
  all_goals
    simp only [List.mem_cons, List.not_mem_nil, or_false]
    intro b hb
    omega

theorem encodeUtf8_lt (s : JsString) : ∀ b ∈ encodeUtf8 s, b < 256 := by
  intro b hb
  obtain ⟨p, hp, hb⟩ := List.mem_flatMap.mp hb
  exact utf8Of_lt (isScalar_scalarOf s p hp) b hb

/-! ### Rendered values -/

theorem paired_unicodeEscape (c : UInt16) : Paired (unicodeEscape c) :=
  paired_of_ascii fun _ hd => by
    have h := mem_unicodeEscape hd
    simp only [isPrintable, Bool.and_eq_true, decide_eq_true_eq] at h
    exact UInt16.lt_of_le_of_lt h.2 (by decide)

theorem paired_escapeUnit {c : UInt16} (hhigh : isHighSurrogate c = false)
    (hlow : isLowSurrogate c = false) : Paired (escapeUnit c) := by
  rw [escapeUnit]
  split_ifs
  · exact paired_of_ascii (by decide)
  · exact paired_of_ascii (by decide)
  · exact paired_of_ascii (by decide)
  · exact paired_of_ascii (by decide)
  · exact paired_of_ascii (by decide)
  · exact paired_of_ascii (by decide)
  · exact paired_of_ascii (by decide)
  · exact paired_unicodeEscape c
  · exact .one hhigh hlow .nil

theorem paired_escape (s : JsString) : Paired (escape s) := by
  induction s using escape.induct with
  | case1 => exact .nil
  | case2 c h => simpa [escape, h] using paired_unicodeEscape c
  | case3 c h d rest hd ih => simpa [escape, h, hd] using Paired.pair h hd ih
  | case4 c h d rest hd ih => simpa [escape, h, hd] using (paired_unicodeEscape c).append ih
  | case5 c rest h hlow ih =>
    rw [escape.eq_def]
    simpa [h, hlow] using (paired_unicodeEscape c).append ih
  | case6 c rest h hlow ih =>
    rw [Bool.not_eq_true] at h hlow
    rw [escape.eq_def]
    simpa [h, hlow] using (paired_escapeUnit h hlow).append ih

theorem paired_quote (s : JsString) : Paired (quote s) :=
  .one rfl rfl ((paired_escape s).append (.one rfl rfl .nil))

variable {ν : Type} [JsNumber ν]

theorem paired_toText (x : ν) : Paired (JsNumber.toText x) :=
  paired_of_ascii fun _ hd => by
    have h := List.all_eq_true.mp (all_of_isNumberToken (JsNumber.isNumberToken_toText x)) _ hd
    have h := isPrintable_of_isNumberChar h
    simp only [isPrintable, Bool.and_eq_true, decide_eq_true_eq] at h
    exact UInt16.lt_of_le_of_lt h.2 (by decide)

theorem paired_renderItems {items : List (JsValue ν)}
    (ih : ∀ v ∈ items, Paired ((render v).getD [])) : ∀ part ∈ renderItems items, Paired part := by
  induction items with
  | nil => simp [renderItems]
  | cons v vs ihl =>
    rw [renderItems, List.forall_mem_cons]
    exact ⟨ih v List.mem_cons_self, ihl fun w hw => ih w (List.mem_cons_of_mem _ hw)⟩

theorem paired_renderFields {fields : List (JsString × JsValue ν)}
    (ih : ∀ kv ∈ fields, Paired ((render kv.2).getD [])) :
    ∀ part ∈ renderFields fields, Paired part := by
  induction fields with
  | nil => simp [renderFields]
  | cons kv fs ihl =>
    rw [renderFields, List.forall_mem_cons]
    refine ⟨(paired_quote kv.1).append (.one rfl rfl ?_),
      ihl fun w hw => ih w (List.mem_cons_of_mem _ hw)⟩
    have hv := ih kv List.mem_cons_self
    cases hr : render kv.2 with
    | none => exact paired_of_ascii (by decide)
    | some t => rwa [hr] at hv

theorem paired_render (v : JsValue ν) : Paired ((render v).getD []) := by
  induction v using JsValue.induct with
  | undef => exact .nil
  | null => exact paired_of_ascii (s := js "null") (by decide)
  | bool b =>
    cases b
    · exact paired_of_ascii (s := js "false") (by decide)
    · exact paired_of_ascii (s := js "true") (by decide)
  | num x => exact paired_toText x
  | str s => exact paired_quote s
  | arr items ih =>
    exact .one rfl rfl ((paired_intercalate (paired_renderItems ih)).append (.one rfl rfl .nil))
  | obj fields ih =>
    exact .one rfl rfl ((paired_intercalate (paired_renderFields ih)).append (.one rfl rfl .nil))

end Haechi.Text
