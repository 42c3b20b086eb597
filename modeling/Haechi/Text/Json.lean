import Haechi.Text.Value

/-! The JSON text format: quoting, rendering and reading. `render` is the text
JavaScript string conversion produces, so a hole leaves a visible trace instead
of being dropped; on a value without holes it is the JSON text. Proved: reading
a rendered value gives the value back exactly when it has no hole, and fails
otherwise, apart from arrays whose only item is a hole. -/

namespace Haechi.Json

open Text

/-! ### Strings -/

/-- A lower-case hexadecimal digit. -/
def hexDigit (n : ℕ) : UInt16 := if n < 10 then (48 + n).toUInt16 else (87 + n).toUInt16

/-- The value of a hexadecimal digit of either case. -/
def hexValue (c : UInt16) : Option ℕ :=
  if 48 ≤ c && c ≤ 57 then some (c.toNat - 48)
  else if 97 ≤ c && c ≤ 102 then some (c.toNat - 87)
  else if 65 ≤ c && c ≤ 70 then some (c.toNat - 55)
  else none

/-- `\uXXXX`. -/
def unicodeEscape (c : UInt16) : JsString :=
  [92, 117, hexDigit (c.toNat / 4096), hexDigit (c.toNat / 256 % 16),
    hexDigit (c.toNat / 16 % 16), hexDigit (c.toNat % 16)]

def isHighSurrogate (c : UInt16) : Bool := 0xd800 ≤ c && c ≤ 0xdbff

def isLowSurrogate (c : UInt16) : Bool := 0xdc00 ≤ c && c ≤ 0xdfff

/-- The text of a code unit outside the surrogate range. -/
def escapeUnit (c : UInt16) : JsString :=
  if c = 34 then [92, 34]
  else if c = 92 then [92, 92]
  else if c = 8 then [92, 98]
  else if c = 9 then [92, 116]
  else if c = 10 then [92, 110]
  else if c = 12 then [92, 102]
  else if c = 13 then [92, 114]
  else if c < 32 then unicodeEscape c
  else [c]

/-- Well-formed `JSON.stringify` of a string body: a surrogate without its
partner is escaped. -/
def escape : JsString → JsString
  | [] => []
  | c :: rest =>
    if isHighSurrogate c then
      match rest with
      | [] => unicodeEscape c
      | d :: rest' =>
        if isLowSurrogate d then c :: d :: escape rest'
        else unicodeEscape c ++ escape (d :: rest')
    else if isLowSurrogate c then unicodeEscape c ++ escape rest
    else escapeUnit c ++ escape rest

/-- A quoted string. -/
def quote (s : JsString) : JsString := 34 :: (escape s ++ [34])

/-- The character a one-letter escape stands for. -/
def simpleEscape (c : UInt16) : Option UInt16 :=
  if c = 34 then some 34
  else if c = 92 then some 92
  else if c = 47 then some 47
  else if c = 98 then some 8
  else if c = 102 then some 12
  else if c = 110 then some 10
  else if c = 114 then some 13
  else if c = 116 then some 9
  else none

/-- The code unit four hexadecimal digits denote. -/
def hexUnit (a b c d : UInt16) : Option UInt16 := do
  let w ← hexValue a
  let x ← hexValue b
  let y ← hexValue c
  let z ← hexValue d
  return (4096 * w + 256 * x + 16 * y + z).toUInt16

/-- Read a string after its opening quote. -/
def readString : JsString → Option (JsString × JsString)
  | [] => none
  | c :: rest =>
    if c = 34 then some ([], rest)
    else if c = 92 then
      match rest with
      | [] => none
      | e :: rest' =>
        if e = 117 then
          match rest' with
          | w :: x :: y :: z :: rest'' =>
            (hexUnit w x y z).bind fun u =>
              (readString rest'').map fun (s, r) => (u :: s, r)
          | _ => none
        else
          (simpleEscape e).bind fun u => (readString rest').map fun (s, r) => (u :: s, r)
    else if c < 32 then none
    else (readString rest).map fun (s, r) => (c :: s, r)

theorem hexValue_hexDigit : ∀ n < 16, hexValue (hexDigit n) = some n := by decide

theorem hexUnit_unicode (c : UInt16) :
    hexUnit (hexDigit (c.toNat / 4096)) (hexDigit (c.toNat / 256 % 16))
      (hexDigit (c.toNat / 16 % 16)) (hexDigit (c.toNat % 16)) = some c := by
  have hc := c.toNat_lt
  have hsum : 4096 * (c.toNat / 4096) + 256 * (c.toNat / 256 % 16) +
      16 * (c.toNat / 16 % 16) + c.toNat % 16 = c.toNat := by omega
  rw [hexUnit, hexValue_hexDigit _ (by omega), hexValue_hexDigit _ (by omega),
    hexValue_hexDigit _ (by omega), hexValue_hexDigit _ (by omega)]
  simp only [Option.bind_eq_bind, Option.bind_some, Option.pure_def, hsum]
  exact congrArg some (UInt16.ofNat_toNat (x := c))

theorem readString_unicodeEscape (c : UInt16) (t : JsString) :
    readString (unicodeEscape c ++ t) = (readString t).map fun (s, r) => (c :: s, r) := by
  simp [unicodeEscape, readString, hexUnit_unicode]

theorem readString_raw {c : UInt16} (t : JsString) (h : c ≠ 34) (h' : c ≠ 92) (hc : ¬ c < 32) :
    readString (c :: t) = (readString t).map fun (s, r) => (c :: s, r) := by
  rw [readString.eq_def]
  simp [h, h', hc]

@[simp] theorem readString_quote (rest : JsString) :
    readString (34 :: rest) = some ([], rest) := by
  rw [readString.eq_def]
  rfl

theorem readString_simpleEscape {e u : UInt16} (t : JsString) (he : e ≠ 117)
    (hu : simpleEscape e = some u) :
    readString (92 :: e :: t) = (readString t).map fun (s, r) => (u :: s, r) := by
  rw [readString.eq_def]
  simp [he, hu]

theorem readString_escapeUnit (c : UInt16) (t : JsString) :
    readString (escapeUnit c ++ t) = (readString t).map fun (s, r) => (c :: s, r) := by
  unfold escapeUnit
  split_ifs with h₁ h₂ h₃ h₄ h₅ h₆ h₇ h₈
  · subst h₁; exact readString_simpleEscape t (by decide) rfl
  · subst h₂; exact readString_simpleEscape t (by decide) rfl
  · subst h₃; exact readString_simpleEscape t (by decide) rfl
  · subst h₄; exact readString_simpleEscape t (by decide) rfl
  · subst h₅; exact readString_simpleEscape t (by decide) rfl
  · subst h₆; exact readString_simpleEscape t (by decide) rfl
  · subst h₇; exact readString_simpleEscape t (by decide) rfl
  · exact readString_unicodeEscape c t
  · exact readString_raw t h₁ h₂ h₈

theorem raw_of_surrogate {c : UInt16} (h : isHighSurrogate c = true ∨ isLowSurrogate c = true) :
    c ≠ 34 ∧ c ≠ 92 ∧ ¬ c < 32 := by
  have hc : 0xd800 ≤ c.toNat := by
    rcases h with h | h <;>
      simp only [isHighSurrogate, isLowSurrogate, Bool.and_eq_true, decide_eq_true_eq,
        UInt16.le_iff_toNat_le] at h <;>
      simp at h <;> omega
  refine ⟨?_, ?_, ?_⟩
  · rintro rfl; simp at hc
  · rintro rfl; simp at hc
  · rw [UInt16.lt_iff_toNat_lt]; simp; omega

/-- Reading a quoted string gives it back. -/
theorem readString_escape (s rest : JsString) :
    readString (escape s ++ 34 :: rest) = some (s, rest) := by
  fun_induction escape s with
  | case1 => simp
  | case2 c hc => simp [readString_unicodeEscape]
  | case3 c hc d rest' hd ih =>
    obtain ⟨c₁, c₂, c₃⟩ := raw_of_surrogate (.inl hc)
    obtain ⟨d₁, d₂, d₃⟩ := raw_of_surrogate (.inr hd)
    rw [List.cons_append, List.cons_append, readString_raw _ c₁ c₂ c₃,
      readString_raw _ d₁ d₂ d₃, ih]
    rfl
  | case4 c hc d rest' hd ih => simp [List.append_assoc, readString_unicodeEscape, ih]
  | case5 c rest hh hl ih => simp [List.append_assoc, readString_unicodeEscape, ih]
  | case6 c rest hh hl ih => simp [List.append_assoc, readString_escapeUnit, ih]

/-! ### Rendering -/

variable {ν : Type} [JsNumber ν]

mutual

/-- The text of a value. A hole has none: `join` then writes nothing for it and
a template writes `undefined`. -/
def render : JsValue ν → Option JsString
  | .undef => none
  | .null => some (js "null")
  | .bool true => some (js "true")
  | .bool false => some (js "false")
  | .num x => some (JsNumber.toText x)
  | .str s => some (quote s)
  | .arr items => some (91 :: (List.intercalate [44] (renderItems items) ++ [93]))
  | .obj fields => some (123 :: (List.intercalate [44] (renderFields fields) ++ [125]))

def renderItems : List (JsValue ν) → List JsString
  | [] => []
  | v :: vs => (render v).getD [] :: renderItems vs

def renderFields : List (JsString × JsValue ν) → List JsString
  | [] => []
  | (k, v) :: fs => (quote k ++ 58 :: (render v).getD (js "undefined")) :: renderFields fs

end

/-- `JSON.stringify`. -/
def stringify (v : JsValue ν) : Option JsString := render v.prune

/-! ### Reading -/

/-- JSON white space. -/
def isJsonSpace (c : UInt16) : Bool := c == 32 || c == 9 || c == 10 || c == 13

def skipSpace (s : JsString) : JsString := s.dropWhile isJsonSpace

/-- Read a number token of maximal length. -/
def readNumber (s : JsString) : Option (JsValue ν × JsString) :=
  let token := s.takeWhile isNumberChar
  if isNumberToken token then some (.num (JsNumber.ofText token), s.dropWhile isNumberChar)
  else none

def readLiteral (s : JsString) : Option (JsValue ν × JsString) :=
  match stripPrefix (js "null") s, stripPrefix (js "true") s, stripPrefix (js "false") s with
  | some r, _, _ => some (.null, r)
  | _, some r, _ => some (.bool true, r)
  | _, _, some r => some (.bool false, r)
  | _, _, _ => none

/-- Put a member in front; a later member under the same key overrides its value. -/
def putFirst (k : JsString) (v : JsValue ν) (fs : List (JsString × JsValue ν)) :
    List (JsString × JsValue ν) :=
  (k, (JsValue.field? k fs).getD v) :: fs.filter fun kv => kv.1 != k

mutual

/-- Read one value; the fuel bounds the nesting and the length. -/
def parseValue : ℕ → JsString → Option (JsValue ν × JsString)
  | 0, _ => none
  | fuel + 1, s =>
    match skipSpace s with
    | [] => none
    | c :: r =>
      if c = 34 then (readString r).map fun p => (.str p.1, p.2)
      else if c = 91 then
        match skipSpace r with
        | [] => none
        | d :: r' =>
          if d = 93 then some (.arr [], r')
          else (parseItems fuel (d :: r')).map fun p => (.arr p.1, p.2)
      else if c = 123 then
        match skipSpace r with
        | [] => none
        | d :: r' =>
          if d = 125 then some (.obj [], r')
          else (parseFields fuel (d :: r')).map fun p => (.obj p.1, p.2)
      else if isNumberChar c then readNumber (c :: r)
      else readLiteral (c :: r)

def parseItems : ℕ → JsString → Option (List (JsValue ν) × JsString)
  | 0, _ => none
  | fuel + 1, s =>
    (parseValue fuel s).bind fun p =>
      match skipSpace p.2 with
      | [] => none
      | c :: r =>
        if c = 44 then (parseItems fuel r).map fun q => (p.1 :: q.1, q.2)
        else if c = 93 then some ([p.1], r)
        else none

def parseFields : ℕ → JsString → Option (List (JsString × JsValue ν) × JsString)
  | 0, _ => none
  | fuel + 1, s =>
    match skipSpace s with
    | [] => none
    | c :: r =>
      if c = 34 then
        (readString r).bind fun key =>
          match skipSpace key.2 with
          | [] => none
          | d :: r' =>
            if d = 58 then
              (parseValue fuel r').bind fun p =>
                match skipSpace p.2 with
                | [] => none
                | e :: r'' =>
                  if e = 44 then
                    (parseFields fuel r'').map fun q => (putFirst key.1 p.1 q.1, q.2)
                  else if e = 125 then some ([(key.1, p.1)], r'')
                  else none
            else none
      else none

end

/-- `JSON.parse`; `none` stands for the exception. -/
def parse (s : JsString) : Option (JsValue ν) :=
  match parseValue (s.length + 1) s with
  | some (v, r) => if skipSpace r = [] then some v else none
  | none => none

/-! ### Reading back what was rendered -/

/-- What may follow a value: nothing, or a separator. -/
def Delimited : JsString → Prop
  | [] => True
  | c :: _ => c = 44 ∨ c = 93 ∨ c = 125

theorem isNumberChar_bounds {c : UInt16} (h : isNumberChar c = true) :
    43 ≤ c.toNat ∧ c.toNat ≤ 101 ∧ c.toNat ≠ 44 ∧ c.toNat ≠ 91 ∧ c.toNat ≠ 93 := by
  simp only [isNumberChar, isDigit, Bool.or_eq_true, Bool.and_eq_true, decide_eq_true_eq,
    beq_iff_eq, UInt16.le_iff_toNat_le] at h
  rcases h with ((((⟨h, h'⟩ | rfl) | rfl) | rfl) | rfl) | rfl
  · simp at h h'; omega
  all_goals decide

theorem isJsonSpace_of_bounds {c : UInt16} (h : 33 ≤ c.toNat) : isJsonSpace c = false := by
  simp only [isJsonSpace, Bool.or_eq_false_iff, beq_eq_false_iff_ne]
  refine ⟨⟨⟨?_, ?_⟩, ?_⟩, ?_⟩ <;> rintro rfl <;> simp at h

theorem skipSpace_cons {c : UInt16} (r : JsString) (h : isJsonSpace c = false) :
    skipSpace (c :: r) = c :: r := by
  simp [skipSpace, h]

theorem not_isNumberChar_of_delimited {rest : JsString} (h : Delimited rest) :
    rest.takeWhile isNumberChar = [] ∧ rest.dropWhile isNumberChar = rest := by
  cases rest with
  | nil => simp
  | cons c r =>
    rcases h with rfl | rfl | rfl <;> exact ⟨rfl, rfl⟩

theorem readNumber_toText (x : ν) {rest : JsString} (h : Delimited rest) :
    readNumber (JsNumber.toText x ++ rest) = some (.num x, rest) := by
  have hx := JsNumber.isNumberToken_toText x
  have hall := List.all_eq_true.mp (all_of_isNumberToken hx)
  obtain ⟨htake, hdrop⟩ := not_isNumberChar_of_delimited h
  have ht : (JsNumber.toText x ++ rest).takeWhile isNumberChar = JsNumber.toText x := by
    rw [List.takeWhile_append_of_pos hall, htake, List.append_nil]
  have hd : (JsNumber.toText x ++ rest).dropWhile isNumberChar = rest := by
    rw [List.dropWhile_append_of_pos hall, hdrop]
  simp only [readNumber, ht, hd, hx, JsNumber.ofText_toText, if_true]

/-- A rendered value starts with a character that opens a value. -/
theorem render_head {v : JsValue ν} (hv : v ≠ .undef) :
    ∃ c t, render v = some (c :: t) ∧ isJsonSpace c = false ∧ c ≠ 93 ∧ c ≠ 125 := by
  cases v with
  | undef => exact absurd rfl hv
  | null => exact ⟨_, _, rfl, by decide, by decide, by decide⟩
  | bool b => cases b <;> exact ⟨_, _, rfl, by decide, by decide, by decide⟩
  | num x =>
    have hx := JsNumber.isNumberToken_toText x
    rcases ht : JsNumber.toText x with _ | ⟨c, t⟩
    · exact absurd ht (ne_nil_of_isNumberToken hx)
    · have hc := List.all_eq_true.mp (all_of_isNumberToken hx) c (by simp [ht])
      have hb := isNumberChar_bounds hc
      refine ⟨c, t, by simp [render, ht], isJsonSpace_of_bounds (by omega), ?_, ?_⟩ <;>
        rintro rfl <;> simp at hb
  | str s => exact ⟨_, _, rfl, by decide, by decide, by decide⟩
  | arr items => exact ⟨_, _, rfl, by decide, by decide, by decide⟩
  | obj fields => exact ⟨_, _, rfl, by decide, by decide, by decide⟩

/-- An array whose only item is a hole. `join` gives it the text of the empty array. -/
def isLone : List (JsValue ν) → Bool
  | [.undef] => true
  | _ => false

mutual

/-- Some array in the value has a hole as its only item. -/
def hasLone : JsValue ν → Bool
  | .arr items => isLone items || hasLoneItems items
  | .obj fields => hasLoneFields fields
  | _ => false

def hasLoneItems : List (JsValue ν) → Bool
  | [] => false
  | v :: vs => hasLone v || hasLoneItems vs

def hasLoneFields : List (JsString × JsValue ν) → Bool
  | [] => false
  | (_, v) :: fs => hasLone v || hasLoneFields fs

end

omit [JsNumber ν] in
theorem hasLoneItems_eq_false {items : List (JsValue ν)} :
    hasLoneItems items = false ↔ ∀ v ∈ items, hasLone v = false := by
  induction items with
  | nil => simp [hasLoneItems]
  | cons v vs ih => simp [hasLoneItems, ih]

omit [JsNumber ν] in
theorem hasLoneFields_eq_false {fields : List (JsString × JsValue ν)} :
    hasLoneFields fields = false ↔ ∀ kv ∈ fields, hasLone kv.2 = false := by
  induction fields with
  | nil => simp [hasLoneFields]
  | cons kv fs ih => simp [hasLoneFields, ih]

/-- The items of an array that is neither empty nor lone do not start with the
closing bracket. -/
theorem renderItems_head {items : List (JsValue ν)} (hne : items ≠ [])
    (hl : isLone items = false) (rest : JsString) :
    ∃ c r, List.intercalate [44] (renderItems items) ++ 93 :: rest = c :: r ∧
      isJsonSpace c = false ∧ c ≠ 93 := by
  match items, hne, hl with
  | [v], _, hl =>
    have hv : v ≠ .undef := by rintro rfl; simp [isLone] at hl
    obtain ⟨c, t, ht, hs, h93, -⟩ := render_head hv
    exact ⟨c, t ++ 93 :: rest, by simp [renderItems, ht], hs, h93⟩
  | v :: w :: vs, _, _ =>
    by_cases hv : v = .undef
    · subst hv
      exact ⟨44, _, by simp [renderItems, render, List.intercalate_cons_cons]; rfl, by decide,
        by decide⟩
    · obtain ⟨c, t, ht, hs, h93, -⟩ := render_head hv
      exact ⟨c, _, by simp [renderItems, ht, List.intercalate_cons_cons]; rfl, hs, h93⟩

mutual

/-- Enough fuel to read a rendered value back. -/
def size : JsValue ν → ℕ
  | .undef => 0
  | .arr items => 1 + sizeItems items
  | .obj fields => 1 + sizeFields fields
  | _ => 1

def sizeItems : List (JsValue ν) → ℕ
  | [] => 0
  | v :: vs => 1 + size v + sizeItems vs

def sizeFields : List (JsString × JsValue ν) → ℕ
  | [] => 0
  | (_, v) :: fs => 1 + size v + sizeFields fs

end

/-- Reading the rendering of `v` back succeeds exactly when `v` has no hole. -/
def ReadsBack (v : JsValue ν) : Prop :=
  ∀ fuel t rest, size v ≤ fuel → render v = some t → Delimited rest →
    parseValue fuel (t ++ rest) = if v.isJson then some (v, rest) else none

theorem parseValue_separator (fuel : ℕ) {c : UInt16} (r : JsString)
    (h : c = 44 ∨ c = 93) : parseValue (ν := ν) fuel (c :: r) = none := by
  cases fuel with
  | zero => rfl
  | succ fuel =>
    rcases h with rfl | rfl <;>
    · rw [parseValue, skipSpace_cons _ (by decide)]
      rfl

theorem parseItems_render {items : List (JsValue ν)} (hne : items ≠ [])
    (ih : ∀ v ∈ items, v ≠ .undef → ReadsBack v) (fuel : ℕ) (rest : JsString)
    (hf : sizeItems items ≤ fuel) :
    parseItems fuel (List.intercalate [44] (renderItems items) ++ 93 :: rest) =
      if JsValue.isJsonItems items then some (items, rest) else none := by
  induction items generalizing fuel with
  | nil => exact absurd rfl hne
  | cons v vs ihl =>
    obtain ⟨fuel, rfl⟩ : ∃ n, fuel = n + 1 := ⟨fuel - 1, by simp only [sizeItems] at hf; omega⟩
    simp only [sizeItems] at hf
    by_cases hv : v = .undef
    · -- a hole writes nothing, so the reader meets the separator
      subst hv
      cases vs with
      | nil =>
        simp [renderItems, render, parseItems, parseValue_separator, JsValue.isJsonItems,
          JsValue.isJson]
      | cons w ws =>
        simp [renderItems, render, parseItems, parseValue_separator, JsValue.isJsonItems,
          JsValue.isJson, List.intercalate_cons_cons]
    · obtain ⟨c, t, ht, -, -, -⟩ := render_head hv
      have hread := ih v (by simp) hv fuel (c :: t)
      cases vs with
      | nil =>
        have h := hread (93 :: rest) (by omega) ht (by simp [Delimited])
        simp only [renderItems, ht, Option.getD_some, List.intercalate_singleton, parseItems, h,
          JsValue.isJsonItems, Bool.and_true]
        split_ifs <;> rfl
      | cons w ws =>
        have h := hread (44 :: (List.intercalate [44] (renderItems (w :: ws)) ++ 93 :: rest))
          (by omega) ht (by simp [Delimited])
        have hrec := ihl (by simp) (fun u hu => ih u (by simp [hu])) fuel (by omega)
        have htext : List.intercalate [44] (renderItems (v :: w :: ws)) ++ 93 :: rest =
            (c :: t) ++ 44 :: (List.intercalate [44] (renderItems (w :: ws)) ++ 93 :: rest) := by
          simp [renderItems, ht, List.intercalate_cons_cons]
        rw [htext, parseItems, h, JsValue.isJsonItems]
        by_cases hj : v.isJson = true
        · rw [if_pos hj, Option.bind_some, skipSpace_cons _ (by decide)]
          simp only [if_true, hrec, hj, Bool.true_and]
          split_ifs <;> rfl
        · simp [hj]

omit [JsNumber ν] in
theorem putFirst_of_not_mem {k : JsString} (v : JsValue ν) {fs : List (JsString × JsValue ν)}
    (h : k ∉ fs.map Prod.fst) : putFirst k v fs = (k, v) :: fs := by
  have hfilter : fs.filter (fun kv => kv.1 != k) = fs := by
    rw [List.filter_eq_self]
    intro kv hkv
    have : kv.1 ≠ k := fun he => h (he ▸ List.mem_map_of_mem hkv)
    simpa using this
  rw [putFirst, JsValue.field?_eq_none.mpr h, hfilter]
  rfl

theorem parseFields_render {fields : List (JsString × JsValue ν)} (hne : fields ≠ [])
    (hn : (fields.map Prod.fst).Nodup) (ih : ∀ kv ∈ fields, kv.2 ≠ .undef → ReadsBack kv.2)
    (fuel : ℕ) (rest : JsString) (hf : sizeFields fields ≤ fuel) :
    parseFields fuel (List.intercalate [44] (renderFields fields) ++ 125 :: rest) =
      if JsValue.isJsonFields fields then some (fields, rest) else none := by
  induction fields generalizing fuel with
  | nil => exact absurd rfl hne
  | cons kv fs ihl =>
    obtain ⟨k, v⟩ := kv
    obtain ⟨fuel, rfl⟩ : ∃ n, fuel = n + 1 := ⟨fuel - 1, by simp only [sizeFields] at hf; omega⟩
    simp only [sizeFields] at hf
    simp only [List.map_cons, List.nodup_cons] at hn
    -- the key and its colon, whatever follows
    have hkey : ∀ body : JsString, parseFields (fuel + 1) (quote k ++ 58 :: body) =
        (parseValue (ν := ν) fuel body).bind fun p =>
          match skipSpace p.2 with
          | [] => none
          | e :: r'' =>
            if e = 44 then
              (parseFields fuel r'').map fun q => (putFirst k p.1 q.1, q.2)
            else if e = 125 then some ([(k, p.1)], r'')
            else none := by
      intro body
      have hq : quote k ++ 58 :: body = 34 :: (escape k ++ 34 :: (58 :: body)) := by
        simp [quote]
      rw [hq, parseFields, skipSpace_cons _ (by decide)]
      simp only [if_true, readString_escape, Option.bind_some]
      rw [skipSpace_cons _ (by decide)]
      simp only [if_true]
    by_cases hv : v = .undef
    · -- the template text `undefined` opens no value
      subst hv
      have hbad : ∀ r : JsString, parseValue (ν := ν) fuel (js "undefined" ++ r) = none := by
        intro r
        cases fuel with
        | zero => rfl
        | succ n =>
          rw [show js "undefined" ++ r = 117 :: (js "ndefined" ++ r) from rfl, parseValue,
            skipSpace_cons _ (by decide)]
          rfl
      cases fs with
      | nil =>
        have htext : List.intercalate [44] (renderFields [(k, (.undef : JsValue ν))]) ++
            125 :: rest = quote k ++ 58 :: (js "undefined" ++ 125 :: rest) := by
          simp [renderFields, render]
        rw [htext, hkey, hbad]
        simp [JsValue.isJsonFields, JsValue.isJson]
      | cons kv' fs' =>
        have htext : List.intercalate [44] (renderFields ((k, (.undef : JsValue ν)) :: kv' :: fs')) ++
            125 :: rest = quote k ++ 58 :: (js "undefined" ++
              44 :: (List.intercalate [44] (renderFields (kv' :: fs')) ++ 125 :: rest)) := by
          obtain ⟨k', v'⟩ := kv'
          simp [renderFields, render, List.intercalate_cons_cons]
        rw [htext, hkey, hbad]
        simp [JsValue.isJsonFields, JsValue.isJson]
    · obtain ⟨c, t, ht, -, -, -⟩ := render_head hv
      have hread := ih (k, v) (by simp) hv fuel (c :: t)
      cases fs with
      | nil =>
        have h := hread (125 :: rest) (by simp only; omega) ht (by simp [Delimited])
        have htext : List.intercalate [44] (renderFields [(k, v)]) ++ 125 :: rest =
            quote k ++ 58 :: (c :: t ++ 125 :: rest) := by
          simp [renderFields, ht]
        rw [htext, hkey, h, JsValue.isJsonFields, JsValue.isJsonFields, Bool.and_true]
        split_ifs <;> rfl
      | cons kv' fs' =>
        have h := hread (44 :: (List.intercalate [44] (renderFields (kv' :: fs')) ++ 125 :: rest))
          (by simp only; omega) ht (by simp [Delimited])
        have hrec := ihl (by simp) hn.2 (fun u hu => ih u (by simp [hu])) fuel (by omega)
        have htext : List.intercalate [44] (renderFields ((k, v) :: kv' :: fs')) ++ 125 :: rest =
            quote k ++ 58 ::
              (c :: t ++ 44 :: (List.intercalate [44] (renderFields (kv' :: fs')) ++ 125 :: rest)) := by
          obtain ⟨k', v'⟩ := kv'
          simp [renderFields, ht, List.intercalate_cons_cons]
        rw [htext, hkey, h, JsValue.isJsonFields]
        by_cases hj : v.isJson = true
        · rw [if_pos hj, Option.bind_some, skipSpace_cons _ (by decide)]
          simp only [if_true, hrec, hj, Bool.true_and]
          split_ifs with hjf
          · simp [putFirst_of_not_mem v hn.1]
          · rfl
        · simp [hj]

/-- **Reading back.** A rendered value is read back when it has no hole, and
rejected when it has one. -/
theorem parseValue_render (v : JsValue ν) (hv : v ≠ .undef) (hd : v.Distinct)
    (hl : hasLone v = false) : ReadsBack v := by
  induction v using JsValue.induct with
  | undef => exact absurd rfl hv
  | null =>
    intro fuel t rest hf ht _
    obtain ⟨n, rfl⟩ : ∃ n, fuel = n + 1 := ⟨fuel - 1, by simp only [size] at hf; omega⟩
    cases ht
    rfl
  | bool b =>
    intro fuel t rest hf ht _
    obtain ⟨n, rfl⟩ : ∃ n, fuel = n + 1 := ⟨fuel - 1, by simp only [size] at hf; omega⟩
    cases b <;> cases ht <;> rfl
  | num x =>
    intro fuel t rest hf ht hrest
    obtain ⟨n, rfl⟩ : ∃ n, fuel = n + 1 := ⟨fuel - 1, by simp only [size] at hf; omega⟩
    have hx := JsNumber.isNumberToken_toText x
    obtain rfl : JsNumber.toText x = t := Option.some.inj ht
    rcases hc : JsNumber.toText x with _ | ⟨c, t⟩
    · exact absurd hc (ne_nil_of_isNumberToken hx)
    · have hnum := List.all_eq_true.mp (all_of_isNumberToken hx) c (by simp [hc])
      obtain ⟨h₁, h₂, -, h₃, -⟩ := isNumberChar_bounds hnum
      have hread := readNumber_toText x hrest
      rw [hc, List.cons_append] at hread
      rw [List.cons_append, parseValue, skipSpace_cons _ (isJsonSpace_of_bounds (by omega))]
      have hne : c ≠ 34 ∧ c ≠ 91 ∧ c ≠ 123 := by
        refine ⟨?_, ?_, ?_⟩ <;> rintro rfl <;> simp at h₁ h₂ h₃
      simp [hne, hnum, hread, JsValue.isJson]
  | str s =>
    intro fuel t rest hf ht _
    obtain ⟨n, rfl⟩ : ∃ n, fuel = n + 1 := ⟨fuel - 1, by simp only [size] at hf; omega⟩
    obtain rfl : quote s = t := Option.some.inj ht
    have hq : quote s ++ rest = 34 :: (escape s ++ 34 :: rest) := by simp [quote]
    rw [hq, parseValue, skipSpace_cons _ (by decide)]
    simp [readString_escape, JsValue.isJson]
  | arr items ih =>
    intro fuel t rest hf ht _
    obtain ⟨n, rfl⟩ : ∃ n, fuel = n + 1 := ⟨fuel - 1, by simp only [size] at hf; omega⟩
    simp only [size] at hf
    simp only [hasLone, Bool.or_eq_false_iff] at hl
    obtain rfl := Option.some.inj ht
    rw [List.cons_append, parseValue, skipSpace_cons _ (by decide)]
    simp only [show ¬ (91 : UInt16) = 34 by decide, if_false, if_true, List.append_assoc,
      List.singleton_append, JsValue.isJson]
    rcases hi : items with _ | ⟨v, vs⟩
    · rfl
    · rw [← hi]
      have hitems := parseItems_render (show items ≠ [] by simp [hi])
        (fun w hw hwu => ih w hw hwu (JsValue.distinct_arr.mp hd w hw)
          (hasLoneItems_eq_false.mp hl.2 w hw)) n rest (by omega)
      obtain ⟨c, r, hcr, hs, h93⟩ := renderItems_head (by simp [hi]) hl.1 rest
      rw [hcr] at hitems ⊢
      rw [skipSpace_cons _ hs]
      simp only [h93, if_false, hitems]
      by_cases hj : JsValue.isJsonItems items = true <;> simp [hj]
  | obj fields ih =>
    intro fuel t rest hf ht _
    obtain ⟨n, rfl⟩ : ∃ n, fuel = n + 1 := ⟨fuel - 1, by simp only [size] at hf; omega⟩
    simp only [size] at hf
    simp only [hasLone] at hl
    obtain rfl := Option.some.inj ht
    rw [JsValue.distinct_obj] at hd
    rw [List.cons_append, parseValue, skipSpace_cons _ (by decide)]
    simp only [show ¬ (123 : UInt16) = 34 by decide, show ¬ (123 : UInt16) = 91 by decide,
      if_false, if_true, List.append_assoc, List.singleton_append, JsValue.isJson]
    rcases hi : fields with _ | ⟨⟨k, v⟩, fs⟩
    · rfl
    · rw [← hi]
      have hfields := parseFields_render (show fields ≠ [] by simp [hi]) hd.1
        (fun w hw hwu => ih w hw hwu (hd.2 w hw)
          (hasLoneFields_eq_false.mp hl w hw)) n rest (by omega)
      obtain ⟨r, hcr⟩ : ∃ r, List.intercalate [44] (renderFields fields) ++ 125 :: rest =
          34 :: r := by
        rw [hi]
        cases fs with
        | nil => exact ⟨_, by simp [renderFields, quote]; rfl⟩
        | cons kv fs => exact ⟨_, by simp [renderFields, quote, List.intercalate_cons_cons]; rfl⟩
      rw [hcr] at hfields ⊢
      rw [skipSpace_cons _ (by decide)]
      simp only [show ¬ (34 : UInt16) = 125 by decide, if_false, hfields]
      by_cases hj : JsValue.isJsonFields fields = true <;> simp [hj]

/-! ### Whole texts -/

theorem sizeItems_le (items : List (JsValue ν))
    (ih : ∀ v ∈ items, size v ≤ ((render v).getD []).length) :
    sizeItems items ≤ (List.intercalate [44] (renderItems items)).length + 1 := by
  induction items with
  | nil => simp [sizeItems]
  | cons v vs ihl =>
    have hv := ih v (by simp)
    have hvs := ihl fun w hw => ih w (by simp [hw])
    cases vs with
    | nil =>
      simp only [sizeItems, renderItems, List.intercalate_singleton]
      omega
    | cons w ws =>
      simp only [sizeItems, renderItems, List.intercalate_cons_cons, List.length_append,
        List.length_singleton] at hvs ⊢
      omega

theorem sizeFields_le (fields : List (JsString × JsValue ν))
    (ih : ∀ kv ∈ fields, size kv.2 ≤ ((render kv.2).getD []).length) :
    sizeFields fields ≤ (List.intercalate [44] (renderFields fields)).length := by
  induction fields with
  | nil => simp [sizeFields]
  | cons kv fs ihl =>
    obtain ⟨k, v⟩ := kv
    have hv := ih (k, v) (by simp)
    have hfs := ihl fun w hw => ih w (by simp [hw])
    have hmember : 1 + size v ≤ (quote k ++ 58 :: (render v).getD (js "undefined")).length := by
      cases hr : render v <;> simp [quote, hr] at hv ⊢ <;> omega
    cases fs with
    | nil =>
      simp only [sizeFields, renderFields, List.intercalate_singleton] at hmember ⊢
      omega
    | cons kv' fs' =>
      obtain ⟨k', v'⟩ := kv'
      simp only [sizeFields, renderFields, List.intercalate_cons_cons, List.length_append,
        List.length_singleton] at hfs hmember ⊢
      omega

/-- The fuel `parse` starts with is enough for a rendered text. -/
theorem size_le (v : JsValue ν) : size v ≤ ((render v).getD []).length := by
  induction v using JsValue.induct with
  | undef => simp [size]
  | null => simp [size, render, js]
  | bool b => cases b <;> simp [size, render, js]
  | num x =>
    have := List.length_pos_of_ne_nil (ne_nil_of_isNumberToken (JsNumber.isNumberToken_toText x))
    simp only [size, render, Option.getD_some]
    omega
  | str s => simp [size, render, quote]
  | arr items ih =>
    have := sizeItems_le items ih
    simp only [size, render, Option.getD_some, List.length_cons, List.length_append,
      List.length_nil]
    omega
  | obj fields ih =>
    have := sizeFields_le fields ih
    simp only [size, render, Option.getD_some, List.length_cons, List.length_append,
      List.length_nil]
    omega

/-- `JSON.parse` of a rendered value. -/
theorem parse_render {v : JsValue ν} {t : JsString} (ht : render v = some t) (hd : v.Distinct)
    (hl : hasLone v = false) : parse t = if v.isJson then some v else none := by
  have hv : v ≠ .undef := by rintro rfl; cases ht
  have hsize : size v ≤ t.length + 1 := by
    have := size_le v
    rw [ht, Option.getD_some] at this
    omega
  have h := parseValue_render v hv hd hl (t.length + 1) t [] hsize ht trivial
  rw [List.append_nil] at h
  rw [parse, h]
  split_ifs <;> rfl

omit [JsNumber ν] in
/-- A value without holes has no lone hole. -/
theorem hasLone_of_isJson (v : JsValue ν) (h : v.isJson = true) : hasLone v = false := by
  induction v using JsValue.induct with
  | arr items ih =>
    have hi := JsValue.isJson_arr.mp h
    have hlone : isLone items = false := by
      match items, hi with
      | [], _ => rfl
      | [v], hi =>
        have := hi v (by simp)
        cases v <;> simp_all [isLone, JsValue.isJson]
      | _ :: _ :: _, _ => simp [isLone]
    simp only [hasLone, hlone, Bool.false_or]
    exact hasLoneItems_eq_false.mpr fun v hv => ih v hv (hi v hv)
  | obj fields ih =>
    have hf := JsValue.isJson_obj.mp h
    exact hasLoneFields_eq_false.mpr fun kv hkv => ih kv hkv (hf kv hkv)
  | _ => rfl

/-- Rendering tells a value without holes from every other value. -/
theorem eq_of_render_eq {v w : JsValue ν} (hv : v.isJson = true) (hvd : v.Distinct)
    (hwd : w.Distinct) (hwl : hasLone w = false) (h : render w = render v) : w = v := by
  have hne : v ≠ .undef := by rintro rfl; cases hv
  obtain ⟨c, t, ht, -⟩ := render_head hne
  have hread := parse_render ht hvd (hasLone_of_isJson v hv)
  rw [parse_render (h.trans ht) hwd hwl, if_pos hv] at hread
  split_ifs at hread
  exact Option.some.inj hread

theorem stringify_isSome {v : JsValue ν} (hv : v ≠ .undef) : (stringify v).isSome := by
  obtain ⟨c, t, ht, -⟩ := render_head (v := v.prune) (mt JsValue.prune_eq_undef.mp hv)
  simp [stringify, ht]

/-- `JSON.parse` after `JSON.stringify` gives what the latter kept. -/
theorem parse_stringify {v : JsValue ν} {t : JsString} (ht : stringify v = some t)
    (hd : v.Distinct) : parse t = some v.prune := by
  have hv : v ≠ .undef := by rintro rfl; cases ht
  have hj := JsValue.isJson_prune v hv
  rw [parse_render ht (JsValue.distinct_prune v hd) (hasLone_of_isJson _ hj), if_pos hj]

/-! ### The characters of a rendered text -/

/-- The printable ASCII range, which holds every character a rendering adds. -/
def isPrintable (c : UInt16) : Bool := 32 ≤ c && c ≤ 126

mutual

/-- Every string and key in the value satisfies `p`. -/
def AllTexts (p : JsString → Prop) : JsValue ν → Prop
  | .str s => p s
  | .arr items => AllTextsItems p items
  | .obj fields => AllTextsFields p fields
  | _ => True

def AllTextsItems (p : JsString → Prop) : List (JsValue ν) → Prop
  | [] => True
  | v :: vs => AllTexts p v ∧ AllTextsItems p vs

def AllTextsFields (p : JsString → Prop) : List (JsString × JsValue ν) → Prop
  | [] => True
  | (k, v) :: fs => p k ∧ AllTexts p v ∧ AllTextsFields p fs

end

omit [JsNumber ν] in
theorem allTextsItems_iff {p : JsString → Prop} {items : List (JsValue ν)} :
    AllTextsItems p items ↔ ∀ v ∈ items, AllTexts p v := by
  induction items with
  | nil => simp [AllTextsItems]
  | cons v vs ih => simp [AllTextsItems, ih]

omit [JsNumber ν] in
theorem allTextsFields_iff {p : JsString → Prop} {fields : List (JsString × JsValue ν)} :
    AllTextsFields p fields ↔ ∀ kv ∈ fields, p kv.1 ∧ AllTexts p kv.2 := by
  induction fields with
  | nil => simp [AllTextsFields]
  | cons kv fs ih => simp [AllTextsFields, ih, and_assoc]

omit [JsNumber ν] in
theorem allTexts_arr {p : JsString → Prop} {items : List (JsValue ν)} :
    AllTexts p (.arr items) ↔ ∀ v ∈ items, AllTexts p v := by
  rw [AllTexts, allTextsItems_iff]

omit [JsNumber ν] in
theorem allTexts_obj {p : JsString → Prop} {fields : List (JsString × JsValue ν)} :
    AllTexts p (.obj fields) ↔ ∀ kv ∈ fields, p kv.1 ∧ AllTexts p kv.2 := by
  rw [AllTexts, allTextsFields_iff]

omit [JsNumber ν] in
theorem allTexts_prune {p : JsString → Prop} (v : JsValue ν) (h : AllTexts p v) :
    AllTexts p v.prune := by
  induction v using JsValue.induct with
  | arr items ih =>
    rw [JsValue.prune, allTexts_arr, JsValue.pruneItems_eq_map, List.forall_mem_map]
    intro v hv
    have hp := allTexts_arr.mp h v hv
    cases v
    case undef => trivial
    all_goals exact ih _ hv hp
  | obj fields ih =>
    rw [JsValue.prune, allTexts_obj]
    intro kv hkv
    obtain ⟨v, hmem, -, heq⟩ := JsValue.mem_pruneFields hkv
    have hp := allTexts_obj.mp h _ hmem
    exact ⟨hp.1, heq ▸ ih _ hmem hp.2⟩
  | _ => exact h

theorem isPrintable_hexDigit : ∀ n < 16, isPrintable (hexDigit n) = true := by decide

theorem mem_unicodeEscape {c d : UInt16} (h : d ∈ unicodeEscape c) : isPrintable d = true := by
  have hc := c.toNat_lt
  simp only [unicodeEscape, List.mem_cons, List.not_mem_nil, or_false] at h
  rcases h with rfl | rfl | rfl | rfl | rfl | rfl
  · decide
  · decide
  all_goals exact isPrintable_hexDigit _ (by omega)

theorem mem_escapeUnit {c d : UInt16} (h : d ∈ escapeUnit c) :
    isPrintable d = true ∨ d = c ∧ ¬ d < 32 := by
  have hpair : ∀ {e : UInt16}, isPrintable e = true → d ∈ [92, e] → isPrintable d = true := by
    intro e he h
    simp only [List.mem_cons, List.not_mem_nil, or_false] at h
    rcases h with rfl | rfl
    · decide
    · exact he
  unfold escapeUnit at h
  split_ifs at h with h₁ h₂ h₃ h₄ h₅ h₆ h₇ hc
  · exact .inl (hpair (by decide) h)
  · exact .inl (hpair (by decide) h)
  · exact .inl (hpair (by decide) h)
  · exact .inl (hpair (by decide) h)
  · exact .inl (hpair (by decide) h)
  · exact .inl (hpair (by decide) h)
  · exact .inl (hpair (by decide) h)
  · exact .inl (mem_unicodeEscape h)
  · rw [List.mem_singleton.mp h]
    exact .inr ⟨rfl, hc⟩

/-- Escaping adds printable characters only and leaves no control character. -/
theorem mem_escape {s : JsString} {d : UInt16} (h : d ∈ escape s) :
    isPrintable d = true ∨ d ∈ s ∧ ¬ d < 32 := by
  fun_induction escape s with
  | case1 => cases h
  | case2 c hc => exact .inl (mem_unicodeEscape h)
  | case3 c hc d' rest' hd ih =>
    simp only [List.mem_cons] at h ⊢
    rcases h with rfl | rfl | h
    · exact .inr ⟨.inl rfl, (raw_of_surrogate (.inl hc)).2.2⟩
    · exact .inr ⟨.inr (.inl rfl), (raw_of_surrogate (.inr hd)).2.2⟩
    · exact (ih h).imp_right fun ⟨h, h'⟩ => ⟨.inr (.inr h), h'⟩
  | case4 c hc d' rest' hd ih =>
    rcases List.mem_append.mp h with h | h
    · exact .inl (mem_unicodeEscape h)
    · exact (ih h).imp_right fun ⟨h, h'⟩ => ⟨List.mem_cons_of_mem _ h, h'⟩
  | case5 c rest hh hl ih =>
    rcases List.mem_append.mp h with h | h
    · exact .inl (mem_unicodeEscape h)
    · exact (ih h).imp_right fun ⟨h, h'⟩ => ⟨List.mem_cons_of_mem _ h, h'⟩
  | case6 c rest hh hl ih =>
    rcases List.mem_append.mp h with h | h
    · exact (mem_escapeUnit h).imp_right fun ⟨h, h'⟩ => ⟨h ▸ List.mem_cons_self, h'⟩
    · exact (ih h).imp_right fun ⟨h, h'⟩ => ⟨List.mem_cons_of_mem _ h, h'⟩

theorem isPrintable_of_isNumberChar {c : UInt16} (h : isNumberChar c = true) :
    isPrintable c = true := by
  have hb := isNumberChar_bounds h
  simp only [isPrintable, Bool.and_eq_true, decide_eq_true_eq, UInt16.le_iff_toNat_le]
  exact ⟨by simp; omega, by simp; omega⟩

/-- The units a rendering may contain, given what the texts of the value may contain. -/
def RenderUnit (p : UInt16 → Prop) (d : UInt16) : Prop :=
  isPrintable d = true ∨ p d ∧ ¬ d < 32

theorem mem_quote {p : UInt16 → Prop} {s : JsString} (hs : ∀ c ∈ s, p c) {d : UInt16}
    (h : d ∈ quote s) : RenderUnit p d := by
  simp only [quote, List.mem_cons, List.mem_append, List.not_mem_nil, or_false] at h
  rcases h with rfl | h | rfl
  · exact .inl (by decide)
  · exact (mem_escape h).imp_right fun ⟨h, h'⟩ => ⟨hs d h, h'⟩
  · exact .inl (by decide)

theorem mem_intercalate {p : UInt16 → Prop} {parts : List JsString}
    (h : ∀ part ∈ parts, ∀ d ∈ part, RenderUnit p d) {d : UInt16}
    (hd : d ∈ List.intercalate [44] parts) : RenderUnit p d := by
  induction parts with
  | nil => cases hd
  | cons a parts ih =>
    cases parts with
    | nil => exact h a (by simp) d (by simpa using hd)
    | cons b parts =>
      rw [List.intercalate_cons_cons, List.append_assoc] at hd
      rcases List.mem_append.mp hd with hd | hd
      · exact h a (by simp) d hd
      · rcases List.mem_append.mp hd with hd | hd
        · rw [List.mem_singleton.mp hd]
          exact .inl (by decide)
        · exact ih (fun part hpart => h part (by simp [hpart])) hd

theorem mem_renderItems {p : UInt16 → Prop} {items : List (JsValue ν)}
    (ih : ∀ v ∈ items, ∀ d ∈ (render v).getD [], RenderUnit p d) :
    ∀ part ∈ renderItems items, ∀ d ∈ part, RenderUnit p d := by
  induction items with
  | nil => simp [renderItems]
  | cons v vs ihl =>
    rw [renderItems, List.forall_mem_cons]
    exact ⟨ih v (by simp), ihl fun w hw => ih w (by simp [hw])⟩

theorem mem_renderFields {p : UInt16 → Prop} {fields : List (JsString × JsValue ν)}
    (hk : ∀ kv ∈ fields, ∀ c ∈ kv.1, p c)
    (ih : ∀ kv ∈ fields, ∀ d ∈ (render kv.2).getD [], RenderUnit p d) :
    ∀ part ∈ renderFields fields, ∀ d ∈ part, RenderUnit p d := by
  induction fields with
  | nil => simp [renderFields]
  | cons kv fs ihl =>
    obtain ⟨k, v⟩ := kv
    rw [renderFields, List.forall_mem_cons]
    refine ⟨fun d hd => ?_, ihl (fun w hw => hk w (by simp [hw])) fun w hw => ih w (by simp [hw])⟩
    rcases List.mem_append.mp hd with hd | hd
    · exact mem_quote (hk (k, v) (by simp)) hd
    · rcases List.mem_cons.mp hd with rfl | hd
      · exact .inl (by decide)
      · have hv := ih (k, v) (by simp) d
        cases hr : render v with
        | none =>
          rw [hr] at hd
          exact .inl ((show ∀ c ∈ js "undefined", isPrintable c = true by decide) d hd)
        | some t => exact hv (by simpa [hr] using hd)

/-- A rendering adds printable characters only, and has no control character. -/
theorem mem_render {p : UInt16 → Prop} (v : JsValue ν) (hv : AllTexts (∀ c ∈ ·, p c) v) :
    ∀ d ∈ (render v).getD [], RenderUnit p d := by
  induction v using JsValue.induct with
  | undef => simp [render]
  | null => exact fun d hd => .inl ((show ∀ c ∈ js "null", isPrintable c = true by decide) d hd)
  | bool b =>
    cases b
    · exact fun d hd => .inl ((show ∀ c ∈ js "false", isPrintable c = true by decide) d hd)
    · exact fun d hd => .inl ((show ∀ c ∈ js "true", isPrintable c = true by decide) d hd)
  | num x =>
    have h := List.all_eq_true.mp (all_of_isNumberToken (JsNumber.isNumberToken_toText x))
    exact fun d hd => .inl (isPrintable_of_isNumberChar (h d hd))
  | str s => exact fun d hd => mem_quote hv hd
  | arr items ih =>
    have hi := allTexts_arr.mp hv
    intro d hd
    simp only [render, Option.getD_some, List.mem_cons, List.mem_append, List.not_mem_nil,
      or_false] at hd
    rcases hd with rfl | hd | rfl
    · exact .inl (by decide)
    · exact mem_intercalate (mem_renderItems fun v hmem => ih v hmem (hi v hmem)) hd
    · exact .inl (by decide)
  | obj fields ih =>
    have hf := allTexts_obj.mp hv
    intro d hd
    simp only [render, Option.getD_some, List.mem_cons, List.mem_append, List.not_mem_nil,
      or_false] at hd
    rcases hd with rfl | hd | rfl
    · exact .inl (by decide)
    · exact mem_intercalate (mem_renderFields (fun kv hmem => (hf kv hmem).1)
        fun kv hmem => ih kv hmem (hf kv hmem).2) hd
    · exact .inl (by decide)

omit [JsNumber ν] in
theorem allTexts_of_forall {p : JsString → Prop} (hp : ∀ s, p s) (v : JsValue ν) :
    AllTexts p v := by
  induction v using JsValue.induct with
  | str s => exact hp s
  | arr items ih => exact allTexts_arr.mpr ih
  | obj fields ih => exact allTexts_obj.mpr fun kv hkv => ⟨hp kv.1, ih kv hkv⟩
  | _ => trivial

theorem mem_stringify {p : UInt16 → Prop} {v : JsValue ν} (hv : AllTexts (∀ c ∈ ·, p c) v) :
    ∀ d ∈ (stringify v).getD [], RenderUnit p d :=
  mem_render v.prune (allTexts_prune v hv)

/-- A JSON text holds no control character, in particular no line feed. -/
theorem not_control_stringify (v : JsValue ν) : ∀ d ∈ (stringify v).getD [], ¬ d < 32 := by
  intro d hd
  rcases mem_stringify (p := fun _ => True) (allTexts_of_forall (fun _ _ _ => trivial) v) d hd
    with h | h
  · simp only [isPrintable, Bool.and_eq_true, decide_eq_true_eq, UInt16.le_iff_toNat_le] at h
    rw [UInt16.lt_iff_toNat_lt]
    omega
  · exact h.2

/-! ### What the reader accepts -/

omit [JsNumber ν] in
theorem mem_putFirst {k : JsString} {v : JsValue ν} {fs : List (JsString × JsValue ν)}
    {kv : JsString × JsValue ν} (h : kv ∈ putFirst k v fs) :
    kv ∈ fs ∨ kv = (k, v) := by
  rcases List.mem_cons.mp h with h | h
  · cases hf : JsValue.field? k fs with
    | none => exact .inr (by simpa [hf] using h)
    | some w =>
      rw [hf, Option.getD_some] at h
      exact .inl (h ▸ JsValue.mem_of_field? hf)
  · exact .inl (List.mem_filter.mp h).1

omit [JsNumber ν] in
theorem nodup_putFirst (k : JsString) (v : JsValue ν) {fs : List (JsString × JsValue ν)}
    (h : (fs.map Prod.fst).Nodup) : ((putFirst k v fs).map Prod.fst).Nodup := by
  rw [putFirst, List.map_cons, List.nodup_cons]
  refine ⟨?_, h.sublist ((List.filter_sublist).map _)⟩
  simp only [List.mem_map, List.mem_filter, bne_iff_ne, ne_eq]
  rintro ⟨kv, ⟨-, hne⟩, rfl⟩
  exact hne rfl

/-- Without holes and without repeated keys. -/
def WellFormed (v : JsValue ν) : Prop := v.isJson = true ∧ v.Distinct

omit [JsNumber ν] in
theorem wellFormed_arr {items : List (JsValue ν)} (h : ∀ v ∈ items, WellFormed v) :
    WellFormed (.arr items) :=
  ⟨JsValue.isJson_arr.mpr fun v hv => (h v hv).1,
    JsValue.distinct_arr.mpr fun v hv => (h v hv).2⟩

omit [JsNumber ν] in
theorem wellFormed_obj {fields : List (JsString × JsValue ν)}
    (hn : (fields.map Prod.fst).Nodup) (h : ∀ kv ∈ fields, WellFormed kv.2) :
    WellFormed (.obj fields) :=
  ⟨JsValue.isJson_obj.mpr fun kv hkv => (h kv hkv).1,
    JsValue.distinct_obj.mpr ⟨hn, fun kv hkv => (h kv hkv).2⟩⟩

omit [JsNumber ν] in
theorem readLiteral_wellFormed {s r : JsString} {v : JsValue ν}
    (h : readLiteral s = some (v, r)) : WellFormed v := by
  unfold readLiteral at h
  split at h <;> simp_all <;> (obtain ⟨rfl, -⟩ := h; exact ⟨rfl, trivial⟩)

theorem readNumber_wellFormed {s r : JsString} {v : JsValue ν}
    (h : readNumber s = some (v, r)) : WellFormed v := by
  simp only [readNumber] at h
  split_ifs at h
  cases h
  exact ⟨rfl, trivial⟩

/-- Whatever the reader returns has no hole and no repeated key. -/
theorem parseValue_wellFormed (fuel : ℕ) :
    (∀ s (v : JsValue ν) r, parseValue fuel s = some (v, r) → WellFormed v) ∧
    (∀ s (items : List (JsValue ν)) r, parseItems fuel s = some (items, r) →
      ∀ v ∈ items, WellFormed v) ∧
    (∀ s (fields : List (JsString × JsValue ν)) r, parseFields fuel s = some (fields, r) →
      (fields.map Prod.fst).Nodup ∧ ∀ kv ∈ fields, WellFormed kv.2) := by
  induction fuel with
  | zero => refine ⟨?_, ?_, ?_⟩ <;> intro s _ r h <;> cases h
  | succ fuel ih =>
    obtain ⟨ihv, ihi, ihf⟩ := ih
    refine ⟨?_, ?_, ?_⟩
    · intro s v r h
      rw [parseValue] at h
      split at h
      · cases h
      · split_ifs at h
        · obtain ⟨p, -, hp⟩ := Option.map_eq_some_iff.mp h
          cases hp
          exact ⟨rfl, trivial⟩
        · split at h
          · cases h
          · split_ifs at h
            · cases h
              exact wellFormed_arr (List.forall_mem_nil _)
            · obtain ⟨p, hp, hv⟩ := Option.map_eq_some_iff.mp h
              cases hv
              exact wellFormed_arr (ihi _ _ _ hp)
        · split at h
          · cases h
          · split_ifs at h
            · cases h
              exact wellFormed_obj List.nodup_nil (List.forall_mem_nil _)
            · obtain ⟨p, hp, hv⟩ := Option.map_eq_some_iff.mp h
              cases hv
              exact wellFormed_obj (ihf _ _ _ hp).1 (ihf _ _ _ hp).2
        · exact readNumber_wellFormed h
        · exact readLiteral_wellFormed h
    · intro s items r h
      rw [parseItems] at h
      obtain ⟨p, hp, h⟩ := Option.bind_eq_some_iff.mp h
      split at h
      · cases h
      · split_ifs at h
        · obtain ⟨q, hq, heq⟩ := Option.map_eq_some_iff.mp h
          cases heq
          exact List.forall_mem_cons.mpr ⟨ihv _ _ _ hp, ihi _ _ _ hq⟩
        · cases h
          exact List.forall_mem_singleton.mpr (ihv _ _ _ hp)
    · intro s fields r h
      rw [parseFields] at h
      split at h
      · cases h
      · split_ifs at h
        obtain ⟨key, -, h⟩ := Option.bind_eq_some_iff.mp h
        split at h
        · cases h
        · split_ifs at h
          obtain ⟨p, hp, h⟩ := Option.bind_eq_some_iff.mp h
          split at h
          · cases h
          · split_ifs at h
            · obtain ⟨q, hq, heq⟩ := Option.map_eq_some_iff.mp h
              cases heq
              obtain ⟨hn, hmem⟩ := ihf _ _ _ hq
              refine ⟨nodup_putFirst _ _ hn, fun kv hkv => ?_⟩
              rcases mem_putFirst hkv with h | rfl
              · exact hmem kv h
              · exact ihv _ _ _ hp
            · cases h
              exact ⟨List.nodup_singleton _, List.forall_mem_singleton.mpr (ihv _ _ _ hp)⟩

/-- What `JSON.parse` returns has no hole and no repeated key. -/
theorem parse_wellFormed {s : JsString} {v : JsValue ν} (h : parse s = some v) :
    WellFormed v := by
  simp only [parse] at h
  split at h
  · next w r heq =>
    split_ifs at h
    cases h
    exact (parseValue_wellFormed _).1 _ _ _ heq
  · cases h

end Haechi.Json
