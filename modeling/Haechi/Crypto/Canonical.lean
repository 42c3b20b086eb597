import Haechi.Crypto.Envelope
import Haechi.Text.Canonical
import Haechi.Text.Folding
import Haechi.Text.Paired

/-! The canonical text of additional data. It is the text of a value whose strings and
keys are folded and whose members are arranged by the texts of their entries. Proved: a
text is missing exactly where two keys of an object fold to one, two values have the same
text exactly when they are the same JSON value once they are folded, and an envelope opens
under no other additional data. -/

namespace Haechi.Crypto

open Text Json

variable {ν : Type}

/-! ### Folding -/

mutual

/-- The value with every string and every key folded. -/
def foldTexts (nfkc : JsString → JsString) : JsValue ν → JsValue ν
  | .arr items => .arr (foldItems nfkc items)
  | .obj fields => .obj (foldFields nfkc fields)
  | .str s => .str (nfkc s)
  | v => v

def foldItems (nfkc : JsString → JsString) : List (JsValue ν) → List (JsValue ν)
  | [] => []
  | v :: vs => foldTexts nfkc v :: foldItems nfkc vs

def foldFields (nfkc : JsString → JsString) :
    List (JsString × JsValue ν) → List (JsString × JsValue ν)
  | [] => []
  | (k, v) :: fs => (nfkc k, foldTexts nfkc v) :: foldFields nfkc fs

end

/-- Two keys of an object, somewhere in the value, fold to one. -/
inductive Collides (nfkc : JsString → JsString) : JsValue ν → Prop
  | keys {fields : List (JsString × JsValue ν)} {k k' : JsString} : k ∈ fields.map Prod.fst →
      k' ∈ fields.map Prod.fst → k ≠ k' → nfkc k = nfkc k' → Collides nfkc (.obj fields)
  | item {items : List (JsValue ν)} {v : JsValue ν} : v ∈ items → Collides nfkc v →
      Collides nfkc (.arr items)
  | member {fields : List (JsString × JsValue ν)} {kv : JsString × JsValue ν} : kv ∈ fields →
      Collides nfkc kv.2 → Collides nfkc (.obj fields)

section Fold

variable {nfkc : JsString → JsString}

theorem foldItems_eq_map (items : List (JsValue ν)) :
    foldItems nfkc items = items.map (foldTexts nfkc) := by
  induction items with
  | nil => rfl
  | cons v vs ih => rw [foldItems, ih, List.map_cons]

theorem foldFields_eq_map (fields : List (JsString × JsValue ν)) :
    foldFields nfkc fields = fields.map fun kv => (nfkc kv.1, foldTexts nfkc kv.2) := by
  induction fields with
  | nil => rfl
  | cons kv fs ih => rw [foldFields, ih, List.map_cons]

theorem foldFields_keys (fields : List (JsString × JsValue ν)) :
    (foldFields nfkc fields).map Prod.fst = fields.map fun kv => nfkc kv.1 := by
  rw [foldFields_eq_map, List.map_map]
  rfl

theorem isJson_foldTexts (v : JsValue ν) : (foldTexts nfkc v).isJson = v.isJson := by
  induction v using JsValue.induct with
  | arr items ih =>
    rw [foldTexts, foldItems_eq_map, Bool.eq_iff_iff, JsValue.isJson_arr, JsValue.isJson_arr,
      List.forall_mem_map]
    exact forall₂_congr fun v hv => by rw [ih v hv]
  | obj fields ih =>
    rw [foldTexts, foldFields_eq_map, Bool.eq_iff_iff, JsValue.isJson_obj, JsValue.isJson_obj,
      List.forall_mem_map]
    exact forall₂_congr fun kv hkv => by rw [ih kv hkv]
  | _ => rfl

/-- Folding keeps the keys of every object apart exactly where none of them collide. -/
theorem distinct_foldTexts {v : JsValue ν} (hv : v.Distinct) :
    (foldTexts nfkc v).Distinct ↔ ¬Collides nfkc v := by
  induction v using JsValue.induct with
  | arr items ih =>
    have hd := JsValue.distinct_arr.mp hv
    rw [foldTexts, foldItems_eq_map, JsValue.distinct_arr, List.forall_mem_map]
    constructor
    · rintro h (_ | ⟨hmem, hcollides⟩)
      exact (ih _ hmem (hd _ hmem)).mp (h _ hmem) hcollides
    · exact fun h v hmem => (ih v hmem (hd v hmem)).mpr fun hcollides => h (.item hmem hcollides)
  | obj fields ih =>
    obtain ⟨hn, hd⟩ := JsValue.distinct_obj.mp hv
    have hkeys : (fields.map fun kv => nfkc kv.1) = (fields.map Prod.fst).map nfkc := by
      rw [List.map_map]
      rfl
    have hvalues : (∀ kv ∈ foldFields nfkc fields, kv.2.Distinct) ↔
        ∀ kv ∈ fields, (foldTexts nfkc kv.2).Distinct := by
      rw [foldFields_eq_map, List.forall_mem_map]
    rw [foldTexts, JsValue.distinct_obj, foldFields_keys, hkeys, List.nodup_map_iff_inj_on hn,
      hvalues]
    constructor
    · rintro ⟨hinj, h⟩ (⟨hk, hk', hne, heq⟩ | _ | ⟨hmem, hcollides⟩)
      · exact hne (hinj _ hk _ hk' heq)
      · exact (ih _ hmem (hd _ hmem)).mp (h _ hmem) hcollides
    · intro h
      refine ⟨fun k hk k' hk' heq => ?_, fun kv hmem => ?_⟩
      · by_contra hne
        exact h (.keys hk hk' hne heq)
      · exact (ih kv hmem (hd kv hmem)).mpr fun hcollides => h (.member hmem hcollides)
  | _ => exact iff_of_true trivial nofun

end Fold

/-! ### Arranging -/

instance : Std.Total TextLe where
  total s t := le_total (s.map UInt16.toNat) (t.map UInt16.toNat)

instance : IsTrans JsString TextLe where
  trans _ _ _ h h' := le_trans (α := List ℕ) h h'

instance : Std.Antisymm TextLe where
  antisymm _ _ h h' := List.map_injective_iff.mpr (fun _ _ => UInt16.toNat_inj.mp) (le_antisymm h h')

theorem insertionSort_eq_of_perm {texts texts' : List JsString} (h : texts.Perm texts') :
    texts.insertionSort TextLe = texts'.insertionSort TextLe := by
  refine List.Perm.eq_of_pairwise (fun a b _ _ => antisymm_of TextLe)
    (List.pairwise_insertionSort TextLe _) (List.pairwise_insertionSort TextLe _) ?_
  exact (List.perm_insertionSort _ _).trans (h.trans (List.perm_insertionSort _ _).symm)

variable [JsNumber ν]

/-- The text of an entry of an object. -/
def entryText (kv : JsString × JsValue ν) : JsString :=
  quote kv.1 ++ 58 :: (render kv.2).getD (js "undefined")

/-- The order `entries.sort()` leaves the members in. -/
def EntryLe (a b : JsString × JsValue ν) : Prop := TextLe (entryText a) (entryText b)

instance : DecidableRel (EntryLe (ν := ν)) := fun a b =>
  inferInstanceAs (Decidable (TextLe (entryText a) (entryText b)))

mutual

/-- The value with the members of every object arranged by the texts of their entries. -/
def arrange : JsValue ν → JsValue ν
  | .arr items => .arr (arrangeItems items)
  | .obj fields => .obj ((arrangeFields fields).insertionSort EntryLe)
  | v => v

def arrangeItems : List (JsValue ν) → List (JsValue ν)
  | [] => []
  | v :: vs => arrange v :: arrangeItems vs

def arrangeFields : List (JsString × JsValue ν) → List (JsString × JsValue ν)
  | [] => []
  | (k, v) :: fs => (k, arrange v) :: arrangeFields fs

end

theorem arrangeItems_eq_map (items : List (JsValue ν)) :
    arrangeItems items = items.map arrange := by
  induction items with
  | nil => rfl
  | cons v vs ih => rw [arrangeItems, ih, List.map_cons]

theorem arrangeFields_eq_map (fields : List (JsString × JsValue ν)) :
    arrangeFields fields = fields.map fun kv => (kv.1, arrange kv.2) := by
  induction fields with
  | nil => rfl
  | cons kv fs ih => rw [arrangeFields, ih, List.map_cons]

theorem renderItems_eq_map (items : List (JsValue ν)) :
    renderItems items = items.map fun v => (render v).getD [] := by
  induction items with
  | nil => rfl
  | cons v vs ih => rw [renderItems, ih, List.map_cons]

theorem renderFields_eq_map (fields : List (JsString × JsValue ν)) :
    renderFields fields = fields.map entryText := by
  induction fields with
  | nil => rfl
  | cons kv fs ih =>
    rw [renderFields, ih, List.map_cons]
    rfl

/-- The texts of the arranged members are sorted. -/
theorem renderFields_insertionSort (fields : List (JsString × JsValue ν)) :
    renderFields (fields.insertionSort EntryLe) = (renderFields fields).insertionSort TextLe := by
  rw [renderFields_eq_map, renderFields_eq_map]
  exact List.map_insertionSort EntryLe TextLe entryText fields fun _ _ _ _ => Iff.rfl

theorem sortKeys_arrange {v : JsValue ν} (hv : v.Distinct) : sortKeys (arrange v) = sortKeys v := by
  induction v using JsValue.induct with
  | arr items ih =>
    have hd := JsValue.distinct_arr.mp hv
    rw [arrange, arrangeItems_eq_map, sortKeys, sortKeys, sortItems_eq_map, sortItems_eq_map,
      List.map_map]
    exact congrArg JsValue.arr (List.map_congr_left fun v hmem => ih v hmem (hd v hmem))
  | obj fields ih =>
    obtain ⟨hn, hd⟩ := JsValue.distinct_obj.mp hv
    have hsame : sortFields (arrangeFields fields) = sortFields fields := by
      rw [sortFields_eq_map, sortFields_eq_map, arrangeFields_eq_map, List.map_map]
      exact List.map_congr_left fun kv hmem => congrArg (kv.1, ·) (ih kv hmem (hd kv hmem))
    have hperm : (sortFields ((arrangeFields fields).insertionSort EntryLe)).Perm
        (sortFields fields) := by
      rw [← hsame, sortFields_eq_map, sortFields_eq_map]
      exact (List.perm_insertionSort _ _).map _
    rw [arrange, sortKeys_obj, sortKeys_obj]
    refine congrArg JsValue.obj (sortMembers_eq_of_perm hn ?_).symm
    exact (List.perm_insertionSort _ _).trans
      (hperm.symm.trans (List.perm_insertionSort _ _).symm)
  | _ => rfl

/-- The text does not depend on the order of keys. -/
theorem render_arrange_sortKeys (v : JsValue ν) :
    render (arrange (sortKeys v)) = render (arrange v) := by
  induction v using JsValue.induct with
  | arr items ih =>
    rw [sortKeys, arrange, arrange, sortItems_eq_map, arrangeItems_eq_map, arrangeItems_eq_map,
      render, render, renderItems_eq_map, renderItems_eq_map, List.map_map, List.map_map,
      List.map_map]
    have htexts : items.map (((fun v => (render v).getD []) ∘ arrange) ∘ sortKeys) =
        items.map ((fun v => (render v).getD []) ∘ arrange) :=
      List.map_congr_left fun v hmem => congrArg (Option.getD · []) (ih v hmem)
    rw [htexts]
  | obj fields ih =>
    have htexts : (renderFields (arrangeFields (sortMembers fields))).Perm
        (renderFields (arrangeFields fields)) := by
      rw [renderFields_eq_map, renderFields_eq_map, arrangeFields_eq_map, arrangeFields_eq_map,
        List.map_map, List.map_map]
      refine ((List.perm_insertionSort KeyLe (sortFields fields)).map _).trans ?_
      rw [sortFields_eq_map, List.map_map]
      refine List.Perm.of_eq (List.map_congr_left fun kv hmem => ?_)
      exact congrArg (fun text => quote kv.1 ++ 58 :: text.getD (js "undefined")) (ih kv hmem)
    rw [sortKeys_obj, arrange, arrange, render, render, renderFields_insertionSort,
      renderFields_insertionSort, insertionSort_eq_of_perm htexts]
  | _ => rfl

theorem distinct_arrange {v : JsValue ν} (hv : v.Distinct) : (arrange v).Distinct := by
  rw [← distinct_sortKeys, sortKeys_arrange hv, distinct_sortKeys]
  exact hv

theorem hasLone_arrange {v : JsValue ν} (hv : v.Distinct) :
    hasLone (arrange v) = false ↔ hasLone v = false := by
  rw [← hasLone_sortKeys, sortKeys_arrange hv, hasLone_sortKeys]

theorem wellFormed_arrange {v : JsValue ν} (hv : WellFormed v) : WellFormed (arrange v) :=
  ⟨(SameJson.isJson_eq (sortKeys_arrange hv.2)).trans hv.1, distinct_arrange hv.2⟩

/-- A value whose arranged text is that of a JSON value is that JSON value. -/
theorem sameJson_of_render_arrange {v w : JsValue ν} (hv : WellFormed v) (hw : w.Distinct)
    (hlone : hasLone w = false) (h : render (arrange w) = render (arrange v)) : SameJson w v := by
  have heq := eq_of_render_eq (wellFormed_arrange hv).1 (wellFormed_arrange hv).2
    (distinct_arrange hw) ((hasLone_arrange hw).mpr hlone) h
  rw [SameJson, ← sortKeys_arrange hv.2, ← sortKeys_arrange hw, heq]

/-- Two JSON values have the same arranged text exactly when they are the same. -/
theorem render_arrange_eq_iff {v w : JsValue ν} (hv : WellFormed v) (hw : WellFormed w) :
    render (arrange v) = render (arrange w) ↔ SameJson v w := by
  constructor
  · exact sameJson_of_render_arrange hw hv.2 (hasLone_of_isJson v hv.1)
  · intro h
    rw [← render_arrange_sortKeys v, h, render_arrange_sortKeys]

/-! ### The canonical text -/

section Canonical

variable {nfkc : JsString → JsString}

/-- The canonical text of additional data whose keys do not collide. -/
def canonicalText (nfkc : JsString → JsString) (v : JsValue ν) : Option JsString :=
  render (arrange (foldTexts nfkc v))

theorem canonicalItems_eq {items : List (JsValue ν)}
    (h : ∀ v ∈ items, canonicalizeCryptoAad nfkc v = some (canonicalText nfkc v)) :
    canonicalItems nfkc items = some (items.map fun v => (canonicalText nfkc v).getD []) := by
  induction items with
  | nil => rfl
  | cons v vs ih =>
    obtain ⟨hv, hvs⟩ := List.forall_mem_cons.mp h
    rw [canonicalItems, hv, ih hvs]
    rfl

theorem canonicalEntries_eq {fields : List (JsString × JsValue ν)}
    (h : ∀ kv ∈ fields, canonicalizeCryptoAad nfkc kv.2 = some (canonicalText nfkc kv.2)) :
    canonicalEntries nfkc fields =
      some (renderFields (arrangeFields (foldFields nfkc fields))) := by
  induction fields with
  | nil => rfl
  | cons kv fs ih =>
    obtain ⟨hkv, hfs⟩ := List.forall_mem_cons.mp h
    rw [canonicalEntries, hkv, ih hfs]
    rfl

theorem exists_of_canonicalItems {items : List (JsValue ν)} {v : JsValue ν} (hv : v ∈ items)
    (h : canonicalizeCryptoAad nfkc v = none) : canonicalItems nfkc items = none := by
  induction items with
  | nil => cases hv
  | cons w ws ih =>
    rcases List.mem_cons.mp hv with rfl | hv
    · rw [canonicalItems, h]
      rfl
    · rw [canonicalItems, ih hv]
      cases canonicalizeCryptoAad nfkc w <;> rfl

theorem exists_of_canonicalEntries {fields : List (JsString × JsValue ν)}
    {kv : JsString × JsValue ν} (hkv : kv ∈ fields)
    (h : canonicalizeCryptoAad nfkc kv.2 = none) : canonicalEntries nfkc fields = none := by
  induction fields with
  | nil => cases hkv
  | cons w ws ih =>
    rcases List.mem_cons.mp hkv with rfl | hkv
    · rw [canonicalEntries, h]
      rfl
    · rw [canonicalEntries, ih hkv]
      cases canonicalizeCryptoAad nfkc w.2 <;> rfl

/-- Where no keys collide, the canonical text is that of the folded and arranged value. -/
theorem canonicalizeCryptoAad_eq {v : JsValue ν} (h : (foldTexts nfkc v).Distinct) :
    canonicalizeCryptoAad nfkc v = some (canonicalText nfkc v) := by
  induction v using JsValue.induct with
  | arr items ih =>
    rw [foldTexts, foldItems_eq_map, JsValue.distinct_arr, List.forall_mem_map] at h
    rw [canonicalizeCryptoAad, canonicalItems_eq fun v hv => ih v hv (h v hv), canonicalText,
      foldTexts, arrange, render, renderItems_eq_map, arrangeItems_eq_map, foldItems_eq_map,
      List.map_map, List.map_map]
    rfl
  | obj fields ih =>
    rw [foldTexts, JsValue.distinct_obj, foldFields_keys, foldFields_eq_map,
      List.forall_mem_map] at h
    rw [canonicalizeCryptoAad, canonicalEntries_eq fun kv hkv => ih kv hkv (h.2 kv hkv),
      canonicalText, foldTexts, arrange, render, renderFields_insertionSort]
    exact if_pos h.1
  | _ => rfl

/-- Where two keys collide there is no canonical text. -/
theorem canonicalizeCryptoAad_eq_none {v : JsValue ν} (h : Collides nfkc v) :
    canonicalizeCryptoAad nfkc v = none := by
  induction h with
  | @keys fields k k' hk hk' hne heq =>
    have hdup : ¬(fields.map fun kv => nfkc kv.1).Nodup := by
      intro hn
      obtain ⟨kv, hkv, rfl⟩ := List.mem_map.mp hk
      obtain ⟨kv', hkv', rfl⟩ := List.mem_map.mp hk'
      exact hne (congrArg Prod.fst (List.inj_on_of_nodup_map hn hkv hkv' heq))
    rw [canonicalizeCryptoAad]
    simp only [if_neg hdup]
    cases canonicalEntries nfkc fields <;> rfl
  | item hv _ ih =>
    rw [canonicalizeCryptoAad, exists_of_canonicalItems hv ih]
    rfl
  | member hkv _ ih =>
    rw [canonicalizeCryptoAad, exists_of_canonicalEntries hkv ih]
    rfl

/-- Two values have the same canonical text exactly when they are the same once folded. -/
theorem canonicalizeCryptoAad_eq_iff {v w : JsValue ν} (hv : WellFormed v) (hw : WellFormed w)
    (hcv : ¬Collides nfkc v) (hcw : ¬Collides nfkc w) :
    canonicalizeCryptoAad nfkc v = canonicalizeCryptoAad nfkc w ↔
      SameJson (foldTexts nfkc v) (foldTexts nfkc w) := by
  have hdv := (distinct_foldTexts hv.2).mpr hcv
  have hdw := (distinct_foldTexts hw.2).mpr hcw
  rw [canonicalizeCryptoAad_eq hdv, canonicalizeCryptoAad_eq hdw, Option.some_inj, canonicalText,
    canonicalText]
  exact render_arrange_eq_iff ⟨(isJson_foldTexts v).trans hv.1, hdv⟩
    ⟨(isJson_foldTexts w).trans hw.1, hdw⟩

/-- A canonical text has no lone surrogate, so it is known by its bytes. -/
theorem paired_of_aadBytes {v : JsValue ν} (hv : v.Distinct) {bytes : List ℕ}
    (h : aadBytes nfkc v = some bytes) :
    ∃ text, canonicalizeCryptoAad nfkc v = some (some text) ∧ Paired text ∧
      bytes = encodeUtf8 text := by
  by_cases hc : Collides nfkc v
  · rw [aadBytes, canonicalizeCryptoAad_eq_none hc] at h
    cases h
  · have hcanonical := canonicalizeCryptoAad_eq ((distinct_foldTexts hv).mpr hc)
    rw [aadBytes, hcanonical] at h
    obtain ⟨text, htext, rfl⟩ := Option.map_eq_some_iff.mp h
    replace htext : canonicalText nfkc v = some text := htext
    refine ⟨text, hcanonical.trans (congrArg some htext), ?_, rfl⟩
    have hpaired := paired_render (arrange (foldTexts nfkc v))
    rwa [← canonicalText, htext] at hpaired

/-- Additional data with the same bytes has the same canonical text. -/
theorem canonicalizeCryptoAad_eq_of_aadBytes {v w : JsValue ν} (hv : v.Distinct)
    (hw : w.Distinct) {bytes : List ℕ} (h : aadBytes nfkc v = some bytes)
    (h' : aadBytes nfkc w = some bytes) :
    canonicalizeCryptoAad nfkc v = canonicalizeCryptoAad nfkc w := by
  obtain ⟨text, htext, hpaired, rfl⟩ := paired_of_aadBytes hv h
  obtain ⟨text', htext', hpaired', hbytes⟩ := paired_of_aadBytes hw h'
  rw [htext, htext', hpaired.eq_of_encodeUtf8_eq hpaired' hbytes]

/-- SHA-256 tells the canonical texts of two values apart. -/
def HashApart (node : NodeCrypto) (nfkc : JsString → JsString) (v w : JsValue ν) : Prop :=
  ∀ a ∈ aadBytes nfkc v, ∀ b ∈ aadBytes nfkc w, node.sha256 a = node.sha256 b → a = b

/-- An envelope opens only under data with the canonical text it was sealed with. -/
theorem canonicalizeCryptoAad_eq_of_decrypt {node : NodeCrypto} {ring ring' : KeyRing}
    {v w : JsValue ν} (hv : v.Distinct) (hw : w.Distinct) (hsha : HashApart node nfkc v w)
    {iv : List ℕ} {plaintext text : JsString} {expiresAt : Option ℕ} {envelope : Envelope}
    (hseal : encrypt node nfkc ring iv plaintext v expiresAt = some envelope) {now : ℕ}
    (hopen : decrypt node nfkc ring' now envelope w = some text) :
    canonicalizeCryptoAad nfkc v = canonicalizeCryptoAad nfkc w := by
  obtain ⟨bytes, hbytes, hhash⟩ := aadHash_of_encrypt hseal
  obtain ⟨bytes', hbytes', hhash'⟩ := aadHash_of_decrypt hopen
  obtain rfl := hsha bytes hbytes bytes' hbytes' (hhash.symm.trans hhash')
  exact canonicalizeCryptoAad_eq_of_aadBytes hv hw hbytes hbytes'

end Canonical

/-- **Canonical additional data.** For JSON values the canonical text is missing exactly
where two keys of an object fold to one. Two texts are equal exactly when the values are
the same JSON value once all strings and keys are folded, and so an envelope that was
sealed with one opens under the other only if they are. -/
theorem canonicalizeCryptoAad_injective (ν : Type) [JsNumber ν] (nfkc : JsString → JsString)
    (x y : JsValue ν) (hx : WellFormed x) (hy : WellFormed y) :
    (canonicalizeCryptoAad nfkc x = none ↔ Collides nfkc x) ∧
      (¬Collides nfkc x → ¬Collides nfkc y →
        (canonicalizeCryptoAad nfkc x = canonicalizeCryptoAad nfkc y ↔
          SameJson (foldTexts nfkc x) (foldTexts nfkc y))) ∧
      ∀ (node : NodeCrypto) (ring ring' : KeyRing) (iv : List ℕ) (plaintext text : JsString)
        (expiresAt : Option ℕ) (envelope : Envelope) (now : ℕ), HashApart node nfkc x y →
        encrypt node nfkc ring iv plaintext x expiresAt = some envelope →
        decrypt node nfkc ring' now envelope y = some text →
          SameJson (foldTexts nfkc x) (foldTexts nfkc y) := by
  have htext : ∀ {v : JsValue ν}, v.Distinct →
      (canonicalizeCryptoAad nfkc v = none ↔ Collides nfkc v) := by
    intro v hv
    refine ⟨fun h => ?_, canonicalizeCryptoAad_eq_none⟩
    by_contra hc
    rw [canonicalizeCryptoAad_eq ((distinct_foldTexts hv).mpr hc)] at h
    cases h
  refine ⟨htext hx.2, canonicalizeCryptoAad_eq_iff hx hy, ?_⟩
  intro node ring ring' iv plaintext text expiresAt envelope now hsha hseal hopen
  have hsame := canonicalizeCryptoAad_eq_of_decrypt hx.2 hy.2 hsha hseal hopen
  obtain ⟨bytes, hbytes, -⟩ := aadHash_of_encrypt hseal
  obtain ⟨text', htext', -⟩ := paired_of_aadBytes hx.2 hbytes
  have hcx : ¬Collides nfkc x := by
    rw [← htext hx.2, htext']
    exact nofun
  have hcy : ¬Collides nfkc y := by
    rw [← htext hy.2, ← hsame, htext']
    exact nofun
  exact (canonicalizeCryptoAad_eq_iff hx hy hcx hcy).mp hsame

/-- A tenant written in letters of full width, and its plain spelling among others. -/
def tenant (key name : JsString) : JsValue NumberToken :=
  .obj [(key, .str name), (js "path", .str (js "input"))]

theorem canonicalizeCryptoAad_injective_tenant :
    SameJson (foldTexts (foldPoints compatibility) (tenant [0xff54] [0xff21]))
        (foldTexts (foldPoints compatibility) (tenant (js "t") (js "A"))) ∧
      canonicalizeCryptoAad (foldPoints compatibility) (tenant [0xff54] [0xff21]) =
        canonicalizeCryptoAad (foldPoints compatibility) (tenant (js "t") (js "A")) := by
  have hwell : ∀ key name, key ≠ js "path" → WellFormed (tenant key name) := fun key name hne =>
    ⟨rfl, JsValue.distinct_obj.mpr ⟨by simp [hne], by simp [JsValue.Distinct]⟩⟩
  have hsame : SameJson (foldTexts (foldPoints compatibility) (tenant [0xff54] [0xff21]))
      (foldTexts (foldPoints compatibility) (tenant (js "t") (js "A"))) := rfl
  obtain ⟨hnone, htexts, -⟩ := canonicalizeCryptoAad_injective NumberToken
    (foldPoints compatibility) (tenant [0xff54] [0xff21]) (tenant (js "t") (js "A"))
    (hwell _ _ (by decide)) (hwell _ _ (by decide))
  have hx : ¬Collides (foldPoints compatibility) (tenant [0xff54] [0xff21]) := by
    rw [← hnone]
    rintro ⟨⟩
  refine ⟨hsame, (htexts hx fun hy => ?_).mpr hsame⟩
  have hy := canonicalizeCryptoAad_eq_none hy
  cases hy

end Haechi.Crypto
