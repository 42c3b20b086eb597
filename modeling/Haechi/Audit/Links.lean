import Haechi.Audit.Chain

/-! The chain as a list of links. A link is an event together with what it was
chained to; its record, hash and sequence number follow. A log whose lines are
the records of such a list verifies, provided no record has a hole and no line
of it breaks in two. -/

namespace Haechi.Audit

open Text Json

variable {ν : Type}

/-- An event and the integrity of the record before it. -/
structure Link (ν : Type) where
  previous : Option (Integrity ν)
  event : Event ν

/-- After sanitizing, no member or item of the event is `undefined`. -/
def Event.NoHole (e : Event ν) : Prop := (JsValue.obj e.sanitized).isJson = true

/-- After sanitizing, no string or key of the event holds a line separator. -/
def Event.NoSeparator (e : Event ν) : Prop :=
  AllTexts (∀ c ∈ ·, ¬ isSeparator c) (.obj e.sanitized)

variable [JsNumber ν] (sha256 : Digest)

namespace Link

def sequence (l : Link ν) : ℕ := nextSequence l.previous

def unsigned (l : Link ν) : List (JsString × JsValue ν) :=
  unsignedRecord l.previous l.event.sanitized

def hash (l : Link ν) : JsString := recordHash sha256 l.unsigned

/-- The members of the record's `auditIntegrity`. -/
def members (l : Link ν) : List (JsString × JsValue ν) :=
  unsignedIntegrity l.previous ++ [(js "eventHash", .str (l.hash sha256))]

def record (l : Link ν) : List (JsString × JsValue ν) :=
  buildIntegrityRecord sha256 l.previous l.event.sanitized

/-- What the next link is chained to. -/
def integrity (l : Link ν) : Integrity ν := ⟨l.sequence, .str (l.hash sha256)⟩

/-- The link is chained to nothing or to another link. -/
def Chained (l : Link ν) : Prop :=
  l.previous = none ∨ ∃ k : Link ν, l.previous = some (k.integrity sha256)

variable {sha256}

/-- Signing replaces the unsigned integrity. -/
theorem record_eq (l : Link ν) :
    l.record sha256 =
      JsValue.setField (js "auditIntegrity") (.obj (l.members sha256)) l.event.sanitized :=
  JsValue.setField_setField _ _ _ _

omit [JsNumber ν] in
theorem sanitized_nodup (e : Event ν) : (e.sanitized.map Prod.fst).Nodup :=
  (JsValue.distinct_obj.mp e.sanitized_distinct).1

theorem record_nodup (l : Link ν) : ((l.record sha256).map Prod.fst).Nodup := by
  rw [record_eq]
  exact JsValue.nodup_setField _ _ (sanitized_nodup l.event)

theorem field?_integrity (l : Link ν) :
    JsValue.field? (js "auditIntegrity") (l.record sha256) = some (.obj (l.members sha256)) := by
  rw [record_eq]
  exact JsValue.field?_setField_self _ _ (sanitized_nodup l.event)

theorem get_integrity (l : Link ν) :
    (JsValue.obj (l.record sha256)).get (js "auditIntegrity") = .obj (l.members sha256) := by
  rw [JsValue.get, field?_integrity, Option.getD_some]

theorem get_sequence (l : Link ν) :
    (JsValue.obj (l.members sha256)).get (js "sequence") = .num (JsNumber.ofNat l.sequence) := rfl

theorem get_previousHash (l : Link ν) :
    (JsValue.obj (l.members sha256)).get (js "previousHash") = previousHash l.previous := rfl

theorem get_eventHash (l : Link ν) :
    (JsValue.obj (l.members sha256)).get (js "eventHash") = .str (l.hash sha256) := rfl

theorem eraseField_members (l : Link ν) :
    JsValue.eraseField (js "eventHash") (l.members sha256) = unsignedIntegrity l.previous := rfl

/-- Taking the hash out of a record gives back what was hashed. -/
theorem withoutHash_record (l : Link ν) :
    withoutHash (l.record sha256) (l.members sha256) = l.unsigned := by
  rw [withoutHash, eraseField_members, record_eq, JsValue.setField_setField]
  rfl

theorem ofValue_members (l : Link ν) :
    Integrity.ofValue (.obj (l.members sha256)) = some (l.integrity sha256) := by
  simp only [Integrity.ofValue, get_sequence, get_eventHash, JsNumber.toNat?_ofNat,
    Option.map_some, integrity]

/-- The previous hash of a chained link is `null` or a hash. -/
theorem previousHash_cases {l : Link ν} (h : l.Chained sha256) :
    previousHash l.previous = .null ∨
      ∃ k : Link ν, previousHash l.previous = .str (k.hash sha256) := by
  rcases h with h | ⟨k, h⟩
  · exact .inl (by rw [h]; rfl)
  · exact .inr ⟨k, by rw [h]; rfl⟩

theorem previousHash_ne_undef {l : Link ν} (h : l.Chained sha256) :
    previousHash l.previous ≠ .undef := by
  rcases previousHash_cases h with h | ⟨k, h⟩ <;> simp [h]

/-- The members of `auditIntegrity`, one by one. -/
theorem forall_members {l : Link ν} {p : JsString × JsValue ν → Prop} :
    (∀ kv ∈ l.members sha256, p kv) ↔
      p (js "alg", .str (js "sha256")) ∧
      p (js "canonicalization", .str (js "json-stable-v1")) ∧
      p (js "sequence", .num (JsNumber.ofNat l.sequence)) ∧
      p (js "previousHash", previousHash l.previous) ∧
      p (js "eventHash", .str (l.hash sha256)) := by
  simp only [members, unsignedIntegrity, List.cons_append, List.nil_append,
    List.forall_mem_cons, List.not_mem_nil, false_imp_iff, implies_true, and_true, sequence]

theorem members_distinct {l : Link ν} (h : l.Chained sha256) :
    (JsValue.obj (l.members sha256)).Distinct := by
  have hnodup : ((l.members sha256).map Prod.fst).Nodup := by
    show [js "alg", js "canonicalization", js "sequence", js "previousHash",
      js "eventHash"].Nodup
    decide
  refine JsValue.distinct_obj.mpr ⟨hnodup, forall_members.mpr ⟨trivial, trivial, trivial, ?_,
    trivial⟩⟩
  rcases previousHash_cases h with h | ⟨k, h⟩ <;> simp only [h] <;> trivial

theorem record_distinct {l : Link ν} (h : l.Chained sha256) :
    (JsValue.obj (l.record sha256)).Distinct := by
  refine JsValue.distinct_obj.mpr ⟨l.record_nodup, ?_⟩
  rw [record_eq]
  intro kv hkv
  rcases JsValue.mem_setField hkv with rfl | ⟨hmem, -⟩
  · exact members_distinct h
  · exact (JsValue.distinct_obj.mp l.event.sanitized_distinct).2 kv hmem

theorem members_isJson {l : Link ν} (h : l.Chained sha256) :
    (JsValue.obj (l.members sha256)).isJson = true := by
  refine JsValue.isJson_obj.mpr (forall_members.mpr ⟨rfl, rfl, rfl, ?_, rfl⟩)
  rcases previousHash_cases h with h | ⟨k, h⟩ <;> simp only [h] <;> rfl

/-- A record has a hole only where its event has one. -/
theorem record_isJson {l : Link ν} (h : l.Chained sha256) (he : l.event.NoHole) :
    (JsValue.obj (l.record sha256)).isJson = true := by
  rw [JsValue.isJson_obj, record_eq]
  intro kv hkv
  rcases JsValue.mem_setField hkv with rfl | ⟨hmem, -⟩
  · exact members_isJson h
  · exact JsValue.isJson_obj.mp he kv hmem

theorem not_isSeparator_of_isBase64Url {c : UInt16} (h : isBase64Url c = true) :
    ¬ isSeparator c := by
  rintro (rfl | rfl) <;> exact absurd h (by decide)

theorem members_allTexts {l : Link ν} (h : l.Chained sha256) :
    AllTexts (∀ c ∈ ·, ¬ isSeparator c) (.obj (l.members sha256)) := by
  have hhash : ∀ k : Link ν, ∀ c ∈ k.hash sha256, ¬ isSeparator c := fun k c hc =>
    not_isSeparator_of_isBase64Url (sha256.alphabet _ c hc)
  have hlit : ∀ s ∈ [js "alg", js "sha256", js "canonicalization", js "json-stable-v1",
      js "sequence", js "previousHash", js "eventHash"], ∀ c ∈ s, ¬ isSeparator c := by
    unfold isSeparator
    decide
  refine allTexts_obj.mpr (forall_members.mpr
    ⟨⟨hlit _ (by simp), hlit (js "sha256") (by simp)⟩,
      ⟨hlit _ (by simp), hlit (js "json-stable-v1") (by simp)⟩, ⟨hlit _ (by simp), trivial⟩,
      ⟨hlit _ (by simp), ?_⟩, ⟨hlit _ (by simp), hhash l⟩⟩)
  rcases previousHash_cases h with h | ⟨k, h⟩ <;> simp only [h]
  · trivial
  · exact hhash k

/-- A record holds a line separator only where its event holds one. -/
theorem record_allTexts {l : Link ν} (h : l.Chained sha256) (he : l.event.NoSeparator) :
    AllTexts (∀ c ∈ ·, ¬ isSeparator c) (.obj (l.record sha256)) := by
  have hkey : ∀ c ∈ js "auditIntegrity", ¬ isSeparator c := by
    unfold isSeparator
    decide
  rw [allTexts_obj, record_eq]
  intro kv hkv
  rcases JsValue.mem_setField hkv with rfl | ⟨hmem, -⟩
  · exact ⟨hkey, members_allTexts h⟩
  · exact allTexts_obj.mp he kv hmem

variable (sha256) in
/-- The line of the record in the log. -/
def line (l : Link ν) : JsString := jsonLine (.obj (l.record sha256))

theorem stringify_record (l : Link ν) :
    stringify (.obj (l.record sha256)) = some (l.line sha256) := by
  have h := stringify_isSome (v := .obj (l.record sha256)) (by simp)
  rw [line, jsonLine, Option.eq_some_of_isSome h, Option.getD_some]

theorem parse_line {l : Link ν} (h : l.Chained sha256) :
    parse (l.line sha256) = some (JsValue.obj (l.record sha256)).prune :=
  parse_stringify l.stringify_record (record_distinct h)

/-- The line of a record without holes reads back as the record. -/
theorem parse_line_of_noHole {l : Link ν} (h : l.Chained sha256) (he : l.event.NoHole) :
    parse (l.line sha256) = some (JsValue.obj (l.record sha256)) := by
  rw [parse_line h, JsValue.prune_of_isJson _ (record_isJson h he)]

/-! ### Verifying one link -/

/-- The state in which the verifier meets the link. -/
def Expects (st : ChainState) (previous : Option (Integrity ν)) : Prop :=
  st.expectedSequence = nextSequence previous ∧
    isHash (previousHash previous) st.expectedPreviousHash = true

variable (sha256) in
/-- The anchors, if given, attest nothing else at the link's sequence number. -/
def Agrees (anchors : Option (Anchors ν)) (l : Link ν) : Prop :=
  ∀ a ∈ anchors, ∀ h, getAnchor (JsNumber.ofNat l.sequence) a.bySequence = some h →
    h = l.hash sha256

theorem agrees_none (l : Link ν) : l.Agrees sha256 none := fun _ h => by cases h

/-- One link passes and the verifier then expects the next. -/
theorem verifyLine_line {anchors : Option (Anchors ν)} {st : ChainState} {l : Link ν}
    (hc : l.Chained sha256) (he : l.event.NoHole) (hst : Expects st l.previous)
    (ha : l.Agrees sha256 anchors) :
    ∃ st', verifyLine sha256 anchors st (l.line sha256) = .ok st' ∧
      Expects st' (some (l.integrity sha256)) ∧ st'.records = st.records + 1 ∧
      st'.expectedPreviousHash = some (l.hash sha256) := by
  obtain ⟨hseq, hprev⟩ := hst
  have htruthy : (JsValue.obj (l.members sha256)).truthy = true := rfl
  have hcount : isCount (JsValue.num (ν := ν) (JsNumber.ofNat l.sequence))
      st.expectedSequence = true := by
    simp [isCount, hseq, sequence]
  have hhash : isHash (JsValue.str (ν := ν) (l.hash sha256))
      (some (recordHash sha256 l.unsigned)) = true := by
    simp [isHash, hash]
  refine ⟨⟨some (l.hash sha256), st.expectedSequence + 1, st.records + 1⟩, ?_, ⟨?_, ?_⟩, rfl, rfl⟩
  · simp only [verifyLine, parse_line_of_noHole hc he, verifyRecord, get_integrity, htruthy,
      get_sequence, hcount, get_previousHash, hprev, get_eventHash, withoutHash_record, hhash,
      Bool.not_true, Bool.false_eq_true, if_false]
    cases hget : anchors.bind fun a =>
        getAnchor (JsNumber.ofNat st.expectedSequence) a.bySequence with
    | none => rfl
    | some h =>
      obtain ⟨a, haa, hga⟩ := Option.bind_eq_some_iff.mp hget
      rw [hseq] at hga
      have : h = l.hash sha256 := ha a haa h hga
      simp only [this]
      exact if_pos rfl
  · simp only [hseq, nextSequence, integrity, sequence]
  · simp [previousHash, integrity, isHash]

end Link

/-! ### Lists of links -/

/-- The links of consecutive events. -/
def links : Option (Integrity ν) → List (Event ν) → List (Link ν)
  | _, [] => []
  | previous, e :: es =>
    ⟨previous, e⟩ :: links (some (Link.integrity sha256 ⟨previous, e⟩)) es

/-- What the event after these is chained to. -/
def chainHead (previous : Option (Integrity ν)) (es : List (Event ν)) : Option (Integrity ν) :=
  es.foldl (fun p e => some (Link.integrity sha256 ⟨p, e⟩)) previous

/-- The links of a whole log. -/
abbrev logLinks (es : List (Event ν)) : List (Link ν) := links sha256 none es

theorem links_append (previous : Option (Integrity ν)) (es fs : List (Event ν)) :
    links sha256 previous (es ++ fs) =
      links sha256 previous es ++ links sha256 (chainHead sha256 previous es) fs := by
  induction es generalizing previous with
  | nil => rfl
  | cons e es ih =>
    rw [List.cons_append, links, links, List.cons_append, ih]
    rfl

@[simp] theorem length_links (previous : Option (Integrity ν)) (es : List (Event ν)) :
    (links sha256 previous es).length = es.length := by
  induction es generalizing previous with
  | nil => rfl
  | cons e es ih => simp [links, ih]

theorem chainHead_append (previous : Option (Integrity ν)) (es fs : List (Event ν)) :
    chainHead sha256 previous (es ++ fs) =
      chainHead sha256 (chainHead sha256 previous es) fs :=
  List.foldl_append

/-- Every link of a log is chained, and carries its position as sequence number. -/
theorem links_getElem (previous : Option (Integrity ν)) (es : List (Event ν)) (i : ℕ)
    (hi : i < (links sha256 previous es).length) :
    (links sha256 previous es)[i].previous = chainHead sha256 previous (es.take i) ∧
      (links sha256 previous es)[i].event = es.get ⟨i, by simpa using hi⟩ ∧
      (links sha256 previous es)[i].sequence = nextSequence previous + i := by
  induction es generalizing previous i with
  | nil => exact absurd hi (by simp [links])
  | cons e es ih =>
    cases i with
    | zero => exact ⟨rfl, rfl, rfl⟩
    | succ i =>
      have h := ih (some (Link.integrity sha256 ⟨previous, e⟩)) i (by simpa [links] using hi)
      refine ⟨h.1, h.2.1, h.2.2.trans ?_⟩
      simp only [nextSequence, Link.integrity, Link.sequence]
      omega

/-- Each link of a log is chained to the link before it. -/
theorem links_succ (previous : Option (Integrity ν)) (es : List (Event ν)) (i : ℕ)
    (hi : i + 1 < (links sha256 previous es).length) :
    (links sha256 previous es)[i + 1].previous =
      some ((links sha256 previous es)[i].integrity sha256) := by
  induction es generalizing previous i with
  | nil => exact absurd hi (by simp [links])
  | cons e es ih =>
    cases i with
    | zero =>
      cases es with
      | nil => exact absurd hi (by simp [links])
      | cons f es => rfl
    | succ i => exact ih _ i (by simpa [links] using hi)

theorem chainHead_cases (es : List (Event ν)) :
    chainHead sha256 none es = none ∧ es = [] ∨
      ∃ fs e, es = fs ++ [e] ∧ chainHead sha256 none es =
        some (Link.integrity sha256 ⟨chainHead sha256 none fs, e⟩) := by
  rcases List.eq_nil_or_concat es with rfl | ⟨fs, e, rfl⟩
  · exact .inl ⟨rfl, rfl⟩
  · refine .inr ⟨fs, e, List.concat_eq_append, ?_⟩
    rw [List.concat_eq_append, chainHead_append]
    rfl

theorem nextSequence_chainHead (es : List (Event ν)) :
    nextSequence (chainHead sha256 none es) = es.length + 1 := by
  induction es using List.reverseRecOn with
  | nil => rfl
  | append_singleton es e ih =>
    rw [chainHead_append]
    simp only [chainHead, List.foldl_cons, List.foldl_nil, nextSequence, Link.integrity,
      Link.sequence, List.length_append, List.length_singleton] at ih ⊢
    rw [ih]

variable {sha256}

theorem chained_of_mem {es : List (Event ν)} {l : Link ν} (h : l ∈ logLinks sha256 es) :
    l.Chained sha256 := by
  obtain ⟨i, hi, rfl⟩ := List.getElem_of_mem h
  rw [Link.Chained, (links_getElem sha256 none es i hi).1]
  rcases chainHead_cases sha256 (es.take i) with ⟨h, -⟩ | ⟨fs, e, -, h⟩
  · exact .inl h
  · exact .inr ⟨_, h⟩

theorem event_mem_of_mem {es : List (Event ν)} {l : Link ν} (h : l ∈ logLinks sha256 es) :
    l.event ∈ es := by
  obtain ⟨i, hi, rfl⟩ := List.getElem_of_mem h
  rw [(links_getElem sha256 none es i hi).2.1]
  exact List.getElem_mem _

/-- The lines of a log without holes pass one after the other. -/
theorem verifyLines_links {anchors : Option (Anchors ν)} (es : List (Event ν))
    (previous : Option (Integrity ν)) (st : ChainState) (hst : Link.Expects st previous)
    (hc : ∀ l ∈ links sha256 previous es, l.Chained sha256) (he : ∀ e ∈ es, e.NoHole)
    (ha : ∀ l ∈ links sha256 previous es, l.Agrees sha256 anchors) :
    ∃ st', ((links sha256 previous es).map (Link.line sha256)).foldlM
        (verifyLine sha256 anchors) st = .ok st' ∧
      Link.Expects st' (chainHead sha256 previous es) ∧ st'.records = st.records + es.length := by
  induction es generalizing previous st with
  | nil => exact ⟨st, rfl, hst, rfl⟩
  | cons e es ih =>
    obtain ⟨st₁, h₁, hst₁, hrec₁, -⟩ :=
      Link.verifyLine_line (hc _ List.mem_cons_self) (he e (by simp)) hst
        (ha _ List.mem_cons_self)
    obtain ⟨st₂, h₂, hst₂, hrec₂⟩ := ih _ st₁ hst₁
      (fun l hl => hc l (List.mem_cons_of_mem _ hl)) (fun f hf => he f (by simp [hf]))
      (fun l hl => ha l (List.mem_cons_of_mem _ hl))
    refine ⟨st₂, ?_, hst₂, by rw [hrec₂, hrec₁, List.length_cons]; omega⟩
    rw [links, List.map_cons, List.foldlM_cons, h₁]
    exact h₂

end Haechi.Audit
