import Haechi.Text.Canonical
import Haechi.Text.Lines

/-! The audit hash chain: how an event becomes a chained record, how a log file
is verified, and how the anchor file is read back. The digest is a parameter.
Nothing here touches a file; the sink and the verifier share these functions. -/

namespace Haechi.Audit

open Text Json

variable {ν : Type}

/-- Keys that never enter a record. -/
def forbiddenKeys : List JsString :=
  ["value", "plaintext", "payload", "content", "message", "prompt", "secret",
    "access_token", "id_token", "refresh_token", "code", "code_verifier",
    "client_secret", "state", "nonce",
    "claims", "subject", "issuer", "credential", "authorization", "signature", "entry",
    "scopes", "labels"].map js

mutual

/-- `sanitizeAudit`. -/
def sanitizeAudit : JsValue ν → JsValue ν
  | .arr items => .arr (sanitizeItems items)
  | .obj fields => .obj (sanitizeFields fields)
  | v => v

def sanitizeItems : List (JsValue ν) → List (JsValue ν)
  | [] => []
  | v :: vs => sanitizeAudit v :: sanitizeItems vs

def sanitizeFields : List (JsString × JsValue ν) → List (JsString × JsValue ν)
  | [] => []
  | (k, v) :: fs =>
    if k ∈ forbiddenKeys then sanitizeFields fs else (k, sanitizeAudit v) :: sanitizeFields fs

end

theorem keys_sanitizeFields (fields : List (JsString × JsValue ν)) :
    ((sanitizeFields fields).map Prod.fst).Sublist (fields.map Prod.fst) := by
  induction fields with
  | nil => exact List.Sublist.refl _
  | cons kv fs ih =>
    obtain ⟨k, v⟩ := kv
    rw [sanitizeFields]
    split_ifs
    · exact ih.cons _
    · exact ih.cons_cons _

theorem mem_sanitizeFields {fields : List (JsString × JsValue ν)} {kv : JsString × JsValue ν}
    (h : kv ∈ sanitizeFields fields) :
    kv.1 ∉ forbiddenKeys ∧ ∃ v, (kv.1, v) ∈ fields ∧ kv.2 = sanitizeAudit v := by
  induction fields with
  | nil => cases h
  | cons kv' fs ih =>
    obtain ⟨k, v⟩ := kv'
    rw [sanitizeFields] at h
    split_ifs at h with hk
    · obtain ⟨hkey, w, hw, heq⟩ := ih h
      exact ⟨hkey, w, List.mem_cons_of_mem _ hw, heq⟩
    · rcases List.mem_cons.mp h with rfl | h
      · exact ⟨hk, v, by simp, rfl⟩
      · obtain ⟨hkey, w, hw, heq⟩ := ih h
        exact ⟨hkey, w, List.mem_cons_of_mem _ hw, heq⟩

theorem field?_sanitizeFields {k : JsString} (hk : k ∉ forbiddenKeys)
    (fields : List (JsString × JsValue ν)) :
    JsValue.field? k (sanitizeFields fields) = (JsValue.field? k fields).map sanitizeAudit := by
  induction fields with
  | nil => rfl
  | cons kv fs ih =>
    obtain ⟨k', v⟩ := kv
    by_cases hforbidden : k' ∈ forbiddenKeys
    · have hne : k' ≠ k := fun he => hk (he ▸ hforbidden)
      simp [sanitizeFields, JsValue.field?, hforbidden, hne, ih]
    · rw [sanitizeFields, if_neg hforbidden, JsValue.field?, JsValue.field?]
      split_ifs
      · rfl
      · exact ih

theorem get_sanitizeAudit {k : JsString} (hk : k ∉ forbiddenKeys) (v : JsValue ν) :
    (sanitizeAudit v).get k = sanitizeAudit (v.get k) := by
  cases v with
  | obj fields =>
    rw [sanitizeAudit, JsValue.get, JsValue.get, field?_sanitizeFields hk]
    cases JsValue.field? k fields <;> rfl
  | _ => rfl

theorem sanitizeItems_eq_map (items : List (JsValue ν)) :
    sanitizeItems items = items.map sanitizeAudit := by
  induction items with
  | nil => rfl
  | cons v vs ih => rw [sanitizeItems, ih, List.map_cons]

theorem distinct_sanitizeAudit (v : JsValue ν) (hv : v.Distinct) :
    (sanitizeAudit v).Distinct := by
  induction v using JsValue.induct with
  | arr items ih =>
    rw [sanitizeAudit, JsValue.distinct_arr, sanitizeItems_eq_map, List.forall_mem_map]
    exact fun v hmem => ih v hmem (JsValue.distinct_arr.mp hv v hmem)
  | obj fields ih =>
    obtain ⟨hn, hd⟩ := JsValue.distinct_obj.mp hv
    rw [sanitizeAudit, JsValue.distinct_obj]
    refine ⟨hn.sublist (keys_sanitizeFields fields), fun kv hkv => ?_⟩
    obtain ⟨-, v, hmem, heq⟩ := mem_sanitizeFields hkv
    rw [heq]
    exact ih _ hmem (hd _ hmem)
  | _ => trivial

/-- An audit event: the members of an object. Values that JSON cannot hold, such
as functions, count as holes. -/
structure Event (ν : Type) where
  fields : List (JsString × JsValue ν)
  distinct : (JsValue.obj fields).Distinct

/-- The event as the record builder receives it. -/
def Event.sanitized (e : Event ν) : List (JsString × JsValue ν) := sanitizeFields e.fields

theorem Event.sanitized_distinct (e : Event ν) : (JsValue.obj e.sanitized).Distinct :=
  distinct_sanitizeAudit (.obj e.fields) e.distinct

/-! ### Building a record -/

variable [JsNumber ν]

/-- What a record needs of the one before it: the sequence number and the hash
in its `auditIntegrity`. -/
structure Integrity (ν : Type) where
  sequence : ℕ
  eventHash : JsValue ν

/-- `last.auditIntegrity ?? null`, for a last line that is a chained record or
has no integrity member. -/
def Integrity.ofValue (v : JsValue ν) : Option (Integrity ν) :=
  match v.get (js "sequence") with
  | .num x => (JsNumber.toNat? x).map fun n => ⟨n, v.get (js "eventHash")⟩
  | _ => none

/-- `previous?.eventHash ?? null`. -/
def previousHash (previous : Option (Integrity ν)) : JsValue ν :=
  match previous with
  | none => .null
  | some p => match p.eventHash with
    | .undef => .null
    | h => h

/-- `previous ? previous.sequence + 1 : 1`. -/
def nextSequence (previous : Option (Integrity ν)) : ℕ :=
  match previous with
  | none => 1
  | some p => p.sequence + 1

/-- `auditIntegrity` before it is signed with the event's hash. -/
def unsignedIntegrity (previous : Option (Integrity ν)) : List (JsString × JsValue ν) :=
  [(js "alg", .str (js "sha256")),
    (js "canonicalization", .str (js "json-stable-v1")),
    (js "sequence", .num (JsNumber.ofNat (nextSequence previous))),
    (js "previousHash", previousHash previous)]

/-- The record whose stable text is hashed. -/
def unsignedRecord (previous : Option (Integrity ν)) (event : List (JsString × JsValue ν)) :
    List (JsString × JsValue ν) :=
  JsValue.setField (js "auditIntegrity") (.obj (unsignedIntegrity previous)) event

/-- The alphabet of base64url. -/
def isBase64Url (c : UInt16) : Bool :=
  isDigit c || (65 ≤ c && c ≤ 90) || (97 ≤ c && c ≤ 122) || c == 45 || c == 95

/-- A digest of texts, written in base64url. -/
structure Digest where
  digest : JsString → JsString
  alphabet : ∀ s, ∀ c ∈ digest s, isBase64Url c = true

instance : CoeFun Digest fun _ => JsString → JsString := ⟨Digest.digest⟩

/-- A digest that keeps everything: each code unit as four hexadecimal digits. -/
def hexDigest : Digest where
  digest s := s.flatMap fun c => (unicodeEscape c).drop 2
  alphabet s c hc := by
    have hdigit : ∀ n < 16, isBase64Url (hexDigit n) = true := by decide
    simp only [List.mem_flatMap, unicodeEscape, List.drop_succ_cons, List.drop_zero,
      List.mem_cons, List.not_mem_nil, or_false] at hc
    obtain ⟨d, -, h⟩ := hc
    have hd := d.toNat_lt
    rcases h with rfl | rfl | rfl | rfl <;> exact hdigit _ (by omega)

theorem hexDigest_injective : Function.Injective hexDigest.digest := by
  intro s t h
  induction s generalizing t with
  | nil =>
    cases t with
    | nil => rfl
    | cons d t => cases h
  | cons c s ih =>
    cases t with
    | nil => cases h
    | cons d t =>
      simp only [hexDigest, List.flatMap_cons, unicodeEscape, List.drop_succ_cons, List.drop_zero,
        List.cons_append, List.nil_append, List.cons.injEq] at h
      obtain ⟨h₁, h₂, h₃, h₄, h⟩ := h
      have hc := hexUnit_unicode c
      rw [h₁, h₂, h₃, h₄, hexUnit_unicode d] at hc
      rw [Option.some.inj hc, ih h]

/-- The digest of an object's stable text. -/
def recordHash (sha256 : Digest) (record : List (JsString × JsValue ν)) : JsString :=
  sha256 ((canonicalize (.obj record)).getD [])

/-- `buildIntegrityRecord`. -/
def buildIntegrityRecord (sha256 : Digest) (previous : Option (Integrity ν))
    (event : List (JsString × JsValue ν)) : List (JsString × JsValue ν) :=
  let unsigned := unsignedRecord previous event
  JsValue.setField (js "auditIntegrity")
    (.obj (unsignedIntegrity previous ++
      [(js "eventHash", .str (recordHash sha256 unsigned))])) unsigned

/-! ### Reading anchors -/

/-- The anchors of an anchor file, and the largest sequence number among them. -/
structure Anchors (ν : Type) where
  bySequence : List (ν × JsString)
  lastSequence : ν

/-- `map.set`. -/
def setAnchor (sequence : ν) (hash : JsString) (m : List (ν × JsString)) : List (ν × JsString) :=
  if sequence ∈ m.map Prod.fst then m.map fun kv => if kv.1 = sequence then (sequence, hash) else kv
  else m ++ [(sequence, hash)]

/-- `map.get`. -/
def getAnchor (sequence : ν) (m : List (ν × JsString)) : Option JsString :=
  (m.find? fun kv => kv.1 = sequence).map Prod.snd

/-- One line of the anchor file: a line that does not parse is skipped, as is a
line without a numeric sequence and a hash; `null` has no members to read. -/
def readAnchor (anchors : Anchors ν) (line : JsString) : Option (Anchors ν) :=
  match (parse line : Option (JsValue ν)) with
  | none => some anchors
  | some .null => none
  | some anchor =>
    match anchor.get (js "sequence"), anchor.get (js "eventHash") with
    | .num sequence, .str hash =>
      some
        { bySequence := setAnchor sequence hash anchors.bySequence
          lastSequence :=
            if JsNumber.lt anchors.lastSequence sequence then sequence else anchors.lastSequence }
    | _, _ => some anchors

/-- `readAnchors`; a missing file has no anchors and `none` is an exception. -/
def readAnchors (file : Option JsString) : Option (Anchors ν) :=
  (nonBlank (readLines (file.getD []))).foldlM readAnchor ⟨[], JsNumber.ofNat 0⟩

/-! ### Verifying a log -/

/-- Why verification fails: an exception, or `valid: false` with a reason. -/
inductive Failure where
  | threw
  | invalid (records : ℕ) (reason : JsString)
deriving DecidableEq

/-- What verification answers. -/
inductive Verdict (ν : Type) where
  | failed (failure : Failure)
  | valid (records : ℕ) (headHash : Option JsString) (anchored : Option (ℕ × ν))
deriving DecidableEq

/-- The verifier between two lines. -/
structure ChainState where
  expectedPreviousHash : Option JsString
  expectedSequence : ℕ
  records : ℕ

/-- `(v ?? null) === hash`. -/
def isHash (v : JsValue ν) (hash : Option JsString) : Bool :=
  match v, hash with
  | .undef, none | .null, none => true
  | .str s, some h => s == h
  | _, _ => false

/-- `v === n` for a count. -/
def isCount (v : JsValue ν) (n : ℕ) : Bool :=
  match v with
  | .num x => x == JsNumber.ofNat n
  | _ => false

/-- The record as the hash sees it: without the hash itself. -/
def withoutHash (record integrity : List (JsString × JsValue ν)) : List (JsString × JsValue ν) :=
  JsValue.setField (js "auditIntegrity") (.obj (JsValue.eraseField (js "eventHash") integrity))
    record

/-- One parsed record of the log. -/
def verifyRecord (sha256 : Digest) (anchors : Option (Anchors ν)) (st : ChainState)
    (record : JsValue ν) : Except Failure ChainState :=
  let integrity := record.get (js "auditIntegrity")
  if !integrity.truthy then
    .error (.invalid st.records (js "missing auditIntegrity"))
  else if !isCount (integrity.get (js "sequence")) st.expectedSequence then
    .error (.invalid st.records (js "sequence mismatch"))
  else if !isHash (integrity.get (js "previousHash")) st.expectedPreviousHash then
    .error (.invalid st.records (js "previous hash mismatch"))
  else
    match record, integrity with
    | .obj fields, .obj members =>
      let expectedHash := recordHash sha256 (withoutHash fields members)
      if !isHash (integrity.get (js "eventHash")) (some expectedHash) then
        .error (.invalid st.records (js "event hash mismatch"))
      else
        match anchors.bind fun a => getAnchor (JsNumber.ofNat st.expectedSequence) a.bySequence with
        | some hash =>
          if hash = expectedHash then
            .ok ⟨some expectedHash, st.expectedSequence + 1, st.records + 1⟩
          else
            .error (.invalid st.records
              (js "anchor hash mismatch at sequence " ++ natText st.expectedSequence))
        | none => .ok ⟨some expectedHash, st.expectedSequence + 1, st.records + 1⟩
    -- only an object has members to read
    | _, _ => .error (.invalid st.records (js "sequence mismatch"))

/-- One line of the log. A line that does not parse, and the member of `null`,
are exceptions. -/
def verifyLine (sha256 : Digest) (anchors : Option (Anchors ν)) (st : ChainState)
    (line : JsString) : Except Failure ChainState :=
  match (parse line : Option (JsValue ν)) with
  | none | some .null => .error .threw
  | some record => verifyRecord sha256 anchors st record

/-- The verdict after the last line. -/
def closeChain (anchors : Option (Anchors ν)) (st : ChainState) : Verdict ν :=
  match anchors with
  | none => .valid st.records st.expectedPreviousHash none
  | some a =>
    if JsNumber.lt (JsNumber.ofNat st.records) a.lastSequence then
      .failed (.invalid st.records
        (js "tail truncation: chain has " ++ natText st.records ++
          js " records but anchor attests sequence " ++ JsNumber.toText a.lastSequence))
    else .valid st.records st.expectedPreviousHash (some (a.bySequence.length, a.lastSequence))

def verifyLines (sha256 : Digest) (anchors : Option (Anchors ν))
    (lines : List JsString) : Verdict ν :=
  match lines.foldlM (verifyLine sha256 anchors) ⟨none, 1, 0⟩ with
  | .error failure => .failed failure
  | .ok st => closeChain anchors st

/-- `verifyAuditChain`. The anchor file is read when its path is given; both
files may be missing. -/
def verifyAuditChain (sha256 : Digest) (file : Option JsString)
    (anchorFile : Option (Option JsString)) : Verdict ν :=
  match anchorFile.map readAnchors with
  | some none => .failed .threw
  | anchors =>
    match file with
    | none => .failed .threw
    | some text => verifyLines sha256 anchors.join (nonBlank (readLines text))

end Haechi.Audit
