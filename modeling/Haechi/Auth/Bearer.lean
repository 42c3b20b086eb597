import Haechi.Audit.Chain
import Haechi.Runs

/-! The bearer-token store: one file of records, which `addToken` and `revokeToken`
read whole, change and write back, with nothing to keep two of them apart.
`authenticate` reads the file and looks for an enabled record with the hash of the
token it is shown. -/

namespace Haechi.Auth

open Text

/-! ### Records -/

structure Record where
  id : JsString
  tokenHash : JsString
  type : JsString
  scopes : List JsString
  labels : List (JsString × JsString)
  createdAt : JsString
  disabled : Bool
deriving DecidableEq

/-- The keyed hash of a text under a domain. -/
abbrev Hmac := JsString → JsString → JsString

def tokenDomain : JsString := js "haechi:auth:token:v1"

def identityDomain : JsString := js "haechi:identity:hash:v1"

def tokenPrefix : JsString := js "hae_"

def validIdentityTypes : List JsString := ["user", "service", "agent"].map js

def maxLabelValueLength : ℕ := 64

/-- One entry of `validateLabels`. -/
def validateLabel (allowedLabelKeys : List JsString) (entry : JsString × JsString) :
    Except JsString Unit :=
  if entry.1 ∉ allowedLabelKeys then
    .error (js "Label key not allowed: " ++ entry.1 ++ js " (allowed: " ++
      (if List.intercalate (js ", ") allowedLabelKeys = [] then js "none"
        else List.intercalate (js ", ") allowedLabelKeys) ++ js ")")
  else if entry.2 = [] ∨ maxLabelValueLength < entry.2.length then
    .error (js "Label value for " ++ entry.1 ++ js " must be a non-empty string up to 64 chars")
  else .ok ()

/-- What `addToken` is asked for. -/
structure AddRequest where
  type : JsString
  scopes : List JsString
  labels : List (JsString × JsString)
  allowedLabelKeys : List JsString := ["team", "env", "tier", "role"].map js

/-- The random part of a token. -/
structure Secret where
  text : JsString
  alphabet : ∀ c ∈ text, Audit.isBase64Url c = true

/-- The token shown to the caller. -/
def Secret.token (s : Secret) : JsString := tokenPrefix ++ s.text

/-- The checks of `addToken`, and the record it then builds. -/
def newRecord (hmac : Hmac) (req : AddRequest) (secret : Secret) (id createdAt : JsString) :
    Except JsString Record :=
  if req.type ∉ validIdentityTypes then
    .error (js "Invalid token type: " ++ req.type ++ js " (expected user | service | agent)")
  else if req.scopes.any fun scope => trim scope = [] then
    .error (js "scopes must be an array of non-empty strings")
  else
    (req.labels.forM (validateLabel req.allowedLabelKeys)).map fun _ => {
      id := id
      tokenHash := hmac tokenDomain secret.token
      type := req.type
      scopes := req.scopes
      labels := req.labels
      createdAt := createdAt
      disabled := false }

/-! ### Authentication -/

/-- `bearerTokenFromRequest`, from the authorization header. -/
def bearerToken (header : JsString) : Option JsString :=
  let header := trim header
  let rest := (header.drop 6).dropWhile isSpace
  if lowerAscii (header.take 6) ≠ js "bearer" ∨ rest = header.drop 6 ∨ rest = [] ∨
      rest.any isTerminator then
    none
  else some (trim rest)

structure Identity where
  id : JsString
  type : JsString
  subjectHash : JsString
  issuerHash : JsString
  provider : JsString
  scopes : List JsString
  labels : List (JsString × JsString)
deriving DecidableEq

def buildIdentity (hmac : Hmac) (record : Record) : Identity where
  id := record.id
  type := record.type
  subjectHash := hmac identityDomain record.id
  issuerHash := hmac identityDomain (js "bearer-local")
  provider := js "bearer"
  scopes := record.scopes
  labels := record.labels

/-- The last enabled record with the hash. -/
def matchRecord (candidateHash : JsString) (tokens : List Record) : Option Record :=
  tokens.foldl
    (fun matched record =>
      if !record.disabled && candidateHash == record.tokenHash then some record else matched) none

/-- `authenticate`, over the records it reads. -/
def authenticate (hmac : Hmac) (tokens : List Record) (header : JsString) : Option Identity :=
  (bearerToken header).bind fun token =>
    (matchRecord (hmac tokenDomain token) tokens).map (buildIdentity hmac)

/-! ### Changing the file -/

/-- An administrative call that has passed its own checks. -/
inductive Operation where
  | addToken (secret : Secret) (record : Record)
  | revokeToken (id : JsString)

/-- `record.disabled = true` on the first record with the id. -/
def disable (id : JsString) : List Record → List Record
  | [] => []
  | r :: rs => if r.id = id then { r with disabled := true } :: rs else r :: disable id rs

/-- What a call does to the records it has read; `none` if it throws. -/
def Operation.update : Operation → List Record → Option (List Record)
  | .addToken _ record, tokens => some (tokens ++ [record])
  | .revokeToken id, tokens =>
    if tokens.any fun r => r.id = id then some (disable id tokens) else none

/-- Where a call is: before reading, with the records it has read, or at its end. -/
inductive Phase where
  | start
  | read (tokens : List Record)
  | done
  | failed

structure Call where
  op : Operation
  phase : Phase

/-- The file, `none` before it exists, and all calls so far. -/
structure State where
  file : Option (List Record)
  calls : List Call

/-- `readAuthStore`. -/
def State.tokens (s : State) : List Record := s.file.getD []

/-- A step of the process: a call arrives, reads, writes or fails. -/
inductive Action where
  | addToken (req : AddRequest) (secret : Secret) (id createdAt : JsString)
  | revokeToken (id : JsString)
  | read (i : ℕ)
  | write (i : ℕ)
  | fail (i : ℕ)

def State.goto (s : State) (i : ℕ) (c : Call) (p : Phase) : State :=
  { s with calls := s.calls.set i { c with phase := p } }

/-- Call `i` reads the file. A revocation throws here when the id is unknown. -/
def State.read (s : State) (i : ℕ) (c : Call) : State :=
  match c.phase with
  | .start => s.goto i c (if (c.op.update s.tokens).isSome then .read s.tokens else .failed)
  | _ => s

/-- Call `i` replaces the file by what it read, changed. -/
def State.write (s : State) (i : ℕ) (c : Call) : State :=
  match c.phase with
  | .read tokens => { s.goto i c .done with file := some ((c.op.update tokens).getD tokens) }
  | _ => s

/-- Call `i` meets an error of the file system before its file is renamed. -/
def State.fail (s : State) (i : ℕ) (c : Call) : State :=
  match c.phase with
  | .start | .read _ => s.goto i c .failed
  | _ => s

/-- An action of a call that has arrived. -/
def State.at (s : State) (i : ℕ) (act : State → ℕ → Call → State) : State :=
  match s.calls[i]? with
  | none => s
  | some c => act s i c

def step (hmac : Hmac) (s : State) : Action → State
  | .addToken req secret id createdAt =>
    match newRecord hmac req secret id createdAt with
    | .error _ => s
    | .ok record => { s with calls := s.calls ++ [⟨.addToken secret record, .start⟩] }
  | .revokeToken id => { s with calls := s.calls ++ [⟨.revokeToken id, .start⟩] }
  | .read i => s.at i State.read
  | .write i => s.at i State.write
  | .fail i => s.at i State.fail

def start (file : Option (List Record)) : State := ⟨file, []⟩

/-! ### Single operations -/

theorem mem_disable {id : JsString} {tokens : List Record} {r : Record} (h : r ∈ disable id tokens) :
    r ∈ tokens ∨ ∃ r' ∈ tokens, r'.id = id ∧ r = { r' with disabled := true } := by
  induction tokens with
  | nil => cases h
  | cons t ts ih =>
    rw [disable] at h
    split_ifs at h with hid
    · rcases List.mem_cons.mp h with rfl | h
      · exact .inr ⟨t, List.mem_cons_self, hid, rfl⟩
      · exact .inl (List.mem_cons_of_mem _ h)
    · rcases List.mem_cons.mp h with rfl | h
      · exact .inl List.mem_cons_self
      · rcases ih h with h | ⟨r', hr', h⟩
        · exact .inl (List.mem_cons_of_mem _ h)
        · exact .inr ⟨r', List.mem_cons_of_mem _ hr', h⟩

theorem disable_mem {id : JsString} {tokens : List Record} {r : Record} (h : r ∈ tokens) :
    r ∈ disable id tokens ∨ r.id = id ∧ { r with disabled := true } ∈ disable id tokens := by
  induction tokens with
  | nil => cases h
  | cons t ts ih =>
    rw [disable]
    split_ifs with hid
    · rcases List.mem_cons.mp h with rfl | h
      · exact .inr ⟨hid, List.mem_cons_self⟩
      · exact .inl (List.mem_cons_of_mem _ h)
    · rcases List.mem_cons.mp h with rfl | h
      · exact .inl List.mem_cons_self
      · exact (ih h).imp (List.mem_cons_of_mem _) fun h => ⟨h.1, List.mem_cons_of_mem _ h.2⟩

theorem ids_disable (id : JsString) (tokens : List Record) :
    (disable id tokens).map Record.id = tokens.map Record.id := by
  induction tokens with
  | nil => rfl
  | cons t ts ih =>
    rw [disable]
    split_ifs
    · rfl
    · rw [List.map_cons, List.map_cons, ih]

/-- With one record for each id, disabling an id leaves none enabled under it. -/
theorem disabled_of_mem_disable {id : JsString} {tokens : List Record}
    (hn : (tokens.map Record.id).Nodup) {r : Record} (h : r ∈ disable id tokens)
    (hid : r.id = id) : r.disabled = true := by
  induction tokens with
  | nil => cases h
  | cons t ts ih =>
    rw [List.map_cons, List.nodup_cons] at hn
    rw [disable] at h
    split_ifs at h with ht
    · rcases List.mem_cons.mp h with rfl | h
      · rfl
      · exact absurd (List.mem_map.mpr ⟨r, h, hid.trans ht.symm⟩) hn.1
    · rcases List.mem_cons.mp h with rfl | h
      · exact absurd hid ht
      · exact ih hn.2 h

theorem matchRecord_spec (candidateHash : JsString) (tokens : List Record) :
    (∀ r, matchRecord candidateHash tokens = some r →
      r ∈ tokens ∧ r.disabled = false ∧ r.tokenHash = candidateHash) ∧
    (∀ r ∈ tokens, r.disabled = false → r.tokenHash = candidateHash →
      (matchRecord candidateHash tokens).isSome) := by
  induction tokens using List.reverseRecOn with
  | nil => exact ⟨fun r h => (by cases h), fun r h => (by cases h)⟩
  | append_singleton ts t ih =>
    have hstep : matchRecord candidateHash (ts ++ [t]) =
        if !t.disabled && candidateHash == t.tokenHash then some t
        else matchRecord candidateHash ts := by
      rw [matchRecord, List.foldl_append]
      rfl
    rw [hstep]
    by_cases ht : (!t.disabled && candidateHash == t.tokenHash) = true
    · rw [if_pos ht]
      obtain ⟨hen, hhash⟩ : t.disabled = false ∧ candidateHash = t.tokenHash := by simpa using ht
      refine ⟨fun r h => ?_, fun _ _ _ _ => rfl⟩
      obtain rfl := Option.some.inj h
      exact ⟨by simp, hen, hhash.symm⟩
    · rw [if_neg ht]
      refine ⟨fun r h => ?_, fun r hr hen hhash => ?_⟩
      · obtain ⟨hmem, h⟩ := ih.1 r h
        exact ⟨List.mem_append_left _ hmem, h⟩
      · rcases List.mem_append.mp hr with hr | hr
        · exact ih.2 r hr hen hhash
        · obtain rfl := List.mem_singleton.mp hr
          exact absurd (by simp [hen, hhash]) ht

/-- The header a client sends for a token. -/
def bearerHeader (token : JsString) : JsString := js "Bearer " ++ token

theorem not_blank_of_isBase64Url {c : UInt16} (h : Audit.isBase64Url c = true) :
    isSpace c = false ∧ isTerminator c = false := by
  have hrange : 45 ≤ c.toNat ∧ c.toNat ≤ 122 := by
    simp only [Audit.isBase64Url, isDigit, Bool.or_eq_true, Bool.and_eq_true, decide_eq_true_eq,
      beq_iff_eq, UInt16.le_iff_toNat_le, ← UInt16.toNat_inj] at h
    simp only [UInt16.reduceToNat] at h
    omega
  simp only [isSpace, isTerminator, Bool.or_eq_false_iff, Bool.and_eq_false_iff, beq_eq_false_iff_ne,
    decide_eq_false_iff_not, ne_eq, UInt16.le_iff_toNat_le, ← UInt16.toNat_inj, UInt16.reduceToNat]
  omega

theorem not_blank_token (s : Secret) : ∀ c ∈ s.token, isSpace c = false ∧ isTerminator c = false := by
  intro c hc
  rcases List.mem_append.mp hc with hc | hc
  · have hpre : ∀ c ∈ tokenPrefix, isSpace c = false ∧ isTerminator c = false := by decide
    exact hpre c hc
  · exact not_blank_of_isBase64Url (s.alphabet c hc)

theorem trim_of_not_blank {c : UInt16} {s : JsString} (hc : isSpace c = false)
    (hs : ∀ h : s ≠ [], isSpace (s.getLast h) = false) : trim (c :: s) = c :: s := by
  rw [trim, List.dropWhile_cons_of_neg (by simp [hc]), List.rdropWhile_eq_self_iff]
  intro _
  rcases List.eq_nil_or_concat s with rfl | ⟨t, d, rfl⟩
  · simp [hc]
  · simpa using hs (by simp)

/-- The header of a token is parsed back to the token. -/
theorem bearerToken_header (s : Secret) : bearerToken (bearerHeader s.token) = some s.token := by
  have hlast : ∀ h : s.token ≠ [], isSpace (s.token.getLast h) = false := fun h =>
    (not_blank_token s _ (List.getLast_mem h)).1
  have htoken : s.token = 104 :: ([97, 101, 95] ++ s.text) := rfl
  have hheader : bearerHeader s.token = 66 :: ([101, 97, 114, 101, 114, 32] ++ s.token) := rfl
  have htrim : trim (bearerHeader s.token) = bearerHeader s.token := by
    rw [hheader]
    refine trim_of_not_blank (by decide) fun h => ?_
    rw [List.getLast_append_of_right_ne_nil _ _ (by simp [htoken])]
    exact hlast _
  have htake : lowerAscii ((bearerHeader s.token).take 6) = js "bearer" := rfl
  have hdrop : (bearerHeader s.token).drop 6 = 32 :: s.token := rfl
  have hrest : (32 :: s.token).dropWhile isSpace = s.token := by
    rw [List.dropWhile_cons_of_pos (by decide), htoken, List.dropWhile_cons_of_neg (by decide)]
  have hterm : s.token.any isTerminator = false :=
    List.any_eq_false.mpr fun c hc => by simp [(not_blank_token s c hc).2]
  have hself : trim s.token = s.token := by
    rw [htoken]
    refine trim_of_not_blank (by decide) fun h => ?_
    have := hlast (by simp [htoken])
    simpa only [htoken, List.getLast_cons h] using this
  simp only [bearerToken, htrim, htake, hdrop, hrest, hterm, hself]
  rw [if_neg]
  rintro (h | h | h | h)
  · exact h rfl
  · exact absurd (congrArg List.length h) (by simp)
  · exact absurd h (by simp [htoken])
  · cases h

theorem newRecord_ok {hmac : Hmac} {req : AddRequest} {secret : Secret} {id createdAt : JsString}
    {r : Record} (h : newRecord hmac req secret id createdAt = .ok r) :
    r.tokenHash = hmac tokenDomain secret.token ∧ r.disabled = false ∧ r.id = id := by
  unfold newRecord at h
  split_ifs at h
  cases hlabels : req.labels.forM (validateLabel req.allowedLabelKeys) with
  | error e =>
    rw [hlabels] at h
    cases h
  | ok _ =>
    rw [hlabels] at h
    obtain rfl := Except.ok.inj h
    exact ⟨rfl, rfl, rfl⟩

/-! ### Runs -/

/-- The id of a new token is not that of a record or of another new token. -/
def FreshId (s : State) : Action → Prop
  | .addToken _ _ id _ => (∀ r ∈ s.tokens, r.id ≠ id) ∧
      ∀ c ∈ s.calls, ∀ secret record, c.op = .addToken secret record → record.id ≠ id
  | _ => True

/-- A call that writes would write the same had it read the file now. -/
def UpToDate (s : State) : Action → Prop
  | .write i => ∀ op tokens, s.calls[i]? = some ⟨op, .read tokens⟩ →
      op.update tokens = op.update s.tokens
  | _ => True

/-- A revocation of the id has completed. -/
def Revoked (s : State) (id : JsString) : Prop := ⟨.revokeToken id, .done⟩ ∈ s.calls

/-- Two additions are of different ids. -/
def Apart (op op' : Operation) : Prop :=
  ∀ secret secret' r r', op = .addToken secret r → op' = .addToken secret' r' → r.id ≠ r'.id

/-- Nothing that has completed is undone, and what is pending is well formed. -/
structure Kept (hmac : Hmac) (s : State) : Prop where
  nodup : (s.tokens.map Record.id).Nodup
  apart : (s.calls.map Call.op).Pairwise Apart
  shape : ∀ secret r p, ⟨.addToken secret r, p⟩ ∈ s.calls →
    r.tokenHash = hmac tokenDomain secret.token ∧ r.disabled = false
  pending : ∀ secret r p, ⟨.addToken secret r, p⟩ ∈ s.calls → p ≠ .done →
    ∀ t ∈ s.tokens, t.id ≠ r.id
  readable : ∀ op tokens, ⟨op, .read tokens⟩ ∈ s.calls → (op.update tokens).isSome
  added : ∀ secret r, ⟨.addToken secret r, .done⟩ ∈ s.calls →
    r ∈ s.tokens ∨ Revoked s r.id ∧ { r with disabled := true } ∈ s.tokens
  revoked : ∀ id, Revoked s id → (∃ t ∈ s.tokens, t.id = id) ∧
    ∀ t ∈ s.tokens, t.id = id → t.disabled = true

variable {hmac : Hmac} {s : State} {i : ℕ} {c : Call}

theorem mem_goto {c' : Call} {p : Phase} (h : c' ∈ (s.goto i c p).calls) :
    c' = { c with phase := p } ∨ ∃ j, i ≠ j ∧ s.calls[j]? = some c' := by
  obtain ⟨j, hj⟩ := List.mem_iff_getElem?.mp h
  rw [State.goto, List.getElem?_set] at hj
  split_ifs at hj with hij hlt
  · exact .inl (Option.some.inj hj).symm
  · exact .inr ⟨j, hij, hj⟩

theorem mem_goto_self (hc : s.calls[i]? = some c) (p : Phase) :
    { c with phase := p } ∈ (s.goto i c p).calls :=
  List.mem_set (List.getElem?_eq_some_iff.mp hc).1 _

theorem mem_goto_of_ne {c' : Call} {p : Phase} (hc : s.calls[i]? = some c) (hne : c' ≠ c)
    (h : c' ∈ s.calls) : c' ∈ (s.goto i c p).calls := by
  obtain ⟨j, hj⟩ := List.mem_iff_getElem?.mp h
  refine List.mem_iff_getElem?.mpr ⟨j, ?_⟩
  rw [State.goto, List.getElem?_set_ne]
  · exact hj
  · rintro rfl
    rw [hc] at hj
    exact hne (Option.some.inj hj).symm

theorem ops_goto (hc : s.calls[i]? = some c) (p : Phase) :
    (s.goto i c p).calls.map Call.op = s.calls.map Call.op := by
  obtain ⟨hlt, rfl⟩ := List.getElem?_eq_some_iff.mp hc
  have hmap : i < (s.calls.map Call.op).length := by simpa using hlt
  rw [State.goto, List.map_set]
  exact (congrArg _ (List.getElem_map Call.op (h := hmap)).symm).trans (List.set_getElem_self hmap)

theorem Kept.apart_of_ne (h : Kept hmac s) {j : ℕ} {d : Call} (hc : s.calls[i]? = some c)
    (hd : s.calls[j]? = some d) (hij : i ≠ j) : Apart c.op d.op := by
  obtain ⟨hi, rfl⟩ := List.getElem?_eq_some_iff.mp hc
  obtain ⟨hj, rfl⟩ := List.getElem?_eq_some_iff.mp hd
  have hapart := List.pairwise_iff_getElem.mp h.apart
  simp only [List.getElem_map, List.length_map] at hapart
  rcases lt_or_gt_of_ne hij with hlt | hlt
  · exact hapart i j hi hj hlt
  · exact fun secret secret' r r' hr hr' => (hapart j i hj hi hlt secret' secret r' r hr' hr).symm

/-- A call that moves on without completing undoes nothing. -/
theorem Kept.goto (h : Kept hmac s) (hc : s.calls[i]? = some c) (hcp : c.phase ≠ .done) {p : Phase}
    (hp : p ≠ .done) (hread : ∀ tokens, p = .read tokens → (c.op.update tokens).isSome) :
    Kept hmac (s.goto i c p) := by
  have hmem := List.mem_of_getElem? hc
  have hdone : ∀ {op}, ⟨op, .done⟩ ∈ (s.goto i c p).calls ↔ ⟨op, .done⟩ ∈ s.calls := by
    intro op
    refine ⟨fun h => ?_, fun h => mem_goto_of_ne hc (fun he => hcp (he ▸ rfl)) h⟩
    rcases mem_goto h with he | ⟨j, -, hj⟩
    · exact absurd (congrArg Call.phase he).symm hp
    · exact List.mem_of_getElem? hj
  refine ⟨h.nodup, (ops_goto hc p).symm ▸ h.apart, ?_, ?_, ?_, ?_, ?_⟩
  · intro secret r q hq
    rcases mem_goto hq with he | ⟨j, -, hj⟩
    · obtain ⟨op, q'⟩ := c
      obtain ⟨rfl, rfl⟩ := Call.mk.inj he
      exact h.shape secret r _ hmem
    · exact h.shape secret r q (List.mem_of_getElem? hj)
  · intro secret r q hq hne
    rcases mem_goto hq with he | ⟨j, -, hj⟩
    · obtain ⟨op, q'⟩ := c
      obtain ⟨rfl, rfl⟩ := Call.mk.inj he
      exact h.pending secret r _ hmem hcp
    · exact h.pending secret r q (List.mem_of_getElem? hj) hne
  · intro op tokens hq
    rcases mem_goto hq with he | ⟨j, -, hj⟩
    · obtain ⟨rfl, hphase⟩ := Call.mk.inj he
      exact hread tokens hphase.symm
    · exact h.readable op tokens (List.mem_of_getElem? hj)
  · intro secret r hq
    exact (h.added secret r (hdone.mp hq)).imp_right fun hr => ⟨hdone.mpr hr.1, hr.2⟩
  · exact fun id hr => h.revoked id (hdone.mp hr)

/-- A new call is pending. -/
theorem Kept.arrive (h : Kept hmac s) {op : Operation}
    (hnew : ∀ secret r, op = .addToken secret r →
      r.tokenHash = hmac tokenDomain secret.token ∧ r.disabled = false ∧
        (∀ t ∈ s.tokens, t.id ≠ r.id) ∧
        ∀ c ∈ s.calls, ∀ secret' r', c.op = .addToken secret' r' → r'.id ≠ r.id) :
    Kept hmac { s with calls := s.calls ++ [⟨op, .start⟩] } := by
  have hcases : ∀ {c : Call}, c ∈ s.calls ++ [⟨op, .start⟩] → c ∈ s.calls ∨ c = ⟨op, .start⟩ :=
    fun h => (List.mem_append.mp h).imp id List.mem_singleton.mp
  have hdone : ∀ {op'}, ⟨op', .done⟩ ∈ s.calls ++ [⟨op, .start⟩] → ⟨op', .done⟩ ∈ s.calls :=
    fun h => (hcases h).elim id fun he => by cases he
  refine ⟨h.nodup, ?_, ?_, ?_, ?_, ?_, fun id hr => h.revoked id (hdone hr)⟩
  · rw [List.map_append, List.pairwise_append]
    refine ⟨h.apart, List.pairwise_singleton _ _, fun op' hop' op'' hop'' => ?_⟩
    obtain rfl := List.mem_singleton.mp hop''
    obtain ⟨c, hc, rfl⟩ := List.mem_map.mp hop'
    exact fun secret secret' r r' hr hr' => (hnew secret' r' hr').2.2.2 c hc secret r hr
  · intro secret r p hp
    rcases hcases hp with hp | he
    · exact h.shape secret r p hp
    · obtain ⟨hop, -⟩ := Call.mk.inj he
      exact ⟨(hnew secret r hop.symm).1, (hnew secret r hop.symm).2.1⟩
  · intro secret r p hp hne
    rcases hcases hp with hp | he
    · exact h.pending secret r p hp hne
    · obtain ⟨hop, -⟩ := Call.mk.inj he
      exact (hnew secret r hop.symm).2.2.1
  · intro op' tokens hp
    rcases hcases hp with hp | he
    · exact h.readable op' tokens hp
    · cases he
  · intro secret r hp
    exact (h.added secret r (hdone hp)).imp_right fun hr => ⟨List.mem_append_left _ hr.1, hr.2⟩

theorem update_mem {op : Operation} {tokens tokens' : List Record} (h : op.update tokens = some tokens')
    {t : Record} (ht : t ∈ tokens) :
    t ∈ tokens' ∨ op = .revokeToken t.id ∧ { t with disabled := true } ∈ tokens' := by
  cases op with
  | addToken secret r =>
    obtain rfl := Option.some.inj h
    exact .inl (List.mem_append_left _ ht)
  | revokeToken id =>
    rw [Operation.update] at h
    split_ifs at h
    obtain rfl := Option.some.inj h
    exact (disable_mem ht).imp_right fun h => ⟨congrArg _ h.1.symm, h.2⟩

theorem mem_update {op : Operation} {tokens tokens' : List Record} (h : op.update tokens = some tokens')
    {t : Record} (ht : t ∈ tokens') :
    t ∈ tokens ∨ (∃ secret, op = .addToken secret t) ∨
      ∃ t' ∈ tokens, op = .revokeToken t'.id ∧ t = { t' with disabled := true } := by
  cases op with
  | addToken secret r =>
    obtain rfl := Option.some.inj h
    refine (List.mem_append.mp ht).imp_right fun ht => .inl ⟨secret, ?_⟩
    rw [List.mem_singleton.mp ht]
  | revokeToken id =>
    rw [Operation.update] at h
    split_ifs at h
    obtain rfl := Option.some.inj h
    refine (mem_disable ht).imp_right fun ⟨t', ht', hid, he⟩ => .inr ⟨t', ht', congrArg _ hid.symm, he⟩

/-- A write of records that are up to date undoes nothing, and completes its own call. -/
theorem Kept.write (h : Kept hmac s) (hc : s.calls[i]? = some c) {tokens tokens' : List Record}
    (hp : c.phase = .read tokens) (hw : c.op.update s.tokens = some tokens') :
    Kept hmac { s.goto i c .done with file := some tokens' } := by
  have hmem := List.mem_of_getElem? hc
  have hcp : c.phase ≠ .done := by simp [hp]
  have hself : ⟨c.op, .done⟩ ∈ (s.goto i c .done).calls := mem_goto_self hc .done
  have hstay : ∀ {op}, ⟨op, .done⟩ ∈ s.calls → ⟨op, .done⟩ ∈ (s.goto i c .done).calls :=
    fun h => mem_goto_of_ne hc (fun he => hcp (he ▸ rfl)) h
  have hcases : ∀ {op q}, ⟨op, q⟩ ∈ (s.goto i c .done).calls →
      op = c.op ∧ q = .done ∨ ∃ j, i ≠ j ∧ s.calls[j]? = some ⟨op, q⟩ := fun h =>
    (mem_goto h).imp (fun he => Call.mk.inj he) id
  refine ⟨?_, (ops_goto hc .done).symm ▸ h.apart, ?_, ?_, ?_, ?_, ?_⟩
  · show (tokens'.map Record.id).Nodup
    cases hop : c.op with
    | addToken secret r =>
      rw [hop] at hw
      obtain rfl := Option.some.inj hw
      rw [List.map_append, List.map_singleton]
      refine h.nodup.append (List.nodup_singleton _) (List.disjoint_singleton.mpr fun hr => ?_)
      obtain ⟨t, ht, hid⟩ := List.mem_map.mp hr
      exact h.pending secret r c.phase (hop ▸ hmem) hcp t ht hid
    | revokeToken id =>
      rw [hop, Operation.update] at hw
      split_ifs at hw
      obtain rfl := Option.some.inj hw
      rw [ids_disable]
      exact h.nodup
  · intro secret r q hq
    rcases hcases hq with ⟨hop, -⟩ | ⟨j, -, hj⟩
    · exact h.shape secret r c.phase (hop ▸ hmem)
    · exact h.shape secret r q (List.mem_of_getElem? hj)
  · intro secret r q hq hne t ht
    rcases hcases hq with ⟨-, rfl⟩ | ⟨j, hij, hj⟩
    · exact absurd rfl hne
    · have hpending := h.pending secret r q (List.mem_of_getElem? hj) hne
      rcases mem_update hw ht with ht | ⟨secret', hop⟩ | ⟨t', ht', -, rfl⟩
      · exact hpending t ht
      · exact h.apart_of_ne hc hj hij secret' secret t r hop rfl
      · exact hpending t' ht'
  · intro op tokens hq
    rcases hcases hq with ⟨-, he⟩ | ⟨j, -, hj⟩
    · cases he
    · exact h.readable op tokens (List.mem_of_getElem? hj)
  · intro secret r hq
    rcases hcases hq with ⟨hop, -⟩ | ⟨j, -, hj⟩
    · rw [← hop] at hw
      obtain rfl := Option.some.inj hw
      exact .inl (List.mem_append_right _ List.mem_cons_self)
    · rcases h.added secret r (List.mem_of_getElem? hj) with hr | ⟨hrev, hr⟩
      · refine (update_mem hw hr).imp_right fun ⟨hop, hr⟩ => ⟨?_, hr⟩
        rw [hop] at hself
        exact hself
      · refine .inr ⟨hstay hrev, ?_⟩
        exact (update_mem hw hr).elim id fun h => h.2
  · intro id hr
    rcases hcases hr with ⟨hop, -⟩ | ⟨j, -, hj⟩
    · rw [← hop, Operation.update] at hw
      split_ifs at hw with hany
      obtain rfl := Option.some.inj hw
      obtain ⟨t, ht, hid⟩ := List.any_eq_true.mp hany
      have hid : t.id = id := by simpa using hid
      refine ⟨(disable_mem ht).elim (fun h => ⟨t, h, hid⟩) fun h => ⟨_, h.2, hid⟩, ?_⟩
      exact fun t ht hid => disabled_of_mem_disable h.nodup ht hid
    · obtain ⟨⟨t, ht, hid⟩, hall⟩ := h.revoked id (List.mem_of_getElem? hj)
      refine ⟨(update_mem hw ht).elim (fun h => ⟨t, h, hid⟩) fun h => ⟨_, h.2, hid⟩, ?_⟩
      intro u hu huid
      rcases mem_update hw hu with hu | ⟨secret, hop⟩ | ⟨t', ht', -, rfl⟩
      · exact hall u hu huid
      · exact absurd (hid.trans huid.symm) (h.pending secret u c.phase (hop ▸ hmem) hcp t ht)
      · rfl

theorem Kept.step (h : Kept hmac s) (a : Action) (hfresh : FreshId s a) (hcurrent : UpToDate s a) :
    Kept hmac (step hmac s a) := by
  cases a with
  | addToken req secret id createdAt =>
    rw [Auth.step]
    split
    · exact h
    · next record hrecord =>
      refine h.arrive fun secret' r hop => ?_
      obtain ⟨rfl, rfl⟩ := Operation.addToken.inj hop
      obtain ⟨hhash, henabled, rfl⟩ := newRecord_ok hrecord
      exact ⟨hhash, henabled, hfresh.1, fun c hc => hfresh.2 c hc⟩
  | revokeToken id => exact h.arrive fun secret r hop => by cases hop
  | read i =>
    rw [Auth.step, State.at]
    split
    · exact h
    · next c hc =>
      rw [State.read]
      split
      · next hp =>
        split_ifs with hsome
        · exact h.goto hc (by simp [hp]) (by simp) fun tokens ht => Phase.read.inj ht ▸ hsome
        · exact h.goto hc (by simp [hp]) (by simp) fun tokens ht => by cases ht
      · exact h
  | write i =>
    rw [Auth.step, State.at]
    split
    · exact h
    · next c hc =>
      rw [State.write]
      split
      · next tokens hp =>
        have hcall : s.calls[i]? = some ⟨c.op, .read tokens⟩ := hp ▸ hc
        have hsome := h.readable c.op tokens (List.mem_of_getElem? hcall)
        obtain ⟨tokens', hw⟩ := Option.isSome_iff_exists.mp hsome
        rw [hw, Option.getD_some]
        exact h.write hc hp ((hcurrent c.op tokens hcall).symm.trans hw)
      · exact h
  | fail i =>
    rw [Auth.step, State.at]
    split
    · exact h
    · next c hc =>
      rw [State.fail]
      split
      · next hp => exact h.goto hc (by simp [hp]) (by simp) fun tokens ht => by cases ht
      · next tokens hp => exact h.goto hc (by simp [hp]) (by simp) fun tokens ht => by cases ht
      · exact h

/-- In a state that keeps everything: a completed addition has its record, which
authenticates unless a revocation of its id has completed; and no request ever
authenticates as a revoked id. -/
theorem Kept.outcome (h : Kept hmac s) :
    (∀ secret r, ⟨.addToken secret r, .done⟩ ∈ s.calls →
      (r ∈ s.tokens ∨ Revoked s r.id ∧ { r with disabled := true } ∈ s.tokens) ∧
      (¬Revoked s r.id → (authenticate hmac s.tokens (bearerHeader secret.token)).isSome) ∧
      (Revoked s r.id → (∀ t ∈ s.tokens, t.tokenHash = r.tokenHash → t.id = r.id) →
        authenticate hmac s.tokens (bearerHeader secret.token) = none)) ∧
    ∀ id, Revoked s id → (∀ t ∈ s.tokens, t.id = id → t.disabled = true) ∧
      ∀ header identity, authenticate hmac s.tokens header = some identity → identity.id ≠ id := by
  have hmatched : ∀ {candidate t}, matchRecord candidate s.tokens = some t → ¬Revoked s t.id := by
    intro candidate t ht hrev
    obtain ⟨hmem, henabled, -⟩ := (matchRecord_spec candidate s.tokens).1 t ht
    rw [(h.revoked t.id hrev).2 t hmem rfl] at henabled
    cases henabled
  refine ⟨fun secret r hr => ⟨h.added secret r hr, fun hrev => ?_, fun hrev halone => ?_⟩,
    fun id hrev => ⟨(h.revoked id hrev).2, fun header identity hauth hid => ?_⟩⟩
  · obtain ⟨hhash, henabled⟩ := h.shape secret r _ hr
    have hmem : r ∈ s.tokens := (h.added secret r hr).resolve_right fun hr => hrev hr.1
    rw [authenticate, bearerToken_header, Option.bind_some, Option.isSome_map]
    exact (matchRecord_spec _ s.tokens).2 r hmem henabled hhash
  · obtain ⟨hhash, -⟩ := h.shape secret r _ hr
    rw [authenticate, bearerToken_header, Option.bind_some, Option.map_eq_none_iff,
      Option.eq_none_iff_forall_ne_some]
    intro t ht
    obtain ⟨hmem, -, hth⟩ := (matchRecord_spec _ s.tokens).1 t ht
    refine hmatched ht ?_
    rw [halone t hmem (hth.trans hhash.symm)]
    exact hrev
  · obtain ⟨token, -, hauth⟩ := Option.bind_eq_some_iff.mp hauth
    obtain ⟨t, ht, rfl⟩ := Option.map_eq_some_iff.mp hauth
    have hid : t.id = id := hid
    exact hmatched ht (by rw [hid]; exact hrev)

theorem kept_start {file : Option (List Record)} (hn : ((file.getD []).map Record.id).Nodup) :
    Kept hmac (start file) := by
  refine ⟨hn, List.Pairwise.nil, ?_, ?_, ?_, ?_, ?_⟩ <;> intros <;> contradiction

/-- **Nothing is undone.** In every run of additions and revocations in which each
write is up to date, every completed addition stays, and every completed
revocation stays. -/
theorem tokens_kept (hmac : Hmac) (file : Option (List Record))
    (hn : ((file.getD []).map Record.id).Nodup) (as : List Action)
    (hok : Allowed (step hmac) (fun s a => FreshId s a ∧ UpToDate s a) (start file) as) :
    let s := as.foldl (step hmac) (start file)
    (∀ secret r, ⟨.addToken secret r, .done⟩ ∈ s.calls →
      (r ∈ s.tokens ∨ Revoked s r.id ∧ { r with disabled := true } ∈ s.tokens) ∧
      (¬Revoked s r.id → (authenticate hmac s.tokens (bearerHeader secret.token)).isSome) ∧
      (Revoked s r.id → (∀ t ∈ s.tokens, t.tokenHash = r.tokenHash → t.id = r.id) →
        authenticate hmac s.tokens (bearerHeader secret.token) = none)) ∧
    ∀ id, Revoked s id → (∀ t ∈ s.tokens, t.id = id → t.disabled = true) ∧
      ∀ header identity, authenticate hmac s.tokens header = some identity → identity.id ≠ id :=
  (hok.invariant (fun _ a h hok => h.step a hok.1 hok.2) (kept_start hn)).outcome

/-- A hash that keeps both its texts. -/
def plainHmac : Hmac := fun domain data => domain ++ data

def opsSecret : Secret := ⟨js "ops", by decide⟩

def addOps : Action :=
  .addToken { type := js "service", scopes := [], labels := [] } opsSecret (js "tok_2") []

def opsRecord : Record where
  id := js "tok_2"
  tokenHash := plainHmac tokenDomain opsSecret.token
  type := js "service"
  scopes := []
  labels := []
  createdAt := []
  disabled := false

/-- A token is added and then revoked. -/
theorem tokens_kept_revoked :
    let s := [addOps, .read 0, .write 0, .revokeToken (js "tok_2"), .read 1, .write 1].foldl
      (step plainHmac) (start none)
    ∀ header identity, authenticate plainHmac s.tokens header = some identity →
      identity.id ≠ js "tok_2" := by
  have h := tokens_kept plainHmac none List.nodup_nil
    [addOps, .read 0, .write 0, .revokeToken (js "tok_2"), .read 1, .write 1]
    ⟨⟨⟨by rintro r ⟨⟩, by rintro c ⟨⟩⟩, trivial⟩, ⟨trivial, trivial⟩,
      ⟨trivial, fun op tokens hc => by cases hc; rfl⟩, ⟨trivial, trivial⟩, ⟨trivial, trivial⟩,
      ⟨trivial, fun op tokens hc => by cases hc; rfl⟩, trivial⟩
  exact (h.2 (js "tok_2") (List.mem_cons_of_mem _ List.mem_cons_self)).2

/-- An addition that read the file before a revocation wrote it takes the revocation back. -/
theorem revocation_undone : ¬∀ (hmac : Hmac) (file : Option (List Record)) (as : List Action),
    ((file.getD []).map Record.id).Nodup → Allowed (step hmac) FreshId (start file) as →
    let s := as.foldl (step hmac) (start file)
    ∀ id, Revoked s id → ∀ t ∈ s.tokens, t.id = id → t.disabled = true := by
  intro h
  have h := h plainHmac (some [{ opsRecord with id := js "tok_1" }])
    [.revokeToken (js "tok_1"), addOps, .read 0, .read 1, .write 0, .write 1]
    (List.nodup_singleton _)
    ⟨trivial, ⟨by decide, ?_⟩, trivial, trivial, trivial, trivial, trivial⟩
    (js "tok_1") List.mem_cons_self { opsRecord with id := js "tok_1" } List.mem_cons_self rfl
  · cases h
  · intro c hc secret r hop
    obtain rfl := List.mem_singleton.mp hc
    cases hop

end Haechi.Auth
