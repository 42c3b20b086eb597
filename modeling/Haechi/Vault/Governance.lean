import Haechi.Vault.Validity

/-! Governance of reveal: which records the operations of the vault leave when the audit sink,
the store, the cipher or the keyed hash may fail in each call. Proved: a plaintext is returned
only under a policy that allows it, for a live record of the token, and after the call has
recorded that it was allowed, where there is a sink; a call that returns none has recorded a
denial or a failure, unless that record could not be made; and a record is decided by what
names the token in it and by what the call does short of the plaintext. -/

namespace Haechi.Vault

open Text Crypto

variable {ν : Type} [JsNumber ν]

/-! ### Calls -/

/-- A token argument, with the property name it is looked up under. -/
inductive TokenArg where
  /-- `null` or `undefined`. -/
  | missing (key : JsString)
  | text (s : JsString)
  /-- Another value, as `String` gives it. -/
  | other (s : JsString)

def TokenArg.key : TokenArg → JsString
  | .missing s | .text s | .other s => s

/-- What becomes of a record that is given to the sink. One that fails may have written it. -/
inductive Taken where
  | kept
  | failed (written : Bool)
deriving DecidableEq

/-- What a call meets: the audit sink, if there is one; the keyed hash, if the provider has
one, by the decision it is asked for, and whether it throws; and whether the store can be
read or changed and the provider decrypts. -/
structure World where
  sink : Option (VaultEvent → Taken)
  hmac : Option (JsString → JsString → Option JsString)
  stored : Bool
  decrypts : Bool

/-- What a call throws. -/
inductive Fault where
  | vault (f : Failure)
  | store
  | hmac
deriving DecidableEq

/-- `reasonCode`. -/
def Fault.reasonCode : Fault → JsString
  | .vault f => f.reasonCode
  | .store | .hmac => js "reveal_error"

abbrev Call (α : Type) := Act Fault VaultEvent α

/-! ### Records -/

/-- `safeAuditToken`: what names the token in the record of a decision, unless it throws. -/
def World.safeAuditToken (w : World) (decision : JsString) : TokenArg → Option (Option JsString)
  | .missing _ => some none
  | .text s => if hasTokenShape s then some (some s) else named s
  | .other s => named s
where
  named (s : JsString) : Option (Option JsString) :=
    match w.hmac with
    | none => some (some (js "[REDACTED:non-token]"))
    | some hmac => (hmac decision s).map fun digest => some (js "nontoken_" ++ digest.take 32)

/-- What a call records, but for what names the token. -/
structure Entry where
  operation : JsString
  decision : JsString
  tokenType : Option JsString
  reason : Option JsString
  count : Option ℕ

def Entry.event (e : Entry) (name : Option JsString) : VaultEvent :=
  ⟨e.operation, e.decision, name, e.tokenType, e.reason, e.count⟩

/-- The sink is given a record. -/
def give (sink : VaultEvent → Taken) (e : VaultEvent) : Call Unit :=
  match sink e with
  | .kept => Act.emit e
  | .failed true => do
    Act.emit e
    Act.raise (.vault .audit)
  | .failed false => Act.raise (.vault .audit)

/-- `recordVaultEvent`; without a sink it returns at once. -/
def World.record (w : World) (token : TokenArg) (e : Entry) : Call Unit :=
  match w.sink with
  | none => pure ()
  | some sink =>
    match w.safeAuditToken e.decision token with
    | none => Act.raise .hmac
    | some name => give sink (e.event name)

def revealEntry (decision : String) (tokenType reason : Option JsString) : Entry :=
  ⟨js "token-vault:reveal", js decision, tokenType, reason, none⟩

/-- `reveal_allowed` of a token of the type, and the two refusals. -/
def allowedEntry (type : JsString) : Entry := revealEntry "reveal_allowed" (some type) none

def failedEntry (f : Fault) : Entry := revealEntry "reveal_failed" none (some f.reasonCode)

def deniedEntry : Entry :=
  revealEntry "reveal_denied" none (some (js "reveal_policy_disabled"))

/-! ### Operations -/

section Operations

variable (env : Platform) (c : Settings)

/-- What `reveal` reads and decrypts. -/
def World.found (w : World) (s : State ν) (token : TokenArg) (context : JsValue ν) :
    Except Fault (JsString × JsString) :=
  if w.stored then
    match revealed env s token.key context with
    | .ok found => if w.decrypts then .ok found else .error (.vault .decryptFailed)
    | .error f => .error (.vault f)
  else .error .store

/-- The `try` block of `reveal`. -/
def World.allow (w : World) (token : TokenArg) (found : Except Fault (JsString × JsString)) :
    Call (JsString × JsString) := do
  let found ← Act.await found
  w.record token (allowedEntry found.1)
  return found

/-- `reveal`, of what it reads. -/
def World.revealFound (w : World) (token : TokenArg) (found : Except Fault (JsString × JsString)) :
    Call (JsString × JsString) :=
  if c.revealEnabled then
    (w.allow token found).recover fun e => do
      w.record token (failedEntry e)
      Act.raise e
  else do
    w.record token deniedEntry
    Act.raise (.vault .revealDisabled)

/-- `reveal`: the type and the plaintext of the token. -/
def World.reveal (w : World) (s : State ν) (token : TokenArg) (context : JsValue ν) :
    Call (JsString × JsString) :=
  w.revealFound c token (w.found env s token context)

/-- An operation of the vault, or some time. -/
inductive Op (ν : Type) where
  | tokenize (d : Draw ν)
  | detokenize (tokens : List JsString)
  | reveal (token : TokenArg) (context : JsValue ν)
  | purge (token : TokenArg)
  | purgeExpired
  | tick (ms : ℕ)

structure Request (ν : Type) where
  world : World
  op : Op ν

/-- The token that a record of the operation names. -/
def Op.token : Op ν → TokenArg
  | .reveal token _ | .purge token => token
  | _ => .missing (js "null")

def Op.action : Op ν → Action ν
  | .tokenize d => .tokenize d
  | .detokenize tokens => .detokenize tokens
  | .reveal token context => .reveal token.key context
  | .purge token => .purge token.key
  | .purgeExpired => .purgeExpired
  | .tick ms => .tick ms

/-- One operation; where the store fails it changes nothing. -/
def serve (s : State ν) (r : Request ν) : State ν :=
  match r.op with
  | .tick ms => step env c s (.tick ms)
  | op => if r.world.stored then step env c s op.action else s

/-- What an operation does that its record may tell: neither the plaintext nor the token. -/
inductive View where
  | silent
  | reveal (found : Except Fault JsString)
  | recorded (e : Entry)

/-- How many tokens `detokenize` restores, and how many it skips. -/
def World.restoredCounts (w : World) (s : State ν) (tokens : List JsString) : ℕ × ℕ :=
  if w.decrypts then
    ((restoredValues env s tokens).length,
      (tokens.filter fun token => (restored env s token).isNone).length)
  else (0, tokens.length)

def viewOf (s : State ν) (r : Request ν) : View :=
  match r.op with
  | .tokenize _ | .tick _ => .silent
  | .reveal token context => .reveal ((r.world.found env s token context).map Prod.fst)
  | .detokenize tokens =>
    let counts := r.world.restoredCounts env s tokens
    if r.world.stored then
      .recorded ⟨js "token-vault:detokenize", js "detokenize", none, skippedReason counts.2,
        some counts.1⟩
    else .silent
  | .purge _ =>
    if r.world.stored then .recorded ⟨js "token-vault:purge", js "purge", none, none, none⟩
    else .silent
  | .purgeExpired =>
    if r.world.stored then
      .recorded ⟨js "token-vault:purge-expired", js "purge_expired", none, none,
        some (purgeExpired s).2⟩
    else .silent

/-- The records that an operation leaves. -/
def eventsOf (s : State ν) (r : Request ν) : List VaultEvent :=
  match r.op with
  | .reveal token context => (r.world.reveal env c s token context []).2
  | op =>
    match viewOf env s r with
    | .recorded e => (r.world.record op.token e []).2
    | _ => []

end Operations

/-! ### The records of a call -/

variable {env env' : Platform} {c : Settings} {s s' : State ν} {w w' : World}
  {token token' : TokenArg} {e : Entry}

/-- A record can be made: its token can be named. -/
theorem record_of_named {sink : VaultEvent → Taken} {name : Option JsString} (hsink : w.sink = some sink)
    (hname : w.safeAuditToken e.decision token = some name) :
    w.record token e = give sink (e.event name) := by
  simp only [World.record, hsink, hname]

theorem give_apply (sink : VaultEvent → Taken) (ev : VaultEvent) (es : List VaultEvent) :
    give sink ev es = match sink ev with
      | .kept => (.ok (), es ++ [ev])
      | .failed true => (.error (.vault .audit), es ++ [ev])
      | .failed false => (.error (.vault .audit), es) := by
  rw [give]
  cases sink ev with
  | kept => rfl
  | failed written => cases written <;> rfl

/-- What is given to the sink is left, or the sink fails. -/
theorem give_left (sink : VaultEvent → Taken) (ev : VaultEvent) (es : List VaultEvent) :
    ev ∈ (give sink ev es).2 ∨ ∃ written, sink ev = .failed written := by
  rw [give_apply]
  cases sink ev with
  | kept => exact .inl (List.mem_append_right _ List.mem_cons_self)
  | failed written => exact .inr ⟨written, rfl⟩

/-- A record that is taken is left at the end. -/
theorem give_ok {sink : VaultEvent → Taken} {ev : VaultEvent} {es : List VaultEvent}
    (h : (give sink ev es).1 = .ok ()) : (give sink ev es).2 = es ++ [ev] := by
  rw [give_apply] at h ⊢
  cases hev : sink ev with
  | kept => rfl
  | failed written =>
    rw [hev] at h
    cases written <;> cases h

/-- What a record leaves, in all, is at most itself. -/
theorem only_record (w : World) (token : TokenArg) (e : Entry) :
    Act.Only (fun ev => ∃ name, w.safeAuditToken e.decision token = some name ∧ ev = e.event name)
      (w.record token e) := by
  rw [World.record]
  split
  · exact Act.only_pure ()
  · split
    · exact Act.only_raise _
    · rename_i sink _ _ name hname
      have hemit : Act.Only (ε := Fault) (fun ev => ∃ name, w.safeAuditToken e.decision token = some name ∧
          ev = e.event name) (Act.emit (e.event name)) := Act.only_emit ⟨name, hname, rfl⟩
      rw [give]
      cases sink (e.event name) with
      | kept => exact hemit
      | failed written =>
        cases written with
        | true => exact hemit.bind fun _ => Act.only_raise _
        | false => exact Act.only_raise _

/-- A record depends on the sink, on what names the token and on the entry. -/
theorem record_congr (hsink : w'.sink = w.sink)
    (hnames : ∀ d, w'.safeAuditToken d token' = w.safeAuditToken d token) :
    w'.record token' e = w.record token e := by
  rw [World.record, World.record, hsink, hnames]

/-! ### The course of a reveal -/

theorem revealFound_disabled (henabled : c.revealEnabled = false)
    (found : Except Fault (JsString × JsString)) (es : List VaultEvent) :
    w.revealFound c token found es =
      match w.record token deniedEntry es with
      | (.ok _, es) => (.error (.vault .revealDisabled), es)
      | (.error f, es) => (.error f, es) := by
  rw [World.revealFound, if_neg (by rw [henabled]; nofun), Act.bind_apply]
  rcases w.record token deniedEntry es with ⟨_ | _, _⟩ <;> rfl

theorem revealFound_error (henabled : c.revealEnabled = true) (f : Fault) (es : List VaultEvent) :
    w.revealFound c token (.error f) es =
      match w.record token (failedEntry f) es with
      | (.ok _, es) => (.error f, es)
      | (.error f', es) => (.error f', es) := by
  rw [World.revealFound, if_pos henabled]
  show (w.record token (failedEntry f) >>= fun _ => Act.raise f) es = _
  rw [Act.bind_apply]
  rcases w.record token (failedEntry f) es with ⟨_ | _, _⟩ <;> rfl

theorem allow_ok (x : JsString × JsString) (es : List VaultEvent) :
    w.allow token (.ok x) es =
      match w.record token (allowedEntry x.1) es with
      | (.ok _, es) => (.ok x, es)
      | (.error f, es) => (.error f, es) := by
  show (w.record token (allowedEntry x.1) >>= fun _ => pure x) es = _
  rw [Act.bind_apply]
  rcases w.record token (allowedEntry x.1) es with ⟨_ | _, _⟩ <;> rfl

theorem revealFound_ok (henabled : c.revealEnabled = true) (x : JsString × JsString)
    (es : List VaultEvent) :
    w.revealFound c token (.ok x) es =
      match w.record token (allowedEntry x.1) es with
      | (.ok _, es) => (.ok x, es)
      | (.error f, es) => w.revealFound c token (.error f) es := by
  rw [World.revealFound, if_pos henabled, Act.recover, allow_ok]
  rcases w.record token (allowedEntry x.1) es with ⟨f | _, es'⟩
  · show (w.record token (failedEntry f) >>= fun _ => Act.raise f) es' =
      w.revealFound c token (.error f) es'
    rw [revealFound_error henabled, Act.bind_apply]
    rcases w.record token (failedEntry f) es' with ⟨_ | _, _⟩ <;> rfl
  · rfl

/-- Two calls of `reveal` that find a token of one type, or fail alike, leave the same. -/
theorem revealFound_congr (hsink : w'.sink = w.sink)
    (hnames : ∀ d, w'.safeAuditToken d token' = w.safeAuditToken d token)
    {found found' : Except Fault (JsString × JsString)}
    (hfound : found'.map Prod.fst = found.map Prod.fst) (es : List VaultEvent) :
    (w'.revealFound c token' found' es).2 = (w.revealFound c token found es).2 := by
  have hrecord : ∀ e, w'.record token' e = w.record token e := fun e => record_congr hsink hnames
  cases henabled : c.revealEnabled with
  | false =>
    rw [revealFound_disabled henabled, revealFound_disabled henabled, hrecord]
  | true =>
    cases found with
    | error f =>
      cases found' with
      | error f' =>
        obtain rfl : f' = f := Except.error.inj hfound
        rw [revealFound_error henabled, revealFound_error henabled, hrecord]
      | ok x => cases hfound
    | ok x =>
      cases found' with
      | error f' => cases hfound
      | ok x' =>
        have htype : x'.1 = x.1 := Except.ok.inj hfound
        rw [revealFound_ok henabled, revealFound_ok henabled, hrecord, htype]
        rcases w.record token (allowedEntry x.1) es with ⟨f | _, es'⟩
        · simp only [revealFound_error henabled, hrecord]
        · rfl

/-- A call that returns nothing ends with the record of a refusal. -/
theorem revealFound_refused {found : Except Fault (JsString × JsString)} {es : List VaultEvent}
    {f : Fault} (h : (w.revealFound c token found es).1 = .error f) :
    ∃ e, (e = deniedEntry ∨ ∃ f', e = failedEntry f') ∧
      ∃ es', (w.revealFound c token found es).2 = (w.record token e es').2 := by
  have herror : c.revealEnabled = true → ∀ f es,
      (w.revealFound c token (.error f) es).2 = (w.record token (failedEntry f) es).2 := by
    intro henabled f es
    rw [revealFound_error henabled]
    rcases w.record token (failedEntry f) es with ⟨_ | _, _⟩ <;> rfl
  cases henabled : c.revealEnabled with
  | false =>
    refine ⟨deniedEntry, .inl rfl, es, ?_⟩
    rw [revealFound_disabled henabled]
    rcases w.record token deniedEntry es with ⟨_ | _, _⟩ <;> rfl
  | true =>
    cases found with
    | error f => exact ⟨failedEntry f, .inr ⟨f, rfl⟩, es, herror henabled f es⟩
    | ok x =>
      rw [revealFound_ok henabled] at h ⊢
      rcases hrecord : w.record token (allowedEntry x.1) es with ⟨f' | _, es'⟩
      · exact ⟨failedEntry f', .inr ⟨f', rfl⟩, es', herror henabled f' es'⟩
      · rw [hrecord] at h
        cases h

/-- A call that returns a plaintext has found it, and ends with the record that allows it. -/
theorem revealFound_allowed {found : Except Fault (JsString × JsString)} {es : List VaultEvent}
    {x : JsString × JsString} (h : (w.revealFound c token found es).1 = .ok x) :
    c.revealEnabled = true ∧ found = .ok x ∧
      (w.record token (allowedEntry x.1) es).1 = .ok () ∧
      (w.revealFound c token found es).2 = (w.record token (allowedEntry x.1) es).2 := by
  have hnot : ∀ f es, c.revealEnabled = true → (w.revealFound c token (.error f) es).1 ≠ .ok x := by
    intro f es henabled
    rw [revealFound_error henabled]
    rcases w.record token (failedEntry f) es with ⟨_ | _, _⟩ <;> nofun
  cases henabled : c.revealEnabled with
  | false =>
    rw [revealFound_disabled henabled] at h
    rcases hrecord : w.record token deniedEntry es with ⟨_ | _, _⟩ <;> rw [hrecord] at h <;> cases h
  | true =>
    cases found with
    | error f => exact absurd h (hnot f es henabled)
    | ok y =>
      rw [revealFound_ok henabled] at h ⊢
      rcases hrecord : w.record token (allowedEntry y.1) es with ⟨f | _, es'⟩
      · rw [hrecord] at h
        exact absurd h (hnot f es' henabled)
      · rw [hrecord] at h
        obtain rfl := Except.ok.inj h
        rw [hrecord]
        exact ⟨rfl, rfl, rfl, rfl⟩

/-- What is found is in a live record of the token. -/
theorem found_eq_ok {context : JsValue ν} {x : JsString × JsString}
    (h : w.found env s token context = .ok x) :
    ∃ r, s.tokens.lookup token.key = some r ∧ r.live s.now = true ∧ r.type = x.1 ∧
      r.opened env s.now (revealAad r context) = some x.2 := by
  rw [World.found] at h
  rcases hrevealed : revealed env s token.key context with f | y
  · rw [hrevealed] at h
    split_ifs at h
  · rw [hrevealed] at h
    split_ifs at h
    · obtain rfl := Except.ok.inj h
      rw [revealed] at hrevealed
      split at hrevealed
      · cases hrevealed
      · cases hrevealed
      · rename_i r hget
        have hlookup : s.tokens.lookup token.key = some r := by
          rw [Vault.get] at hget
          split at hget
          · rename_i r' hr'
            cases hget
            exact hr'
          · split_ifs at hget
            cases hget
        split_ifs at hrevealed with hlive
        split at hrevealed
        · cases hrevealed
        · rename_i plaintext hopened
          obtain rfl := Except.ok.inj hrevealed
          exact ⟨r, hlookup, by simpa using hlive, rfl, hopened⟩

/-- A record that was made is the sink's, which took it. -/
theorem record_eq_ok {sink : VaultEvent → Taken} {es : List VaultEvent} (hsink : w.sink = some sink)
    (h : (w.record token e es).1 = .ok ()) :
    ∃ name, w.safeAuditToken e.decision token = some name ∧ sink (e.event name) = .kept ∧
      (w.record token e es).2 = es ++ [e.event name] := by
  cases hname : w.safeAuditToken e.decision token with
  | none =>
    simp only [World.record, hsink, hname] at h
    cases h
  | some name =>
    rw [record_of_named hsink hname] at h ⊢
    refine ⟨name, rfl, ?_, give_ok h⟩
    rw [give_apply] at h
    cases hev : sink (e.event name) with
    | kept => rfl
    | failed written =>
      rw [hev] at h
      cases written <;> cases h

/-! ### Every call of every run -/

/-- What a call of `reveal` owes. Where there is a sink, a plaintext comes after the record
that allows it, which the sink took; and where no plaintext comes, a refusal is left, unless
the sink fails on it (or the token cannot be named). -/
def RevealGoverned (env : Platform) (c : Settings) (s : State ν) (w : World) (token : TokenArg)
    (context : JsValue ν) : Prop :=
  (∀ type plaintext, (w.reveal env c s token context []).1 = .ok (type, plaintext) →
      c.revealEnabled = true ∧
      (∃ r, s.tokens.lookup token.key = some r ∧ r.live s.now = true ∧ r.type = type ∧
        r.opened env s.now (revealAad r context) = some plaintext) ∧
      ∀ sink, w.sink = some sink → ∃ name,
        w.safeAuditToken (js "reveal_allowed") token = some name ∧
        sink ((allowedEntry type).event name) = .kept ∧
        (w.reveal env c s token context []).2 = [(allowedEntry type).event name]) ∧
    ∀ f, (w.reveal env c s token context []).1 = .error f → ∀ sink, w.sink = some sink →
      ∃ e, (e = deniedEntry ∨ ∃ f', e = failedEntry f') ∧
        ∀ name, w.safeAuditToken e.decision token = some name →
          e.event name ∈ (w.reveal env c s token context []).2 ∨
            ∃ written, sink (e.event name) = .failed written

/-- What a record may name a token argument by: nothing, the argument itself if it has the
shape of a token, a fixed text, or digits of its keyed hash. -/
def SafeName (w : World) (token : TokenArg) (name : Option JsString) : Prop :=
  name = none ∨ (∃ t, token = .text t ∧ hasTokenShape t = true ∧ name = some t) ∨
    name = some (js "[REDACTED:non-token]") ∨
    ∃ hmac decision digest, w.hmac = some hmac ∧ hmac decision token.key = some digest ∧
      name = some (js "nontoken_" ++ digest.take 32)

/-- The records of an operation name its token safely, and any other operation of the same
view, whatever the plaintexts and the token, leaves the same records if it meets the same
sink and its token is named alike. -/
def RecordsBlind (env : Platform) (c : Settings) (s : State ν) (r : Request ν) : Prop :=
  (∀ ev ∈ eventsOf env c s r, SafeName r.world r.op.token ev.token) ∧
    ∀ (env' : Platform) (s' : State ν) (r' : Request ν), r'.world.sink = r.world.sink →
      (∀ d, r'.world.safeAuditToken d r'.op.token = r.world.safeAuditToken d r.op.token) →
      viewOf env' s' r' = viewOf env s r → eventsOf env' c s' r' = eventsOf env c s r

theorem reveal_governed_call (w : World) (token : TokenArg) (context : JsValue ν) :
    RevealGoverned env c s w token context := by
  constructor
  · intro type plaintext h
    obtain ⟨henabled, hfound, hrecord, hevents⟩ := revealFound_allowed h
    refine ⟨henabled, found_eq_ok hfound, fun sink hsink => ?_⟩
    obtain ⟨name, hname, hkept, hleft⟩ := record_eq_ok hsink hrecord
    exact ⟨name, hname, hkept, hevents.trans hleft⟩
  · intro f h sink hsink
    obtain ⟨e, he, es, hevents⟩ := revealFound_refused h
    refine ⟨e, he, fun name hname => ?_⟩
    rw [World.reveal, hevents, record_of_named hsink hname]
    exact give_left sink _ es

theorem safeName_of_safeAuditToken {d : JsString} {name : Option JsString}
    (h : w.safeAuditToken d token = some name) : SafeName w token name := by
  have hnamed : ∀ s, token.key = s → World.safeAuditToken.named w d s = some name →
      SafeName w token name := by
    rintro _ rfl h
    rw [World.safeAuditToken.named] at h
    split at h
    · exact .inr (.inr (.inl (Option.some.inj h).symm))
    · rename_i hmac hhmac
      obtain ⟨digest, hdigest, rfl⟩ := Option.map_eq_some_iff.mp h
      exact .inr (.inr (.inr ⟨hmac, d, digest, hhmac, hdigest, rfl⟩))
  cases token with
  | missing key => exact .inl (Option.some.inj h).symm
  | text t =>
    rw [World.safeAuditToken] at h
    split_ifs at h with hshape
    · exact .inr (.inl ⟨t, rfl, hshape, (Option.some.inj h).symm⟩)
    · exact hnamed t rfl h
  | other t => exact hnamed t rfl h

theorem only_record_safe (w : World) (token : TokenArg) (e : Entry) :
    Act.Only (fun ev => SafeName w token ev.token) (w.record token e) :=
  (only_record w token e).mono fun _ => by
    rintro ⟨name, hname, rfl⟩
    exact safeName_of_safeAuditToken hname

theorem only_revealFound_safe (w : World) (token : TokenArg)
    (found : Except Fault (JsString × JsString)) :
    Act.Only (fun ev => SafeName w token ev.token) (w.revealFound c token found) := by
  rw [World.revealFound]
  split_ifs
  · refine Act.Only.recover ?_ fun f => (only_record_safe w token _).bind fun _ => Act.only_raise f
    exact (Act.only_await found).bind fun x =>
      (only_record_safe w token _).bind fun _ => Act.only_pure x
  · exact (only_record_safe w token _).bind fun _ => Act.only_raise _

/-- Only a reveal has the view of one. -/
theorem viewOf_ne_reveal {r : Request ν} (hr : ∀ token context, r.op ≠ .reveal token context)
    (v : Except Fault JsString) : viewOf env s r ≠ .reveal v := by
  rw [viewOf]
  split
  · nofun
  · nofun
  · rename_i token context hop
    exact absurd hop (hr token context)
  all_goals split_ifs <;> nofun

/-- What the other operations leave is decided by the view. -/
theorem eventsOf_of_ne_reveal {r : Request ν} (hr : ∀ token context, r.op ≠ .reveal token context) :
    eventsOf env c s r =
      match viewOf env s r with
      | .recorded e => (r.world.record r.op.token e []).2
      | _ => [] := by
  rw [eventsOf]
  split
  · rename_i token context hop
    exact absurd hop (hr token context)
  · rfl

/-- An operation that reveals nothing records the token it was called with. -/
theorem recordsBlind_of_ne_reveal (env : Platform) (c : Settings) (s : State ν) (r : Request ν)
    (hr : ∀ token context, r.op ≠ .reveal token context) : RecordsBlind env c s r := by
  constructor
  · intro ev hev
    rw [eventsOf_of_ne_reveal hr] at hev
    split at hev
    · exact (only_record_safe r.world r.op.token _).forall_mem (by simp) ev hev
    · cases hev
  · intro env' s' r' hsink hnames hview
    have hr' : ∀ token context, r'.op ≠ .reveal token context := by
      intro token context hop
      obtain ⟨w', op'⟩ := r'
      obtain rfl : op' = _ := hop
      exact viewOf_ne_reveal hr _ hview.symm
    rw [eventsOf_of_ne_reveal hr, eventsOf_of_ne_reveal hr', hview]
    split
    · rw [record_congr hsink hnames]
    · rfl

theorem recordsBlind_reveal (env : Platform) (c : Settings) (s : State ν) (w : World)
    (token : TokenArg) (context : JsValue ν) :
    RecordsBlind env c s ⟨w, .reveal token context⟩ := by
  constructor
  · exact (only_revealFound_safe w token _).forall_mem (by simp)
  · intro env' s' r' hsink hnames hview
    obtain ⟨token', context', hop'⟩ : ∃ token' context', r'.op = .reveal token' context' := by
      by_contra hnot
      exact viewOf_ne_reveal (fun token context hop => hnot ⟨token, context, hop⟩) _ hview
    obtain ⟨w', op'⟩ := r'
    obtain rfl : op' = .reveal token' context' := hop'
    exact revealFound_congr hsink hnames (View.reveal.inj hview) []

theorem recordsBlind (env : Platform) (c : Settings) (s : State ν) (r : Request ν) :
    RecordsBlind env c s r := by
  by_cases hr : ∀ token context, r.op ≠ .reveal token context
  · exact recordsBlind_of_ne_reveal env c s r hr
  · obtain ⟨token, context, hop⟩ : ∃ token context, r.op = .reveal token context := by
      by_contra hnot
      exact hr fun token context hop => hnot ⟨token, context, hop⟩
    obtain ⟨w, op⟩ := r
    obtain rfl : op = .reveal token context := hop
    exact recordsBlind_reveal env c s w token context

/-- **Governance of reveal.** In every run of the vault, whatever fails in each call, each call
of `reveal` owes and keeps what it should, and the records of each operation tell neither a
plaintext nor a token argument that has not the shape of a token. -/
theorem reveal_governed (env : Platform) (c : Settings) (start : State ν) (run : List (Request ν)) :
    (∀ (w : World) (token : TokenArg) (context : JsValue ν),
        RevealGoverned env c (run.foldl (serve env c) start) w token context) ∧
      ∀ r : Request ν, RecordsBlind env c (run.foldl (serve env c) start) r :=
  ⟨fun w token context => reveal_governed_call w token context, recordsBlind env c _⟩

/-! ### Where only the sink fails -/

/-- The provider's own hash, and nothing that fails. -/
def World.steady (env : Platform) (sink : Option (VaultEvent → Taken)) : World :=
  ⟨sink, some fun _ s => some (Crypto.hmac env.node env.ring s auditIdDomain), true, true⟩

theorem safeAuditToken_steady (sink : Option (VaultEvent → Taken)) (d k : JsString) :
    (World.steady env sink).safeAuditToken d (.text k) = some (some (safeAuditToken env k)) := by
  rw [World.safeAuditToken, Vault.safeAuditToken]
  split_ifs <;> rfl

section Taken

variable (taken : VaultEvent → Bool)

/-- A sink that takes some events and fails on the others, writing nothing, as a world and as
the total sink of `reveal`. -/
def World.over (env : Platform) : World :=
  .steady env (some fun ev => if taken ev then .kept else .failed false)

def sinkOf : Sink := fun ev => if taken ev then .ok () else .error .audit

theorem record_over (k : JsString) (e : Entry) (es : List VaultEvent) :
    (World.over taken env).record (.text k) e es =
      if taken (e.event (some (safeAuditToken env k))) then
        (.ok (), es ++ [e.event (some (safeAuditToken env k))])
      else (.error (.vault .audit), es) := by
  have hname : (World.over taken env).safeAuditToken e.decision (.text k) =
      some (some (safeAuditToken env k)) := safeAuditToken_steady _ _ k
  rw [record_of_named rfl hname, give_apply]
  cases taken (e.event (some (safeAuditToken env k))) <;> rfl

theorem recordVaultEvent_sinkOf (ev : VaultEvent) (es : List VaultEvent) :
    recordVaultEvent (sinkOf taken) ev es =
      if taken ev then (.ok (), es ++ [ev]) else (.error .audit, es) := by
  rw [recordVaultEvent, sinkOf]
  cases taken ev <;> rfl

theorem found_over (k : JsString) (context : JsValue ν) :
    (World.over taken env).found env s (.text k) context =
      (revealed env s k context).mapError .vault := by
  have hfound : (World.over taken env).found env s (.text k) context =
      match revealed env s k context with
      | .ok found => .ok found
      | .error f => .error (.vault f) := rfl
  rw [hfound]
  cases revealed env s k context <;> rfl

/-- A refusal is recorded, and thrown unless the sink fails. -/
theorem refuse_sinkOf (ev : VaultEvent) (f : Failure) (es : List VaultEvent) :
    (recordVaultEvent (sinkOf taken) ev >>= fun _ => Act.raise f : M (JsString × JsString)) es =
      if taken ev then (.error f, es ++ [ev]) else (.error .audit, es) := by
  rw [Act.bind_apply, recordVaultEvent_sinkOf]
  cases taken ev <;> rfl

theorem revealFound_over_error (henabled : c.revealEnabled = true) (k : JsString) (f : Failure)
    (es : List VaultEvent) :
    (World.over taken env).revealFound c (.text k) (.error (.vault f)) es =
      if taken ((failedEntry (.vault f)).event (some (safeAuditToken env k))) then
        (.error (.vault f), es ++ [(failedEntry (.vault f)).event (some (safeAuditToken env k))])
      else (.error (.vault .audit), es) := by
  rw [revealFound_error henabled, record_over]
  cases taken ((failedEntry (.vault f)).event (some (safeAuditToken env k))) <;> rfl

/-- What `reveal` does over a total sink, as the same cases. -/
theorem reveal_sinkOf (k : JsString) (context : JsValue ν) (es : List VaultEvent) :
    reveal env c (sinkOf taken) s k context es =
      if c.revealEnabled then
        match revealed env s k context with
        | .error f =>
          if taken ((failedEntry (.vault f)).event (some (safeAuditToken env k))) then
            (.error f, es ++ [(failedEntry (.vault f)).event (some (safeAuditToken env k))])
          else (.error .audit, es)
        | .ok x =>
          if taken ((allowedEntry x.1).event (some (safeAuditToken env k))) then
            (.ok x, es ++ [(allowedEntry x.1).event (some (safeAuditToken env k))])
          else if taken ((failedEntry (.vault .audit)).event (some (safeAuditToken env k))) then
            (.error .audit,
              es ++ [(failedEntry (.vault .audit)).event (some (safeAuditToken env k))])
          else (.error .audit, es)
      else if taken (deniedEntry.event (some (safeAuditToken env k))) then
        (.error .revealDisabled, es ++ [deniedEntry.event (some (safeAuditToken env k))])
      else (.error .audit, es) := by
  rw [reveal]
  by_cases henabled : c.revealEnabled = true
  · rw [if_pos henabled, if_pos henabled, Act.recover, revealAllowed]
    cases revealed env s k context with
    | error f => exact refuse_sinkOf taken _ f es
    | ok x =>
      have hallow : (Act.await (.ok x) >>= fun found => recordVaultEvent (sinkOf taken)
          (revealEvent env "reveal_allowed" k (some found.1) none) >>= fun _ => pure found :
            M (JsString × JsString)) es =
          if taken ((allowedEntry x.1).event (some (safeAuditToken env k))) then
            (.ok x, es ++ [(allowedEntry x.1).event (some (safeAuditToken env k))])
          else (.error .audit, es) := by
        show (recordVaultEvent (sinkOf taken) ((allowedEntry x.1).event (some (safeAuditToken env k)))
          >>= fun _ => pure x : M (JsString × JsString)) es = _
        rw [Act.bind_apply, recordVaultEvent_sinkOf]
        cases taken ((allowedEntry x.1).event (some (safeAuditToken env k))) <;> rfl
      rw [hallow]
      dsimp only
      cases taken ((allowedEntry x.1).event (some (safeAuditToken env k))) with
      | true => rfl
      | false => exact refuse_sinkOf taken _ .audit es
  · rw [if_neg henabled, if_neg henabled]
    exact refuse_sinkOf taken _ .revealDisabled es

/-- Where nothing but the sink fails, `reveal` does what it does over a total sink. -/
theorem reveal_over (k : JsString) (context : JsValue ν) (es : List VaultEvent) :
    (World.over taken env).reveal env c s (.text k) context es =
      ((reveal env c (sinkOf taken) s k context es).1.mapError .vault,
        (reveal env c (sinkOf taken) s k context es).2) := by
  rw [World.reveal, found_over, reveal_sinkOf]
  cases henabled : c.revealEnabled with
  | false =>
    rw [revealFound_disabled henabled, record_over]
    cases taken (deniedEntry.event (some (safeAuditToken env k))) <;> rfl
  | true =>
    cases revealed env s k context with
    | error f =>
      show (World.over taken env).revealFound c (.text k) (.error (.vault f)) es = _
      rw [revealFound_over_error taken henabled]
      simp only [if_true]
      cases taken ((failedEntry (.vault f)).event (some (safeAuditToken env k))) <;> rfl
    | ok x =>
      show (World.over taken env).revealFound c (.text k) (.ok x) es = _
      rw [revealFound_ok henabled, record_over]
      simp only [if_true]
      cases taken ((allowedEntry x.1).event (some (safeAuditToken env k))) with
      | true => rfl
      | false =>
        simp only [Bool.false_eq_true, if_false]
        rw [revealFound_over_error taken henabled]
        cases taken ((failedEntry (.vault .audit)).event (some (safeAuditToken env k))) <;> rfl

end Taken

/-- A vault that was built without an audit sink gives the plaintext and records nothing. -/
theorem reveal_without_sink :
    (World.steady clear none).reveal clear deterministicVault
        (dayLater.foldl (step clear deterministicVault) emptyVault) (.text bobToken)
        (.null : JsValue NumberToken) [] =
      (.ok (js "email", js "bob@example.com"), []) ∧
      ¬∀ (env : Platform) (c : Settings) (s : State NumberToken) (w : World) (token : TokenArg)
        (context : JsValue NumberToken) (type plaintext : JsString),
        (w.reveal env c s token context []).1 = .ok (type, plaintext) →
          ∃ e ∈ (w.reveal env c s token context []).2, e.decision = js "reveal_allowed" := by
  have hreveal : (World.steady clear none).reveal clear deterministicVault
      (dayLater.foldl (step clear deterministicVault) emptyVault) (.text bobToken)
      (.null : JsValue NumberToken) [] = (.ok (js "email", js "bob@example.com"), []) := by
    have hfound : (World.steady clear none).found clear
        (dayLater.foldl (step clear deterministicVault) emptyVault) (.text bobToken)
        (.null : JsValue NumberToken) = .ok (js "email", js "bob@example.com") := by
      decide +kernel
    rw [World.reveal, hfound, revealFound_ok rfl]
    rfl
  refine ⟨hreveal, fun h => ?_⟩
  obtain ⟨e, he, -⟩ := h _ _ _ _ _ _ _ _ (congrArg Prod.fst hreveal)
  rw [hreveal] at he
  cases he

end Haechi.Vault
