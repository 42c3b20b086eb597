import Haechi.Runs

/-! The nonce budget of a local key. Invocations are reserved a window at a time in
the key file, and `encrypt` takes its index from the window in memory. Every `await`
is a point where other calls go on, so a call is a phase, and the system takes one
phase of one call at a time; the process can crash between any two. A write of the
key file truncates it first. -/

namespace Haechi.Crypto

/-- `MAX_ENCRYPTIONS_PER_KEY`. -/
def maxEncryptionsPerKey : ℕ := 2 ^ 32

/-- `NONCE_RESERVE_WINDOW`. -/
def nonceReserveWindow : ℕ := 2 ^ 20

variable {κ : Type} [DecidableEq κ]

/-! ### The key file -/

/-- A key of the file: its id, whether its status is `active`, and its usage. -/
structure KeyEntry (κ : Type) where
  kid : κ
  active : Bool
  usage : Option ℕ
deriving DecidableEq

/-- `raw.keys.find((k) => k.kid === kid)`. -/
def entryOf (keys : List (KeyEntry κ)) (kid : κ) : Option (KeyEntry κ) :=
  keys.find? fun e => e.kid = kid

/-- `entry.usage ?? 0`; no entry has no usage. -/
def usageOf (keys : List (KeyEntry κ)) (kid : κ) : ℕ :=
  ((entryOf keys kid).bind KeyEntry.usage).getD 0

/-- `entry.usage = u` in the entry that is found. -/
def setUsage (kid : κ) (u : ℕ) : List (KeyEntry κ) → List (KeyEntry κ)
  | [] => []
  | e :: es => if e.kid = kid then { e with usage := some u } :: es else e :: setUsage kid u es

/-- The active key of `loadKeyFile`: the first one marked so, else the first one. -/
def activeKid (keys : List (KeyEntry κ)) : Option κ :=
  ((keys.find? KeyEntry.active).or keys.head?).map KeyEntry.kid

/-- A rotation: the new key is active and the others are retired. -/
def rotated (kid : κ) (keys : List (KeyEntry κ)) : List (KeyEntry κ) :=
  ⟨kid, true, none⟩ :: keys.map fun e => { e with active := false }

/-! ### A process -/

/-- The window in memory. -/
structure Reservation (κ : Type) where
  kid : κ
  base : ℕ
  granted : ℕ
  used : ℕ
deriving DecidableEq

/-- The window that starts at `current`. -/
def windowAt (kid : κ) (current : ℕ) : Reservation κ :=
  ⟨kid, current, min nonceReserveWindow (maxEncryptionsPerKey - current), 0⟩

/-- Where a call of `encrypt` stands. -/
inductive Phase (κ : Type) where
  /-- It awaits the read of `loadKeyFile`. -/
  | loading
  | loaded (kid : κ)
  /-- It awaits the read of `reserveNonceWindow`. -/
  | reading (kid : κ)
  /-- It awaits the write of the file with the usage advanced. -/
  | writing (raw : List (KeyEntry κ)) (window : Reservation κ)
  /-- The file is truncated. -/
  | truncated (raw : List (KeyEntry κ)) (window : Reservation κ)
  | written (window : Reservation κ)
  /-- `reserveNonceWindow` has returned. -/
  | resuming (kid : κ)
  /-- `consumeNonceBudget` has returned: the IV comes next. -/
  | drawing (kid : κ)
  /-- It has returned or thrown. -/
  | done
deriving DecidableEq

def Phase.isDrawing : Phase κ → Bool
  | .drawing _ => true
  | _ => false

/-- A provider: what it holds in memory, and its calls. -/
structure Process (κ : Type) where
  cached : Option κ
  reservation : Option (Reservation κ)
  persistDisabled : Bool
  calls : List (Phase κ)

/-- `createLocalCryptoProvider`. -/
def Process.fresh : Process κ := ⟨none, none, false, []⟩

namespace Process

/-- A call goes on to another phase. -/
def enter (p : Process κ) (i : ℕ) (ph : Phase κ) : Process κ :=
  { p with calls := p.calls.set i ph }

/-- The window is set, and `reserveNonceWindow` returns. -/
def install (p : Process κ) (i : ℕ) (window : Reservation κ) : Process κ :=
  { p.enter i (.resuming window.kid) with reservation := some window }

/-- `consumeNonceBudget` from the index on. -/
def consume (p : Process κ) (i : ℕ) (kid : κ) : Process κ :=
  match p.reservation with
  | none => p.enter i .done
  | some r =>
    if maxEncryptionsPerKey ≤ r.base + r.used then p.enter i .done
    else { p.enter i (.drawing kid) with reservation := some { r with used := r.used + 1 } }

/-- The window in memory cannot be used. -/
def needsWindow (p : Process κ) (kid : κ) : Bool :=
  match p.reservation with
  | none => true
  | some r => r.kid ≠ kid || r.granted ≤ r.used

/-- `reserveNonceWindow` up to its first `await`; where nothing can be persisted it
counts on in memory. -/
def reserve (p : Process κ) (i : ℕ) (kid : κ) : Process κ :=
  match p.persistDisabled, p.reservation with
  | true, some r =>
    if r.kid = kid then
      if maxEncryptionsPerKey ≤ r.base + r.granted then p.enter i .done
      else p.install i (windowAt kid (r.base + r.granted))
    else p.enter i (.reading kid)
  | _, _ => p.enter i (.reading kid)

/-- `reserveNonceWindow` once the file is read. -/
def reserveFrom (p : Process κ) (i : ℕ) (kid : κ) (keys : List (KeyEntry κ)) : Process κ :=
  match entryOf keys kid with
  | none => p.enter i .done
  | some _ =>
    let window := windowAt kid (usageOf keys kid)
    if maxEncryptionsPerKey ≤ window.base then p.enter i .done
    else if p.persistDisabled then p.install i window
    else p.enter i (.writing (setUsage kid (window.base + window.granted) keys) window)

/-- `loadKeys` once the file is read. -/
def load (p : Process κ) (i : ℕ) (keys : List (KeyEntry κ)) : Process κ :=
  match activeKid keys with
  | none => p.enter i .done
  | some kid => { p.enter i (.loaded kid) with cached := some kid }

/-- `encrypt` is called. -/
def call (p : Process κ) : Process κ :=
  match p.cached with
  | none => { p with calls := p.calls ++ [.loading] }
  | some kid => { p with calls := p.calls ++ [.loaded kid] }

end Process

/-! ### The system -/

/-- The key file as it was last written whole, whether it is cut off since, the IVs
used under each key, and the process that has the file. -/
structure State (κ : Type) where
  keys : List (KeyEntry κ)
  torn : Bool
  spent : κ → ℕ
  process : Option (Process κ)

/-- No key file yet. -/
def State.init : State κ := ⟨[], false, fun _ => 0, none⟩

inductive Action (κ : Type) where
  /-- `init`, or `init --force`: a new key is written. -/
  | rotate (kid : κ)
  /-- A rotation that crashes while it writes. -/
  | rotateCrash
  | start
  | call
  /-- A call takes its next step. -/
  | advance (i : ℕ)
  /-- The write that a call awaits fails. -/
  | failWrite (i : ℕ)
  | crash

namespace State

/-- What a read of the key file gives: a file that is cut off is no JSON. -/
def read (s : State κ) : Option (List (KeyEntry κ)) := if s.torn then none else some s.keys

def run (s : State κ) (p : Process κ) : State κ := { s with process := some p }

/-- The next step of a call in this phase. -/
def advance (s : State κ) (p : Process κ) (i : ℕ) : Phase κ → State κ
  | .loading =>
    match s.read with
    | none => s.run (p.enter i .done)
    | some keys => s.run (p.load i keys)
  | .loaded kid => s.run (if p.needsWindow kid then p.reserve i kid else p.consume i kid)
  | .reading kid =>
    match s.read with
    | none => s.run (p.enter i .done)
    | some keys => s.run (p.reserveFrom i kid keys)
  | .writing raw window => { s.run (p.enter i (.truncated raw window)) with torn := true }
  | .truncated raw window =>
    { s.run (p.enter i (.written window)) with keys := raw, torn := false }
  | .written window => s.run (p.install i window)
  | .resuming kid => s.run (p.consume i kid)
  | .drawing kid =>
    { s.run (p.enter i .done) with spent := Function.update s.spent kid (s.spent kid + 1) }
  | .done => s

/-- A write fails: from then on nothing is persisted. -/
def failWrite (s : State κ) (p : Process κ) (i : ℕ) : Phase κ → State κ
  | .writing _ window | .truncated _ window =>
    s.run { p.install i window with persistDisabled := true }
  | _ => s

end State

/-- The process and the phase of one of its calls. -/
def State.callAt (s : State κ) (i : ℕ) : Option (Process κ × Phase κ) :=
  match s.process with
  | none => none
  | some p => p.calls[i]?.map fun ph => (p, ph)

/-- One step. One process has the file at a time, and a new key has a new id. -/
def step (s : State κ) : Action κ → State κ
  | .rotate kid =>
    if s.process.isNone && !s.torn && kid ∉ s.keys.map KeyEntry.kid then
      { s with keys := rotated kid s.keys }
    else s
  | .rotateCrash => if s.process.isNone then { s with torn := true } else s
  | .start => if s.process.isNone then s.run Process.fresh else s
  | .call =>
    match s.process with
    | none => s
    | some p => s.run p.call
  | .advance i =>
    match s.callAt i with
    | none => s
    | some (p, ph) => s.advance p i ph
  | .failWrite i =>
    match s.callAt i with
    | none => s
    | some (p, ph) => s.failWrite p i ph
  | .crash => { s with process := none }

/-! ### Steps that go back -/

/-- The step does not go back: a write lowers no usage, a window starts behind what is
used in memory, and a call that comes back from its reservation finds an index left. -/
def Steady (s : State κ) (p : Process κ) : Phase κ → Prop
  | .truncated raw _ => ∀ e ∈ s.keys, usageOf s.keys e.kid ≤ usageOf raw e.kid
  | .written window => ∀ r ∈ p.reservation, r.base + r.used ≤ window.base
  | .resuming _ => ∀ r ∈ p.reservation, r.used < r.granted
  | _ => True

instance (s : State κ) (p : Process κ) : DecidablePred (Steady s p)
  | .truncated raw _ =>
    inferInstanceAs (Decidable (∀ e ∈ s.keys, usageOf s.keys e.kid ≤ usageOf raw e.kid))
  | .written window =>
    inferInstanceAs (Decidable (∀ r ∈ p.reservation, r.base + r.used ≤ window.base))
  | .resuming _ => inferInstanceAs (Decidable (∀ r ∈ p.reservation, r.used < r.granted))
  | .loading | .loaded _ | .reading _ | .writing _ _ | .drawing _ | .done => isTrue trivial

/-- No write of the key file fails. -/
def Writable : Action κ → Prop
  | .failWrite _ => False
  | _ => True

/-- The calls take steady steps. -/
def StepsSteady (s : State κ) : Action κ → Prop
  | .advance i =>
    match s.callAt i with
    | none => True
    | some (p, ph) => Steady s p ph
  | _ => True

instance : DecidablePred (Writable (κ := κ))
  | .failWrite _ => isFalse id
  | .rotate _ | .rotateCrash | .start | .call | .advance _ | .crash => isTrue trivial

instance (s : State κ) : DecidablePred (StepsSteady s)
  | .advance i =>
    match h : s.callAt i with
    | none => isTrue (by simp [StepsSteady, h])
    | some (p, ph) => decidable_of_iff (Steady s p ph) (by simp [StepsSteady, h])
  | .rotate _ | .rotateCrash | .start | .call | .failWrite _ | .crash => isTrue trivial

end Haechi.Crypto
