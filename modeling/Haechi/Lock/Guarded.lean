import Haechi.Audit.Sink
import Haechi.Lock.FileLock

/-! What the lock guards. Under it several audit writers append to one log and
several vault processes rewrite one vault. In a run whose unlinks remove the
file they mean, the log is one chain and no mutation of the vault is lost; a
waiter that breaks a lock which another waiter has already replaced takes both
away. -/

namespace Haechi.Lock

open Audit Text

variable {ν : Type} [JsNumber ν]

/-- A transaction of the audit store: the record is chained to the snapshot and
appended to the log. -/
def auditWrite (sha256 : Digest) (e : Event ν) (snapshot log : Option JsString) :
    Option JsString :=
  match (readLastIntegrity snapshot : Option (Option (Integrity ν))) with
  | none => log
  | some previous =>
    appendFile log (jsonLine (.obj (buildIntegrityRecord sha256 previous e.sanitized)) ++ [10])

/-- A mutation of the token store: the vault is replaced by the mutated snapshot. -/
def vaultWrite {V : Type} (mutation : V → V) (snapshot _vault : V) : V := mutation snapshot

/-- The log of one chain over these events. -/
def logOf (sha256 : Digest) (es : List (Event ν)) : Option JsString :=
  fileOf ((logLinks sha256 es).map (Link.line sha256))

/-- One transaction on the log of a chain adds one link to it. -/
theorem atomically_auditWrite (sha256 : Digest) (es : List (Event ν)) (e : Event ν) :
    atomically (auditWrite sha256) e (logOf sha256 es) = logOf sha256 (es ++ [e]) := by
  have hread : readLastIntegrity (logOf sha256 es) = some (chainHead sha256 none es) :=
    readLastIntegrity_filesOf ⟨.none, 1, Nat.one_pos⟩ sha256 es []
  have hlinks : logLinks sha256 (es ++ [e]) =
      logLinks sha256 es ++ [⟨chainHead sha256 none es, e⟩] := links_append sha256 none es [e]
  rw [atomically, auditWrite, hread]
  simp only [logOf, hlinks, List.map_append, List.map_singleton, ← appendFile_fileOf]
  rfl

/-- Serial transactions build one chain. -/
theorem serial_auditWrite (sha256 : Digest) (es fs : List (Event ν)) :
    fs.foldl (fun log e => atomically (auditWrite sha256) e log) (logOf sha256 es) =
      logOf sha256 (es ++ fs) := by
  induction fs generalizing es with
  | nil => rw [List.append_nil, List.foldl_nil]
  | cons e fs ih => rw [List.foldl_cons, atomically_auditWrite, ih, List.append_assoc]; rfl

/-- **The file lock.** In every run in which holders are prompt and unlinks remove
the file they mean, at most one process is in its critical section; the audit
log is one chain over all its writers' events, and the vault has every mutation. -/
theorem withFileLock_safe (P : Type) [DecidableEq P] :
    (∀ (sha256 : Digest) (actions : List (Action P (Event ν))),
      Allowed (step (auditWrite sha256)) Safe (State.init none) actions →
      let s := actions.foldl (step (auditWrite sha256)) (State.init none)
      MutuallyExclusive s ∧ s.store = logOf sha256 s.history) ∧
    (∀ (V : Type) (vault : V) (actions : List (Action P (V → V))),
      Allowed (step vaultWrite) Safe (State.init vault) actions →
      let s := actions.foldl (step vaultWrite) (State.init vault)
      MutuallyExclusive s ∧ s.store = s.history.foldl (fun v mutation => mutation v) vault) := by
  constructor
  · intro sha256 actions h
    have hinv := inv_run none h
    refine ⟨hinv.mutuallyExclusive, hinv.serial.trans ?_⟩
    exact serial_auditWrite sha256 [] _
  · intro V vault actions h
    have hinv := inv_run vault h
    exact ⟨hinv.mutuallyExclusive, hinv.serial⟩

/-- Three processes: the first dies with the lock, the second finds the lock
stale, breaks it and writes. -/
def takeover : List (Action (Fin 3) (ℕ → ℕ)) :=
  [.call 0 (· + 1), .advance 0, .crash 0, .tick 30001,
    .call 1 (· + 1), .advance 1, .advance 1, .advance 1, .advance 1, .advance 1, .advance 1]

theorem withFileLock_safe_takeover :
    let s := takeover.foldl (step vaultWrite) (State.init 0)
    MutuallyExclusive s ∧ s.store = s.history.foldl (fun v mutation => mutation v) 0 :=
  (withFileLock_safe (ν := NumberToken) (Fin 3)).2 ℕ 0 takeover (by decide +kernel)

/-- Two waiters find the lock of the dead process stale. The first breaks it and
takes a lock of its own, which the second then unlinks. -/
def race : List (Action (Fin 3) (ℕ → ℕ)) :=
  [.call 0 (· + 1), .advance 0, .crash 0, .tick 30001,
    .call 1 (· + 1), .advance 1, .advance 1, .call 2 (· + 1), .advance 2, .advance 2,
    .advance 1, .advance 1, .advance 2, .advance 2]

theorem withFileLock_race :
    ¬ ∀ (P : Type) (_ : DecidableEq P) (V : Type) (vault : V) (actions : List (Action P (V → V))),
      Allowed (step vaultWrite) (fun s _ => Prompt s) (State.init vault) actions →
      let s := actions.foldl (step vaultWrite) (State.init vault)
      MutuallyExclusive s ∧ s.store = s.history.foldl (fun v mutation => mutation v) vault := by
  intro h
  have hboth := (h (Fin 3) inferInstance ℕ 0 race (by decide +kernel)).1 1 2
    (by decide +kernel) (by decide +kernel)
  exact absurd hboth (by decide)

end Haechi.Lock
