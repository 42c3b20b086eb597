import Haechi.Crypto.KeyFile
import Haechi.Runs

/-! Crashes around the key file. It is written in place: `writeFile` cuts it off and then
writes, on the encryption path as well, whenever a window of nonces is reserved. Proved: after
a crash every key that was ever stored is found in the file, and opens what was sealed under
it, exactly when no write was left between its two steps since there have been keys. -/

namespace Haechi.Crypto

open Text Json

variable {ν : Type} [JsNumber ν]

/-- The file on the disk. -/
inductive Disk where
  | missing
  /-- It is cut off: no JSON. -/
  | torn
  | holds (keys : List StoredKey)

/-- Where a write of the file stands. -/
inductive Job where
  /-- `reserveNonceWindow` awaits its read. -/
  | reserving (kid : JsString)
  /-- `initLocalKeyFile` awaits its read. -/
  | initialising (force : Bool) (kid : JsString) (raw : RawKey)
  /-- Either awaits its write. -/
  | writing (keys : List StoredKey)
  | truncated (keys : List StoredKey)

/-- The disk, the operation under way, and what a load of each file that was written whole
gave. -/
structure FileState where
  disk : Disk
  job : Option Job
  rings : List KeyRing

/-- No key file yet. -/
def FileState.init : FileState := ⟨.missing, none, []⟩

inductive FileAction where
  | reserve (kid : JsString)
  | init (force : Bool) (kid : JsString) (raw : RawKey)
  /-- The operation takes its next step. -/
  | advance
  /-- The write fails, before or after it has cut the file off. -/
  | failWrite
  | crash

namespace FileState

/-- The operation has read the file and goes on to its write, if it writes. -/
def goOn (s : FileState) (write : Option (List StoredKey)) : FileState :=
  { s with job := write.map .writing }

/-- The next step of the operation. A file that is cut off is read by neither. -/
def advance (codec : Codec ν) (s : FileState) : Job → FileState
  | .reserving kid =>
    match s.disk with
    | .holds keys => s.goOn ((reserveNonceWindow kid keys).map Prod.snd)
    | .missing | .torn => s.goOn none
  | .initialising force kid raw =>
    match s.disk with
    | .missing => s.goOn (initLocalKeyFile force kid raw none)
    | .holds keys => s.goOn (initLocalKeyFile force kid raw (some keys))
    | .torn => s.goOn none
  | .writing keys => { s with disk := .torn, job := some (.truncated keys) }
  | .truncated keys =>
    ⟨.holds keys, none, (loadKeyFile codec false keys).toList ++ s.rings⟩

/-- One step. Operations do not overlap. -/
def step (codec : Codec ν) (s : FileState) : FileAction → FileState
  | .reserve kid => if s.job.isNone then { s with job := some (.reserving kid) } else s
  | .init force kid raw =>
    if s.job.isNone then { s with job := some (.initialising force kid raw) } else s
  | .advance =>
    match s.job with
    | none => s
    | some job => s.advance codec job
  | .failWrite =>
    match s.job with
    | some (.writing _) | some (.truncated _) => { s with job := none }
    | _ => s
  | .crash => { s with job := none }

/-- The file, as it is on the disk, loads, and finds each key that `ring` found. -/
def Readable (codec : Codec ν) (disk : Disk) (ring : KeyRing) : Prop :=
  ∃ keys ring', disk = .holds keys ∧ loadKeyFile codec false keys = some ring' ∧ ring.Extends ring'

/-- Every key that was stored is readable. -/
def KeysSurvive (codec : Codec ν) (s : FileState) : Prop := ∀ ring ∈ s.rings, Readable codec s.disk ring

/-- Every envelope that was sealed with a file that was stored opens to the same as then. -/
def EnvelopesOpen (codec : Codec ν) (s : FileState) : Prop :=
  ∀ ring ∈ s.rings, ∃ keys ring', s.disk = .holds keys ∧ loadKeyFile codec false keys = some ring' ∧
    ∀ (node : NodeCrypto) (nfkc : JsString → JsString) (iv : List ℕ) (plaintext : JsString)
      (aad : JsValue ν) (expiresAt : Option ℕ) (e : Envelope),
      encrypt node nfkc ring iv plaintext aad expiresAt = some e →
        ∀ (now : ℕ) (aad' : JsValue ν),
          decrypt node nfkc ring' now e aad' = decrypt node nfkc ring now e aad'

/-- The step does not leave a write between its two steps, unless nothing was stored yet. -/
def WriteWhole (s : FileState) : FileAction → Prop
  | .crash | .failWrite => ∀ keys, s.job = some (.truncated keys) → s.rings = []
  | _ => True

/-! ### The invariant -/

/-- The file that is there, or is being written, keeps every key. -/
def Keeps (codec : Codec ν) (s : FileState) (keys : List StoredKey) : Prop :=
  ∀ ring ∈ s.rings, ∃ ring', loadKeyFile codec false keys = some ring' ∧ ring.Extends ring'

/-- What holds as long as each write is whole. -/
def Sound (codec : Codec ν) (s : FileState) : Prop :=
  (∀ keys, s.disk = .holds keys → Keeps codec s keys) ∧
    (∀ keys, s.job = some (.writing keys) ∨ s.job = some (.truncated keys) → Keeps codec s keys) ∧
      (s.rings ≠ [] → (∃ keys, s.disk = .holds keys) ∨ ∃ keys, s.job = some (.truncated keys))

/-- The keys are lost: the file is cut off and no operation is writing it. -/
def Lost (s : FileState) : Prop :=
  s.disk = .torn ∧ s.rings ≠ [] ∧ ∀ keys, s.job ≠ some (.writing keys) ∧ s.job ≠ some (.truncated keys)

variable {codec : Codec ν} {s : FileState} {keys : List StoredKey}

omit [JsNumber ν] in
/-- A step changes nothing, starts or drops an operation, or goes on with the one under way. A
write that it drops between its two steps is no whole one. -/
theorem step_cases (codec : Codec ν) (s : FileState) (a : FileAction) :
    s.step codec a = s ∨
      (∃ job, s.step codec a = { s with job := job } ∧
        (∀ keys, job ≠ some (.writing keys) ∧ job ≠ some (.truncated keys)) ∧
        ∀ keys, s.job = some (.truncated keys) → WriteWhole s a → s.rings = []) ∨
      ∃ job, s.job = some job ∧ s.step codec a = s.advance codec job := by
  cases a with
  | reserve kid =>
    by_cases hidle : s.job.isNone
    · refine .inr (.inl ⟨some (.reserving kid), if_pos hidle, by simp, fun keys hkeys _ => ?_⟩)
      rw [hkeys] at hidle
      cases hidle
    · exact .inl (if_neg hidle)
  | init force kid raw =>
    by_cases hidle : s.job.isNone
    · refine .inr (.inl ⟨some (.initialising force kid raw), if_pos hidle, by simp,
        fun keys hkeys _ => ?_⟩)
      rw [hkeys] at hidle
      cases hidle
    · exact .inl (if_neg hidle)
  | advance =>
    rw [FileState.step]
    split
    · exact .inl rfl
    · exact .inr (.inr ⟨_, ‹_›, rfl⟩)
  | failWrite =>
    rw [FileState.step]
    split
    · exact .inr (.inl ⟨none, rfl, by simp, fun keys hkeys h => h keys hkeys⟩)
    · exact .inr (.inl ⟨none, rfl, by simp, fun keys hkeys h => h keys hkeys⟩)
    · exact .inl rfl
  | crash => exact .inr (.inl ⟨none, rfl, by simp, fun keys hkeys h => h keys hkeys⟩)

omit [JsNumber ν] in
/-- What a reservation writes keeps every key. -/
theorem Keeps.reserve {kid : JsString} {window : Reservation JsString} {keys' : List StoredKey}
    (h : Keeps codec s keys) (hreserve : reserveNonceWindow kid keys = some (window, keys')) :
    Keeps codec s keys' := by
  obtain ⟨-, u, rfl⟩ := reserveNonceWindow_eq_some hreserve
  intro ring hring
  rw [loadKeyFile_withUsage]
  exact h ring hring

omit [JsNumber ν] in
/-- What an initialisation writes keeps every key. -/
theorem Keeps.rotate (h : Keeps codec s keys) (kid : JsString) (raw : RawKey) :
    Keeps codec s (newKey kid raw :: keys.map retire) := by
  intro ring hring
  obtain ⟨ring', hload, hextends⟩ := h ring hring
  obtain ⟨ring'', hload', hextends', -⟩ := loadKeyFile_newKey hload kid raw
  exact ⟨ring'', hload', hextends.trans hextends'⟩

omit [JsNumber ν] in
/-- An operation that goes on writes something that keeps every key. -/
theorem Sound.goOn (h : Sound codec s) (hjob : ∀ keys, s.job ≠ some (.truncated keys))
    {write : Option (List StoredKey)} (hwrite : ∀ keys ∈ write, Keeps codec s keys) :
    Sound codec (s.goOn write) := by
  obtain ⟨hdisk, -, hstored⟩ := h
  refine ⟨hdisk, ?_, fun hne => ?_⟩
  · rintro keys (hkeys | hkeys)
    · obtain ⟨keys', hmem, heq⟩ := Option.map_eq_some_iff.mp hkeys
      cases heq
      exact hwrite keys hmem
    · obtain ⟨keys', -, heq⟩ := Option.map_eq_some_iff.mp hkeys
      cases heq
  · rcases hstored hne with hholds | ⟨keys, hkeys⟩
    · exact .inl hholds
    · exact absurd hkeys (hjob keys)

omit [JsNumber ν] in
/-- An operation that starts, or ends without having written, changes nothing. -/
theorem Sound.setJob (h : Sound codec s) {job : Option Job}
    (hwrites : ∀ keys, job ≠ some (.writing keys) ∧ job ≠ some (.truncated keys))
    (hjob : ∀ keys, s.job = some (.truncated keys) → s.rings = []) :
    Sound codec { s with job := job } := by
  obtain ⟨hdisk, -, hstored⟩ := h
  refine ⟨hdisk, ?_, fun hne => ?_⟩
  · rintro keys (hkeys | hkeys)
    · exact absurd hkeys (hwrites keys).1
    · exact absurd hkeys (hwrites keys).2
  · rcases hstored hne with hholds | ⟨keys, hkeys⟩
    · exact .inl hholds
    · exact absurd (hjob keys hkeys) hne

omit [JsNumber ν] in
theorem Sound.advance (h : Sound codec s) {job : Job} (hjob : s.job = some job) :
    Sound codec (s.advance codec job) := by
  obtain ⟨hdisk, hwriting, hstored⟩ := id h
  cases job with
  | reserving kid =>
    have hnot : ∀ keys, s.job ≠ some (.truncated keys) := by
      rw [hjob]
      nofun
    rw [FileState.advance]
    split
    · rename_i keys hkeys
      refine h.goOn hnot fun keys' hkeys' => ?_
      obtain ⟨⟨window, written⟩, hreserve, rfl⟩ := Option.map_eq_some_iff.mp hkeys'
      exact (hdisk keys hkeys).reserve hreserve
    all_goals exact h.goOn hnot (by simp)
  | initialising force kid raw =>
    have hnot : ∀ keys, s.job ≠ some (.truncated keys) := by
      rw [hjob]
      nofun
    rw [FileState.advance]
    split
    · rename_i hmissing
      refine h.goOn hnot fun keys hkeys => ?_
      have hnone : s.rings = [] := by
        by_contra hne
        rcases hstored hne with ⟨keys, hholds⟩ | ⟨keys, hkeys⟩
        · rw [hmissing] at hholds
          cases hholds
        · exact hnot keys hkeys
      intro ring hring
      rw [hnone] at hring
      cases hring
    · rename_i keys hkeys
      refine h.goOn hnot fun keys' hkeys' => ?_
      rw [initLocalKeyFile_eq_some hkeys']
      exact (hdisk keys hkeys).rotate kid raw
    · exact h.goOn hnot (by simp)
  | writing keys =>
    refine ⟨nofun, ?_, fun _ => .inr ⟨keys, rfl⟩⟩
    rintro keys' (hkeys | hkeys)
    · cases hkeys
    · cases hkeys
      exact hwriting keys (.inl hjob)
  | truncated keys =>
    have hkeeps := hwriting keys (.inr hjob)
    refine ⟨?_, nofun, fun _ => .inl ⟨keys, rfl⟩⟩
    intro keys' hkeys' ring hring
    cases hkeys'
    rcases List.mem_append.mp hring with hring | hring
    · exact ⟨ring, Option.mem_toList.mp hring, .refl ring⟩
    · exact hkeeps ring hring

omit [JsNumber ν] in
/-- Every step whose write is whole keeps every key. -/
theorem Sound.step {a : FileAction} (h : Sound codec s) (ha : WriteWhole s a) :
    Sound codec (s.step codec a) := by
  rcases step_cases codec s a with heq | ⟨job, heq, hwrites, hdrop⟩ | ⟨job, hjob, heq⟩
  · rwa [heq]
  · rw [heq]
    exact h.setJob hwrites fun keys hkeys => hdrop keys hkeys ha
  · rw [heq]
    exact h.advance hjob

omit [JsNumber ν] in
theorem sound_init : Sound codec .init :=
  ⟨nofun, by simp [FileState.init], fun h => absurd rfl h⟩

/-! ### What is lost stays lost -/

omit [JsNumber ν] in
theorem Lost.step {a : FileAction} (h : Lost s) : Lost (s.step codec a) := by
  obtain ⟨hdisk, hrings, hjob⟩ := id h
  rcases step_cases codec s a with heq | ⟨job, heq, hwrites, -⟩ | ⟨job, hsome, heq⟩
  · rwa [heq]
  · rw [heq]
    exact ⟨hdisk, hrings, hwrites⟩
  · rw [heq]
    cases job with
    | reserving kid =>
      rw [FileState.advance, hdisk]
      exact ⟨hdisk, hrings, by simp [FileState.goOn]⟩
    | initialising force kid raw =>
      rw [FileState.advance, hdisk]
      exact ⟨hdisk, hrings, by simp [FileState.goOn]⟩
    | writing keys => exact absurd hsome (hjob keys).1
    | truncated keys => exact absurd hsome (hjob keys).2

/-- While a write stands between its steps, the file is cut off. -/
def Cut (s : FileState) : Prop := ∀ keys, s.job = some (.truncated keys) → s.disk = .torn

omit [JsNumber ν] in
theorem Cut.step {a : FileAction} (h : Cut s) : Cut (s.step codec a) := by
  rcases step_cases codec s a with heq | ⟨job, heq, hwrites, -⟩ | ⟨job, -, heq⟩
  · rwa [heq]
  · rw [heq]
    exact fun keys hkeys => absurd hkeys (hwrites keys).2
  · rw [heq]
    cases job with
    | reserving kid =>
      rw [FileState.advance]
      split <;> simp [Cut, FileState.goOn]
    | initialising force kid raw =>
      rw [FileState.advance]
      split <;> simp [Cut, FileState.goOn]
    | writing keys => exact fun _ _ => rfl
    | truncated keys => nofun

omit [JsNumber ν] in
/-- A write that is left between its steps loses the keys. -/
theorem Cut.lost {a : FileAction} (h : Cut s) (ha : ¬WriteWhole s a) : Lost (s.step codec a) := by
  have left : (¬∀ keys, s.job = some (.truncated keys) → s.rings = []) →
      ∃ keys, s.job = some (.truncated keys) ∧ s.disk = .torn ∧ s.rings ≠ [] := by
    intro hnot
    obtain ⟨keys, hkeys⟩ := not_forall.mp hnot
    obtain ⟨hjob, hne⟩ := Classical.not_imp.mp hkeys
    exact ⟨keys, hjob, h keys hjob, hne⟩
  cases a with
  | reserve kid => exact absurd trivial ha
  | init force kid raw => exact absurd trivial ha
  | advance => exact absurd trivial ha
  | failWrite =>
    obtain ⟨keys, hjob, hdisk, hne⟩ := left ha
    rw [FileState.step, hjob]
    exact ⟨hdisk, hne, by simp⟩
  | crash =>
    obtain ⟨keys, -, hdisk, hne⟩ := left ha
    exact ⟨hdisk, hne, by simp [FileState.step]⟩

omit [JsNumber ν] in
theorem lost_of_not_allowed {as : List FileAction} (hcut : Cut s)
    (h : ¬Allowed (step codec) WriteWhole s as) : Lost (as.foldl (step codec) s) := by
  induction as generalizing s with
  | nil => exact absurd trivial h
  | cons a as ih =>
    by_cases ha : WriteWhole s a
    · exact ih hcut.step fun hallowed => h ⟨ha, hallowed⟩
    · have hrun : Allowed (step codec) (fun _ _ => True) (s.step codec a) as :=
        .of_forall (fun _ _ => trivial) _ _
      rw [List.foldl_cons]
      exact hrun.invariant (fun _ _ hlost _ => hlost.step) (hcut.lost ha)

/-- **Crashes around the key file.** After a crash every key that was ever stored is in the
file exactly when no write was left between its two steps, the first one aside; and then
every envelope opens to what it opened to under the file it was sealed with. -/
theorem keysSurvive_iff (codec : Codec ν) (as : List FileAction) :
    (KeysSurvive codec ((as ++ [FileAction.crash]).foldl (step codec) .init) ↔
        Allowed (step codec) WriteWhole .init (as ++ [FileAction.crash])) ∧
      (Allowed (step codec) WriteWhole .init (as ++ [FileAction.crash]) →
        EnvelopesOpen codec ((as ++ [FileAction.crash]).foldl (step codec) .init)) := by
  have hidle : ((as ++ [FileAction.crash]).foldl (step codec) .init).job = none := by
    rw [List.foldl_append]
    rfl
  have hsurvive : Allowed (step codec) WriteWhole .init (as ++ [FileAction.crash]) →
      KeysSurvive codec ((as ++ [FileAction.crash]).foldl (step codec) .init) := by
    intro h ring hring
    obtain ⟨hdisk, -, hstored⟩ := h.invariant (I := Sound codec) (fun _ _ => Sound.step) sound_init
    rcases hstored (List.ne_nil_of_mem hring) with ⟨keys, hholds⟩ | ⟨keys, hkeys⟩
    · obtain ⟨ring', hload, hextends⟩ := hdisk keys hholds ring hring
      exact ⟨keys, ring', hholds, hload, hextends⟩
    · rw [hidle] at hkeys
      cases hkeys
  refine ⟨⟨fun h => ?_, hsurvive⟩, fun h ring hring => ?_⟩
  · by_contra hnot
    obtain ⟨hdisk, hrings, -⟩ := lost_of_not_allowed (s := .init) nofun hnot
    obtain ⟨ring, hring⟩ := List.exists_mem_of_ne_nil _ hrings
    obtain ⟨keys, -, hholds, -⟩ := h ring hring
    rw [hdisk] at hholds
    cases hholds
  · obtain ⟨keys, ring', hholds, hload, hextends⟩ := hsurvive h ring hring
    exact ⟨keys, ring', hholds, hload, fun _ _ _ _ _ _ _ hsealed _ _ => hextends.decrypt_eq hsealed⟩

/-- A key whose bytes are all zero. -/
def zeroKey : RawKey := ⟨List.replicate 32 0, rfl, by decide⟩

/-- A process that has made the key file, and reserves a window for its first encryption, has
cut the file off. -/
def cutOff : List FileAction :=
  [.init false (js "local-1") zeroKey, .advance, .advance, .advance, .reserve (js "local-1"), .advance,
    .advance]

omit [JsNumber ν] in
theorem not_keysSurvive_cutOff (codec : Codec ν) :
    ¬KeysSurvive codec ((cutOff ++ [FileAction.crash]).foldl (step codec) .init) := by
  intro h
  obtain ⟨ring, hload, -⟩ := loadKeyFile_newKey_nil codec (js "local-1") zeroKey
  have hend : (cutOff ++ [FileAction.crash]).foldl (step codec) .init =
      ⟨.torn, none, (loadKeyFile codec false [newKey (js "local-1") zeroKey]).toList ++ []⟩ := rfl
  rw [hend, hload] at h
  obtain ⟨keys, -, hholds, -⟩ := h ring List.mem_cons_self
  cases hholds

/-- A reservation that crashes between its two steps loses the only key. -/
theorem reservation_loses_key : ¬∀ (codec : Codec NumberToken) (as : List FileAction),
    KeysSurvive codec ((as ++ [FileAction.crash]).foldl (step codec) .init) :=
  fun h => not_keysSurvive_cutOff digitCodec (h digitCodec cutOff)

end FileState

end Haechi.Crypto
