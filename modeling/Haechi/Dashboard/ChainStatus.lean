import Haechi.Audit.Chain
import Haechi.Runs
import Haechi.Text.Resync

/-! The chain status of the dashboard: a request looks at the audit file's time and size,
answers from the cache under these, joins a walk under way, or starts one, and a walk reads
the anchors and then the log. Proved: while the audit file is there whenever it is looked
for, the chain is reported valid only if verification succeeds on a log and an anchor file
that the paths have held, and, where the files change only between requests, on both as they
were together when the audit file had the time and size that it has. -/

namespace Haechi.Dashboard

open Text Json Audit

variable {ν : Type} [JsNumber ν]

/-! ### The files -/

structure LogFile where
  bytes : List ℕ
  mtimeMs : ℚ

/-- The audit file and the anchor file. -/
structure Files where
  log : Option LogFile
  anchors : Option (List ℕ)

/-- `${mtimeMs}:${size}`. -/
structure Key where
  mtimeMs : ℚ
  size : ℕ
deriving DecidableEq

def LogFile.key (log : LogFile) : Key := ⟨log.mtimeMs, log.bytes.length⟩

def Files.key (files : Files) : Option Key := files.log.map LogFile.key

/-- `CHAIN_MAX_BYTES`. -/
def chainMaxBytes : ℕ := 32 * 1024 * 1024

/-! ### The answers -/

inductive Body (ν : Type) where
  | valid (records : ℕ) (headHash : Option JsString) (anchored : Option (ℕ × ν))
  | invalid (records : ℕ) (truncationDetected : Bool)
  /-- `valid: null`. -/
  | unknown
deriving DecidableEq

structure Response (ν : Type) where
  status : ℕ
  body : Body ν
deriving DecidableEq

def Response.isValid (r : Response ν) : Prop := ∃ records head anchored, r.body = .valid records head anchored

/-- The answer where there is no audit file: an empty, valid chain. -/
def noFile : Response ν := ⟨200, .valid 0 none none⟩

/-- `shapeChainResult`; `none` is an exception of the verification. -/
def shapeChainResult : Verdict ν → Option (Body ν)
  | .valid records head anchored => some (.valid records head anchored)
  | .failed (.invalid records reason) =>
    some (.invalid records ((js "tail truncation").isPrefixOf reason))
  | .failed .threw => none

/-! ### The cache -/

/-- How far a walk is: it looks at the size, reads the anchors, and reads the log. -/
inductive Phase (ν : Type) where
  | stat
  | anchors
  | log (anchors : Option (Anchors ν))

/-- The walk in flight, under the key of the request that started it, with the number of
requests that await it. -/
structure Walk (ν : Type) where
  key : Key
  phase : Phase ν
  waiting : ℕ

/-- An answer, with the files as they were at the time and before, the latest first; without a
response the error is `internal`. -/
structure Answered (ν : Type) where
  response : Option (Response ν)
  seen : List Files

/-- The cache, the files, what they were before, and the requests: those whose look at the file
is back, and those answered. -/
structure ChainCache (ν : Type) where
  files : Files
  past : List Files
  cached : Option (Key × Response ν)
  inFlight : Option (Walk ν)
  pending : List Key
  answered : List (Answered ν)

/-- The files change, a request looks at the audit file, it goes on when that is back, or the
walk goes on. -/
inductive Step where
  | change (files : Files)
  | request
  | resume (i : ℕ)
  | walk

namespace ChainCache

/-- What the files held up to now, the latest first. -/
def seen (s : ChainCache ν) : List Files := s.files :: s.past

def answer (s : ChainCache ν) (n : ℕ) (response : Option (Response ν)) : ChainCache ν :=
  { s with answered := s.answered ++ List.replicate n ⟨response, s.seen⟩ }

/-- The walk has a result, which is cached. -/
def finish (s : ChainCache ν) (w : Walk ν) (response : Response ν) : ChainCache ν :=
  { s.answer w.waiting (some response) with cached := some (w.key, response), inFlight := none }

/-- The walk throws, so nothing is cached. -/
def throwing (s : ChainCache ν) (w : Walk ν) (response : Option (Response ν)) : ChainCache ν :=
  { s.answer w.waiting response with inFlight := none }

section Steps

variable (anchorPath : Bool) (sha256 : Digest)

/-- The anchor file, where a path is configured. -/
def anchorFile (files : Files) : Option (Option JsString) :=
  if anchorPath then some (files.anchors.map decodeLossy) else none

/-- The next step of `compute`. -/
def advance (s : ChainCache ν) (w : Walk ν) : ChainCache ν :=
  match w.phase with
  | .stat =>
    match s.files.log with
    | none => s.finish w noFile
    | some log =>
      if chainMaxBytes < log.bytes.length then s.finish w ⟨413, .unknown⟩
      else { s with inFlight := some { w with phase := .anchors } }
  | .anchors =>
    match (anchorFile anchorPath s.files).map readAnchors with
    | some none => s.throwing w none
    | anchors => { s with inFlight := some { w with phase := .log anchors.join } }
  | .log anchors =>
    match s.files.log with
    -- the error `ENOENT` of the walk is answered like that of the first look
    | none => s.throwing w (some noFile)
    | some log =>
      let verdict := verifyLines sha256 anchors (nonBlank (readLines (decodeLossy log.bytes)))
      match shapeChainResult verdict with
      | none => s.throwing w none
      | some body => s.finish w ⟨200, body⟩

/-- The request joins the walk in flight, or starts one. -/
def await (s : ChainCache ν) (key : Key) : ChainCache ν :=
  match s.inFlight with
  | some w => { s with inFlight := some { w with waiting := w.waiting + 1 } }
  | none => { s with inFlight := some ⟨key, .stat, 1⟩ }

/-- A request whose look at the audit file gave this key goes on. -/
def proceed (s : ChainCache ν) (key : Key) : ChainCache ν :=
  match s.cached with
  | some (k, response) => if k = key then s.answer 1 (some response) else s.await key
  | none => s.await key

def step (s : ChainCache ν) : Step → ChainCache ν
  | .change files => { s with files := files, past := s.seen }
  | .request =>
    match s.files.log with
    | none => s.answer 1 (some noFile)
    | some log => { s with pending := s.pending ++ [log.key] }
  | .resume i =>
    match s.pending[i]? with
    | none => s
    | some key => proceed { s with pending := s.pending.eraseIdx i } key
  | .walk =>
    match s.inFlight with
    | none => s
    | some w => s.advance anchorPath sha256 w

def init (files : Files) : ChainCache ν := ⟨files, [], none, none, [], []⟩

def run (files : Files) (steps : List Step) : ChainCache ν :=
  steps.foldl (step anchorPath sha256) (init files)

end Steps

/-! ### What an answer vouches for -/

variable (anchorPath : Bool) (sha256 : Digest)

/-- Verification of the files. -/
def verify (files : Files) : Verdict ν :=
  verifyAuditChain sha256 (files.log.map fun log => decodeLossy log.bytes)
    (anchorFile anchorPath files)

/-- Verification succeeds, and no anchor attests a sequence number beyond the last record. -/
def Verifies (ν : Type) [JsNumber ν] (files : Files) : Prop :=
  ∃ records head anchored,
    verify anchorPath sha256 files = (.valid records head anchored : Verdict ν) ∧
      ∀ anchors : Anchors ν, (anchorFile anchorPath files).map readAnchors = some (some anchors) →
        JsNumber.lt (JsNumber.ofNat records) anchors.lastSequence = false

/-- The anchors that a walk has read of the files. -/
def ReadOf (files : Files) (anchors : Option (Anchors ν)) : Prop :=
  (anchorFile anchorPath files).map readAnchors ≠ some (none : Option (Anchors ν)) ∧
    anchors = ((anchorFile anchorPath files).map readAnchors).join

omit [JsNumber ν] in
theorem isValid_shaped {status : ℕ} {verdict : Verdict ν} {body : Body ν}
    (hbody : shapeChainResult verdict = some body) (h : (⟨status, body⟩ : Response ν).isValid) :
    ∃ records head anchored, verdict = .valid records head anchored := by
  obtain ⟨records, head, anchored, rfl⟩ := h
  cases verdict with
  | valid records' head' anchored' => exact ⟨records', head', anchored', rfl⟩
  | failed failure => cases failure <;> simp [shapeChainResult] at hbody

theorem closeChain_eq_valid {anchors : Option (Anchors ν)} {st : ChainState} {records : ℕ}
    {head : Option JsString} {anchored : Option (ℕ × ν)}
    (h : closeChain anchors st = .valid records head anchored) :
    ∀ as, anchors = some as → JsNumber.lt (JsNumber.ofNat records) as.lastSequence = false := by
  rintro as rfl
  rw [closeChain] at h
  split_ifs at h with hlt
  rw [Verdict.valid.injEq] at h
  rw [← h.1]
  exact Bool.eq_false_of_not_eq_true hlt

/-- What the walk computes is the verification of the log and the anchors that it read. -/
theorem verifies_of_read {f g : Files} {log : LogFile} (hlog : f.log = some log)
    {anchors : Option (Anchors ν)} (hread : ReadOf anchorPath g anchors) {records : ℕ}
    {head : Option JsString} {anchored : Option (ℕ × ν)}
    (h : verifyLines sha256 anchors (nonBlank (readLines (decodeLossy log.bytes))) =
      .valid records head anchored) :
    Verifies anchorPath sha256 ν ⟨f.log, g.anchors⟩ := by
  obtain ⟨hthrew, rfl⟩ := hread
  have hanchors : anchorFile anchorPath ⟨f.log, g.anchors⟩ = anchorFile anchorPath g := rfl
  refine ⟨records, head, anchored, ?_, ?_⟩
  · rw [verify, verifyAuditChain, hanchors, hlog, Option.map_some]
    split
    · next heq => exact absurd heq hthrew
    · exact h
  · intro as has
    rw [hanchors] at has
    rw [verifyLines] at h
    split at h
    · cases h
    · exact closeChain_eq_valid h as (by rw [has]; rfl)

/-- Verification succeeds on a log and an anchor file among these; where the files changed
between requests only, on both as they were when the audit file had the key. -/
def Vouched (ν : Type) [JsNumber ν] (quiet : Prop) (seen : List Files) (key : Option Key) : Prop :=
  ∃ f ∈ seen, ∃ g ∈ seen, Verifies anchorPath sha256 ν ⟨f.log, g.anchors⟩ ∧
    (quiet → f = g ∧ f.key = key)

variable {anchorPath sha256} in
theorem Vouched.cons {quiet : Prop} {seen : List Files} {key : Option Key}
    (h : Vouched anchorPath sha256 ν quiet seen key) (f : Files) :
    Vouched anchorPath sha256 ν quiet (f :: seen) key := by
  obtain ⟨f₁, h₁, f₂, h₂, hverifies, hquiet⟩ := h
  exact ⟨f₁, List.mem_cons_of_mem f h₁, f₂, List.mem_cons_of_mem f h₂, hverifies, hquiet⟩

/-! ### The invariant -/

/-- No change while a request is being answered. -/
def Between (s : ChainCache ν) : Step → Prop
  | .change _ => s.inFlight = none ∧ s.pending = []
  | _ => True

/-- The audit file is there when it is looked for. -/
def Present (s : ChainCache ν) : Step → Prop
  | .request | .walk => s.files.log.isSome
  | _ => True

/-- What is cached and answered is vouched for, and requests and walks carry the key and the
anchors of the files where these do not change under them. -/
structure Sound (quiet : Prop) (s : ChainCache ν) : Prop where
  pending : quiet → ∀ k ∈ s.pending, s.files.key = some k
  inFlight : quiet → ∀ w, s.inFlight = some w → s.files.key = some w.key
  anchors : ∀ w as, s.inFlight = some w → w.phase = .log as →
    ∃ g ∈ s.seen, ReadOf anchorPath g as ∧ (quiet → g = s.files)
  cached : ∀ k r, s.cached = some (k, r) → r.isValid →
    Vouched anchorPath sha256 ν quiet s.seen (some k)
  answered : ∀ a ∈ s.answered, ∀ r, a.response = some r → r.isValid →
    ∃ files, a.seen.head? = some files ∧ Vouched anchorPath sha256 ν quiet a.seen files.key

variable {anchorPath sha256} {quiet : Prop} {s : ChainCache ν}

theorem Sound.change (h : Sound anchorPath sha256 quiet s) (files : Files)
    (hquiet : quiet → s.inFlight = none ∧ s.pending = []) :
    Sound anchorPath sha256 quiet (s.step anchorPath sha256 (.change files)) where
  pending hq k hk := by
    rw [step, (hquiet hq).2] at hk
    cases hk
  inFlight hq w hw := by
    rw [step, (hquiet hq).1] at hw
    cases hw
  anchors w as hw has := by
    obtain ⟨g, hg, hread, -⟩ := h.anchors w as hw has
    refine ⟨g, List.mem_cons_of_mem files hg, hread, fun hq => ?_⟩
    rw [step, (hquiet hq).1] at hw
    cases hw
  cached k r hr hvalid := (h.cached k r hr hvalid).cons files
  answered := h.answered

/-- Answers that are vouched for are added. -/
theorem Sound.answer (h : Sound anchorPath sha256 quiet s) (n : ℕ) (response : Option (Response ν))
    (hr : ∀ r, response = some r → r.isValid →
      Vouched anchorPath sha256 ν quiet s.seen s.files.key) :
    Sound anchorPath sha256 quiet (s.answer n response) where
  pending := h.pending
  inFlight := h.inFlight
  anchors := h.anchors
  cached := h.cached
  answered a ha r hresponse hvalid := by
    rcases List.mem_append.mp ha with ha | ha
    · exact h.answered a ha r hresponse hvalid
    · obtain rfl := List.eq_of_mem_replicate ha
      exact ⟨s.files, rfl, hr r hresponse hvalid⟩

theorem Sound.throwing (h : Sound anchorPath sha256 quiet s) (w : Walk ν) :
    Sound anchorPath sha256 quiet (s.throwing w none) where
  pending := h.pending
  inFlight _ w hw := by cases hw
  anchors w as hw := by cases hw
  cached := h.cached
  answered := (h.answer w.waiting _ (by simp)).answered

theorem Sound.finish (h : Sound anchorPath sha256 quiet s) {w : Walk ν} (hw : s.inFlight = some w)
    {response : Response ν} (hr : response.isValid →
      ∃ f ∈ s.seen, ∃ g ∈ s.seen, Verifies anchorPath sha256 ν ⟨f.log, g.anchors⟩ ∧
        (quiet → f = g ∧ f = s.files)) :
    Sound anchorPath sha256 quiet (s.finish w response) := by
  have hvouched : response.isValid → ∀ key, (quiet → s.files.key = key) →
      Vouched anchorPath sha256 ν quiet s.seen key := by
    intro hvalid key hkey
    obtain ⟨f, hf, g, hg, hverifies, hquiet⟩ := hr hvalid
    refine ⟨f, hf, g, hg, hverifies, fun hq => ⟨(hquiet hq).1, ?_⟩⟩
    rw [(hquiet hq).2, hkey hq]
  have hanswer := h.answer w.waiting (some response)
    fun r hresponse hvalid => hvouched (Option.some.inj hresponse ▸ hvalid) _ fun _ => rfl
  refine ⟨h.pending, ?_, ?_, ?_, hanswer.answered⟩
  · intro _ w hw
    cases hw
  · intro w as hw
    cases hw
  · intro k r hcached hvalid
    cases hcached
    exact hvouched hvalid _ fun hq => h.inFlight hq w hw

theorem Sound.advance (h : Sound anchorPath sha256 quiet s) {w : Walk ν} (hw : s.inFlight = some w)
    (hpresent : s.files.log.isSome) : Sound anchorPath sha256 quiet (s.advance anchorPath sha256 w) := by
  obtain ⟨log, hlog⟩ := Option.isSome_iff_exists.mp hpresent
  unfold ChainCache.advance
  cases hphase : w.phase with
  | stat =>
    simp only [hlog]
    split_ifs
    · exact h.finish hw (by rintro ⟨records, head, anchored, hbody⟩; cases hbody)
    · refine ⟨h.pending, ?_, ?_, h.cached, h.answered⟩
      · rintro hq w' ⟨rfl⟩
        exact h.inFlight hq w hw
      · rintro w' as ⟨rfl⟩ has
        cases has
  | anchors =>
    simp only
    split
    · exact h.throwing w
    · next hthrew =>
      refine ⟨h.pending, ?_, ?_, h.cached, h.answered⟩
      · rintro hq w' ⟨rfl⟩
        exact h.inFlight hq w hw
      · rintro w' as ⟨rfl⟩ has
        cases has
        exact ⟨s.files, List.mem_cons_self, ⟨hthrew, rfl⟩, fun _ => rfl⟩
  | log anchors =>
    simp only [hlog]
    obtain ⟨g, hg, hread, hquiet⟩ := h.anchors w anchors hw hphase
    split
    · exact h.throwing w
    · next body hbody =>
      apply h.finish hw
      intro hvalid
      obtain ⟨records, head, anchored, hverdict⟩ := isValid_shaped hbody hvalid
      exact ⟨s.files, List.mem_cons_self, g, hg,
        verifies_of_read anchorPath sha256 hlog hread hverdict,
        fun hq => ⟨(hquiet hq).symm, rfl⟩⟩

theorem Sound.await (h : Sound anchorPath sha256 quiet s) {key : Key}
    (hkey : quiet → s.files.key = some key) : Sound anchorPath sha256 quiet (s.await key) := by
  unfold ChainCache.await
  split
  · next w hw =>
    refine ⟨h.pending, ?_, ?_, h.cached, h.answered⟩
    · rintro hq w' ⟨rfl⟩
      exact h.inFlight hq w hw
    · rintro w' as ⟨rfl⟩ has
      exact h.anchors w as hw has
  · refine ⟨h.pending, ?_, ?_, h.cached, h.answered⟩
    · rintro hq w' ⟨rfl⟩
      exact hkey hq
    · rintro w' as ⟨rfl⟩ has
      cases has

theorem Sound.proceed (h : Sound anchorPath sha256 quiet s) {key : Key}
    (hkey : quiet → s.files.key = some key) : Sound anchorPath sha256 quiet (s.proceed key) := by
  unfold ChainCache.proceed
  split
  · next k r hcached =>
    split_ifs with heq
    · apply h.answer
      rintro r' ⟨rfl⟩ hvalid
      obtain ⟨f, hf, g, hg, hverifies, hquiet⟩ := h.cached k r hcached hvalid
      refine ⟨f, hf, g, hg, hverifies, fun hq => ⟨(hquiet hq).1, ?_⟩⟩
      rw [(hquiet hq).2, hkey hq, heq]
    · exact h.await hkey
  · exact h.await hkey

theorem Sound.step (h : Sound anchorPath sha256 quiet s) {a : Step} (hpresent : Present s a)
    (hbetween : quiet → Between s a) : Sound anchorPath sha256 quiet (s.step anchorPath sha256 a) := by
  cases a with
  | change files => exact h.change files hbetween
  | request =>
    obtain ⟨log, hlog⟩ := Option.isSome_iff_exists.mp hpresent
    simp only [ChainCache.step, hlog]
    refine ⟨fun hq k hk => ?_, h.inFlight, h.anchors, h.cached, h.answered⟩
    rcases List.mem_append.mp hk with hk | hk
    · exact h.pending hq k hk
    · rw [List.mem_singleton.mp hk, Files.key, hlog, Option.map_some]
  | resume i =>
    simp only [ChainCache.step]
    split
    · exact h
    · next key hkey =>
      have hmem : key ∈ s.pending := List.mem_of_getElem? hkey
      have herase : Sound anchorPath sha256 quiet { s with pending := s.pending.eraseIdx i } :=
        ⟨fun hq k hk => h.pending hq k (List.mem_of_mem_eraseIdx hk), h.inFlight, h.anchors,
          h.cached, h.answered⟩
      exact herase.proceed fun hq => h.pending hq key hmem
  | walk =>
    simp only [ChainCache.step]
    split
    · exact h
    · next w hw => exact h.advance hw hpresent

theorem sound_init (files : Files) : Sound anchorPath sha256 quiet (init files : ChainCache ν) where
  pending _ k hk := by cases hk
  inFlight _ w hw := by cases hw
  anchors w as hw := by cases hw
  cached k r hr := by cases hr
  answered a ha := by cases ha

/-- While the audit file is there whenever it is looked for, the chain is reported valid only if
verification succeeds, with no anchor beyond the last record, on a log and an anchor file that
the paths have held up to then; where the files change only between requests, on both as they
were together at a time when the audit file had the time and size that it has. -/
theorem vouched_run (anchorPath : Bool) (sha256 : Digest) (files : Files) (steps : List Step)
    (hpresent : Allowed (step anchorPath sha256) Present (init files : ChainCache ν) steps) :
    ∀ a ∈ (run anchorPath sha256 files steps : ChainCache ν).answered,
      ∀ r, a.response = some r → r.isValid → ∃ now, a.seen.head? = some now ∧
        ∃ f ∈ a.seen, ∃ g ∈ a.seen, Verifies anchorPath sha256 ν ⟨f.log, g.anchors⟩ ∧
          (Allowed (step anchorPath sha256) Between (init files : ChainCache ν) steps →
            f = g ∧ f.key = now.key) := by
  have hok : ∀ quiet : Prop,
      (quiet ↔ Allowed (step anchorPath sha256) Between (init files : ChainCache ν) steps) →
      Allowed (step anchorPath sha256) (fun s a => Present s a ∧ (quiet → Between s a))
        (init files : ChainCache ν) steps := by
    intro quiet hquiet
    by_cases hq : quiet
    · exact (hpresent.and (hquiet.mp hq)).mono fun s a h => ⟨h.1, fun _ => h.2⟩
    · exact hpresent.mono fun s a h => ⟨h, fun h' => absurd h' hq⟩
  have hstep : ∀ quiet : Prop, ∀ (s : ChainCache ν) (a : Step), Sound anchorPath sha256 quiet s →
      (Present s a ∧ (quiet → Between s a)) →
      Sound anchorPath sha256 quiet (s.step anchorPath sha256 a) :=
    fun quiet s a h hok => h.step hok.1 hok.2
  exact (Allowed.invariant (hstep _) (sound_init files) (hok _ Iff.rfl)).answered

/-- An empty log and no anchors, seen twice; in between the log grows. -/
theorem vouched_run_twice :
    let files : Files := ⟨some ⟨[], 0⟩, none⟩
    ∀ a ∈ (run true hexDigest files [.request, .resume 0, .walk, .walk, .walk,
        .change ⟨some ⟨[10], 1⟩, none⟩, .request, .resume 0] : ChainCache NumberToken).answered,
      ∀ r, a.response = some r → r.isValid → ∃ now, a.seen.head? = some now ∧
        ∃ f ∈ a.seen, ∃ g ∈ a.seen, Verifies true hexDigest NumberToken ⟨f.log, g.anchors⟩ ∧
          (Allowed (step true hexDigest) Between (init files : ChainCache NumberToken)
            [.request, .resume 0, .walk, .walk, .walk, .change ⟨some ⟨[10], 1⟩, none⟩, .request,
              .resume 0] → f = g ∧ f.key = now.key) :=
  vouched_run true hexDigest _ _ ⟨rfl, trivial, rfl, rfl, rfl, trivial, rfl, trivial, trivial⟩

/-- The anchor `{"sequence":1,"eventHash":"a"}`. -/
def attested : List ℕ := (js "\x7b\"sequence\":1,\"eventHash\":\"a\"\x7d").map UInt16.toNat

/-- The log is empty and reported valid. Then a first record is attested, and the log is this;
the next request finds it so. -/
def afterAttested (log : Option LogFile) : ChainCache NumberToken :=
  run true hexDigest ⟨some ⟨[], 0⟩, none⟩ [.request, .resume 0, .walk, .walk, .walk,
    .change ⟨log, some attested⟩, .request, .resume 0]

/-- The chain is reported valid from the cache where the log keeps its time and size, and where
there is no log, though verification fails and the anchor is beyond the last record. -/
theorem overclaims :
    let kept := afterAttested (some ⟨[], 0⟩)
    let gone := afterAttested none
    (kept.answered.getLast?.map Answered.response =
        some (some ⟨200, .valid 0 none (some (0, JsNumber.ofNat 0))⟩) ∧
      (verify true hexDigest kept.files : Verdict NumberToken) = .failed (.invalid 0
        (js "tail truncation: chain has 0 records but anchor attests sequence 1"))) ∧
    gone.answered.getLast?.map Answered.response = some (some noFile) ∧
      (verify true hexDigest gone.files : Verdict NumberToken) = .failed .threw := by
  decide +kernel

end ChainCache

end Haechi.Dashboard
