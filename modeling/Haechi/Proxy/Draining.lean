import Haechi.Proxy.Handler
import Haechi.Runs

/-! The server around the request handler: the count of requests in flight with its
ceiling, and `close`, which waits for them. Clients connect, send and hang up, requests
end in any order, and `close` may be called more than once. Proved of every run: the
count is that of the counted requests that still run, and a pending `close` that waits
for them is cut short by its timer at the latest. -/

namespace Haechi.Proxy

open Act

/-! ### Admission -/

/-- How a request is met when it arrives. -/
inductive Admission where
  | exempt
  | refused
  | counted
deriving DecidableEq

/-- The ceiling, read before anything else. -/
def admission (maxInFlight : ℕ) (exempt : Bool) (inFlight : ℤ) : Admission :=
  if !exempt && 0 < maxInFlight && maxInFlight ≤ inFlight then .refused
  else if exempt then .exempt
  else .counted

theorem admission_refused_iff {maxInFlight : ℕ} {exempt : Bool} {inFlight : ℤ} :
    admission maxInFlight exempt inFlight = .refused ↔
      exempt = false ∧ 0 < maxInFlight ∧ maxInFlight ≤ inFlight := by
  have hiff : (!exempt && 0 < maxInFlight && maxInFlight ≤ inFlight) = true ↔
      exempt = false ∧ 0 < maxInFlight ∧ maxInFlight ≤ inFlight := by
    simp [and_assoc]
  rw [admission, ← hiff]
  split_ifs with hover <;> simp [hover]

/-- What the handler does with a request, once it is met. -/
def handlerOf {τ : Type} (c : Config) (env : Env τ) (r : Request) (ν : Type) [JsNumber ν] :
    Admission → M τ Unit
  | .refused => writeJson 503
  | .exempt => (serve c env r ν).recover recovery
  | .counted => emit .count >>= fun _ => ((serve c env r ν).recover recovery).ensure .uncount

theorem requestHandler_admission {τ : Type} (c : Config) (env : Env τ) (r : Request) (ν : Type)
    [JsNumber ν] (inFlight : ℕ) :
    requestHandler c env r ν inFlight =
      handlerOf c env r ν (admission c.maxInFlight (isObservabilityRoute r) inFlight) := by
  rw [requestHandler, admission]
  simp only [Nat.cast_le]
  by_cases hover : (!isObservabilityRoute r && 0 < c.maxInFlight && c.maxInFlight ≤ inFlight) = true
  · rw [if_pos hover, if_pos hover, handlerOf]
  · rw [if_neg hover, if_neg hover]
    by_cases hexempt : isObservabilityRoute r = true
    · rw [if_pos hexempt, if_pos hexempt, handlerOf]
    · rw [if_neg hexempt, if_neg hexempt, handlerOf]

/-! ### The server -/

structure Exchange where
  admission : Admission
  running : Bool

/-- It is counted, and its `finally` block has not run. -/
def Exchange.inFlight (e : Exchange) : Bool := e.running && e.admission = .counted

/-- A call of `close`. -/
structure Closing where
  /-- The server was listening, so the callback gets no error. -/
  first : Bool
  /-- There was a request in flight. -/
  waits : Bool
  /-- The grace timer is armed. -/
  timer : Bool
  /-- Is the promise resolved (or rejected). -/
  settled : Option Bool

/-- `finish`, as the callback of `server.close`. -/
def Closing.finish (c : Closing) : Closing :=
  if c.settled.isSome then c else { c with timer := false, settled := some c.first }

structure Server where
  listening : Bool
  /-- All connections so far, and whether they are open. -/
  connections : List Bool
  exchanges : List Exchange
  inFlight : ℤ
  /-- `resolveDrained` is set. -/
  draining : Bool
  closings : List Closing

namespace Server

/-- `server.closeAllConnections`. -/
def closeAllConnections (s : Server) : Server :=
  { s with connections := s.connections.map fun _ => false }

/-- The start of `requestHandler`, up to its first `await`. -/
def arrive (maxInFlight : ℕ) (s : Server) (exempt : Bool) : Server :=
  match admission maxInFlight exempt s.inFlight with
  | .refused => { s with exchanges := s.exchanges ++ [⟨.refused, false⟩] }
  | .exempt => { s with exchanges := s.exchanges ++ [⟨.exempt, true⟩] }
  | .counted =>
    { s with exchanges := s.exchanges ++ [⟨.counted, true⟩], inFlight := s.inFlight + 1 }

/-- The `finally` block. What waits for the drain runs before any other event. -/
def leave (s : Server) (j : ℕ) (e : Exchange) : Server :=
  let s := { s with exchanges := s.exchanges.set j { e with running := false } }
  if e.admission = .counted then
    let s := { s with inFlight := s.inFlight - 1 }
    if s.draining && s.inFlight ≤ 0 then s.closeAllConnections else s
  else s

/-- `close`; `idle` are the connections on which Node sees no request. -/
def close (s : Server) (idle : List ℕ) : Server :=
  let waits : Bool := 0 < s.inFlight
  { s with
    listening := false
    connections := idle.foldl (fun cs i => cs.set i false) s.connections
    draining := s.draining || waits
    closings := s.closings ++ [⟨s.listening, waits, waits, none⟩] }

/-- The timer of a call of `close`. -/
def expire (s : Server) (k : ℕ) (c : Closing) : Server :=
  { s with closings := s.closings.set k { c with timer := false } }.closeAllConnections

/-- The server says that it is closed, to all that wait for it. -/
def finishAll (s : Server) : Server :=
  { s with
    draining := s.draining && s.closings.all fun c => c.settled.isSome
    closings := s.closings.map Closing.finish }

end Server

inductive ServerAction where
  | connect
  | request (i : ℕ) (exempt : Bool)
  /-- The handler of a request returns or throws. -/
  | done (j : ℕ)
  | hangUp (i : ℕ)
  | close (idle : List ℕ)
  | grace (k : ℕ)
  /-- Node emits `close`, once it does not listen and no connection is open. -/
  | closed

def stepServer (maxInFlight : ℕ) (s : Server) : ServerAction → Server
  | .connect => if s.listening then { s with connections := s.connections ++ [true] } else s
  | .request i exempt => if s.connections[i]? = some true then s.arrive maxInFlight exempt else s
  | .done j =>
    match s.exchanges[j]? with
    | some e => if e.running then s.leave j e else s
    | none => s
  | .hangUp i => { s with connections := s.connections.set i false }
  | .close idle => s.close idle
  | .grace k =>
    match s.closings[k]? with
    | some c => if c.timer then s.expire k c else s
    | none => s
  | .closed => if s.listening || s.connections.any id then s else s.finishAll

def startServer : Server := ⟨true, [], [], 0, false, []⟩

/-! ### The count -/

namespace Server

/-- No connection is open. -/
def Cut (s : Server) : Prop := ∀ o ∈ s.connections, o = false

theorem cut_closeAllConnections (s : Server) : s.closeAllConnections.Cut := by
  intro o ho
  obtain ⟨-, -, rfl⟩ := List.mem_map.mp ho
  rfl

theorem Cut.set {s : Server} (h : s.Cut) (i : ℕ) : ∀ o ∈ s.connections.set i false, o = false := by
  intro o ho
  rcases List.mem_or_eq_of_mem_set ho with ho | rfl
  · exact h o ho
  · rfl

theorem Cut.foldl_set {s : Server} (h : s.Cut) (idle : List ℕ) :
    ∀ o ∈ idle.foldl (fun cs i => cs.set i false) s.connections, o = false := by
  induction idle generalizing s with
  | nil => exact h
  | cons i idle ih => exact ih (s := { s with connections := s.connections.set i false }) (h.set i)

/-- The requests in flight. -/
def tally (s : Server) : ℕ := s.exchanges.countP Exchange.inFlight

end Server

open Server

variable {maxInFlight : ℕ} {s : Server}

/-- The count is that of the requests in flight, and keeps to the ceiling. -/
structure Counts (maxInFlight : ℕ) (s : Server) : Prop where
  count : s.inFlight = s.tally
  ceiling : 0 < maxInFlight → s.tally ≤ maxInFlight

theorem Counts.of_same {s' : Server} (h : Counts maxInFlight s)
    (hexchanges : s'.exchanges = s.exchanges) (hinFlight : s'.inFlight = s.inFlight) :
    Counts maxInFlight s' := by
  have htally : s'.tally = s.tally := by rw [tally, tally, hexchanges]
  exact ⟨by rw [hinFlight, htally, h.count], by rw [htally]; exact h.ceiling⟩

theorem tally_concat (e : Exchange) :
    (s.exchanges ++ [e]).countP Exchange.inFlight = s.tally + if e.inFlight then 1 else 0 := by
  simp [tally, List.countP_append, List.countP_cons]

/-- A handler that has not ended ends. -/
theorem tally_set {j : ℕ} {e : Exchange} (hj : s.exchanges[j]? = some e) (he : e.running = true) :
    (s.exchanges.set j { e with running := false }).countP Exchange.inFlight +
      (if e.admission = .counted then 1 else 0) = s.tally := by
  obtain ⟨hlt, hget⟩ := List.getElem?_eq_some_iff.mp hj
  have hpos : e.inFlight = true → 0 < s.exchanges.countP Exchange.inFlight := fun h =>
    List.countP_pos_iff.mpr ⟨e, List.mem_of_getElem? hj, h⟩
  rw [tally, List.countP_set hlt, hget]
  simp only [Exchange.inFlight, he, Bool.true_and, Bool.false_and, decide_eq_true_eq,
    Bool.false_eq_true, if_false] at hpos ⊢
  split_ifs at hpos ⊢ with hcounted
  · have := hpos hcounted
    omega
  · omega

theorem Counts.arrive (h : Counts maxInFlight s) (exempt : Bool) :
    Counts maxInFlight (s.arrive maxInFlight exempt) := by
  rw [Server.arrive, admission]
  split_ifs with hover hexempt
  · have htally := tally_concat (s := s) ⟨.refused, false⟩
    exact ⟨h.count.trans (congrArg _ htally.symm), fun hpos => htally.trans_le (h.ceiling hpos)⟩
  · have htally := tally_concat (s := s) ⟨.exempt, true⟩
    exact ⟨h.count.trans (congrArg _ htally.symm), fun hpos => htally.trans_le (h.ceiling hpos)⟩
  · have htally := tally_concat (s := s) ⟨.counted, true⟩
    refine ⟨?_, fun hpos => htally.trans_le ?_⟩
    · show s.inFlight + 1 = ((s.exchanges ++ [_]).countP Exchange.inFlight : ℕ)
      rw [htally, h.count]
      rfl
    · simp only [hexempt, hpos, h.count, Bool.not_false, Bool.true_and, decide_true,
        decide_eq_true_eq, Nat.cast_le, not_le] at hover
      exact hover

theorem Counts.leave (h : Counts maxInFlight s) {j : ℕ} {e : Exchange}
    (hj : s.exchanges[j]? = some e) (he : e.running = true) :
    Counts maxInFlight (s.leave j e) := by
  have htally := tally_set hj he
  have hcount := h.count
  have hceiling := h.ceiling
  rw [Server.leave]
  by_cases hcounted : e.admission = .counted
  · rw [if_pos hcounted] at htally ⊢
    have hleft : Counts maxInFlight { s with
        exchanges := s.exchanges.set j { e with running := false }
        inFlight := s.inFlight - 1 } := by
      refine ⟨?_, fun hpos => ?_⟩
      · show s.inFlight - 1 = ((s.exchanges.set j _).countP Exchange.inFlight : ℕ)
        omega
      · show (s.exchanges.set j _).countP Exchange.inFlight ≤ maxInFlight
        have := hceiling hpos
        omega
    simp only
    split
    · exact hleft.of_same rfl rfl
    · exact hleft
  · rw [if_neg hcounted, Nat.add_zero] at htally
    rw [if_neg hcounted]
    exact ⟨h.count.trans (congrArg _ htally.symm), fun hpos => htally.trans_le (h.ceiling hpos)⟩

theorem Counts.step (h : Counts maxInFlight s) (a : ServerAction) :
    Counts maxInFlight (stepServer maxInFlight s a) := by
  cases a with
  | connect =>
    rw [stepServer]
    split
    · exact h.of_same rfl rfl
    · exact h
  | request i exempt =>
    rw [stepServer]
    split
    · exact h.arrive exempt
    · exact h
  | done j =>
    rw [stepServer]
    split
    · next e hj =>
      split
      · next he => exact h.leave hj he
      · exact h
    · exact h
  | hangUp i => exact h.of_same rfl rfl
  | close idle => exact h.of_same rfl rfl
  | grace k =>
    rw [stepServer]
    split
    · split
      · exact h.of_same rfl rfl
      · exact h
    · exact h
  | closed =>
    rw [stepServer]
    split
    · exact h
    · exact h.of_same rfl rfl

theorem counts_run (maxInFlight : ℕ) (as : List ServerAction) :
    Counts maxInFlight (as.foldl (stepServer maxInFlight) startServer) :=
  invariant_run (fun _ a h => h.step a) ⟨rfl, fun _ => Nat.zero_le _⟩ as

/-- **The count.** After any run the count is that of the requests in flight, it is at most the
ceiling, and the next request is refused exactly when it is not exempt and the requests in flight
are as many as the ceiling. This is what the handler does at that count. -/
theorem inFlight_counts {τ : Type} (c : Config) (env : Env τ) (r : Request) (ν : Type) [JsNumber ν]
    (as : List ServerAction) :
    let s := as.foldl (stepServer c.maxInFlight) startServer
    let met := admission c.maxInFlight (isObservabilityRoute r) s.inFlight
    s.inFlight = s.tally ∧ (0 < c.maxInFlight → s.tally ≤ c.maxInFlight) ∧
      (met = .refused ↔
        isObservabilityRoute r = false ∧ 0 < c.maxInFlight ∧ s.tally = c.maxInFlight) ∧
      requestHandler c env r ν s.tally = handlerOf c env r ν met := by
  intro s met
  have h : Counts c.maxInFlight s := counts_run c.maxInFlight as
  refine ⟨h.count, h.ceiling, ?_, by rw [requestHandler_admission, ← h.count]⟩
  have hfull : 0 < c.maxInFlight ∧ c.maxInFlight ≤ s.tally ↔
      0 < c.maxInFlight ∧ s.tally = c.maxInFlight :=
    and_congr_right fun hpos => ⟨(h.ceiling hpos).antisymm, fun h => h.ge⟩
  rw [← hfull, ← Nat.cast_le (α := ℤ), ← h.count]
  exact admission_refused_iff

/-! ### Closing -/

/-- What a pending `close` can rely on. -/
structure Drains (s : Server) : Prop where
  stopped : s.closings ≠ [] → s.listening = false
  /-- No timer outlives its promise, and none is armed where nothing is waited for. -/
  timers : ∀ c ∈ s.closings, c.settled.isSome = true ∨ c.waits = false → c.timer = false
  pending : ∀ c ∈ s.closings, c.settled = none → c.waits = true →
    s.draining = true ∧ (c.timer = true ∨ s.Cut) ∧ (s.inFlight ≤ 0 → s.Cut)

/-- A step after which the same calls wait, and no more connections are open. -/
theorem Drains.of_same {s' : Server} (h : Drains s) (hclosings : s'.closings = s.closings)
    (hlistening : s'.listening = s.listening) (hdraining : s'.draining = s.draining)
    (hcut : s.closings ≠ [] → s.Cut → s'.Cut)
    (hzero : s.closings ≠ [] → s.draining = true → s'.inFlight ≤ 0 → s.inFlight ≤ 0 ∨ s'.Cut) :
    Drains s' where
  stopped := by rw [hclosings, hlistening]; exact h.stopped
  timers := by rw [hclosings]; exact h.timers
  pending c hc hsettled hwaits := by
    rw [hclosings] at hc
    have hne : s.closings ≠ [] := List.ne_nil_of_mem hc
    obtain ⟨hdrain, htimer, hdone⟩ := h.pending c hc hsettled hwaits
    refine ⟨by rw [hdraining, hdrain], htimer.imp_right (hcut hne), fun hle => ?_⟩
    exact (hzero hne hdrain hle).elim (fun h => hcut hne (hdone h)) id

theorem Drains.arrive (h : Drains s) (exempt : Bool) : Drains (s.arrive maxInFlight exempt) := by
  rw [Server.arrive]
  split
  · exact h.of_same rfl rfl rfl (fun _ => id) fun _ _ => .inl
  · exact h.of_same rfl rfl rfl (fun _ => id) fun _ _ => .inl
  · refine h.of_same rfl rfl rfl (fun _ => id) fun _ _ hle => .inl ?_
    have hle : s.inFlight + 1 ≤ 0 := hle
    omega

theorem Drains.leave (h : Drains s) (j : ℕ) (e : Exchange) : Drains (s.leave j e) := by
  rw [Server.leave]
  split
  · simp only
    split
    · exact h.of_same rfl rfl rfl (fun _ _ => cut_closeAllConnections _)
        fun _ _ _ => .inr (cut_closeAllConnections _)
    · next hopen =>
      refine h.of_same rfl rfl rfl (fun _ => id) fun _ hdrain hle => absurd ?_ hopen
      simp only [hdrain, Bool.true_and, decide_eq_true_eq]
      exact hle
  · exact h.of_same rfl rfl rfl (fun _ => id) fun _ _ => .inl

theorem Drains.close (h : Drains s) (idle : List ℕ) : Drains (s.close idle) where
  stopped _ := rfl
  timers c hc hidle := by
    rcases List.mem_append.mp hc with hc | hc
    · exact h.timers c hc hidle
    · obtain rfl := List.mem_singleton.mp hc
      exact (hidle.resolve_left (by simp))
  pending c hc hsettled hwaits := by
    rcases List.mem_append.mp hc with hc | hc
    · obtain ⟨hdrain, htimer, hdone⟩ := h.pending c hc hsettled hwaits
      exact ⟨by simp [Server.close, hdrain], htimer.imp_right fun hcut => hcut.foldl_set idle,
        fun hle => (hdone hle).foldl_set idle⟩
    · obtain rfl := List.mem_singleton.mp hc
      have hwaits : decide (0 < s.inFlight) = true := hwaits
      refine ⟨by simp [Server.close, hwaits], .inl hwaits, fun hle => ?_⟩
      exact absurd (of_decide_eq_true hwaits) (not_lt.mpr hle)

theorem Drains.expire (h : Drains s) {k : ℕ} {c : Closing} (hk : s.closings[k]? = some c) :
    Drains (s.expire k c) where
  stopped hne := by
    refine h.stopped ?_
    rintro hnil
    rw [hnil] at hk
    cases hk
  timers d hd hidle := by
    rcases List.mem_or_eq_of_mem_set hd with hd | rfl
    · exact h.timers d hd hidle
    · rfl
  pending d hd hsettled hwaits := by
    have hcut := cut_closeAllConnections
      { s with closings := s.closings.set k { c with timer := false } }
    refine ⟨?_, .inr hcut, fun _ => hcut⟩
    rcases List.mem_or_eq_of_mem_set hd with hd | rfl
    · exact (h.pending d hd hsettled hwaits).1
    · exact (h.pending c (List.mem_of_getElem? hk) hsettled hwaits).1

theorem finish_settled (c : Closing) : c.finish.settled.isSome = true := by
  rw [Closing.finish]
  split
  · assumption
  · rfl

theorem Drains.finishAll (h : Drains s) : Drains s.finishAll where
  stopped hne := h.stopped fun hnil => hne (by simp [Server.finishAll, hnil])
  timers c hc _ := by
    obtain ⟨d, hd, rfl⟩ := List.mem_map.mp hc
    rw [Closing.finish]
    split
    · next hsettled => exact h.timers d hd (.inl hsettled)
    · rfl
  pending c hc hsettled := by
    obtain ⟨d, -, rfl⟩ := List.mem_map.mp hc
    have := finish_settled d
    rw [hsettled] at this
    cases this

theorem Drains.step (h : Drains s) (a : ServerAction) : Drains (stepServer maxInFlight s a) := by
  cases a with
  | connect =>
    rw [stepServer]
    split
    · next hlistening =>
      have hnone : s.closings ≠ [] → False := fun hne => by
        rw [h.stopped hne] at hlistening
        cases hlistening
      exact h.of_same rfl rfl rfl (fun hne => (hnone hne).elim) fun hne => (hnone hne).elim
    · exact h
  | request i exempt =>
    rw [stepServer]
    split
    · exact h.arrive exempt
    · exact h
  | done j =>
    rw [stepServer]
    split
    · split
      · exact h.leave j _
      · exact h
    · exact h
  | hangUp i => exact h.of_same rfl rfl rfl (fun _ hcut => hcut.set i) fun _ _ => .inl
  | close idle => exact h.close idle
  | grace k =>
    rw [stepServer]
    split
    · next c hk =>
      split
      · exact h.expire hk
      · exact h
    · exact h
  | closed =>
    rw [stepServer]
    split
    · exact h
    · exact h.finishAll

theorem drains_run (maxInFlight : ℕ) (as : List ServerAction) :
    Drains (as.foldl (stepServer maxInFlight) startServer) := by
  refine invariant_run (fun _ a h => h.step a) ⟨fun h => absurd rfl h, ?_, ?_⟩ as
  · rintro c ⟨⟩
  · rintro c ⟨⟩

variable (maxInFlight) in
/-- What a call of `close` has come to stays. -/
theorem settled_step {k : ℕ} {c : Closing} {b : Bool} (hk : s.closings[k]? = some c)
    (hb : c.settled = some b) (a : ServerAction) :
    ∃ d, (stepServer maxInFlight s a).closings[k]? = some d ∧ d.settled = some b := by
  have hlt := (List.getElem?_eq_some_iff.mp hk).1
  have hsame : ∃ d, s.closings[k]? = some d ∧ d.settled = some b := ⟨c, hk, hb⟩
  cases a with
  | connect =>
    rw [stepServer]
    split <;> exact hsame
  | request i exempt =>
    rw [stepServer]
    split
    · rw [Server.arrive]
      split <;> exact hsame
    · exact hsame
  | done j =>
    rw [stepServer]
    split
    · split
      · rw [Server.leave]
        split
        · simp only
          split <;> exact hsame
        · exact hsame
      · exact hsame
    · exact hsame
  | hangUp i => exact hsame
  | close idle => exact ⟨c, by rw [stepServer, Server.close, List.getElem?_append_left hlt, hk], hb⟩
  | grace i =>
    rw [stepServer]
    split
    · next d hd =>
      split
      · by_cases hik : i = k
        · subst hik
          obtain rfl := Option.some.inj (hk.symm.trans hd)
          exact ⟨_, List.getElem?_set_self hlt, hb⟩
        · exact ⟨c, (List.getElem?_set_ne hik).trans hk, hb⟩
      · exact hsame
    · exact hsame
  | closed =>
    rw [stepServer]
    split
    · exact hsame
    · refine ⟨c.finish, by simp [Server.finishAll, hk], ?_⟩
      rw [Closing.finish, hb]
      exact hb

theorem settled_run {k : ℕ} {c : Closing} {b : Bool} (hk : s.closings[k]? = some c)
    (hb : c.settled = some b) (as : List ServerAction) :
    ∃ d, (as.foldl (stepServer maxInFlight) s).closings[k]? = some d ∧ d.settled = some b := by
  induction as generalizing s c with
  | nil => exact ⟨c, hk, hb⟩
  | cons a as ih =>
    obtain ⟨d, hd, hdb⟩ := settled_step maxInFlight hk hb a
    exact ih hd hdb

/-- With no connection left, Node's word settles what is pending. -/
theorem closed_settles {k : ℕ} {c : Closing} (hstop : s.listening = false) (hcut : s.Cut)
    (hk : s.closings[k]? = some c) (hnone : c.settled = none) :
    ∃ d, (stepServer maxInFlight s .closed).closings[k]? = some d ∧ d.settled = some c.first := by
  have hany : s.connections.any id = false := by
    rw [List.any_eq_false]
    intro o ho
    simp [hcut o ho]
  refine ⟨c.finish, ?_, ?_⟩
  · simp [stepServer, hstop, hany, Server.finishAll, hk]
  · rw [Closing.finish, hnone]
    rfl

variable (maxInFlight) in
/-- The timer closes what is open. -/
theorem grace_cut {k : ℕ} {c : Closing} (hk : s.closings[k]? = some c)
    (h : c.timer = true ∨ s.Cut) :
    ∃ d, (stepServer maxInFlight s (.grace k)).closings[k]? = some d ∧ d.settled = c.settled ∧
      d.first = c.first ∧ (stepServer maxInFlight s (.grace k)).listening = s.listening ∧
      (stepServer maxInFlight s (.grace k)).Cut := by
  have hlt := (List.getElem?_eq_some_iff.mp hk).1
  simp only [stepServer, hk]
  split
  · exact ⟨{ c with timer := false }, List.getElem?_set_self hlt, rfl, rfl, rfl,
      cut_closeAllConnections _⟩
  · next htimer => exact ⟨c, hk, rfl, rfl, rfl, h.resolve_left htimer⟩

/-- **The drain.** After any run, the outcome of a call of `close` is final and no timer is armed
for it; while a call that found a request in flight is pending, every connection is closed once no
request is in flight, and the timer of the call, armed until then, settles it: without an error
when it was the first call. -/
theorem close_drains (maxInFlight : ℕ) (as : List ServerAction) :
    let s := as.foldl (stepServer maxInFlight) startServer
    ∀ k c, s.closings[k]? = some c →
      (c.settled.isSome = true ∨ c.waits = false → c.timer = false) ∧
      (∀ b, c.settled = some b → ∀ bs : List ServerAction, ∃ d,
        (bs.foldl (stepServer maxInFlight) s).closings[k]? = some d ∧ d.settled = some b) ∧
      (c.settled = none → c.waits = true →
        (s.tally = 0 → s.Cut) ∧ (c.timer = true ∨ s.Cut) ∧
        ∃ d, ([.grace k, .closed].foldl (stepServer maxInFlight) s).closings[k]? = some d ∧
          d.settled = some c.first) := by
  intro s k c hk
  have h : Drains s := drains_run maxInFlight as
  have hmem := List.mem_of_getElem? hk
  refine ⟨h.timers c hmem, fun b hb => settled_run hk hb, fun hnone hwaits => ?_⟩
  obtain ⟨-, htimer, hzero⟩ := h.pending c hmem hnone hwaits
  have hcount : s.inFlight = s.tally := (counts_run maxInFlight as).count
  refine ⟨fun htally => hzero (by rw [hcount, htally]; rfl), htimer, ?_⟩
  obtain ⟨d, hd, hsettled, hfirst, hlistening, hcut⟩ :=
    grace_cut maxInFlight hk htimer
  rw [List.foldl_cons, List.foldl_cons, List.foldl_nil, ← hfirst]
  refine closed_settles ?_ hcut hd (hsettled.trans hnone)
  rw [hlistening]
  exact h.stopped (List.ne_nil_of_mem hmem)

end Haechi.Proxy
