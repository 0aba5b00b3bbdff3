import Pifus.Recv
import Pifus.Util.Transition

/-!
# TCP operations and their pcb

`process_tx_op` takes the pcb of an operation from `socket->pcb.tcp`. It makes
a new one where there is none, and calls lwIP with it. One socket is followed
here, from what its app submits to the results handed to `enqueue_in_cqueue`.
What lwIP answers is an input, and a pcb is a number that lwIP hands out only
once: the memory of a freed pcb may be used again, but not for this
connection. `tcp_new` is taken to have memory for a pcb; what follows where it
returns `NULL` is in `Pifus.PcbStates`.

Two things end the life of a pcb. `tcp_close` does when it returns `ERR_OK`;
`tx_tcp_close` then clears the socket's slot in `socket_ptrs`. And lwIP frees
the pcb itself after a fatal error, when it has called the function that was
registered with `tcp_err`. `tcp_err_callback` is meant for that.

Every call is recorded with what had happened to its pcb by then.
-/

/-- The functions of lwIP that the stack calls with a pcb. -/
inductive LwipFunction
  | tcpNagleDisable | tcpArg | tcpBind | tcpConnect | tcpWrite | tcpSent
  | tcpOutput | tcpRecv | tcpListenWithBacklog | tcpAccept | tcpClose
  deriving DecidableEq

/-- A call of lwIP. -/
structure LwipCall where
  function : LwipFunction
  pcb : ℕ
  /-- `tcp_close` had returned `ERR_OK` for the pcb before. -/
  closed : Bool
  /-- lwIP had freed the pcb after a fatal error before. -/
  freed : Bool
  deriving DecidableEq

/-- What lwIP answers in an operation: the `err_t`, which is about memory for
the pcb in `tcp_listen_with_backlog`. `recvResult` is what `tx_tcp_recv` comes
to, which does not depend on lwIP. -/
structure LwipOutcome where
  err : ErrT
  recvResult : PifusResultCode
  deriving DecidableEq

/-- One socket in the stack. -/
structure TcpState where
  /-- `socket->pcb.tcp`. -/
  pcb : Option ℕ
  /-- The next pcb that lwIP hands out. -/
  nextPcb : ℕ
  /-- The pcbs that `tcp_err_callback` is registered on. -/
  errf : ℕ → Bool
  /-- The pcbs that `tcp_close` has returned `ERR_OK` for. -/
  closed : ℕ → Bool
  /-- The pcbs that lwIP has freed after a fatal error. -/
  freed : ℕ → Bool
  /-- The socket's slot in `socket_ptrs` is not `NULL`. -/
  linked : Bool
  /-- The number of entries in the write queue. -/
  writeQueue : ℕ
  /-- The operations submitted and not done yet, oldest first. -/
  pending : List PifusOperationCode
  calls : List LwipCall
  /-- What was handed to `enqueue_in_cqueue`, oldest first. -/
  results : List (PifusOperationCode × PifusResultCode)
  /-- The number of results the app has popped. -/
  popped : ℕ
  /-- The app has popped the result of a close. -/
  closePopped : Bool
  /-- A `TCP_CLOSE` was processed for which `tcp_close` returned `ERR_OK`. -/
  closeDone : Bool
  /-- An operation that calls lwIP was processed after that. -/
  late : Bool
  /-- A fatal error has ended the connection since the last operation was
  processed. -/
  lost : Bool

/-- What can happen next. -/
inductive TcpEvent
  /-- The app submits an operation. -/
  | submit (code : PifusOperationCode)
  /-- The stack processes the oldest operation, or the oldest receive. -/
  | process (recvScan : Bool) (outcome : LwipOutcome)
  /-- A callback of lwIP hands over the result of an asynchronous operation. -/
  | complete (code : PifusOperationCode)
  /-- The app pops a result. -/
  | pop
  /-- lwIP ends the connection after a fatal error. -/
  | fatalError
  deriving DecidableEq

namespace TcpState

/-! ## The operations -/

/-- A call of lwIP with a pcb. -/
def call (s : TcpState) (function : LwipFunction) (p : ℕ) : TcpState :=
  { s with calls := s.calls ++ [⟨function, p, s.closed p, s.freed p⟩] }

/-- `tcp_new` where the socket has no pcb. It returns one. -/
def withPcb (s : TcpState) : TcpState × ℕ :=
  match s.pcb with
  | some p => (s, p)
  | none =>
    let p := s.nextPcb
    let t : TcpState := { s with pcb := some p, nextPcb := p + 1 }
    ((t.call .tcpNagleDisable p).call .tcpArg p, p)

/-- `pifus_write_queue_is_full`. -/
def writeQueueFull (s : TcpState) : Bool := s.writeQueue + 1 = writeQueueSize

/-- `tx_tcp_bind`. -/
def txTcpBind (s : TcpState) (p : ℕ) (outcome : LwipOutcome) :
    TcpState × PifusResultCode :=
  (s.call .tcpBind p, if outcome.err = .ok then .ok else .err)

/-- `tx_tcp_connect`. -/
def txTcpConnect (s : TcpState) (p : ℕ) (outcome : LwipOutcome) :
    TcpState × PifusResultCode :=
  (s.call .tcpConnect p, if outcome.err = .ok then .async else .err)

/-- `tx_tcp_write`. -/
def txTcpWrite (s : TcpState) (p : ℕ) (outcome : LwipOutcome) :
    TcpState × PifusResultCode :=
  if s.writeQueueFull then (s, .err)
  else
    let s := s.call .tcpWrite p
    match outcome.err with
    | .ok =>
      let s : TcpState := { s with writeQueue := s.writeQueue + 1 }
      ((s.call .tcpSent p).call .tcpOutput p, .async)
    | .mem => (s, .tryAgain)
    | .other _ => (s, .err)

/-- `tx_tcp_recv`, as far as lwIP is concerned. -/
def txTcpRecv (s : TcpState) (p : ℕ) (outcome : LwipOutcome) :
    TcpState × PifusResultCode :=
  (s.call .tcpRecv p, outcome.recvResult)

/-- `tx_tcp_listen`. lwIP returns a new pcb, or `NULL`. -/
def txTcpListen (s : TcpState) (p : ℕ) (outcome : LwipOutcome) :
    TcpState × PifusResultCode :=
  let s := s.call .tcpListenWithBacklog p
  if outcome.err = .ok then
    ({ s with pcb := some s.nextPcb, nextPcb := s.nextPcb + 1 }, .ok)
  else (s, .err)

/-- `tx_tcp_accept`. -/
def txTcpAccept (s : TcpState) (p : ℕ) : TcpState × PifusResultCode :=
  (s.call .tcpAccept p, .async)

/-- `tx_tcp_close`. -/
def txTcpClose (s : TcpState) (p : ℕ) (outcome : LwipOutcome) :
    TcpState × PifusResultCode :=
  let s := s.call .tcpClose p
  if outcome.err = .ok then
    ({ s with
      closed := Function.update s.closed p true
      linked := false
      closeDone := true }, .ok)
  else (s, .err)

/-- The `switch` of `process_tx_op`. Of a code that is not known no result is
set. -/
def switch (s : TcpState) (p : ℕ) (outcome : LwipOutcome) :
    PifusOperationCode → Option (TcpState × PifusResultCode)
  | .tcpBind => some (s.txTcpBind p outcome)
  | .tcpConnect => some (s.txTcpConnect p outcome)
  | .tcpWrite => some (s.txTcpWrite p outcome)
  | .tcpRecv => some (s.txTcpRecv p outcome)
  | .tcpListen => some (s.txTcpListen p outcome)
  | .tcpAccept => some (s.txTcpAccept p)
  | .tcpClose => some (s.txTcpClose p outcome)
  | _ => none

/-- `process_tx_op`. On an operation of UDP it ends the program. -/
def processTxOp (s : TcpState) (code : PifusOperationCode)
    (outcome : LwipOutcome) : Option (TcpState × PifusResultCode) :=
  if code = .nop ∨ code = .clientNop then some (s, .ok)
  else if code.isTcpOperation then s.withPcb.1.switch s.withPcb.2 outcome code
  else none

/-- `tcp_err_callback`. -/
def tcpErrCallback (s : TcpState) : TcpState :=
  { s with pcb := none, results := s.results ++ [(.connectionLost, .err)] }

/-! ## The socket -/

/-- The operation makes a call of lwIP with the pcb. -/
def needsLwip (s : TcpState) : PifusOperationCode → Bool
  | .tcpBind | .tcpConnect | .tcpRecv | .tcpListen | .tcpAccept
  | .tcpClose => true
  | .tcpWrite => !s.writeQueueFull
  | _ => false

/-- `handle_operation`, on the operation number `i` of the pending ones, when
`process_tx_op` has come to this state and this result. -/
def finish (s : TcpState) (i : ℕ) (code : PifusOperationCode)
    (result : PifusResultCode) : TcpState :=
  if result = .tryAgain then s
  else { s with
    pending := s.pending.eraseIdx i
    -- ASYNC ops are not enqueued into cqueue, only after they have finished
    results :=
      if result ≠ .async then s.results ++ [(code, result)] else s.results }

/-- `handle_operation`. -/
def process (s : TcpState) (recvScan : Bool) (outcome : LwipOutcome) :
    Option TcpState :=
  let i := if recvScan then s.pending.findIdx (· = .tcpRecv) else 0
  match s.pending[i]? with
  | some code =>
    (s.processTxOp code outcome).map (fun r =>
      { r.1.finish i code r.2 with
        late := s.late || (s.closeDone && s.needsLwip code)
        lost := false })
  | none => none

/-- The result of an asynchronous operation. That of a write comes from
`tcp_sent_callback`, which takes the write off the write queue. -/
def complete (s : TcpState) (code : PifusOperationCode) : Option TcpState :=
  match code with
  | .tcpWrite =>
    if 0 < s.writeQueue then some { s with
      writeQueue := s.writeQueue - 1, results := s.results ++ [(code, .ok)] }
    else none
  | .tcpConnect | .tcpAccept | .tcpRecv =>
    some { s with results := s.results ++ [(code, .ok)] }
  | _ => none

/-- `dequeue_operation`. -/
def pop (s : TcpState) : Option TcpState :=
  s.results[s.popped]?.map (fun r => { s with
    popped := s.popped + 1
    closePopped := s.closePopped || decide (r.1 = .tcpClose) })

/-- lwIP ends the connection: it calls the function registered with `tcp_err`
if there is one, and frees the pcb. -/
def fatalError (s : TcpState) : Option TcpState :=
  match s.pcb with
  | some p =>
    if s.closed p = false ∧ s.freed p = false then
      let t : TcpState :=
        { s with freed := Function.update s.freed p true, lost := true }
      some (if s.errf p then t.tcpErrCallback else t)
    else none
  | none => none

/-- The operations that the functions of `pifus_socket.c` submit for a TCP
socket. -/
def apiCodes : List PifusOperationCode :=
  [.tcpBind, .tcpListen, .tcpAccept, .tcpConnect, .tcpWrite, .tcpRecv,
    .tcpClose, .clientNop]

end TcpState

/-- **A step of the app, of the stack or of lwIP.** An app submits nothing
after it has popped the result of a close. -/
def tcpStep (s : TcpState) : TcpEvent → Option TcpState
  | .submit code =>
    if s.closePopped = false ∧ code ∈ TcpState.apiCodes then
      some { s with pending := s.pending ++ [code] }
    else none
  | .process recvScan outcome => s.process recvScan outcome
  | .complete code => s.complete code
  | .pop => s.pop
  | .fatalError => s.fatalError

/-- The steps as a relation. -/
def TcpStep (s : TcpState) (e : TcpEvent) (t : TcpState) : Prop :=
  tcpStep s e = some t

namespace TcpState

/-- A new socket: without a pcb, or with that of an accepted connection. -/
def initial (pcb : Option ℕ) : TcpState :=
  ⟨pcb, pcb.elim 0 (· + 1), fun _ => false, fun _ => false, fun _ => false,
    true, 0, [], [], [], 0, false, false, false, false⟩

/-- **No call was made with a closed pcb.** -/
def UsesOpenPcbs (s : TcpState) : Prop := ∀ c ∈ s.calls, c.closed = false

/-- **A lost connection is noticed**: when a fatal error has ended it, the
socket has no pcb, and one `CONNECTION_LOST` was enqueued. -/
def LossNoticed (s : TcpState) : Prop :=
  s.lost = true → s.pcb = none
    ∧ s.results.countP (fun r => r.1 = .connectionLost) = 1

/-! ## What an operation does -/

variable {s t : TcpState} {p i : ℕ} {code : PifusOperationCode}
  {outcome : LwipOutcome} {result : PifusResultCode}

/-- **What an operation does to its socket**, called with the pcb `p`: its
calls, and whether it closes the pcb or changes it for a new one. -/
structure OpEffect (s : TcpState) (p : ℕ) (needs : Bool) (t : TcpState) :
    Prop where
  calls : ∃ new, t.calls = s.calls ++ new ∧ (∀ c ∈ new, c.closed = s.closed p)
    ∧ (needs = true ↔ new ≠ [])
  errf : t.errf = s.errf
  results : t.results = s.results
  nextPcb : s.nextPcb ≤ t.nextPcb
  pcb : (t.closed = s.closed ∧ t.closeDone = s.closeDone
      ∧ (t.pcb = s.pcb ∨ needs = true ∧ t.pcb = some s.nextPcb
        ∧ s.nextPcb < t.nextPcb))
    ∨ (t.closed = Function.update s.closed p true ∧ t.closeDone = true
      ∧ needs = true ∧ t.pcb = s.pcb)

theorem opEffect_call (function : LwipFunction) :
    OpEffect s p true (s.call function p) where
  calls := ⟨_, rfl, fun c hc => by rw [List.mem_singleton.mp hc], by simp⟩
  errf := rfl
  results := rfl
  nextPcb := Nat.le_refl _
  pcb := Or.inl ⟨rfl, rfl, Or.inl rfl⟩

/-- **The `switch` of `process_tx_op`.** -/
theorem switch_effect (h : s.switch p outcome code = some (t, result)) :
    OpEffect s p (s.needsLwip code) t := by
  cases code with
  | tcpBind | tcpConnect | tcpRecv | tcpAccept =>
    obtain ⟨rfl, -⟩ := Prod.mk.inj (Option.some.inj h)
    exact opEffect_call _
  | tcpWrite =>
    obtain h := Option.some.inj h
    rw [txTcpWrite] at h
    split at h
    · rename_i hfull
      obtain ⟨rfl, -⟩ := Prod.mk.inj h
      exact ⟨⟨[], (List.append_nil _).symm, fun c hc => absurd hc (by simp),
        by simp [needsLwip, hfull]⟩, rfl, rfl,
        Nat.le_refl _, Or.inl ⟨rfl, rfl, Or.inl rfl⟩⟩
    · rename_i hfull
      have hneeds : s.needsLwip .tcpWrite = true := by
        simp [needsLwip, Bool.eq_false_iff.mpr hfull]
      dsimp only at h
      split at h
      · obtain ⟨rfl, -⟩ := Prod.mk.inj h
        refine ⟨⟨_, by simp only [call, List.append_assoc]; rfl, fun c hc => ?_,
          by simp [hneeds]⟩, rfl, rfl, Nat.le_refl _,
          Or.inl ⟨rfl, rfl, Or.inl rfl⟩⟩
        simp only [List.cons_append, List.nil_append, List.mem_cons,
          List.not_mem_nil, or_false] at hc
        rcases hc with rfl | rfl | rfl <;> rfl
      · obtain ⟨rfl, -⟩ := Prod.mk.inj h
        rw [hneeds]
        exact opEffect_call _
      · obtain ⟨rfl, -⟩ := Prod.mk.inj h
        rw [hneeds]
        exact opEffect_call _
  | tcpListen =>
    obtain h := Option.some.inj h
    rw [txTcpListen] at h
    split at h
    · obtain ⟨rfl, -⟩ := Prod.mk.inj h
      obtain ⟨hcalls, herrf, hresults, -, -⟩ :=
        opEffect_call (s := s) (p := p) .tcpListenWithBacklog
      exact ⟨hcalls, herrf, hresults, Nat.le_succ _,
        Or.inl ⟨rfl, rfl, Or.inr ⟨rfl, rfl, Nat.lt_succ_self _⟩⟩⟩
    · obtain ⟨rfl, -⟩ := Prod.mk.inj h
      exact opEffect_call _
  | tcpClose =>
    obtain h := Option.some.inj h
    rw [txTcpClose] at h
    split at h
    · obtain ⟨rfl, -⟩ := Prod.mk.inj h
      obtain ⟨hcalls, herrf, hresults, hnext, -⟩ :=
        opEffect_call (s := s) (p := p) .tcpClose
      exact ⟨hcalls, herrf, hresults, hnext, Or.inr ⟨rfl, rfl, rfl, rfl⟩⟩
    · obtain ⟨rfl, -⟩ := Prod.mk.inj h
      exact opEffect_call _
  | _ => exact absurd h (by simp [switch])

/-- The invariant of a run. -/
structure TcpInv (s : TcpState) : Prop where
  pcbFresh : ∀ p, s.pcb = some p → p < s.nextPcb
  closedFresh : ∀ p, s.closed p = true → p < s.nextPcb
  errf : ∀ p, s.errf p = false
  results : ∀ r ∈ s.results, r.1 ≠ .connectionLost
  notClosed : s.closeDone = false → ∀ p, s.closed p = false
  closed : s.closeDone = true → s.late = false →
    ∃ p, s.pcb = some p ∧ s.closed p = true
  calls : s.UsesOpenPcbs ↔ s.late = false
  late : s.late = true → s.closeDone = true
  lost : s.lost = true → s.pcb ≠ none

/-- A new pcb is not closed. -/
theorem TcpInv.withPcb (h : TcpInv s) :
    TcpInv s.withPcb.1 ∧ s.withPcb.1.pcb = some s.withPcb.2
    ∧ s.withPcb.1.late = s.late ∧ s.withPcb.1.closeDone = s.closeDone
    ∧ s.withPcb.1.writeQueue = s.writeQueue := by
  cases hpcb : s.pcb with
  | some p =>
    have heq : s.withPcb = (s, p) := by rw [TcpState.withPcb, hpcb]
    rw [heq]
    exact ⟨h, hpcb, rfl, rfl, rfl⟩
  | none =>
    have hnew : s.closed s.nextPcb = false := by
      by_contra hne
      exact absurd (h.closedFresh _ (by simpa using hne)) (Nat.lt_irrefl _)
    have heq : s.withPcb = ({ s with
        pcb := some s.nextPcb
        nextPcb := s.nextPcb + 1
        calls := s.calls ++ [⟨.tcpNagleDisable, s.nextPcb, false,
          s.freed s.nextPcb⟩] ++ [⟨.tcpArg, s.nextPcb, false,
          s.freed s.nextPcb⟩] }, s.nextPcb) := by
      rw [TcpState.withPcb, hpcb]
      simp only [call, hnew]
    rw [heq]
    refine ⟨⟨fun p hp => ?_, fun p hp => Nat.lt_succ_of_lt (h.closedFresh p hp),
      h.errf, h.results, h.notClosed, fun hclose hlate => ?_, ?_, h.late,
      fun _ => by simp⟩, rfl, rfl, rfl, rfl⟩
    · obtain rfl := Option.some.inj hp
      exact Nat.lt_succ_self _
    · obtain ⟨p, hp, -⟩ := h.closed hclose hlate
      rw [hpcb] at hp
      exact absurd hp (by simp)
    · rw [← h.calls]
      unfold UsesOpenPcbs
      rw [List.append_assoc, List.forall_mem_append]
      exact and_iff_left (by simp)

/-- **An operation keeps the invariant.** -/
theorem TcpInv.effect {needs : Bool} (h : TcpInv s) (hpcb : s.pcb = some p)
    (ht : OpEffect s p needs t) (hlost : t.lost = false)
    (hlate : t.late = (s.late || (s.closeDone && needs))) : TcpInv t := by
  obtain ⟨new, hcalls, hnew, hneeds⟩ := ht.calls
  have hlt := h.pcbFresh p hpcb
  have hnext := ht.nextPcb
  refine ⟨fun q hq => ?_, fun q hq => ?_, fun q => ?_, ?_, fun hopen q => ?_,
    fun hclose hearly => ?_, ?_, fun hl => ?_, fun hl => ?_⟩
  · rcases ht.pcb with ⟨-, -, hsame | ⟨-, hq', hlt'⟩⟩ | ⟨-, -, -, hsame⟩
    · rw [hsame] at hq
      exact Nat.lt_of_lt_of_le (h.pcbFresh q hq) hnext
    · rw [hq'] at hq
      obtain rfl := Option.some.inj hq
      exact hlt'
    · rw [hsame] at hq
      exact Nat.lt_of_lt_of_le (h.pcbFresh q hq) hnext
  · rcases ht.pcb with ⟨hsame, -⟩ | ⟨hclosed, -⟩
    · rw [hsame] at hq
      exact Nat.lt_of_lt_of_le (h.closedFresh q hq) hnext
    · by_cases heq : q = p
      · rw [heq]
        exact Nat.lt_of_lt_of_le hlt hnext
      · rw [hclosed, Function.update_of_ne heq] at hq
        exact Nat.lt_of_lt_of_le (h.closedFresh q hq) hnext
  · rw [ht.errf]
    exact h.errf q
  · rw [ht.results]
    exact h.results
  · rcases ht.pcb with ⟨hsame, hdone, -⟩ | ⟨-, hdone, -⟩
    · rw [hsame]
      exact h.notClosed (hdone ▸ hopen) q
    · exact absurd (hdone.symm.trans hopen) (by simp)
  · rw [hlate, Bool.or_eq_false_iff] at hearly
    rcases ht.pcb with ⟨hsame, hdone, hp⟩ | ⟨hclosed, -, -, hp⟩
    · rw [hdone] at hclose
      rw [hclose, Bool.true_and] at hearly
      obtain ⟨q, hq, hqc⟩ := h.closed hclose hearly.1
      refine ⟨q, ?_, by rw [hsame]; exact hqc⟩
      rcases hp with hp | ⟨htrue, -⟩
      · rw [hp, hq]
      · exact absurd (htrue.symm.trans hearly.2) (by simp)
    · refine ⟨p, hp.trans hpcb, ?_⟩
      rw [hclosed, Function.update_self]
  · -- a call with the pcb of the socket, which is closed once a close is done
    have hsplit : t.UsesOpenPcbs ↔ s.UsesOpenPcbs ∧ ∀ c ∈ new, c.closed = false := by
      unfold UsesOpenPcbs
      rw [hcalls, List.forall_mem_append]
    rw [hsplit, h.calls, hlate, Bool.or_eq_false_iff]
    refine and_congr_right (fun hearly => ?_)
    cases hdone : s.closeDone with
    | false =>
      refine iff_of_true (fun c hc => ?_) rfl
      rw [hnew c hc]
      exact h.notClosed hdone p
    | true =>
      obtain ⟨q, hq, hqc⟩ := h.closed hdone hearly
      rw [hpcb] at hq
      obtain rfl := Option.some.inj hq
      rw [Bool.true_and]
      constructor
      · intro hall
        by_contra hne
        obtain ⟨c, hc⟩ := List.exists_mem_of_ne_nil new
          (hneeds.mp (by simpa using hne))
        exact absurd ((hall c hc).symm.trans (hnew c hc)) (by rw [hqc]; simp)
      · intro hfalse c hc
        rw [hfalse] at hneeds
        have hnil : new = [] := by
          by_contra hne
          exact absurd (hneeds.mpr hne) (by simp)
        rw [hnil] at hc
        exact absurd hc (by simp)
  · rw [hlate, Bool.or_eq_true, Bool.and_eq_true] at hl
    have hdone : s.closeDone = true := hl.elim h.late And.left
    rcases ht.pcb with ⟨-, hsame, -⟩ | ⟨-, htrue, -⟩
    · rw [hsame]
      exact hdone
    · exact htrue
  · exact absurd (hlost.symm.trans hl) (by simp)

/-! ## The steps -/

/-- What `handle_operation` does with the result of an operation. -/
theorem TcpInv.finish {late : Bool}
    (h : TcpInv { s with late := late, lost := false })
    (hcode : code ≠ .connectionLost) :
    TcpInv { s.finish i code result with late := late, lost := false } := by
  unfold TcpState.finish
  split
  · exact h
  · refine ⟨h.pcbFresh, h.closedFresh, h.errf, fun r hr => ?_, h.notClosed,
      h.closed, h.calls, h.late, h.lost⟩
    dsimp only at hr
    split at hr
    · exact List.forall_mem_append.mpr
        ⟨h.results, List.forall_mem_singleton.mpr hcode⟩ r hr
    · exact h.results r hr

/-- **`handle_operation` keeps the invariant.** -/
theorem TcpInv.process {recvScan : Bool} (h : TcpInv s)
    (hs : s.process recvScan outcome = some t) : TcpInv t := by
  rw [TcpState.process] at hs
  dsimp only at hs
  split at hs
  · rename_i code _
    obtain ⟨⟨u, result⟩, hop, rfl⟩ := Option.map_eq_some_iff.mp hs
    rw [processTxOp] at hop
    split at hop
    · rename_i hnop
      obtain ⟨rfl, -⟩ := Prod.mk.inj (Option.some.inj hop)
      have hneeds : s.needsLwip code = false := by
        rcases hnop with rfl | rfl <;> rfl
      rw [hneeds, Bool.and_false, Bool.or_false]
      refine TcpInv.finish ⟨h.pcbFresh, h.closedFresh, h.errf, h.results,
        h.notClosed, h.closed, h.calls, h.late, fun hl => absurd hl (by simp)⟩ ?_
      rcases hnop with rfl | rfl <;> simp
    · split at hop
      · rename_i htcp
        obtain ⟨h₁, hpcb, hlate, hdone, hqueue⟩ := h.withPcb
        have hneeds : s.withPcb.1.needsLwip code = s.needsLwip code := by
          unfold needsLwip writeQueueFull
          rw [hqueue]
        have heffect := switch_effect hop
        rw [hneeds] at heffect
        rw [← hlate, ← hdone]
        refine TcpInv.finish (h₁.effect hpcb ⟨heffect.calls, heffect.errf,
          heffect.results, heffect.nextPcb, heffect.pcb⟩ rfl rfl) ?_
        rintro rfl
        exact absurd htcp (by decide)
      · exact absurd hop (by simp)
  · exact absurd hs (by simp)

/-- A result from a callback of lwIP. -/
theorem TcpInv.complete (h : TcpInv s) (hs : s.complete code = some t) :
    TcpInv t := by
  have hresults : ∀ c : PifusOperationCode, c ≠ .connectionLost →
      ∀ r ∈ s.results ++ [(c, PifusResultCode.ok)], r.1 ≠ .connectionLost :=
    fun _ hc => List.forall_mem_append.mpr
      ⟨h.results, List.forall_mem_singleton.mpr hc⟩
  unfold TcpState.complete at hs
  split at hs
  · split at hs
    · obtain rfl := Option.some.inj hs
      exact ⟨h.pcbFresh, h.closedFresh, h.errf, hresults _ (by simp),
        h.notClosed, h.closed, h.calls, h.late, h.lost⟩
    · exact absurd hs (by simp)
  iterate 3
    · obtain rfl := Option.some.inj hs
      exact ⟨h.pcbFresh, h.closedFresh, h.errf, hresults _ (by simp),
        h.notClosed, h.closed, h.calls, h.late, h.lost⟩
  · exact absurd hs (by simp)

/-- **A fatal error changes nothing of the socket**, as no function is
registered with `tcp_err`. -/
theorem TcpInv.fatalError (h : TcpInv s) (hs : s.fatalError = some t) :
    TcpInv t := by
  rw [TcpState.fatalError] at hs
  split at hs
  · rename_i p hpcb
    split at hs
    · dsimp only at hs
      rw [if_neg (by rw [h.errf p]; simp)] at hs
      obtain rfl := Option.some.inj hs
      refine ⟨h.pcbFresh, h.closedFresh, h.errf, h.results, h.notClosed,
        h.closed, h.calls, h.late, fun _ => ?_⟩
      rw [hpcb]
      simp
    · exact absurd hs (by simp)
  · exact absurd hs (by simp)

/-- **Every step keeps the invariant.** -/
theorem TcpInv.step {e : TcpEvent} (h : TcpInv s) (hs : TcpStep s e t) :
    TcpInv t := by
  unfold TcpStep at hs
  cases e with
  | submit code =>
    rw [tcpStep] at hs
    split at hs
    · obtain rfl := Option.some.inj hs
      exact ⟨h.pcbFresh, h.closedFresh, h.errf, h.results, h.notClosed,
        h.closed, h.calls, h.late, h.lost⟩
    · exact absurd hs (by simp)
  | process recvScan outcome => exact h.process hs
  | complete code => exact h.complete hs
  | pop =>
    obtain ⟨r, -, rfl⟩ := Option.map_eq_some_iff.mp hs
    exact ⟨h.pcbFresh, h.closedFresh, h.errf, h.results, h.notClosed,
      h.closed, h.calls, h.late, h.lost⟩
  | fatalError => exact h.fatalError hs

theorem tcpInv_initial (pcb : Option ℕ) : TcpInv (initial pcb) where
  pcbFresh := fun p hp => by
    have hp : pcb = some p := hp
    rw [hp]
    exact Nat.lt_succ_self p
  closedFresh := fun _ hp => absurd hp (by simp [initial])
  errf := fun _ => rfl
  results := fun _ hr => absurd hr (by simp [initial])
  notClosed := fun _ _ => rfl
  closed := fun hclose => absurd hclose (by simp [initial])
  calls := iff_of_true (fun _ hc => absurd hc (by simp [initial])) rfl
  late := fun hl => absurd hl (by simp [initial])
  lost := fun hl => absurd hl (by simp [initial])

/-! ## Runs -/

/-- **When the stack uses no closed connection**: if and only if no operation
that calls lwIP is processed after a close that lwIP has accepted. Nothing
takes the pcb from the socket then. -/
theorem uses_open_pcbs_iff {pcb : Option ℕ} {es : List TcpEvent}
    (h : Run TcpStep (initial pcb) es s) : s.UsesOpenPcbs ↔ s.late = false :=
  (h.invariant TcpInv (tcpInv_initial pcb) (fun _ _ _ hI hs => hI.step hs)).calls

/-- A connection that is made and closed. -/
theorem uses_open_pcbs_iff_one :
    ∃ s : TcpState, s.closeDone = true
      ∧ (s.UsesOpenPcbs ↔ s.late = false) := by
  have hs : ([.submit .tcpConnect, .process false ⟨.ok, .async⟩,
      .complete .tcpConnect, .submit .tcpClose, .process false ⟨.ok, .async⟩,
      .pop, .pop].foldlM tcpStep (initial none)).map (fun s => s.closeDone)
      = some true := by decide +kernel
  obtain ⟨s, hrun, hdone⟩ := Option.map_eq_some_iff.mp hs
  exact ⟨s, hdone, uses_open_pcbs_iff (Run.of_foldlM hrun)⟩

/-- **A write that is queued behind a close**: `tcp_write` is called with the
pcb that `tcp_close` was called with. -/
theorem write_behind_close :
    ∃ (es : List TcpEvent) (s : TcpState),
      Run TcpStep (initial (some 0)) es s ∧ s.closePopped = false
        ∧ ⟨.tcpWrite, 0, true, false⟩ ∈ s.calls ∧ ¬ s.UsesOpenPcbs := by
  have hs : ([.submit .tcpClose, .submit .tcpWrite, .process false ⟨.ok, .ok⟩,
      .process false ⟨.ok, .ok⟩].foldlM tcpStep (initial (some 0))).any
      (fun s => s.closePopped = false
        ∧ (⟨.tcpWrite, 0, true, false⟩ : LwipCall) ∈ s.calls) = true := by
    decide +kernel
  obtain ⟨s, hrun, hp⟩ := (Option.any_eq_true _ _).mp hs
  obtain ⟨hpopped, hcall⟩ := of_decide_eq_true hp
  exact ⟨_, s, Run.of_foldlM hrun, hpopped, hcall,
    fun hopen => absurd (hopen _ hcall) (by simp)⟩

/-- **A lost connection is never noticed**: when a fatal error has ended it,
the socket keeps the pcb that lwIP has freed, and no `CONNECTION_LOST` was
enqueued. So the property holds as long as no fatal error has happened. -/
theorem loss_noticed_iff {pcb : Option ℕ} {es : List TcpEvent}
    (h : Run TcpStep (initial pcb) es s) :
    (s.LossNoticed ↔ s.lost = false)
    ∧ (s.lost = true → s.pcb ≠ none
      ∧ s.results.countP (fun r => r.1 = .connectionLost) = 0) := by
  have hinv : TcpInv s := h.invariant TcpInv (tcpInv_initial pcb)
    (fun _ _ _ hI hs => hI.step hs)
  refine ⟨⟨fun hnoticed => ?_, fun hlost hl => ?_⟩, fun hl => ⟨hinv.lost hl, ?_⟩⟩
  · by_contra hl
    have hl : s.lost = true := by simpa using hl
    exact hinv.lost hl (hnoticed hl).1
  · exact absurd (hlost.symm.trans hl) (by simp)
  · rw [List.countP_eq_zero]
    intro r hr
    simpa using hinv.results r hr

/-- A connection that is made and then reset. -/
theorem loss_noticed_iff_one :
    ∃ s : TcpState, s.lost = true
      ∧ s.results.countP (fun r => r.1 = .connectionLost) = 0 := by
  have hs : ([.submit .tcpConnect, .process false ⟨.ok, .async⟩,
      .complete .tcpConnect, .fatalError].foldlM tcpStep (initial none)).map
      (fun s => s.lost) = some true := by decide +kernel
  obtain ⟨s, hrun, hlost⟩ := Option.map_eq_some_iff.mp hs
  exact ⟨s, hlost, ((loss_noticed_iff (Run.of_foldlM hrun)).2 hlost).2⟩

/-- **A write after a reset**: `tcp_write` is called with a freed pcb, and the
app is not told. -/
theorem write_after_reset :
    ∃ (es : List TcpEvent) (s t : TcpState) (e : TcpEvent),
      Run TcpStep (initial none) es s ∧ ¬ s.LossNoticed
        ∧ TcpStep s e t ∧ ⟨.tcpWrite, 0, false, true⟩ ∈ t.calls := by
  have hs : ([.submit .tcpConnect, .process false ⟨.ok, .async⟩,
      .complete .tcpConnect, .submit .tcpWrite, .fatalError].foldlM tcpStep
        (initial none)).any (fun s => s.lost = true ∧ s.pcb = some 0
      ∧ (tcpStep s (.process false ⟨.ok, .ok⟩)).any (fun t =>
        (⟨.tcpWrite, 0, false, true⟩ : LwipCall) ∈ t.calls) = true) = true := by
    decide +kernel
  obtain ⟨s, hrun, hp⟩ := (Option.any_eq_true _ _).mp hs
  obtain ⟨hlost, hsock, ht⟩ := of_decide_eq_true hp
  obtain ⟨t, hstep, hcall⟩ := (Option.any_eq_true _ _).mp ht
  refine ⟨_, s, t, _, Run.of_foldlM hrun, fun hnoticed => ?_, hstep,
    of_decide_eq_true hcall⟩
  exact absurd (hsock.symm.trans (hnoticed hlost).1) (by simp)

end TcpState
