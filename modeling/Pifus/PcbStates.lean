import Pifus.TcpOperations

/-!
# The states of the pcbs

lwIP keeps a state in every pcb, and its functions look at it in two ways.
Most of them return an error where the state does not suit them. A few hold an
assertion: `tcp_recv`, `tcp_sent`, `tcp_output` and `tcp_recved` end the
program when the pcb is a listening one. `tcp_nagle_disable` is a macro that
writes through the pointer it is given.

Here are the pcbs of all sockets with their states, and the operations of the
apps on them, in any order. `tcp.c` and `tcp_out.c` of lwIP decide what state
a call leaves; what they return beyond that is an input. A connection changes
its state with the segments that arrive, and lwIP frees it when it has ended.

Every call is recorded with the state its pcb was in. A pcb that lwIP has
freed is in no state, and neither is `NULL`.
-/

/-- `enum tcp_state`. -/
inductive TcpPcbState
  | closed | listen | synSent | synRcvd | established | finWait1 | finWait2
  | closeWait | closing | lastAck | timeWait
  deriving DecidableEq

/-- The pcb is a connection, opened or about to be. -/
def TcpPcbState.isConnection (state : TcpPcbState) : Bool :=
  state ≠ .closed ∧ state ≠ .listen

/-- A function of lwIP that is called with a pcb, by `process_tx_op` or by a
callback. -/
inductive PcbFunction
  | op (function : LwipFunction)
  /-- `tcp_recved`, which `tcp_recv_callback` calls. -/
  | tcpRecved
  deriving DecidableEq

/-- The states that a function of lwIP asserts. -/
def PcbFunction.asserts : PcbFunction → TcpPcbState → Bool
  | .op .tcpRecv, state | .op .tcpSent, state | .op .tcpOutput, state
  | .tcpRecved, state => state ≠ .listen
  | _, _ => true

/-- A call of lwIP with a pcb, which may be `NULL`, and the state of the
pcb. -/
structure PcbCall where
  function : PcbFunction
  pcb : Option ℕ
  state : Option TcpPcbState
  deriving DecidableEq

namespace PcbCall

/-- **The call is a legal one**: with a pcb, in a state the function
asserts. -/
def Legal (c : PcbCall) : Prop := c.state.any c.function.asserts = true

instance (c : PcbCall) : Decidable c.Legal :=
  inferInstanceAs (Decidable (_ = _))

/-- The call ends the program: it writes through `NULL`, or an assertion
fails. -/
def aborts (c : PcbCall) : Bool :=
  (c.function = .op .tcpNagleDisable ∧ c.pcb = none)
    ∨ c.state.any (fun state => !c.function.asserts state) = true

end PcbCall

/-- What lwIP answers, as far as the state of the pcb leaves it open. -/
structure PcbOutcome where
  /-- There is memory for a pcb, in `tcp_new` and in
  `tcp_listen_with_backlog`. -/
  memory : Bool
  /-- The `err_t` of a call that the state of the pcb permits. -/
  err : ErrT
  /-- The app has not received all data, in `tcp_close`. -/
  unread : Bool
  /-- What `tx_tcp_recv` comes to. -/
  recvResult : PifusResultCode
  deriving DecidableEq

/-- The pcbs and the sockets. -/
structure PcbWorld where
  /-- The pcbs that lwIP has handed out and not freed, and their states. -/
  pcbs : ℕ → Option TcpPcbState
  /-- The next pcb that lwIP hands out. -/
  nextPcb : ℕ
  /-- The listening pcbs that `tcp_accepted_callback` is registered on. -/
  acceptFn : ℕ → Bool
  /-- The pcbs that `tcp_recv_callback` is registered on. -/
  recvFn : ℕ → Bool
  /-- `socket->pcb.tcp` of each socket. -/
  socketPcb : ℕ → Option ℕ
  /-- The number of sockets created. -/
  sockets : ℕ
  /-- The number of entries in the write queue of each socket. -/
  writeQueue : ℕ → ℕ
  /-- The pcbs of the accept results that were not popped. -/
  accepted : List (Option ℕ)
  calls : List PcbCall
  /-- The program of the stack has ended. -/
  ended : Bool

/-- What can happen next. -/
inductive PcbEvent
  /-- An app calls `pifus_socket`. -/
  | socket
  /-- The stack processes an operation of a socket. -/
  | process (socket : ℕ) (code : PifusOperationCode) (outcome : PcbOutcome)
  /-- A connection comes in at a listening pcb, and there is memory for its
  pcb or there is not. -/
  | incoming (listener : ℕ) (memory : Bool)
  /-- An app pops an accept result. -/
  | popAccept (i : ℕ)
  /-- lwIP passes data of a connection to `tcp_recv_callback`. -/
  | deliver (pcb : ℕ)
  /-- `tcp_sent_callback` takes an entry off a write queue. -/
  | sent (socket : ℕ)
  /-- A segment changes the state of a connection. -/
  | network (pcb : ℕ) (state : TcpPcbState)
  /-- lwIP frees a pcb. -/
  | free (pcb : ℕ)
  deriving DecidableEq

namespace PcbWorld

/-! ## lwIP -/

/-- The state a pointer to a pcb leads to. -/
def stateOf (w : PcbWorld) (p : Option ℕ) : Option TcpPcbState := p.bind w.pcbs

/-- A call of lwIP. -/
def call (w : PcbWorld) (function : PcbFunction) (p : Option ℕ) : PcbWorld :=
  { w with
    calls := w.calls ++ [⟨function, p, w.stateOf p⟩]
    ended := w.ended || PcbCall.aborts ⟨function, p, w.stateOf p⟩ }

/-- A pcb gets a state. -/
def setState (w : PcbWorld) (p : ℕ) (state : Option TcpPcbState) : PcbWorld :=
  { w with pcbs := Function.update w.pcbs p state }

/-- `tcp_alloc`, when there is memory: a pcb that was not handed out
before. -/
def alloc (w : PcbWorld) (state : TcpPcbState) : PcbWorld × ℕ :=
  ({ w with
    pcbs := Function.update w.pcbs w.nextPcb (some state)
    nextPcb := w.nextPcb + 1 }, w.nextPcb)

/-- `tcp_bind`. -/
def tcpBind (w : PcbWorld) (p : ℕ) (outcome : PcbOutcome) : PcbWorld × ErrT :=
  let w := w.call (.op .tcpBind) (some p)
  -- `ERR_VAL` unless the pcb is in state `CLOSED`
  if w.pcbs p = some .closed then (w, outcome.err) else (w, .other (-6))

/-- `tcp_connect`. -/
def tcpConnect (w : PcbWorld) (p : ℕ) (outcome : PcbOutcome) :
    PcbWorld × ErrT :=
  let w := w.call (.op .tcpConnect) (some p)
  -- `ERR_ISCONN` unless the pcb is in state `CLOSED`
  if w.pcbs p = some .closed then
    if outcome.err = .ok then (w.setState p (some .synSent), .ok)
    else (w, outcome.err)
  else (w, .other (-10))

/-- `tcp_write`. -/
def tcpWrite (w : PcbWorld) (p : ℕ) (outcome : PcbOutcome) : PcbWorld × ErrT :=
  let w := w.call (.op .tcpWrite) (some p)
  -- `ERR_CONN` where the state does not allow data
  match w.pcbs p with
  | some .established | some .closeWait | some .synSent | some .synRcvd =>
    (w, outcome.err)
  | _ => (w, .other (-11))

/-- `tcp_listen_with_backlog`: a listening pcb that takes the place of the
old one, or `NULL`. -/
def tcpListenWithBacklog (w : PcbWorld) (p : ℕ) (outcome : PcbOutcome) :
    PcbWorld × Option ℕ :=
  let w := w.call (.op .tcpListenWithBacklog) (some p)
  if w.pcbs p = some .closed ∧ outcome.memory = true then
    let new := w.alloc .listen
    (new.1.setState p none, some new.2)
  else (w, none)

/-- `tcp_accept`, which does nothing unless the pcb is listening. -/
def tcpAccept (w : PcbWorld) (p : ℕ) : PcbWorld :=
  let w := w.call (.op .tcpAccept) (some p)
  if w.pcbs p = some .listen then
    { w with acceptFn := Function.update w.acceptFn p true }
  else w

/-- `tcp_recv`. -/
def tcpRecv (w : PcbWorld) (p : Option ℕ) : PcbWorld :=
  let w := w.call (.op .tcpRecv) p
  match p with
  | some p => { w with recvFn := Function.update w.recvFn p true }
  | none => w

/-- The `tcp_send_fin` of `tcp_close`. Without memory for the segment the pcb
is marked and left to the timer. -/
def sendFin (w : PcbWorld) (p : ℕ) (err : ErrT) (state : TcpPcbState) :
    PcbWorld × ErrT :=
  match err with
  | .ok => (w.setState p (some state), .ok)
  | .mem => (w, .ok)
  | .other code => (w, .other code)

/-- `tcp_close`. -/
def tcpClose (w : PcbWorld) (p : ℕ) (outcome : PcbOutcome) : PcbWorld × ErrT :=
  let w := w.call (.op .tcpClose) (some p)
  match w.pcbs p with
  | some .closed | some .listen | some .synSent => (w.setState p none, .ok)
  | some .synRcvd => w.sendFin p outcome.err .finWait1
  | some .established =>
    -- the peer gets an `RST` where not all data was received
    if outcome.unread then (w.setState p none, .ok)
    else w.sendFin p outcome.err .finWait1
  | some .closeWait =>
    if outcome.unread then (w.setState p none, .ok)
    else w.sendFin p outcome.err .lastAck
  | _ => (w, .ok)

/-! ## The operations -/

/-- The `tcp_new` of `process_tx_op`, for a socket without a pcb. -/
def withPcb (w : PcbWorld) (socket : ℕ) (outcome : PcbOutcome) :
    PcbWorld × Option ℕ :=
  match w.socketPcb socket with
  | some p => (w, some p)
  | none =>
    if outcome.memory then
      let new := w.alloc .closed
      let w : PcbWorld := { new.1 with
        socketPcb := Function.update w.socketPcb socket (some new.2) }
      ((w.call (.op .tcpNagleDisable) (some new.2)).call (.op .tcpArg)
        (some new.2), some new.2)
    else (w.call (.op .tcpNagleDisable) none, none)

/-- `pifus_write_queue_is_full`. -/
def writeQueueFull (w : PcbWorld) (socket : ℕ) : Bool :=
  w.writeQueue socket + 1 = writeQueueSize

/-- `tx_tcp_bind`. -/
def txTcpBind (w : PcbWorld) (p : ℕ) (outcome : PcbOutcome) :
    PcbWorld × PifusResultCode :=
  let r := w.tcpBind p outcome
  (r.1, if r.2 = .ok then .ok else .err)

/-- `tx_tcp_connect`. -/
def txTcpConnect (w : PcbWorld) (p : ℕ) (outcome : PcbOutcome) :
    PcbWorld × PifusResultCode :=
  let r := w.tcpConnect p outcome
  (r.1, if r.2 = .ok then .async else .err)

/-- `tx_tcp_write`. -/
def txTcpWrite (w : PcbWorld) (socket p : ℕ) (outcome : PcbOutcome) :
    PcbWorld × PifusResultCode :=
  if w.writeQueueFull socket then (w, .err)
  else
    let r := w.tcpWrite p outcome
    match r.2 with
    | .ok =>
      let w : PcbWorld := { r.1 with
        writeQueue := Function.update r.1.writeQueue socket
          (r.1.writeQueue socket + 1) }
      ((w.call (.op .tcpSent) (some p)).call (.op .tcpOutput) (some p), .async)
    | .mem => (r.1, .tryAgain)
    | .other _ => (r.1, .err)

/-- `tx_tcp_recv`, as far as lwIP is concerned. -/
def txTcpRecv (w : PcbWorld) (p : ℕ) (outcome : PcbOutcome) :
    PcbWorld × PifusResultCode :=
  (w.tcpRecv (some p), outcome.recvResult)

/-- `tx_tcp_listen`. -/
def txTcpListen (w : PcbWorld) (socket p : ℕ) (outcome : PcbOutcome) :
    PcbWorld × PifusResultCode :=
  let r := w.tcpListenWithBacklog p outcome
  match r.2 with
  | some new =>
    ({ r.1 with socketPcb := Function.update r.1.socketPcb socket (some new) },
      .ok)
  | none => (r.1, .err)

/-- `tx_tcp_accept`. -/
def txTcpAccept (w : PcbWorld) (p : ℕ) : PcbWorld × PifusResultCode :=
  (w.tcpAccept p, .async)

/-- `tx_tcp_close`. The socket keeps the pointer. -/
def txTcpClose (w : PcbWorld) (p : ℕ) (outcome : PcbOutcome) :
    PcbWorld × PifusResultCode :=
  let r := w.tcpClose p outcome
  (r.1, if r.2 = .ok then .ok else .err)

/-- The `switch` of `process_tx_op`. Of a code that is not known no result is
set. -/
def switch (w : PcbWorld) (socket p : ℕ) (outcome : PcbOutcome) :
    PifusOperationCode → Option (PcbWorld × PifusResultCode)
  | .tcpBind => some (w.txTcpBind p outcome)
  | .tcpConnect => some (w.txTcpConnect p outcome)
  | .tcpWrite => some (w.txTcpWrite socket p outcome)
  | .tcpRecv => some (w.txTcpRecv p outcome)
  | .tcpListen => some (w.txTcpListen socket p outcome)
  | .tcpAccept => some (w.txTcpAccept p)
  | .tcpClose => some (w.txTcpClose p outcome)
  | _ => none

/-- `process_tx_op`. It gets no further than `tcp_nagle_disable` where
`tcp_new` has returned `NULL`. -/
def processTxOp (w : PcbWorld) (socket : ℕ) (code : PifusOperationCode)
    (outcome : PcbOutcome) : Option (PcbWorld × PifusResultCode) :=
  if code = .nop ∨ code = .clientNop then some (w, .ok)
  else if code.isTcpOperation then
    let r := w.withPcb socket outcome
    match r.2 with
    | some p => r.1.switch socket p outcome code
    | none => some (r.1, .err)
  else none

/-- `tcp_accepted_callback`. -/
def tcpAcceptedCallback (w : PcbWorld) (newpcb : Option ℕ) : PcbWorld :=
  let w := (w.tcpRecv newpcb).call (.op .tcpArg) newpcb
  { w with accepted := w.accepted ++ [newpcb] }

end PcbWorld

open PcbWorld

/-- **A step of an app, of the stack or of lwIP.** -/
def pcbStep (w : PcbWorld) (e : PcbEvent) : Option PcbWorld :=
  if w.ended then none
  else
    match e with
    | .socket => some { w with sockets := w.sockets + 1 }
    | .process socket code outcome =>
      -- the recv scan leaves a `NOP` where a receive was
      if socket < w.sockets ∧ (code ∈ TcpState.apiCodes ∨ code = .nop) then
        (w.processTxOp socket code outcome).map Prod.fst
      else none
    | .incoming listener memory =>
      if w.pcbs listener = some .listen ∧ w.acceptFn listener = true then
        if memory then
          let new := w.alloc .established
          some (new.1.tcpAcceptedCallback (some new.2))
        else some (w.tcpAcceptedCallback none)
      else none
    | .popAccept i =>
      w.accepted[i]?.map (fun pcb => { w with
        accepted := w.accepted.eraseIdx i
        socketPcb := Function.update w.socketPcb w.sockets pcb
        sockets := w.sockets + 1 })
    | .deliver p =>
      if w.recvFn p = true ∧ (w.pcbs p).any TcpPcbState.isConnection = true then
        some (w.call .tcpRecved (some p))
      else none
    | .sent socket =>
      if 0 < w.writeQueue socket then
        some { w with writeQueue :=
          Function.update w.writeQueue socket (w.writeQueue socket - 1) }
      else none
    | .network p state =>
      if (w.pcbs p).any TcpPcbState.isConnection = true
          ∧ state.isConnection = true then some (w.setState p (some state))
      else none
    | .free p =>
      if (w.pcbs p).any (fun state => state ≠ .listen) = true then
        some (w.setState p none)
      else none

/-- The steps as a relation. -/
def PcbStep (w : PcbWorld) (e : PcbEvent) (u : PcbWorld) : Prop :=
  pcbStep w e = some u

namespace PcbWorld

/-- The stack has just started. -/
def initial : PcbWorld :=
  ⟨fun _ => none, 0, fun _ => false, fun _ => false, fun _ => none, 0,
    fun _ => 0, [], [], false⟩

/-- **Every call of lwIP was legal.** -/
def CallsLegal (w : PcbWorld) : Prop := ∀ c ∈ w.calls, c.Legal

/-- An operation may be processed on the pcb of its socket: lwIP has not freed
it, and it is not a listening one if the operation is a receive. A write for
which the write queue has no room does not get to lwIP. -/
def pcbSuits (w : PcbWorld) (socket p : ℕ) (code : PifusOperationCode) : Bool :=
  (code = .tcpWrite ∧ w.writeQueueFull socket = true)
    ∨ (w.pcbs p).any (fun state => code = .tcpRecv → state ≠ .listen) = true

/-- **The step is a safe one**: a socket without a pcb gets one, an operation
finds a pcb that suits it, and an incoming connection has a pcb. -/
def safe (w : PcbWorld) : PcbEvent → Bool
  | .process socket code outcome =>
    if code = .nop ∨ code = .clientNop then true
    else
      match w.socketPcb socket with
      | some p => w.pcbSuits socket p code
      | none => outcome.memory
  | .incoming _ memory => memory
  | _ => true

/-- The condition on a step. -/
def Safe (w : PcbWorld) (e : PcbEvent) : Prop := w.safe e = true

instance (w : PcbWorld) (e : PcbEvent) : Decidable (w.Safe e) :=
  inferInstanceAs (Decidable (_ = _))

/-! ## Which calls are made -/

variable {w u v : PcbWorld} {p socket : ℕ} {code : PifusOperationCode}
  {outcome : PcbOutcome} {result : PifusResultCode} {P Q : Prop}

/-- **What a part of a step calls**: some calls are added, they are legal
exactly if `P` holds, and only one that is not legal ends the program. -/
def Makes (w u : PcbWorld) (P : Prop) : Prop :=
  ∃ new, u.calls = w.calls ++ new ∧ ((∀ c ∈ new, c.Legal) ↔ P)
    ∧ (u.ended = true → w.ended = true ∨ ∃ c ∈ new, ¬ c.Legal)

/-- A call of lwIP. One that ends the program is not legal. -/
theorem makes_call (w : PcbWorld) (function : PcbFunction) (p : Option ℕ) :
    Makes w (w.call function p)
      ((w.stateOf p).any function.asserts = true) := by
  refine ⟨_, rfl, by simp [PcbCall.Legal], fun hended => ?_⟩
  rcases Bool.or_eq_true _ _ |>.mp hended with hended | haborts
  · exact Or.inl hended
  · refine Or.inr ⟨_, List.mem_singleton_self _, fun hlegal => ?_⟩
    unfold PcbCall.Legal at hlegal
    obtain ⟨state, hstate, hasserts⟩ := (Option.any_eq_true _ _).mp hlegal
    unfold PcbCall.aborts at haborts
    rcases of_decide_eq_true haborts with ⟨-, hnull⟩ | hfails
    · simp [stateOf, show p = none from hnull] at hstate
    · obtain ⟨state', hstate', hfails⟩ := (Option.any_eq_true _ _).mp hfails
      obtain rfl := Option.some.inj (hstate.symm.trans hstate')
      rw [hasserts] at hfails
      exact absurd hfails (by simp)

theorem Makes.of_eq (hcalls : u.calls = w.calls) (hended : u.ended = w.ended) :
    Makes w u True :=
  ⟨[], by rw [hcalls, List.append_nil], by simp,
    fun h => Or.inl (hended ▸ h)⟩

theorem Makes.trans (h : Makes w u P) (h' : Makes u v Q) :
    Makes w v (P ∧ Q) := by
  obtain ⟨new, hcalls, hlegal, hended⟩ := h
  obtain ⟨new', hcalls', hlegal', hended'⟩ := h'
  refine ⟨new ++ new', ?_, ?_, fun hv => ?_⟩
  · rw [hcalls', hcalls, List.append_assoc]
  · rw [List.forall_mem_append, hlegal, hlegal']
  · rcases hended' hv with hu | ⟨c, hc, hbad⟩
    · rcases hended hu with hw | ⟨c, hc, hbad⟩
      · exact Or.inl hw
      · exact Or.inr ⟨c, List.mem_append_left _ hc, hbad⟩
    · exact Or.inr ⟨c, List.mem_append_right _ hc, hbad⟩

theorem Makes.congr (h : Makes w u P) (hPQ : P ↔ Q) : Makes w u Q := by
  obtain ⟨new, hcalls, hlegal, hended⟩ := h
  exact ⟨new, hcalls, hlegal.trans hPQ, hended⟩

/-- What is done with a pcb besides calling lwIP does not show in the
calls. -/
theorem Makes.update (h : Makes w u P) (hcalls : v.calls = u.calls)
    (hended : v.ended = u.ended) : Makes w v P :=
  (h.trans (Makes.of_eq hcalls hended)).congr (and_iff_left trivial)

/-! ## The functions of lwIP -/

/-- A function that asserts nothing needs a pcb that is not freed. -/
theorem makes_call_any {function : PcbFunction}
    (h : ∀ state, function.asserts state = true) :
    Makes w (w.call function (some p)) ((w.pcbs p).isSome = true) := by
  refine (makes_call w function (some p)).congr ?_
  show (w.pcbs p).any function.asserts = true ↔ _
  cases w.pcbs p with
  | none => simp
  | some state => simp [h]

/-- `tcp_bind` and `tcp_connect` make one call, which asserts nothing. -/
theorem makes_tcpBind :
    Makes w (w.tcpBind p outcome).1 ((w.pcbs p).isSome = true) := by
  rw [tcpBind]
  split <;> exact makes_call_any (fun _ => rfl)

theorem makes_tcpConnect :
    Makes w (w.tcpConnect p outcome).1 ((w.pcbs p).isSome = true) := by
  rw [tcpConnect]
  have hcall : Makes w (w.call (.op .tcpConnect) (some p)) _ :=
    makes_call_any (fun _ => rfl)
  split
  · split
    · exact hcall.update rfl rfl
    · exact hcall
  · exact hcall

theorem makes_tcpListenWithBacklog :
    Makes w (w.tcpListenWithBacklog p outcome).1 ((w.pcbs p).isSome = true) := by
  rw [tcpListenWithBacklog]
  have hcall : Makes w (w.call (.op .tcpListenWithBacklog) (some p)) _ :=
    makes_call_any (fun _ => rfl)
  dsimp only
  split
  · exact hcall.update rfl rfl
  · exact hcall

theorem makes_tcpAccept :
    Makes w (w.tcpAccept p) ((w.pcbs p).isSome = true) := by
  rw [tcpAccept]
  have hcall : Makes w (w.call (.op .tcpAccept) (some p)) _ :=
    makes_call_any (fun _ => rfl)
  split
  · exact hcall.update rfl rfl
  · exact hcall

theorem makes_sendFin {err : ErrT} {state : TcpPcbState} (h : Makes w u P) :
    Makes w (u.sendFin p err state).1 P := by
  unfold sendFin
  split
  · exact h.update rfl rfl
  · exact h
  · exact h

theorem makes_tcpClose :
    Makes w (w.tcpClose p outcome).1 ((w.pcbs p).isSome = true) := by
  have hcall : Makes w (w.call (.op .tcpClose) (some p)) _ :=
    makes_call_any (fun _ => rfl)
  rw [tcpClose]
  split
  · exact hcall.update rfl rfl
  · exact hcall.update rfl rfl
  · exact hcall.update rfl rfl
  · exact makes_sendFin hcall
  · split
    · exact hcall.update rfl rfl
    · exact makes_sendFin hcall
  · split
    · exact hcall.update rfl rfl
    · exact makes_sendFin hcall
  · exact hcall

/-- `tcp_recv` asserts that the pcb is not listening. -/
theorem makes_tcpRecv (w : PcbWorld) (p : Option ℕ) :
    Makes w (w.tcpRecv p)
      ((w.stateOf p).any (fun state => state ≠ .listen) = true) := by
  have hcall : Makes w (w.call (.op .tcpRecv) p) _ := makes_call w _ p
  unfold tcpRecv
  split
  · exact hcall.update rfl rfl
  · exact hcall

/-- **`tx_tcp_write`**: lwIP accepts data only for a pcb in one of four states,
and those are all right for `tcp_sent` and `tcp_output`. -/
theorem makes_txTcpWrite (hroom : w.writeQueueFull socket = false) :
    Makes w (w.txTcpWrite socket p outcome).1 ((w.pcbs p).isSome = true) := by
  have hcall : Makes w (w.call (.op .tcpWrite) (some p)) _ :=
    makes_call_any (fun _ => rfl)
  have hpcbs : (w.tcpWrite p outcome).1 = w.call (.op .tcpWrite) (some p) := by
    rw [tcpWrite]
    split <;> rfl
  rw [txTcpWrite, if_neg (by rw [hroom]; simp)]
  dsimp only
  split
  · rename_i hok
    obtain ⟨state, hstate, hopen⟩ : ∃ state, w.pcbs p = some state
        ∧ state ≠ .listen := by
      rw [tcpWrite] at hok
      split at hok
      · exact ⟨_, ‹_›, by simp⟩
      · exact ⟨_, ‹_›, by simp⟩
      · exact ⟨_, ‹_›, by simp⟩
      · exact ⟨_, ‹_›, by simp⟩
      · exact absurd hok (by simp)
    have hasserts : ∀ function : PcbFunction, (∀ state, state ≠ .listen →
        function.asserts state = true) →
        (w.pcbs p).any function.asserts = true := by
      intro function hfunction
      rw [hstate]
      exact hfunction _ hopen
    have hsent := hasserts (.op .tcpSent) (by simp [PcbFunction.asserts])
    have houtput := hasserts (.op .tcpOutput) (by simp [PcbFunction.asserts])
    rw [hpcbs]
    refine (((hcall.update rfl rfl).trans (makes_call _ _ _)).trans
      (makes_call _ _ _)).congr ?_
    exact ⟨fun h => h.1.1, fun h => ⟨⟨h, hsent⟩, houtput⟩⟩
  · rw [hpcbs]
    exact hcall
  · rw [hpcbs]
    exact hcall

/-! ## The steps -/

theorem pcbSuits_of_ne (hrecv : code ≠ .tcpRecv) (hwrite : code ≠ .tcpWrite) :
    w.pcbSuits socket p code = true ↔ (w.pcbs p).isSome = true := by
  unfold pcbSuits
  rw [decide_eq_true_iff]
  cases w.pcbs p <;> simp [hrecv, hwrite]

/-- **The `switch` of `process_tx_op`** makes legal calls exactly if the pcb
suits the operation. -/
theorem makes_switch (h : w.switch socket p outcome code = some (u, result)) :
    Makes w u (w.pcbSuits socket p code = true) := by
  cases code with
  | tcpBind =>
    obtain ⟨rfl, -⟩ := Prod.mk.inj (Option.some.inj h)
    exact makes_tcpBind.congr (pcbSuits_of_ne (by simp) (by simp)).symm
  | tcpConnect =>
    obtain ⟨rfl, -⟩ := Prod.mk.inj (Option.some.inj h)
    exact makes_tcpConnect.congr (pcbSuits_of_ne (by simp) (by simp)).symm
  | tcpAccept =>
    obtain ⟨rfl, -⟩ := Prod.mk.inj (Option.some.inj h)
    exact makes_tcpAccept.congr (pcbSuits_of_ne (by simp) (by simp)).symm
  | tcpClose =>
    obtain ⟨rfl, -⟩ := Prod.mk.inj (Option.some.inj h)
    exact makes_tcpClose.congr (pcbSuits_of_ne (by simp) (by simp)).symm
  | tcpListen =>
    obtain h := Option.some.inj h
    refine Makes.congr ?_ (pcbSuits_of_ne (by simp) (by simp)).symm
    rw [txTcpListen] at h
    split at h
    · obtain ⟨rfl, -⟩ := Prod.mk.inj h
      exact makes_tcpListenWithBacklog.update rfl rfl
    · obtain ⟨rfl, -⟩ := Prod.mk.inj h
      exact makes_tcpListenWithBacklog
  | tcpRecv =>
    obtain ⟨rfl, -⟩ := Prod.mk.inj (Option.some.inj h)
    refine (makes_tcpRecv w (some p)).congr ?_
    simp [pcbSuits, stateOf]
  | tcpWrite =>
    obtain h := Option.some.inj h
    by_cases hfull : w.writeQueueFull socket = true
    · rw [txTcpWrite, if_pos hfull] at h
      obtain ⟨rfl, -⟩ := Prod.mk.inj h
      refine (Makes.of_eq rfl rfl).congr (iff_of_true trivial ?_)
      simp [pcbSuits, hfull]
    · have heq : u = (w.txTcpWrite socket p outcome).1 := by rw [h]
      rw [heq]
      refine (makes_txTcpWrite (by simpa using hfull)).congr ?_
      unfold pcbSuits
      cases w.pcbs p <;> simp [hfull]
  | _ => exact absurd h (by simp [switch])

/-- A pcb of `tcp_new` is in state `CLOSED`, which suits every operation. -/
theorem makes_withPcb (hp : w.socketPcb socket = none)
    (hmemory : outcome.memory = true) :
    Makes w (w.withPcb socket outcome).1 True
    ∧ (w.withPcb socket outcome).2 = some w.nextPcb
    ∧ (w.withPcb socket outcome).1.pcbs w.nextPcb = some .closed := by
  let new : PcbWorld := { (w.alloc .closed).1 with
    socketPcb := Function.update w.socketPcb socket (some w.nextPcb) }
  have hclosed : new.pcbs w.nextPcb = some .closed := Function.update_self _ _ _
  have heq : w.withPcb socket outcome
      = ((new.call (.op .tcpNagleDisable) (some w.nextPcb)).call (.op .tcpArg)
        (some w.nextPcb), some w.nextPcb) := by
    rw [withPcb, hp]
    dsimp only
    rw [if_pos hmemory]
    rfl
  have hstate : (new.pcbs w.nextPcb).isSome = true := by rw [hclosed]; rfl
  have hnew : Makes w new True := Makes.of_eq rfl rfl
  have hnagle : Makes new
      (new.call (.op .tcpNagleDisable) (some w.nextPcb)) _ :=
    makes_call_any (fun _ => rfl)
  rw [heq]
  refine ⟨((hnew.trans hnagle).trans (makes_call_any (fun _ => rfl))).congr
    (iff_of_true ⟨⟨trivial, hstate⟩, hstate⟩ trivial), rfl, hclosed⟩

/-- **`process_tx_op`** makes legal calls exactly if the step is a safe
one. -/
theorem makes_processTxOp
    (h : w.processTxOp socket code outcome = some (u, result)) :
    Makes w u (w.Safe (.process socket code outcome)) := by
  rw [Safe, safe]
  rw [processTxOp] at h
  split at h
  · rename_i hnop
    obtain ⟨rfl, -⟩ := Prod.mk.inj (Option.some.inj h)
    rw [if_pos hnop]
    exact (Makes.of_eq rfl rfl).congr (by simp)
  · rename_i hnop
    rw [if_neg hnop]
    split at h
    · cases hp : w.socketPcb socket with
      | some p =>
        have heq : w.withPcb socket outcome = (w, some p) := by
          rw [withPcb, hp]
        rw [heq] at h
        exact makes_switch h
      | none =>
        cases hmemory : outcome.memory with
        | true =>
          obtain ⟨hmakes, hnew, hclosed⟩ := makes_withPcb hp hmemory
          dsimp only at h
          rw [hnew] at h
          refine (hmakes.trans (makes_switch h)).congr
            (iff_of_true ⟨trivial, ?_⟩ rfl)
          simp [pcbSuits, hclosed]
        | false =>
          have heq : w.withPcb socket outcome
              = (w.call (.op .tcpNagleDisable) none, none) := by
            rw [withPcb, hp]
            dsimp only
            rw [hmemory]
            rfl
          rw [heq] at h
          obtain ⟨rfl, -⟩ := Prod.mk.inj (Option.some.inj h)
          exact (makes_call w _ none).congr (by simp [stateOf])
    · exact absurd h (by simp)

/-- **`tcp_accepted_callback`** makes legal calls exactly if it gets a pcb. -/
theorem makes_tcpAcceptedCallback {newpcb : Option ℕ}
    (h : ∀ p, newpcb = some p → w.pcbs p = some .established) :
    Makes w (w.tcpAcceptedCallback newpcb) (newpcb.isSome = true) := by
  have hmakes : Makes w ((w.tcpRecv newpcb).call (.op .tcpArg) newpcb) _ :=
    (makes_tcpRecv w newpcb).trans (makes_call _ _ _)
  refine (hmakes.update rfl rfl).congr ?_
  have hstate : (w.tcpRecv newpcb).stateOf newpcb = w.stateOf newpcb := by
    cases newpcb <;> rfl
  rw [hstate]
  cases newpcb with
  | none => simp [stateOf]
  | some p => simp [stateOf, h p rfl, PcbFunction.asserts]

/-- **The step lemma**: a step makes legal calls exactly if it is a safe
one. -/
theorem makes_step {e : PcbEvent} (h : PcbStep w e u) :
    Makes w u (w.Safe e) := by
  have hsafe : ∀ {e}, w.safe e = true → Makes w u True →
      Makes w u (w.Safe e) :=
    fun hs hmakes => hmakes.congr (iff_of_true trivial hs)
  unfold PcbStep pcbStep at h
  split at h
  · exact absurd h (by simp)
  · cases e with
    | socket =>
      obtain rfl := Option.some.inj h
      exact hsafe rfl (Makes.of_eq rfl rfl)
    | process socket code outcome =>
      dsimp only at h
      split at h
      · obtain ⟨⟨u, result⟩, hop, rfl⟩ := Option.map_eq_some_iff.mp h
        exact makes_processTxOp hop
      · exact absurd h (by simp)
    | incoming listener memory =>
      dsimp only at h
      split at h
      · split at h
        · rename_i hmemory
          obtain rfl := Option.some.inj h
          refine ((Makes.of_eq rfl rfl).trans (makes_tcpAcceptedCallback ?_)).congr
            (iff_of_true ⟨trivial, rfl⟩ hmemory)
          intro p hp
          obtain rfl := Option.some.inj hp
          exact Function.update_self _ _ _
        · rename_i hmemory
          obtain rfl := Option.some.inj h
          exact (makes_tcpAcceptedCallback (by simp)).congr
            (iff_of_false (by simp) hmemory)
      · exact absurd h (by simp)
    | popAccept i =>
      obtain ⟨pcb, -, rfl⟩ := Option.map_eq_some_iff.mp h
      exact hsafe rfl (Makes.of_eq rfl rfl)
    | deliver p =>
      dsimp only at h
      split at h
      · rename_i hopen
        obtain rfl := Option.some.inj h
        obtain ⟨state, hstate, hconn⟩ := (Option.any_eq_true _ _).mp hopen.2
        refine (makes_call w .tcpRecved (some p)).congr (iff_of_true ?_ rfl)
        simp only [TcpPcbState.isConnection, decide_eq_true_eq] at hconn
        simp [stateOf, hstate, PcbFunction.asserts, hconn.2]
      · exact absurd h (by simp)
    | sent socket =>
      dsimp only at h
      split at h
      · obtain rfl := Option.some.inj h
        exact hsafe rfl (Makes.of_eq rfl rfl)
      · exact absurd h (by simp)
    | network p state =>
      dsimp only at h
      split at h
      · obtain rfl := Option.some.inj h
        exact hsafe rfl (Makes.of_eq rfl rfl)
      · exact absurd h (by simp)
    | free p =>
      dsimp only at h
      split at h
      · obtain rfl := Option.some.inj h
        exact hsafe rfl (Makes.of_eq rfl rfl)
      · exact absurd h (by simp)

/-! ## Runs -/

/-- A run of safe steps makes legal calls only, and does not end the
program. -/
theorem legal_of_safe {es : List PcbEvent}
    (h : Run (Guarded Safe PcbStep) initial es w) :
    w.CallsLegal ∧ w.ended = false := by
  refine h.invariant (fun w => w.CallsLegal ∧ w.ended = false)
    ⟨fun c hc => absurd hc (by simp [initial]), rfl⟩ ?_
  rintro w e u ⟨hw, hrunning⟩ ⟨hsafe, hstep⟩
  obtain ⟨new, hcalls, hlegal, hended⟩ := makes_step hstep
  have hnew := hlegal.mpr hsafe
  refine ⟨?_, ?_⟩
  · unfold CallsLegal
    rw [hcalls, List.forall_mem_append]
    exact ⟨hw, hnew⟩
  · by_contra hne
    rcases hended (by simpa using hne) with hwended | ⟨c, hc, hbad⟩
    · exact absurd (hrunning.symm.trans hwended) (by simp)
    · exact hbad (hnew c hc)

/-- **When the stack calls lwIP with suitable pcbs only**: if and only if all
steps were safe ones. The program does not end then. -/
theorem calls_legal_iff {es : List PcbEvent} (h : Run PcbStep initial es w) :
    (w.CallsLegal ↔ Run (Guarded Safe PcbStep) initial es w)
    ∧ (w.CallsLegal → w.ended = false) := by
  have hsafe : w.CallsLegal → Run (Guarded Safe PcbStep) initial es w := by
    induction h with
    | nil => exact fun _ => Run.nil
    | snoc _ hstep ih =>
      intro hu
      obtain ⟨new, hcalls, hlegal, -⟩ := makes_step hstep
      unfold CallsLegal at hu
      rw [hcalls, List.forall_mem_append] at hu
      exact Run.snoc (ih hu.1) ⟨hlegal.mp hu.2, hstep⟩
  exact ⟨⟨hsafe, fun hrun => (legal_of_safe hrun).1⟩,
    fun hlegal => (legal_of_safe (hsafe hlegal)).2⟩

/-- Memory for a pcb, and `ERR_OK`. -/
def served : PcbOutcome := ⟨true, .ok, false, .async⟩

/-- A socket that listens, a connection that is accepted, and a write and a
receive on it. -/
theorem calls_legal_iff_accept :
    ∃ w : PcbWorld, w.calls.length = 11 ∧ w.CallsLegal := by
  have hs : ([.socket, .process 0 .tcpBind served, .process 0 .tcpListen served,
      .process 0 .tcpAccept served, .incoming 1 true, .popAccept 0,
      .process 1 .tcpWrite served, .process 1 .tcpRecv served].foldlM
      (guardedStep Safe pcbStep) initial).map (fun w => w.calls.length)
      = some 11 := by decide +kernel
  obtain ⟨w, hrun, hlength⟩ := Option.map_eq_some_iff.mp hs
  have hguarded := Run.guarded_of_foldlM hrun
  exact ⟨w, hlength, (calls_legal_iff hguarded.of_guarded).1.mpr hguarded⟩

/-- **A receive on a socket that listens**: `tcp_recv` is called with a pcb in
state `LISTEN`, and its assertion ends the program. So does a first operation
when lwIP is out of pcbs, with `tcp_nagle_disable` of `NULL`. -/
theorem receive_on_listening :
    (∃ (es : List PcbEvent) (w : PcbWorld), Run PcbStep initial es w
      ∧ ⟨.op .tcpRecv, some 1, some .listen⟩ ∈ w.calls ∧ w.ended = true
      ∧ ¬ w.CallsLegal)
    ∧ ∃ (es : List PcbEvent) (w : PcbWorld), Run PcbStep initial es w
      ∧ ⟨.op .tcpNagleDisable, none, none⟩ ∈ w.calls ∧ w.ended = true
      ∧ ¬ w.CallsLegal := by
  have hlisten : ([.socket, .process 0 .tcpBind served,
      .process 0 .tcpListen served, .process 0 .tcpRecv served].foldlM pcbStep
      initial).any (fun w =>
      (⟨.op .tcpRecv, some 1, some .listen⟩ : PcbCall) ∈ w.calls
        ∧ w.ended = true) = true := by decide +kernel
  have hnull : ([.socket, .process 0 .tcpBind { served with memory := false }
      ].foldlM pcbStep initial).any (fun w =>
      (⟨.op .tcpNagleDisable, none, none⟩ : PcbCall) ∈ w.calls
        ∧ w.ended = true) = true := by decide +kernel
  obtain ⟨w, hrun, hp⟩ := (Option.any_eq_true _ _).mp hlisten
  obtain ⟨u, hrun', hp'⟩ := (Option.any_eq_true _ _).mp hnull
  obtain ⟨hcall, hended⟩ := of_decide_eq_true hp
  obtain ⟨hcall', hended'⟩ := of_decide_eq_true hp'
  exact ⟨⟨_, w, Run.of_foldlM hrun, hcall, hended,
      fun hlegal => absurd (hlegal _ hcall) (by decide)⟩,
    ⟨_, u, Run.of_foldlM hrun', hcall', hended',
      fun hlegal => absurd (hlegal _ hcall') (by decide)⟩⟩

end PcbWorld
