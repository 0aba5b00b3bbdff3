import Pifus.Operation
import Pifus.RingBuffer

/-!
# The stack's main loop

`stack.c` takes operations from `tx_queue`, which
`pifus_priority_aware_ring_buffer.c` makes of three ring buffers. The prio
threads put into these rings while `lwip_loop_iteration` runs, and nothing but
the single ring operations is atomic. So the loop is a program counter that
stands in front of the next ring operation, and a step is one such operation
or a put of a prio thread; what happens between two ring operations touches
no ring and belongs to the step before.

`process_tx_op` is where lwIP comes in, and its result is an input. Two things
are known of it: a `NOP` or `CLIENT_NOP` yields `PIFUS_OK`, and no operation
but `TCP_WRITE` yields `PIFUS_TRY_AGAIN`.

An entry of a ring carries the operation it was put with next to what the ring
holds now, because the recv scan overwrites the code. The functions read the
current one only.
-/

/-- The three rings of `tx_queue`. -/
inductive TxPrio
  | high | medium | low
  deriving DecidableEq

/-- The ring looked at after this one. -/
def TxPrio.next : TxPrio → Option TxPrio
  | high => some medium
  | medium => some low
  | low => none

/-- `struct pifus_internal_operation`: its code and its socket, and which put
into the ring it came with. -/
structure PifusInternalOperation where
  code : PifusOperationCode
  socket : ℕ
  serial : ℕ
  deriving DecidableEq

/-- An entry of a ring: the operation as it stands there, and as it was
put. -/
structure TxEntry where
  op : PifusInternalOperation
  origin : PifusInternalOperation
  deriving DecidableEq

/-- `is_recv_op`. -/
def isRecvOp (e : TxEntry) : Bool := e.op.code = .tcpRecv

/-- `process_tx_op`: the results an operation can have. -/
def Processes (code : PifusOperationCode) (result : PifusResultCode) : Prop :=
  (code = .nop ∨ code = .clientNop → result = .ok)
    ∧ (result = .tryAgain → code = .tcpWrite)

instance (code : PifusOperationCode) (result : PifusResultCode) :
    Decidable (Processes code result) :=
  inferInstanceAs (Decidable (_ ∧ _))

/-- Where the stack stands. `dequeued` is `dequeued_operations`. -/
inductive StackPc
  /-- Outside of `lwip_loop_iteration`. -/
  | outside
  /-- In `pifus_priority_aware_ring_buffer_peek`. -/
  | peeking (prio : TxPrio) (dequeued : ℕ)
  /-- In front of `process_tx_op` in `handle_operation`, `tx_op` pointing to a
  cell of a ring. -/
  | handling (prio : TxPrio) (cell : ℕ) (recvScan : Bool) (dequeued : ℕ)
  /-- In `pifus_priority_aware_ring_buffer_find`. -/
  | finding (prio : TxPrio) (dequeued : ℕ)
  /-- In front of `pifus_priority_aware_ring_buffer_erase_first`. -/
  | erasing (counts : Bool) (dequeued : ℕ)
  /-- In front of `tx_op->operation.code = NOP`. -/
  | patching (prio : TxPrio) (cell : ℕ) (dequeued : ℕ)
  deriving DecidableEq

/-- A call of `process_tx_op` and its result. -/
structure Processed where
  prio : TxPrio
  entry : TxEntry
  result : PifusResultCode
  deriving DecidableEq

/-- A result handed to `enqueue_in_cqueue`. -/
structure Completion where
  socket : ℕ
  code : PifusOperationCode
  result : PifusResultCode
  deriving DecidableEq

/-- The stack, and the history of what was put, processed, erased and
completed. -/
structure StackState where
  queue : TxPrio → RingBuffer TxEntry
  lastPeek : Option TxPrio
  /-- `full_sndbuf_iterations`. -/
  fullSndbufIterations : ℕ
  /-- `dequeued_ops` of each socket, a `uint64_t`. -/
  dequeuedOps : ℕ → UInt64
  pc : StackPc
  log : TxPrio → List PifusInternalOperation
  processed : List Processed
  erased : TxPrio → List TxEntry
  completions : List Completion

/-- What can happen next. -/
inductive StackEvent
  /-- A prio thread puts an operation into a ring. -/
  | put (prio : TxPrio) (code : PifusOperationCode) (socket : ℕ)
  /-- lwIP calls `lwip_loop_iteration`. -/
  | call
  /-- The stack performs its next ring operation. -/
  | tick
  /-- `process_tx_op` returns. -/
  | process (result : PifusResultCode)
  deriving DecidableEq

namespace StackState

/-- The head of the loop in `lwip_loop_iteration`. -/
def loopHead (dequeued : ℕ) : StackPc :=
  if dequeued < maxDequeuesPerIteration then .peeking .high dequeued
  else .outside

/-- `pifus_internal_operation_ring_buffer_put` of a prio thread; a full ring
is left as it is. -/
def put (s : StackState) (prio : TxPrio) (code : PifusOperationCode)
    (socket : ℕ) : StackState :=
  let op : PifusInternalOperation := ⟨code, socket, (s.log prio).length⟩
  match (s.queue prio).put ⟨op, op⟩ with
  | some ring => { s with
      queue := Function.update s.queue prio ring
      log := Function.update s.log prio (s.log prio ++ [op]) }
  | none => s

/-- One `peek` of `pifus_priority_aware_ring_buffer_peek`. -/
def peek (s : StackState) (prio : TxPrio) (dequeued : ℕ) : StackState :=
  match (s.queue prio).peek with
  | some cell => { s with
      lastPeek := some prio, pc := .handling prio cell false dequeued }
  | none => { s with
      pc := prio.next.elim .outside (fun p => .peeking p dequeued) }

/-- One `find` of `pifus_priority_aware_ring_buffer_find`. Where it finds
nothing in any ring, `handle_operation` returns `false` and the iteration
ends. -/
def find (s : StackState) (prio : TxPrio) (dequeued : ℕ) : StackState :=
  match (s.queue prio).find isRecvOp with
  | some cell => { s with pc := .handling prio cell true dequeued }
  | none => { s with
      pc := prio.next.elim .outside (fun p => .finding p dequeued) }

/-- `pifus_priority_aware_ring_buffer_erase_first`, and back to the head of
the loop. -/
def erase (s : StackState) (prio : TxPrio) (counts : Bool) (dequeued : ℕ) :
    StackState :=
  let ring := s.queue prio
  { s with
    queue := Function.update s.queue prio (ring.eraseFirst.getD ring)
    pc := loopHead (if counts then dequeued + 1 else dequeued)
    erased := Function.update s.erased prio
      (s.erased prio ++ [ring.buf ring.tail]) }

/-- `tx_op->operation.code = NOP`, and back to the head of the loop. -/
def patch (s : StackState) (prio : TxPrio) (cell dequeued : ℕ) : StackState :=
  let e := (s.queue prio).buf cell
  { s with
    queue := Function.update s.queue prio
      ((s.queue prio).store cell { e with op := { e.op with code := .nop } })
    pc := loopHead dequeued }

/-- `handle_operation` from `process_tx_op` on, up to its next ring
operation. -/
def handle (s : StackState) (prio : TxPrio) (cell : ℕ) (recvScan : Bool)
    (dequeued : ℕ) (result : PifusResultCode) : StackState :=
  let e := (s.queue prio).buf cell
  let s : StackState := { s with processed := s.processed ++ [⟨prio, e, result⟩] }
  if e.op.code = .nop ∧ recvScan = false then
    { s with pc := .erasing false dequeued }
  else if result = .tryAgain then
    if maxFullSndBufIterations ≤ s.fullSndbufIterations then
      { s with pc := .finding .high dequeued }
    else
      { s with
        fullSndbufIterations := s.fullSndbufIterations + 1, pc := .outside }
  else
    { s with
      -- ASYNC ops are not enqueued into cqueue, only after they have finished
      completions :=
        if result ≠ .async then
          s.completions ++ [⟨e.op.socket, e.op.code, result⟩]
        else s.completions
      dequeuedOps := Function.update s.dequeuedOps e.op.socket
        (s.dequeuedOps e.op.socket + 1)
      fullSndbufIterations := if recvScan then s.fullSndbufIterations else 0
      pc := if recvScan then .patching prio cell dequeued
        else .erasing true dequeued }

end StackState

/-- **A step of the stack or of a prio thread.** -/
def stackStep (s : StackState) : StackEvent → Option StackState
  | .put prio code socket => some (s.put prio code socket)
  | .call =>
    match s.pc with
    | .outside => some { s with pc := StackState.loopHead 0 }
    | _ => none
  | .tick =>
    match s.pc with
    | .peeking prio dequeued => some (s.peek prio dequeued)
    | .finding prio dequeued => some (s.find prio dequeued)
    | .erasing counts dequeued =>
      s.lastPeek.map (fun prio => s.erase prio counts dequeued)
    | .patching prio cell dequeued => some (s.patch prio cell dequeued)
    | _ => none
  | .process result =>
    match s.pc with
    | .handling prio cell recvScan dequeued =>
      if Processes ((s.queue prio).buf cell).op.code result then
        some (s.handle prio cell recvScan dequeued result)
      else none
    | _ => none
