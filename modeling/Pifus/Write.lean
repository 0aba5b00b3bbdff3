import Mathlib.Algebra.Order.BigOperators.Group.List
import Mathlib.Data.List.Forall2
import Pifus.Operation
import Pifus.Recv
import Pifus.RingBuffer
import Pifus.Util.Transition

/-!
# The send path

`tcp/write.c`: `tx_tcp_write` hands the data of a write block to lwIP, by
reference, and `tcp_sent_callback` is told how many of the bytes handed over
were acknowledged. The write queue between the two keeps what is still to be
acknowledged of each write. When nothing is left of a write its result goes to
the app, and the app frees the block when it pops the result.

A length crosses from a `size_t` to a `u16_t` on the way. The write queue is
given the size of the block, and lwIP the low half-word of it.

One socket is followed here. What its app has submitted and the stack has not
processed yet, in the squeue or in `tx_queue`, is one list, as the operations
of a socket are moved and processed in their order. The completion queue takes
every result. Of the app's heap the model keeps what the block headers say and
which blocks are allocated; that `p_alloc` hands out no block twice is shown
in `Pifus.HeapRuns`.
-/

/-- `struct pifus_write_queue_entry`. -/
structure PifusWriteQueueEntry where
  size : ℕ
  writeBlockOffset : ℕ
  deriving DecidableEq

/-! ## The functions of `tcp/write.c` -/

/-- What `tx_tcp_write` comes to. -/
structure TxTcpWrite where
  resultCode : PifusResultCode
  writeQueue : RingBuffer PifusWriteQueueEntry
  /-- The length that lwIP has accepted, if it has. -/
  accepted : Option ℕ

/-- `tx_tcp_write`, for a block of the size, `err` being what lwIP's
`tcp_write` returns. `none` is `exit(1)`. -/
def txTcpWrite (writeQueue : RingBuffer PifusWriteQueueEntry)
    (blockOffset blockSize : ℕ) (err : ErrT) : Option TxTcpWrite :=
  if writeQueue.isFull then some ⟨.err, writeQueue, none⟩
  else
    match err with
    | .ok =>
      (writeQueue.put ⟨blockSize, blockOffset⟩).map (fun queue =>
        -- `tcp_write` takes a `u16_t`
        ⟨.async, queue, some (blockSize % 2 ^ 16)⟩)
    | .mem => some ⟨.tryAgain, writeQueue, none⟩
    | .other _ => some ⟨.err, writeQueue, none⟩

/-- What `tcp_sent_callback` comes to. -/
structure TcpSent where
  writeQueue : RingBuffer PifusWriteQueueEntry
  /-- The block offsets of the results enqueued, in order. -/
  completed : List ℕ
  /-- `exit(1)` was called. -/
  exited : Bool

/-- `tcp_sent_callback`, with its `len`, a `u16_t`. It calls itself once for
every entry it takes off the queue; `none` says that it has not returned. -/
def tcpSentCallback : ℕ → RingBuffer PifusWriteQueueEntry → UInt16 →
    Option TcpSent
  | 0, _, _ => none
  | fuel + 1, writeQueue, len =>
    match writeQueue.peek with
    | none => some ⟨writeQueue, [], true⟩
    | some cell =>
      let entry := writeQueue.buf cell
      if entry.size ≤ len.toNat then
        let queue := writeQueue.eraseFirst.getD writeQueue
        if entry.size < len.toNat then
          -- we need to consider further entries in the queue
          (tcpSentCallback fuel queue
            (UInt16.ofNat (len.toNat - entry.size))).map (fun r =>
              { r with completed := entry.writeBlockOffset :: r.completed })
        else some ⟨queue, [entry.writeBlockOffset], false⟩
      else
        -- update len of first element in queue
        some ⟨writeQueue.store cell
          { entry with size := entry.size - len.toNat }, [], false⟩

theorem toNat_rest (len : UInt16) (size : ℕ) :
    (UInt16.ofNat (len.toNat - size)).toNat = len.toNat - size :=
  UInt16.toNat_ofNat_of_lt' (Nat.lt_of_le_of_lt (Nat.sub_le _ _) len.toNat_lt)

/-! ## The state -/

/-- A write that lwIP has accepted. -/
structure AcceptedWrite where
  /-- The allocated block that the data is in. -/
  block : Option ℕ
  blockOffset : ℕ
  size : ℕ
  /-- The number of bytes handed to lwIP. -/
  len : ℕ
  deriving DecidableEq

/-- The send path of one socket. -/
structure WriteState where
  /-- The block allocated at an offset. Blocks are numbered in the order they
  are allocated. -/
  blockAt : ℕ → Option ℕ
  /-- `size` of the header at an offset. -/
  sizeAt : ℕ → ℕ
  /-- The number of blocks allocated so far. -/
  blocks : ℕ
  /-- The block offsets of the `TCP_WRITE` operations that are submitted and
  not processed yet, oldest first. -/
  pending : List ℕ
  writeQueue : RingBuffer PifusWriteQueueEntry
  /-- The results put into the completion queue, oldest first. -/
  results : List (PifusOperationResult ℕ)
  /-- The number of results the app has popped. -/
  popped : ℕ
  /-- The writes that lwIP has accepted, in order. -/
  accepted : List AcceptedWrite
  /-- The number of bytes reported to `tcp_sent_callback`. -/
  acked : ℕ
  /-- The blocks that `shm_data_free` was called with, in order. -/
  freed : List (Option ℕ)
  /-- `exit(1)` was called. -/
  exited : Bool

/-- What can happen next. -/
inductive WriteEvent
  /-- `pifus_socket_write`, for which `p_alloc` finds this block. -/
  | write (blockOffset size : ℕ)
  /-- The stack processes the oldest operation, and lwIP's `tcp_write` returns
  this. -/
  | process (err : ErrT)
  /-- lwIP calls `tcp_sent_callback`. -/
  | sent (len : ℕ)
  /-- The app pops a result. -/
  | pop
  deriving DecidableEq

namespace WriteState

/-- The bytes that lwIP has accepted with these writes. -/
def handedOver (writes : List AcceptedWrite) : ℕ :=
  (writes.map AcceptedWrite.len).sum

/-- `pifus_socket_write`. -/
def write (s : WriteState) (blockOffset size : ℕ) : Option WriteState :=
  if 0 < size ∧ size ≤ shmAppSize ∧ s.blockAt blockOffset = none then
    some { s with
      blockAt := Function.update s.blockAt blockOffset (some s.blocks)
      sizeAt := Function.update s.sizeAt blockOffset size
      blocks := s.blocks + 1
      pending := s.pending ++ [blockOffset] }
  else none

/-- `handle_operation`, when `tx_tcp_write` has come to this. -/
def handleOperation (s : WriteState) (blockOffset : ℕ) (rest : List ℕ)
    (r : TxTcpWrite) : WriteState :=
  let s := { s with
    writeQueue := r.writeQueue
    accepted := s.accepted ++ (r.accepted.map (fun len =>
      ⟨s.blockAt blockOffset, blockOffset, s.sizeAt blockOffset, len⟩)).toList }
  if r.resultCode = .tryAgain then s
  else { s with
    pending := rest
    -- ASYNC ops are not enqueued into cqueue, only after they have finished
    results :=
      if r.resultCode ≠ .async then
        s.results ++ [⟨.tcpWrite, r.resultCode, blockOffset⟩]
      else s.results }

/-- The stack processes the oldest operation. -/
def process (s : WriteState) (err : ErrT) : Option WriteState :=
  match s.pending with
  | blockOffset :: rest =>
    match txTcpWrite s.writeQueue blockOffset (s.sizeAt blockOffset) err with
    | some r => some (s.handleOperation blockOffset rest r)
    | none => some { s with exited := true }
  | [] => none

/-- lwIP reports acknowledged bytes, of those it has accepted. -/
def sent (s : WriteState) (len : ℕ) : Option WriteState :=
  if 0 < len ∧ len < 2 ^ 16 ∧ s.acked + len ≤ handedOver s.accepted then
    (tcpSentCallback (s.writeQueue.count + 1) s.writeQueue
      (UInt16.ofNat len)).map (fun r =>
        { s with
          writeQueue := r.writeQueue
          results := s.results
            ++ r.completed.map (fun offset => ⟨.tcpWrite, .ok, offset⟩)
          acked := s.acked + len
          exited := r.exited })
  else none

/-- `dequeue_operation`: the result of a write frees its block. -/
def pop (s : WriteState) : Option WriteState :=
  s.results[s.popped]?.map (fun result =>
    if result.code = .tcpWrite then
      { s with
        popped := s.popped + 1
        freed := s.freed ++ [s.blockAt result.data]
        blockAt := Function.update s.blockAt result.data none }
    else { s with popped := s.popped + 1 })

end WriteState

/-- **A step of the app, of the stack or of lwIP.** -/
def writeStep (s : WriteState) (e : WriteEvent) : Option WriteState :=
  if s.exited then none
  else
    match e with
    | .write blockOffset size => s.write blockOffset size
    | .process err => s.process err
    | .sent len => s.sent len
    | .pop => s.pop

/-- The steps as a relation. -/
def WriteStep (s : WriteState) (e : WriteEvent) (t : WriteState) : Prop :=
  writeStep s e = some t

namespace WriteState

/-- A socket that nothing was written to. -/
def initial (queue : ℕ → PifusWriteQueueEntry) (sizeAt : ℕ → ℕ) :
    WriteState where
  blockAt := fun _ => none
  sizeAt := sizeAt
  blocks := 0
  pending := []
  writeQueue := .create queue writeQueueSize (by decide) (by decide)
  results := []
  popped := 0
  accepted := []
  acked := 0
  freed := []
  exited := false

/-- The sum of the sizes in the write queue. -/
def queuedBytes (s : WriteState) : ℕ :=
  (s.writeQueue.contents.map PifusWriteQueueEntry.size).sum

/-- **The books agree**: the write queue counts the bytes that lwIP has
accepted and not reported yet, and lwIP was handed every byte of the blocks it
has accepted. -/
def Exact (s : WriteState) : Prop :=
  s.queuedBytes + s.acked = handedOver s.accepted
    ∧ ∀ a ∈ s.accepted, a.len = a.size

/-- The block offsets of the writes completed with `PIFUS_OK`, in order. -/
def completions (s : WriteState) : List ℕ :=
  (s.results.filter (fun r => r.resultCode = .ok)).map (fun r => r.data)

/-- The block offsets of the results that the app has not popped. -/
def unpopped (s : WriteState) : List ℕ :=
  (s.results.drop s.popped).map (fun r => r.data)

/-- **The books of both sides at once**: the number of bytes accepted is at
most the sum of the block sizes, and is equal to it exactly when no block has
a size that a `u16_t` does not hold. -/
theorem handedOver_eq_iff {writes : List AcceptedWrite}
    (h : ∀ a ∈ writes, a.len = a.size % 2 ^ 16) :
    handedOver writes ≤ (writes.map AcceptedWrite.size).sum
    ∧ ((∀ a ∈ writes, a.len = a.size) ↔ ∀ a ∈ writes, a.size < 2 ^ 16)
    ∧ ((∀ a ∈ writes, a.len = a.size) →
      handedOver writes = (writes.map AcceptedWrite.size).sum) := by
  refine ⟨List.sum_le_sum (fun a ha => ?_), forall₂_congr (fun a ha => ?_),
    fun heq => congrArg List.sum (List.map_congr_left heq)⟩
  · rw [h a ha]
    exact Nat.mod_le _ _
  · rw [h a ha]
    exact ⟨fun heq => heq ▸ Nat.mod_lt _ (by decide), Nat.mod_eq_of_lt⟩

end WriteState
