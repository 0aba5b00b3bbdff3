import Pifus.HeapContents
import Pifus.RecvCompletions
import Pifus.RecvCopies
import Pifus.Write

/-!
# The data path of an app

All bytes an app sends and receives lie in its region: a write copies its data
into a block, lwIP sends from there, and the bytes lwIP delivers are copied into
the block of a recv operation. Who may touch a block is settled by nothing but
the way the operations go. This module puts the pieces together: the heap, any
number of sockets with their send and receive paths and completion queues, and
an app that submits, pops and frees. Every part is the one of its own module;
the memory is one for all of them.

The operations of a socket that the stack has not processed yet, in the squeue
or in `tx_queue`, are one list. The stack takes the first of them, or the first
`TCP_RECV` when it scans for those. Sockets are served in any order. Of the
operations that touch no block only the results are there, as they need room in
the completion queue like any other. The app and the stack map the same region,
each at its own address; offsets are what they exchange, and the model has one
mapping.

A socket has one connection, so acknowledged bytes are bytes of its writes; after
`tcp_err_callback` lwIP calls nothing any more, which is a run that ends there
for the socket.

Some of what the state records is history: the blocks that were handed out and
not freed (`live`), the data passed to `pifus_socket_write`, the addresses that
`tcp_write` was given, and what the app has read. No step looks at it.
-/

/-- A `TCP_RECV` or `TCP_WRITE` operation on its way to the stack. -/
inductive DataOperation
  | recv (recvBlockOffset size : ℕ)
  | write (blockOffset : ℕ)
  deriving DecidableEq

namespace DataOperation

/-- The offset of the block that the operation carries. -/
def offset : DataOperation → ℕ
  | recv recvBlockOffset _ => recvBlockOffset
  | write blockOffset => blockOffset

/-- `is_recv_op`. -/
def isRecvOp : DataOperation → Bool
  | recv _ _ => true
  | write _ => false

/-- The block offset of a write. -/
def writeOffset : DataOperation → Option ℕ
  | recv _ _ => none
  | write blockOffset => some blockOffset

end DataOperation

/-- One socket, as far as data is concerned. -/
structure DataSocket where
  /-- The operations that are submitted and not processed. -/
  ops : List DataOperation
  /-- The receive path, with its history. -/
  recv : RecvHistory
  writeQueue : RingBuffer PifusWriteQueueEntry
  /-- The data of a result is the offset of its block, if it has one. -/
  cqueue : RingBuffer (PifusOperationResult ℕ)
  /-- The results that found the cqueue full. -/
  dropped : List (PifusOperationResult ℕ)
  /-- What was passed to `pifus_socket_write`, and not processed yet. -/
  unprocessed : List (List UInt8)
  /-- The data of the writes that lwIP has accepted. -/
  accepted : List (List UInt8)
  /-- The addresses of the bytes that lwIP was given, in order. -/
  referenced : List Ptr
  /-- The number of bytes reported to `tcp_sent_callback`. -/
  acked : ℕ
  /-- The number of `TCP_RECV` results that the app has popped. -/
  popped : ℕ
  /-- The bytes that the app found in their blocks. -/
  read : List UInt8

/-- An app's region, its sockets and the blocks it has been given. -/
structure DataState where
  mem : Memory
  /-- The blocks handed out by `shm_data_allocate` and not passed to
  `shm_data_free` since. -/
  live : List (Ptr × ℕ)
  sockets : List DataSocket
  /-- The blocks of the popped `TCP_RECV` results, and what was in them. -/
  held : List (Ptr × List UInt8)

/-- What can happen next. -/
inductive DataEvent
  /-- The app opens a socket. -/
  | socket
  /-- `pifus_socket_recv`. -/
  | recv (socket size : ℕ)
  /-- `pifus_socket_write`. -/
  | write (socket : ℕ) (data : List UInt8)
  /-- The stack processes the first operation of a socket, or its first
  `TCP_RECV`; `tcp_write` returns this if it is called. -/
  | process (socket : ℕ) (recvScan : Bool) (err : ErrT)
  /-- lwIP calls `tcp_recv_callback` with a chain. -/
  | deliver (socket : ℕ) (p : PbufChain)
  /-- lwIP calls `tcp_sent_callback`. -/
  | sent (socket len : ℕ)
  /-- A result without a block is handed over: of an operation that has none,
  or that the connection is lost. -/
  | result (socket : ℕ) (result : PifusOperationResult ℕ)
  /-- The app pops a result. -/
  | pop (socket : ℕ)
  /-- `pifus_free`, on a block that a result has brought. -/
  | free (block : Ptr)

/-! ## Blocks and their bytes -/

/-- The block at an offset. -/
def AppRegion.blockPtr (app : AppRegion) (blockOffset : ℕ) : Ptr :=
  shmDataGetBlockPtr app.addr blockOffset

/-- The data of the block at an offset. -/
def AppRegion.dataPtr (app : AppRegion) (blockOffset : ℕ) : Ptr :=
  shmDataGetDataPtr (app.blockPtr blockOffset)

/-- The copies that `tcp_recv_callback` makes. -/
def copyEvent (app : AppRegion) (m : Memory) : RecvEvent → Memory
  | .copied recvBlockOffset dataOffset bytes =>
    m.copy (app.dataPtr recvBlockOffset + dataOffset) bytes
  | .recved _ => m
  | .completed _ => m

/-- What `tcp_recv_callback` does with a chain. -/
def recvEvents (socket : RecvSocket) (p : PbufChain) : List RecvEvent :=
  match tcpRecvCallback (some socket) (some p) .ok with
  | some r => r.2.2
  | none => []

/-- The offset of the block that a result brings back. -/
def resultBlock (result : PifusOperationResult ℕ) : Option ℕ :=
  if result.code = .tcpWrite ∨ result.code = .tcpRecv then some result.data
  else none

/-- The record of a block that was freed is taken out. -/
def forget (block : Ptr) (live : List (Ptr × ℕ)) : List (Ptr × ℕ) :=
  live.eraseP (fun b => b.1 = block)

namespace DataSocket

/-- A socket that was just mapped, its memory being zero. -/
def initial : DataSocket where
  ops := []
  recv := .initial (fun _ => ⟨0, 0, 0⟩) (fun _ => 0)
  writeQueue := .create (fun _ => ⟨0, 0⟩) writeQueueSize writeQueueSize_pos
    writeQueueSize_lt
  cqueue := .create (fun _ => ⟨.tcpBind, .ok, 0⟩) cqueueSize cqueueSize_pos
    cqueueSize_lt
  dropped := []
  unprocessed := []
  accepted := []
  referenced := []
  acked := 0
  popped := 0
  read := []

/-- The number of the operation that the stack takes: the first one, or the
first `TCP_RECV`. -/
def next (c : DataSocket) (recvScan : Bool) : ℕ :=
  if recvScan then c.ops.findIdx DataOperation.isRecvOp else 0

/-- `enqueue_in_cqueue`. -/
def enqueueInCqueue (c : DataSocket) (result : PifusOperationResult ℕ) :
    DataSocket :=
  match c.cqueue.put result with
  | some queue => { c with cqueue := queue }
  | none => { c with dropped := c.dropped ++ [result] }

/-- The results of completed operations, each with `PIFUS_OK`. -/
def complete (c : DataSocket) (code : PifusOperationCode)
    (offsets : List ℕ) : DataSocket :=
  offsets.foldl (fun c offset => c.enqueueInCqueue ⟨code, .ok, offset⟩) c

/-- `handle_operation` on the `TCP_RECV` operation number `i`. -/
def processRecv (c : DataSocket) (i recvBlockOffset size : ℕ) :
    Option DataSocket :=
  let result := (txTcpRecv c.recv.path.socket recvBlockOffset size).1
  (recvHistoryStep c.recv (.recv recvBlockOffset size)).map (fun recv =>
    let c := { c with ops := c.ops.eraseIdx i, recv := recv }
    -- ASYNC ops are not enqueued into cqueue, only after they have finished
    if result.resultCode ≠ .async then
      c.enqueueInCqueue ⟨.tcpRecv, result.resultCode, recvBlockOffset⟩
    else c)

/-- `handle_operation` on a `TCP_WRITE` operation at the front, when
`tx_tcp_write` has come to this. -/
def processWrite (app : AppRegion) (c : DataSocket) (blockOffset : ℕ)
    (r : TxTcpWrite) : DataSocket :=
  if r.resultCode = .tryAgain then c
  else
    let c := { c with
      ops := c.ops.tail
      writeQueue := r.writeQueue
      unprocessed := c.unprocessed.tail
      accepted :=
        if r.accepted.isSome then c.accepted ++ c.unprocessed.head?.toList
        else c.accepted
      referenced := c.referenced
        ++ List.range' (app.dataPtr blockOffset) (r.accepted.getD 0) }
    if r.resultCode ≠ .async then
      c.enqueueInCqueue ⟨.tcpWrite, r.resultCode, blockOffset⟩
    else c

/-- `tcp_sent_callback`; lwIP acknowledges bytes that it was given. -/
def sent (c : DataSocket) (len : ℕ) : Option DataSocket :=
  if 0 < len ∧ len < 2 ^ 16 ∧ c.acked + len ≤ c.referenced.length then
    (tcpSentCallback (c.writeQueue.count + 1) c.writeQueue
      (UInt16.ofNat len)).bind (fun r =>
        if r.exited then none
        else some ({ c with
          writeQueue := r.writeQueue
          acked := c.acked + len }.complete .tcpWrite r.completed))
  else none

end DataSocket

namespace DataState

variable (app : AppRegion)

/-- An app that has just started. -/
def initial : DataState := ⟨fun _ => 0, [], [], []⟩

/-- `pifus_socket_recv`: with no room in the heap nothing is submitted. -/
def recv (s : DataState) (k size : ℕ) : Option DataState :=
  if 0 < size ∧ size ≤ shmAppSize then
    s.sockets[k]?.bind (fun c =>
      (shmDataAllocate app.addr s.mem size).map (fun r =>
        match r.1 with
        | none => { s with mem := r.2 }
        | some (offset, block) =>
          { s with
            mem := r.2
            live := (block, size) :: s.live
            sockets := s.sockets.set k
              { c with ops := c.ops ++ [.recv (ofInt64 offset) size] } }))
  else none

/-- `pifus_socket_write`. -/
def write (s : DataState) (k : ℕ) (data : List UInt8) : Option DataState :=
  if 0 < data.length ∧ data.length ≤ shmAppSize then
    s.sockets[k]?.bind (fun c =>
      (shmDataAllocate app.addr s.mem data.length).map (fun r =>
        match r.1 with
        | none => { s with mem := r.2 }
        | some (offset, block) =>
          { s with
            mem := r.2.copy (shmDataGetDataPtr block) data
            live := (block, data.length) :: s.live
            sockets := s.sockets.set k { c with
              ops := c.ops ++ [.write (ofInt64 offset)]
              unprocessed := c.unprocessed ++ [data] } }))
  else none

/-- The stack processes an operation. -/
def process (s : DataState) (k : ℕ) (recvScan : Bool) (err : ErrT) :
    Option DataState :=
  s.sockets[k]?.bind (fun c =>
    match c.ops[c.next recvScan]? with
    | some (.recv recvBlockOffset size) =>
      (c.processRecv (c.next recvScan) recvBlockOffset size).map (fun c' =>
        { s with
          mem := s.mem.copy (app.dataPtr recvBlockOffset)
            (txTcpRecv c.recv.path.socket recvBlockOffset size).2.2
          sockets := s.sockets.set k c' })
    | some (.write blockOffset) =>
      (txTcpWrite c.writeQueue blockOffset
        (PifusMemoryBlock.size s.mem (app.blockPtr blockOffset)) err).map
        (fun r => { s with
          sockets := s.sockets.set k (c.processWrite app blockOffset r) })
    | none => none)

/-- lwIP delivers a chain. -/
def deliver (s : DataState) (k : ℕ) (p : PbufChain) : Option DataState :=
  s.sockets[k]?.bind (fun c =>
    (recvHistoryStep c.recv (.deliver p)).map (fun recv =>
      let events := recvEvents c.recv.path.socket p
      { s with
        mem := events.foldl (copyEvent app) s.mem
        sockets := s.sockets.set k
          ({ c with recv := recv }.complete .tcpRecv
            (completedOffsets events)) }))

/-- `dequeue_operation`: the result of a write frees its block, that of a recv
operation hands its block to the app. -/
def pop (s : DataState) (k : ℕ) : Option DataState :=
  s.sockets[k]?.bind (fun c =>
    c.cqueue.get.map (fun r =>
      let block := app.blockPtr r.1.data
      let c := { c with cqueue := r.2 }
      if r.1.code = .tcpWrite then
        { s with
          mem := shmDataFree app.addr s.mem block
          live := forget block s.live
          sockets := s.sockets.set k c }
      else if r.1.code = .tcpRecv then
        let bytes := s.mem.bytes (shmDataGetDataPtr block)
          (PifusMemoryBlock.size s.mem block)
        { s with
          sockets := s.sockets.set k { c with
            popped := c.popped + 1
            read := if r.1.resultCode = .ok then c.read ++ bytes else c.read }
          held := (block, bytes) :: s.held }
      else { s with sockets := s.sockets.set k c }))

/-- `pifus_free`. -/
def free (s : DataState) (block : Ptr) : Option DataState :=
  if block ∈ s.held.map Prod.fst then
    some { s with
      mem := shmDataFree app.addr s.mem block
      live := forget block s.live
      held := s.held.eraseP (fun b => b.1 = block) }
  else none

end DataState

/-- **A step of the app, of the stack or of lwIP.** -/
def dataStep (app : AppRegion) (s : DataState) : DataEvent → Option DataState
  | .socket => some { s with sockets := s.sockets ++ [.initial] }
  | .recv k size => s.recv app k size
  | .write k data => s.write app k data
  | .process k recvScan err => s.process app k recvScan err
  | .deliver k p => s.deliver app k p
  | .sent k len =>
    s.sockets[k]?.bind (fun c =>
      (c.sent len).map (fun c => { s with sockets := s.sockets.set k c }))
  | .result k result =>
    if resultBlock result = none then
      s.sockets[k]?.map (fun c =>
        { s with sockets := s.sockets.set k (c.enqueueInCqueue result) })
    else none
  | .pop k => s.pop app k
  | .free block => s.free app block

/-- The steps as a relation. -/
def DataStep (app : AppRegion) (s : DataState) (e : DataEvent) (t : DataState) :
    Prop :=
  dataStep app s e = some t

/-- The socket that an event is about. -/
def DataEvent.on : DataEvent → Option ℕ
  | .recv k _ | .write k _ | .process k _ _ | .deliver k _ | .sent k _
  | .result k _ | .pop k => some k
  | .socket | .free _ => none

/-! ## Who has which block -/

namespace DataSocket

/-- **The offsets of the blocks that belong to a socket**: those of its
operations, of the recv and the write queue, and of its results. -/
def offsets (c : DataSocket) : List ℕ :=
  c.ops.map DataOperation.offset
    ++ c.recv.path.socket.recvQueue.contents.map
      PifusRecvQueueEntry.recvBlockOffset
    ++ c.writeQueue.contents.map PifusWriteQueueEntry.writeBlockOffset
    ++ c.cqueue.contents.filterMap resultBlock
    ++ c.dropped.filterMap resultBlock

/-- The blocks that belong to a socket. -/
def owned (app : AppRegion) (c : DataSocket) : List Ptr :=
  c.offsets.map app.blockPtr

/-- **The blocks of a socket that a step of it touches**: that of the operation
that is processed, those of the recv operations that wait when a chain comes,
and that of the write that is popped. -/
def touched (app : AppRegion) (c : DataSocket) : DataEvent → List Ptr
  | .process _ recvScan _ =>
    (c.ops[c.next recvScan]?.map (fun op => app.blockPtr op.offset)).toList
  | .deliver _ _ =>
    (c.recv.path.socket.recvQueue.contents.map
      PifusRecvQueueEntry.recvBlockOffset).map app.blockPtr
  | .pop _ =>
    (c.cqueue.get.bind (fun r =>
      if r.1.code = .tcpWrite then some (app.blockPtr r.1.data)
      else none)).toList
  | _ => []

/-- The bytes that lwIP was given with the writes it has accepted. A length
crosses to a `u16_t` on the way. -/
def sentBytes (c : DataSocket) : List UInt8 :=
  c.accepted.flatMap (fun data => data.take (data.length % 2 ^ 16))

end DataSocket

namespace DataState

/-- The heap of the app. -/
def heap (s : DataState) : HeapState := ⟨s.mem, s.live⟩

theorem heap_mem (s : DataState) : s.heap.mem = s.mem := rfl

/-- **The blocks that belong to someone**: to a socket, or to the app. -/
def owned (app : AppRegion) (s : DataState) : List Ptr :=
  s.sockets.flatMap (DataSocket.owned app) ++ s.held.map Prod.fst

/-- The block that a step frees. -/
def freed (app : AppRegion) (s : DataState) : DataEvent → Option Ptr
  | .pop k =>
    (s.sockets[k]?.bind (fun c => c.cqueue.get)).bind (fun r =>
      if r.1.code = .tcpWrite then some (app.blockPtr r.1.data) else none)
  | .free block => some block
  | _ => none

/-- **The blocks that a step touches**: of its socket, or the one that the app
frees. -/
def touched (app : AppRegion) (s : DataState) : DataEvent → List Ptr
  | .free block => [block]
  | e => ((e.on.bind (fun k => s.sockets[k]?)).map
      (fun c => c.touched app e)).getD []

/-- A block that is freed has its back offset intact. -/
def FreesIntact (app : AppRegion) (s : DataState) (e : DataEvent) : Prop :=
  ∀ block n, s.freed app e = some block →
    BackOffsetIntact app s.heap (.free (block, n))

end DataState

/-! ## What a step does -/

/-- **What a step does to its socket**, and to the heap. -/
inductive SocketStep (app : AppRegion) (h : HeapState) (c : DataSocket) :
    DataEvent → HeapState → DataSocket → Prop
  | recv {k size : ℕ} {z : ℤ} {block : Ptr} {M : Memory}
      (hsize : 0 < size ∧ size ≤ shmAppSize)
      (hcall : shmDataAllocate app.addr h.mem size = some (some (z, block), M)) :
      SocketStep app h c (.recv k size) ⟨M, (block, size) :: h.live⟩
        { c with ops := c.ops ++ [.recv (ofInt64 z) size] }
  | write {k : ℕ} {data : List UInt8} {z : ℤ} {block : Ptr} {M : Memory}
      (hsize : 0 < data.length ∧ data.length ≤ shmAppSize)
      (hcall : shmDataAllocate app.addr h.mem data.length
        = some (some (z, block), M)) :
      SocketStep app h c (.write k data)
        ⟨M.copy (shmDataGetDataPtr block) data, (block, data.length) :: h.live⟩
        { c with
          ops := c.ops ++ [.write (ofInt64 z)]
          unprocessed := c.unprocessed ++ [data] }
  | processRecv {k off size : ℕ} {recvScan : Bool} {err : ErrT}
      {c' : DataSocket}
      (hop : c.ops[c.next recvScan]? = some (.recv off size))
      (hs : c.processRecv (c.next recvScan) off size = some c') :
      SocketStep app h c (.process k recvScan err)
        ⟨h.mem.copy (app.dataPtr off)
          (txTcpRecv c.recv.path.socket off size).2.2, h.live⟩ c'
  | processWrite {k off : ℕ} {recvScan : Bool} {err : ErrT} {r : TxTcpWrite}
      (hop : c.ops[c.next recvScan]? = some (.write off))
      (hs : txTcpWrite c.writeQueue off
        (PifusMemoryBlock.size h.mem (app.blockPtr off)) err = some r) :
      SocketStep app h c (.process k recvScan err) h (c.processWrite app off r)
  | deliver {k : ℕ} {p : PbufChain} {recv : RecvHistory}
      (hs : recvHistoryStep c.recv (.deliver p) = some recv) :
      SocketStep app h c (.deliver k p)
        ⟨(recvEvents c.recv.path.socket p).foldl (copyEvent app) h.mem, h.live⟩
        ({ c with recv := recv }.complete .tcpRecv
          (completedOffsets (recvEvents c.recv.path.socket p)))
  | sent {k len : ℕ} {c' : DataSocket} (hs : c.sent len = some c') :
      SocketStep app h c (.sent k len) h c'
  | result {k : ℕ} {result : PifusOperationResult ℕ}
      (hnone : resultBlock result = none) :
      SocketStep app h c (.result k result) h (c.enqueueInCqueue result)
  | popWrite {k : ℕ} {result : PifusOperationResult ℕ}
      {queue : RingBuffer (PifusOperationResult ℕ)}
      (hget : c.cqueue.get = some (result, queue))
      (hcode : result.code = .tcpWrite) :
      SocketStep app h c (.pop k)
        ⟨shmDataFree app.addr h.mem (app.blockPtr result.data),
          forget (app.blockPtr result.data) h.live⟩ { c with cqueue := queue }
  | popRecv {k : ℕ} {result : PifusOperationResult ℕ}
      {queue : RingBuffer (PifusOperationResult ℕ)}
      (hget : c.cqueue.get = some (result, queue))
      (hcode : result.code = .tcpRecv) :
      SocketStep app h c (.pop k) h
        { c with
          cqueue := queue
          popped := c.popped + 1
          read := if result.resultCode = .ok then c.read
              ++ h.mem.bytes (app.dataPtr result.data)
                (PifusMemoryBlock.size h.mem (app.blockPtr result.data))
            else c.read }
  | popOther {k : ℕ} {result : PifusOperationResult ℕ}
      {queue : RingBuffer (PifusOperationResult ℕ)}
      (hget : c.cqueue.get = some (result, queue))
      (hnone : resultBlock result = none) :
      SocketStep app h c (.pop k) h { c with cqueue := queue }

/-- What a pop does. -/
theorem pop_cases {app : AppRegion} {s t : DataState} {k : ℕ}
    (hs : s.pop app k = some t) :
    ∃ c c', s.sockets[k]? = some c ∧ t.sockets = s.sockets.set k c'
      ∧ SocketStep app s.heap c (.pop k) t.heap c' := by
  unfold DataState.pop at hs
  obtain ⟨c, hc, hs⟩ := Option.bind_eq_some_iff.mp hs
  obtain ⟨⟨result, queue⟩, hget, hs⟩ := Option.map_eq_some_iff.mp hs
  dsimp only at hs
  split at hs
  · rename_i hwrite
    have hheap : t.heap = ⟨shmDataFree app.addr s.heap.mem
        (app.blockPtr result.data),
        forget (app.blockPtr result.data) s.heap.live⟩ := by
      rw [← hs, DataState.heap, DataState.heap]
    refine ⟨c, { c with cqueue := queue }, hc, by rw [← hs], ?_⟩
    rw [hheap]
    exact .popWrite hget hwrite
  split at hs
  · rename_i hrecv
    subst hs
    exact ⟨c, _, hc, rfl, .popRecv hget hrecv⟩
  · rename_i hwrite hrecv
    subst hs
    exact ⟨c, _, hc, rfl, .popOther hget
      (if_neg (fun hcode => hcode.elim hwrite hrecv))⟩

/-- **Every step is that of one socket**, adds a socket, or leaves all sockets
as they are. -/
theorem dataStep_cases {app : AppRegion} {s t : DataState} {e : DataEvent}
    (hs : DataStep app s e t) :
    (∃ k c c', e.on = some k ∧ s.sockets[k]? = some c
      ∧ t.sockets = s.sockets.set k c' ∧ SocketStep app s.heap c e t.heap c')
    ∨ (e = .socket ∧ t = { s with sockets := s.sockets ++ [.initial] })
    ∨ (t.sockets = s.sockets ∧ ∀ c : DataSocket, c.touched app e = []) := by
  rw [DataStep] at hs
  cases e with
  | socket => exact Or.inr (Or.inl ⟨rfl, (Option.some.inj hs).symm⟩)
  | recv k size =>
    change s.recv app k size = some t at hs
    unfold DataState.recv at hs
    split at hs
    · rename_i hsize
      obtain ⟨c, hc, hs⟩ := Option.bind_eq_some_iff.mp hs
      obtain ⟨⟨r, m⟩, hcall, hs⟩ := Option.map_eq_some_iff.mp hs
      cases r with
      | none => exact Or.inr (Or.inr ⟨by rw [← hs], fun _ => rfl⟩)
      | some r =>
        subst hs
        exact Or.inl ⟨k, c, _, rfl, hc, rfl, .recv hsize hcall⟩
    · exact absurd hs (by simp)
  | write k data =>
    change s.write app k data = some t at hs
    unfold DataState.write at hs
    split at hs
    · rename_i hsize
      obtain ⟨c, hc, hs⟩ := Option.bind_eq_some_iff.mp hs
      obtain ⟨⟨r, m⟩, hcall, hs⟩ := Option.map_eq_some_iff.mp hs
      cases r with
      | none => exact Or.inr (Or.inr ⟨by rw [← hs], fun _ => rfl⟩)
      | some r =>
        subst hs
        exact Or.inl ⟨k, c, _, rfl, hc, rfl, .write hsize hcall⟩
    · exact absurd hs (by simp)
  | process k recvScan err =>
    change s.process app k recvScan err = some t at hs
    unfold DataState.process at hs
    obtain ⟨c, hc, hs⟩ := Option.bind_eq_some_iff.mp hs
    split at hs
    · rename_i off size hop
      obtain ⟨c', hc', rfl⟩ := Option.map_eq_some_iff.mp hs
      exact Or.inl ⟨k, c, c', rfl, hc, rfl, .processRecv hop hc'⟩
    · rename_i off hop
      obtain ⟨r, hr, rfl⟩ := Option.map_eq_some_iff.mp hs
      exact Or.inl ⟨k, c, _, rfl, hc, rfl, .processWrite hop hr⟩
    · exact absurd hs (by simp)
  | deliver k p =>
    change s.deliver app k p = some t at hs
    unfold DataState.deliver at hs
    obtain ⟨c, hc, hs⟩ := Option.bind_eq_some_iff.mp hs
    obtain ⟨recv, hrecv, rfl⟩ := Option.map_eq_some_iff.mp hs
    exact Or.inl ⟨k, c, _, rfl, hc, rfl, .deliver hrecv⟩
  | sent k len =>
    obtain ⟨c, hc, hs⟩ := Option.bind_eq_some_iff.mp hs
    obtain ⟨c', hc', rfl⟩ := Option.map_eq_some_iff.mp hs
    exact Or.inl ⟨k, c, c', rfl, hc, rfl, .sent hc'⟩
  | result k result =>
    change (if resultBlock result = none then s.sockets[k]?.map (fun c =>
      { s with sockets := s.sockets.set k (c.enqueueInCqueue result) })
      else none) = some t at hs
    split at hs
    · rename_i hnone
      obtain ⟨c, hc, rfl⟩ := Option.map_eq_some_iff.mp hs
      exact Or.inl ⟨k, c, _, rfl, hc, rfl, .result hnone⟩
    · exact absurd hs (by simp)
  | pop k =>
    obtain ⟨c, c', hc, hset, hstep⟩ := pop_cases hs
    exact Or.inl ⟨k, c, c', rfl, hc, hset, hstep⟩
  | free block =>
    change s.free app block = some t at hs
    unfold DataState.free at hs
    split at hs
    · obtain rfl := Option.some.inj hs
      exact Or.inr (Or.inr ⟨rfl, fun _ => rfl⟩)
    · exact absurd hs (by simp)
