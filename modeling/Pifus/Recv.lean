import Pifus.ByteBuffer
import Pifus.Operation
import Pifus.RingBuffer

/-!
# The receive path

`tcp/recv.c`: `tx_tcp_recv` takes a recv operation of an app, and
`tcp_recv_callback` is handed chains of pbufs by lwIP. Between the two lie the
queue of recv operations that still wait for bytes and the byte buffer of
bytes that nobody has asked for yet.

A pbuf is the list of its bytes, and a chain is a list of those. `tot_len` is
a `uint16_t`, so a chain has less than `2 ^ 16` bytes; this bounds every
`uint16_t` that counts bytes of a chain, and they are natural numbers here.
The one length that does overflow is `len_needed_recv`, which is the low half-word of a
`size_t`.

What the functions do to the outside – copies into the data of a shared
memory block, calls of `tcp_recved`, results put into the completion queue –
is listed as `RecvEvent`s, in the order it happens.
-/

/-- A chain of pbufs as lwIP hands it over. -/
structure PbufChain where
  /-- The bytes of each pbuf, first pbuf first. -/
  pbufs : List (List UInt8)
  /-- `tot_len` is a `uint16_t`. -/
  totLen_lt : pbufs.flatten.length < 2 ^ 16
  deriving DecidableEq

/-- `p->tot_len`. -/
def PbufChain.totLen (p : PbufChain) : ℕ := p.pbufs.flatten.length

/-- `err_t`, as far as the callback tells codes apart. -/
inductive ErrT
  | ok | mem | other (code : ℤ)
  deriving DecidableEq

/-- `struct pifus_recv_queue_entry`. -/
structure PifusRecvQueueEntry where
  size : ℕ
  recvBlockOffset : ℕ
  /-- Used when a recv operation could partly be filled. -/
  dataOffset : ℕ
  deriving DecidableEq

/-- The fields of `struct pifus_socket` that the receive path works on. -/
structure RecvSocket where
  recvQueue : RingBuffer PifusRecvQueueEntry
  unreadDataOffset : ℕ
  recvBuffer : PifusByteBuffer

/-- What the receive path does to the outside. -/
inductive RecvEvent
  /-- `memcpy` into the data of the block, `dataOffset` bytes into it. -/
  | copied (recvBlockOffset dataOffset : ℕ) (bytes : List UInt8)
  /-- `tcp_recved`. -/
  | recved (len : ℕ)
  /-- `enqueue_in_cqueue` of a `TCP_RECV` result with `PIFUS_OK`. -/
  | completed (recvBlockOffset : ℕ)
  deriving DecidableEq

/-- The locals of `tcp_recv_callback` that its loops move along the chain. -/
structure RecvCursor where
  /-- The chain from `next_pbuf` on; empty where `next_pbuf` is `NULL`. -/
  nextPbuf : List (List UInt8)
  offsetInsideNextPbuf : ℕ
  lenDataAvailable : ℕ
  totalDataAckable : ℕ

/-- `pop_from_buffer`: the bytes popped into the block, the entry and the
buffer after it. -/
def popFromBuffer (recvBuffer : PifusByteBuffer)
    (entry : PifusRecvQueueEntry) (lenNeededRecv : ℕ) :
    List UInt8 × PifusRecvQueueEntry × PifusByteBuffer :=
  let popped := recvBuffer.pop lenNeededRecv
  (popped.1,
    if 0 < popped.1.length then
      { entry with
        size := entry.size - popped.1.length
        dataOffset := entry.dataOffset + popped.1.length }
    else entry,
    popped.2)

/-- `pbuf_skip`: the chain from the pbuf the offset lies in, and the offset
inside that pbuf. -/
def pbufSkip : List (List UInt8) → ℕ → List (List UInt8) × ℕ
  | [], offsetLeft => ([], offsetLeft)
  | p :: ps, offsetLeft =>
    if p.length ≤ offsetLeft then pbufSkip ps (offsetLeft - p.length)
    else (p :: ps, offsetLeft)

/-- The copy loop of `tcp_recv_callback`: fill the entry from the pbufs.
When a pbuf is not completely consumed nothing more is needed, and the loop
ends. -/
def fillFromPbufs (ackable : ℕ) : List (List UInt8) → ℕ → ℕ → ℕ →
    PifusRecvQueueEntry → RecvCursor × PifusRecvQueueEntry × List RecvEvent
  | [], offset, lenDataAvailable, _, entry =>
    (⟨[], offset, lenDataAvailable, ackable⟩, entry, [])
  | p :: ps, offset, lenDataAvailable, lenNeededRecv, entry =>
    if 0 < lenNeededRecv then
      let lenNextPbuf := p.length - offset
      if lenNeededRecv < lenNextPbuf then
        (⟨p :: ps, offset + lenNeededRecv, lenDataAvailable - lenNeededRecv,
          ackable + lenNeededRecv⟩,
          { entry with
            size := entry.size - lenNeededRecv
            dataOffset := entry.dataOffset + lenNeededRecv },
          [.copied entry.recvBlockOffset entry.dataOffset
            ((p.drop offset).take lenNeededRecv)])
      else
        let rest := fillFromPbufs (ackable + lenNextPbuf) ps 0
          (lenDataAvailable - lenNextPbuf) (lenNeededRecv - lenNextPbuf)
          { entry with
            size := entry.size - lenNextPbuf
            dataOffset := entry.dataOffset + lenNextPbuf }
        (rest.1, rest.2.1,
          .copied entry.recvBlockOffset entry.dataOffset (p.drop offset)
            :: rest.2.2)
    else
      (⟨p :: ps, offset, lenDataAvailable, ackable⟩, entry, [])

/-- The body of the matching loop of `tcp_recv_callback`, for the entry in
the given cell of the recv queue. -/
def recvTurn (socket : RecvSocket) (cursor : RecvCursor)
    (recvBufferEmpty : Bool) (cell : ℕ) :
    RecvSocket × RecvCursor × Bool × List RecvEvent :=
  let entry := socket.recvQueue.buf cell
  let lenNeededRecv := entry.size % 2 ^ 16
  -- first check if we have something in the buffer
  let popped :=
    if recvBufferEmpty then ([], entry, socket.recvBuffer)
    else popFromBuffer socket.recvBuffer entry lenNeededRecv
  let recvBufferEmpty := decide (popped.1.length = 0)
  let lenNeededRecv := lenNeededRecv - popped.1.length
  let recvOpFulfilled := decide (lenNeededRecv ≤ cursor.lenDataAvailable)
  -- then check what lwIP has for us
  let filled := fillFromPbufs cursor.totalDataAckable cursor.nextPbuf
    cursor.offsetInsideNextPbuf cursor.lenDataAvailable lenNeededRecv popped.2.1
  let queue := socket.recvQueue.store cell filled.2.1
  let copies :=
    (if popped.1.length = 0 then []
      else [.copied entry.recvBlockOffset entry.dataOffset popped.1])
    ++ filled.2.2
  if recvOpFulfilled then
    ({ socket with
      recvQueue := queue.eraseFirst.getD queue
      recvBuffer := popped.2.2 },
      filled.1, recvBufferEmpty, copies ++ [.completed entry.recvBlockOffset])
  else
    ({ socket with recvQueue := queue, recvBuffer := popped.2.2 },
      filled.1, recvBufferEmpty, copies)

/-- The matching loop of `tcp_recv_callback`: recv data from lwIP and the
buffer and match it with the entries of the queue. `none` says that the loop
has not ended. -/
def recvLoop : ℕ → RecvSocket → RecvCursor → Bool →
    Option (RecvSocket × RecvCursor × List RecvEvent)
  | 0, _, _, _ => none
  | fuel + 1, socket, cursor, recvBufferEmpty =>
    match socket.recvQueue.peek with
    | none => some (socket, cursor, [])
    | some cell =>
      if 0 < cursor.lenDataAvailable ∨ recvBufferEmpty = false then
        let turn := recvTurn socket cursor recvBufferEmpty cell
        (recvLoop fuel turn.1 turn.2.1 turn.2.2.1).map (fun r =>
          (r.1, r.2.1, turn.2.2.2 ++ r.2.2))
      else some (socket, cursor, [])

/-- The buffering loop of `tcp_recv_callback`: put what nobody has asked for
into the byte buffer, until it is full. -/
def bufferPbufs : List (List UInt8) → ℕ → ℕ → ℕ → PifusByteBuffer →
    ℕ × ℕ × PifusByteBuffer
  | [], _, lenDataAvailable, ackable, recvBuffer =>
    (lenDataAvailable, ackable, recvBuffer)
  | p :: ps, offset, lenDataAvailable, ackable, recvBuffer =>
    if 0 < lenDataAvailable then
      let added := recvBuffer.add (p.drop offset)
      let lenDataAvailable := lenDataAvailable - added.1
      let ackable := ackable + added.1
      if added.1 < p.length - offset then
        (lenDataAvailable, ackable, added.2)
      else bufferPbufs ps 0 lenDataAvailable ackable added.2
    else (lenDataAvailable, ackable, recvBuffer)

/-- Where `tcp_recv_callback` starts in the chain: behind the bytes that were
read from it when it was refused. -/
def startCursor (socket : RecvSocket) (p : PbufChain) : RecvCursor :=
  if 0 < socket.unreadDataOffset then
    let skipped := pbufSkip p.pbufs socket.unreadDataOffset
    ⟨skipped.1, skipped.2, p.totLen - socket.unreadDataOffset, 0⟩
  else ⟨p.pbufs, 0, p.totLen, 0⟩

/-- `tcp_recv_callback` for a chain that lwIP delivers with `ERR_OK`. The
matching loop serves every entry at most once, and goes on with one that it
could not fill only to find that nothing is left. -/
def recvChain (socket : RecvSocket) (p : PbufChain) :
    Option (ErrT × RecvSocket × List RecvEvent) :=
  (recvLoop (socket.recvQueue.count + 2) socket (startCursor socket p)
    socket.recvBuffer.isEmpty).map (fun r =>
      let cursor := r.2.1
      let buffered := bufferPbufs cursor.nextPbuf cursor.offsetInsideNextPbuf
        cursor.lenDataAvailable cursor.totalDataAckable r.1.recvBuffer
      let events := r.2.2 ++ [.recved buffered.2.1]
      if 0 < buffered.1 then
        (.mem, { r.1 with
          unreadDataOffset := p.totLen - buffered.1
          recvBuffer := buffered.2.2 }, events)
      else
        (.ok, { r.1 with
          unreadDataOffset := 0
          recvBuffer := buffered.2.2 }, events))

/-- `tcp_recv_callback`, `arg` being the socket it was registered with. -/
def tcpRecvCallback (arg : Option RecvSocket) (p : Option PbufChain)
    (err : ErrT) : Option (ErrT × Option RecvSocket × List RecvEvent) :=
  match arg with
  | none => some (.mem, none, [])
  | some socket =>
    if err = .ok then
      match p with
      | none => some (.ok, some socket, [])
      | some p =>
        (recvChain socket p).map (fun r => (r.1, some r.2.1, r.2.2))
    else some (err, some socket, [])

/-- The result of a recv operation: its code and the data the app gets. -/
structure RecvResult where
  resultCode : PifusResultCode
  recvBlockOffset : ℕ
  size : ℕ

/-- `tx_tcp_recv`: the result, the socket, and the bytes copied into the
block from the byte buffer. -/
def txTcpRecv (socket : RecvSocket) (recvBlockOffset size : ℕ) :
    RecvResult × RecvSocket × List UInt8 :=
  let entry : PifusRecvQueueEntry := ⟨size, recvBlockOffset, 0⟩
  let popped :=
    if socket.recvBuffer.isEmpty then ([], entry, socket.recvBuffer)
    else popFromBuffer socket.recvBuffer entry (size % 2 ^ 16)
  if 0 < popped.1.length ∧ size = popped.1.length then
    -- filled completely from the buffer, can directly return
    (⟨.ok, recvBlockOffset, size⟩, { socket with recvBuffer := popped.2.2 },
      popped.1)
  else
    match socket.recvQueue.put popped.2.1 with
    | some queue =>
      (⟨.async, recvBlockOffset, size⟩,
        { socket with recvQueue := queue, recvBuffer := popped.2.2 }, popped.1)
    | none =>
      (⟨.err, recvBlockOffset, size⟩,
        { socket with recvBuffer := popped.2.2 }, popped.1)
