import Mathlib.Data.List.Flatten
import Pifus.Recv
import Pifus.Util.Transition

/-!
# The receive path loses no byte

Recv operations of the app and deliveries of lwIP, in any order. The history
of a run lists every recv operation with the bytes written into its block so
far; it follows from the events of `tcp/recv.c` alone. What is to be shown is
that written bytes, buffered bytes and the unread rest of a refused chain are
together the stream that lwIP delivered, in this order.

Two facts about the pending operations carry it (`RecvInv`). A pending
operation that still needs bytes means that the byte buffer is empty, so the
loop of the callback never has to pop; and it means that no later operation
has got any, so what it gets next is behind everything written before. The
two meet where a requested size has a low half-word of zero: such an
operation stays in the queue next to a full buffer, and it needs nothing.
-/

/-- A recv operation of the app, and what has become of it. -/
structure RecvOp where
  recvBlockOffset : ℕ
  size : ℕ
  /-- The bytes written into its block so far, from the start of the data. -/
  bytes : List UInt8
  /-- Whether it waits in the recv queue. -/
  pending : Bool

namespace RecvOp

/-- The queue entry of a pending operation. -/
def entry (op : RecvOp) : PifusRecvQueueEntry :=
  ⟨op.size - op.bytes.length, op.recvBlockOffset, op.bytes.length⟩

/-- The bytes that the callback takes the operation to need. -/
def needed (op : RecvOp) : ℕ := (op.size - op.bytes.length) % 2 ^ 16

end RecvOp

/-- A copy into a block is a copy for the pending operation that has this
block and has got the bytes in front. -/
def credit (recvBlockOffset dataOffset : ℕ) (bytes : List UInt8) :
    List RecvOp → List RecvOp
  | [] => []
  | op :: ops =>
    if op.pending ∧ op.recvBlockOffset = recvBlockOffset
        ∧ op.bytes.length = dataOffset then
      { op with bytes := op.bytes ++ bytes } :: ops
    else op :: credit recvBlockOffset dataOffset bytes ops

/-- A result ends the oldest pending operation that has the block. -/
def finish (recvBlockOffset : ℕ) : List RecvOp → List RecvOp
  | [] => []
  | op :: ops =>
    if op.pending ∧ op.recvBlockOffset = recvBlockOffset then
      { op with pending := false } :: ops
    else op :: finish recvBlockOffset ops

/-- The history after an event of the callback. -/
def applyEvent (ops : List RecvOp) : RecvEvent → List RecvOp
  | .copied recvBlockOffset dataOffset bytes =>
    credit recvBlockOffset dataOffset bytes ops
  | .recved _ => ops
  | .completed recvBlockOffset => finish recvBlockOffset ops

/-- The numbers of the operations that the events end, in order. -/
def completedBy : List RecvOp → List RecvEvent → List ℕ
  | _, [] => []
  | ops, .completed off :: events =>
    ops.findIdx (fun op => op.pending && op.recvBlockOffset = off)
      :: completedBy (finish off ops) events
  | ops, .copied off dataOffset bytes :: events =>
    completedBy (credit off dataOffset bytes ops) events
  | ops, .recved _ :: events => completedBy ops events

/-- What was passed to `tcp_recved`. -/
def recvedBy : List RecvEvent → ℕ
  | [] => 0
  | .recved len :: events => len + recvedBy events
  | _ :: events => recvedBy events

/-- A socket, the chain that lwIP keeps because it was refused, and the
history: the bytes delivered, the recv operations in the order they were
submitted, and the sum of the lengths passed to `tcp_recved`. -/
structure RecvState where
  socket : RecvSocket
  refused : Option PbufChain
  stream : List UInt8
  ops : List RecvOp
  recved : ℕ

/-- What happens to the receive path: a recv operation is processed, or lwIP
delivers a chain. -/
inductive RecvInput
  | recv (recvBlockOffset size : ℕ)
  | deliver (p : PbufChain)

/-- **A step of the receive path.** lwIP delivers a refused chain again, and
the next bytes of the stream only when there is none. -/
def recvStep (s : RecvState) : RecvInput → Option RecvState
  | .recv recvBlockOffset size =>
    let r := txTcpRecv s.socket recvBlockOffset size
    some { s with
      socket := r.2.1
      ops := s.ops ++ [⟨recvBlockOffset, size, r.2.2,
        decide (r.1.resultCode = .async)⟩] }
  | .deliver p =>
    if s.refused = none ∨ s.refused = some p then
      (tcpRecvCallback (some s.socket) (some p) .ok).bind (fun r =>
        r.2.1.map (fun socket =>
          { socket := socket
            refused := if r.1 = .mem then some p else none
            stream :=
              if s.refused = none then s.stream ++ p.pbufs.flatten
              else s.stream
            ops := r.2.2.foldl applyEvent s.ops
            recved := s.recved + recvedBy r.2.2 }))
    else none

/-- The steps as a relation. -/
def RecvStep (s : RecvState) (i : RecvInput) (t : RecvState) : Prop :=
  recvStep s i = some t

namespace RecvState

/-- A socket as `map_new_sockets` sets it up: queue and buffer are empty,
whatever is in their arrays. -/
def initial (queue : ℕ → PifusRecvQueueEntry) (buffer : Memory) : RecvState where
  socket :=
    ⟨.create queue recvQueueSize (by decide) (by decide), 0,
      ⟨0, recvBufferSize, 0, buffer, by decide, by decide, by decide⟩⟩
  refused := none
  stream := []
  ops := []
  recved := 0

/-- The bytes written into recv blocks, in the order the operations were
submitted. -/
def written (s : RecvState) : List UInt8 := s.ops.flatMap RecvOp.bytes

/-- The bytes of the refused chain from `unread_data_offset` on. -/
def refusedRest (s : RecvState) : List UInt8 :=
  match s.refused with
  | none => []
  | some p => p.pbufs.flatten.drop s.socket.unreadDataOffset

end RecvState

/-! ## The history of pending operations -/

/-- **The invariant of the receive path**, `rest` being the bytes of the
current chain that have not been taken yet. -/
structure RecvInv (ops : List RecvOp)
    (queue : RingBuffer PifusRecvQueueEntry) (buffer : PifusByteBuffer)
    (rest stream : List UInt8) : Prop where
  queue : queue.contents = (ops.filter RecvOp.pending).map RecvOp.entry
  satisfied : buffer.contents ≠ [] →
    ∀ op ∈ ops, op.pending = true → op.needed = 0
  ordered : ops.Pairwise (fun a b =>
    a.pending = true → a.needed ≠ 0 → b.bytes = [])
  lossless : ops.flatMap RecvOp.bytes ++ buffer.contents ++ rest = stream

variable {ops done later : List RecvOp} {op : RecvOp} {off dataOffset : ℕ}
  {bytes : List UInt8}

/-- A copy at the end of what the oldest pending operation has got is a copy
for it. -/
theorem credit_eq (hdone : ∀ o ∈ done, o.pending = false)
    (hop : op.pending = true) (hoff : op.recvBlockOffset = off)
    (hlen : op.bytes.length = dataOffset) :
    credit off dataOffset bytes (done ++ op :: later)
      = done ++ { op with bytes := op.bytes ++ bytes } :: later := by
  induction done with
  | nil => rw [List.nil_append, credit, if_pos ⟨hop, hoff, hlen⟩]; rfl
  | cons o done ih =>
    have ho := hdone o List.mem_cons_self
    rw [List.cons_append, credit, if_neg (by simp [ho]),
      ih (fun o' h => hdone o' (List.mem_cons_of_mem _ h))]
    rfl

theorem finish_eq (hdone : ∀ o ∈ done, o.pending = false)
    (hop : op.pending = true) :
    finish op.recvBlockOffset (done ++ op :: later)
      = done ++ { op with pending := false } :: later := by
  induction done with
  | nil => rw [List.nil_append, finish, if_pos ⟨hop, rfl⟩]; rfl
  | cons o done ih =>
    have ho := hdone o List.mem_cons_self
    rw [List.cons_append, finish, if_neg (by simp [ho]),
      ih (fun o' h => hdone o' (List.mem_cons_of_mem _ h))]
    rfl

/-- The oldest pending operation. -/
theorem exists_first_pending {e : PifusRecvQueueEntry}
    (h : ((ops.filter RecvOp.pending).map RecvOp.entry).head? = some e) :
    ∃ done op later, ops = done ++ op :: later
      ∧ (∀ o ∈ done, o.pending = false) ∧ op.pending = true
      ∧ op.entry = e := by
  induction ops with
  | nil => simp at h
  | cons o ops ih =>
    by_cases ho : o.pending = true
    · rw [List.filter_cons_of_pos ho, List.map_cons, List.head?_cons] at h
      exact ⟨[], o, ops, rfl, by simp, ho, Option.some.inj h⟩
    · rw [List.filter_cons_of_neg ho] at h
      obtain ⟨done, op, later, rfl, hdone, hop, he⟩ := ih h
      refine ⟨o :: done, op, later, rfl, ?_, hop, he⟩
      intro o' ho'
      rcases List.mem_cons.mp ho' with rfl | ho'
      · simpa using ho
      · exact hdone o' ho'

theorem filter_pending_eq (hdone : ∀ o ∈ done, o.pending = false) :
    (done ++ later).filter RecvOp.pending = later.filter RecvOp.pending := by
  rw [List.filter_append, List.filter_eq_nil_iff.mpr, List.nil_append]
  intro o ho
  simp [hdone o ho]

theorem recvedBy_append (l r : List RecvEvent) :
    recvedBy (l ++ r) = recvedBy l + recvedBy r := by
  induction l with
  | nil => rw [List.nil_append, recvedBy, Nat.zero_add]
  | cons e l ih =>
    cases e with
    | copied off dataOffset bytes => exact ih
    | completed off => exact ih
    | recved len =>
      show len + recvedBy (l ++ r) = len + recvedBy l + recvedBy r
      rw [ih, Nat.add_assoc]

theorem completedBy_append (ops : List RecvOp) (l r : List RecvEvent) :
    completedBy ops (l ++ r)
      = completedBy ops l ++ completedBy (l.foldl applyEvent ops) r := by
  induction l generalizing ops with
  | nil => rfl
  | cons e l ih =>
    cases e with
    | copied off dataOffset bytes => exact ih _
    | completed off => exact congrArg (_ :: ·) (ih _)
    | recved len => exact ih _

theorem completedBy_copies {ops : List RecvOp} {events : List RecvEvent}
    (h : ∀ e ∈ events, ∃ off dataOffset bytes,
      e = .copied off dataOffset bytes) : completedBy ops events = [] := by
  induction events generalizing ops with
  | nil => rfl
  | cons e events ih =>
    obtain ⟨off, dataOffset, bytes, rfl⟩ := h e List.mem_cons_self
    exact ih (fun e' he' => h e' (List.mem_cons_of_mem _ he'))

theorem findIdx_eq (hdone : ∀ o ∈ done, o.pending = false)
    (hop : op.pending = true) (hoff : op.recvBlockOffset = off) :
    (done ++ op :: later).findIdx
      (fun o => o.pending && o.recvBlockOffset = off) = done.length := by
  rw [List.findIdx_append, List.findIdx_eq_length_of_false
    (fun o ho => by simp [hdone o ho]), if_neg (Nat.lt_irrefl _),
    List.findIdx_cons, hop, hoff]
  simp

/-- The event that ends the oldest pending operation, as a step of the
history and as its number. -/
theorem completed_first (hdone : ∀ o ∈ done, o.pending = false)
    (hop : op.pending = true) (hoff : op.recvBlockOffset = off) :
    applyEvent (done ++ op :: later) (.completed off)
        = done ++ { op with pending := false } :: later
      ∧ completedBy (done ++ op :: later) [.completed off] = [done.length] := by
  subst hoff
  refine ⟨finish_eq hdone hop, ?_⟩
  rw [completedBy, findIdx_eq hdone hop rfl]
  rfl

/-- **What one turn does to the operations**: the oldest pending one gets as
many bytes as it needs and are there, and ends if that is all it needs. -/
def ServeStep (a : List RecvOp × List ℕ) (available : List UInt8)
    (b : List RecvOp × List ℕ) : Prop :=
  ∃ done op later, a.1 = done ++ op :: later
    ∧ (∀ o ∈ done, o.pending = false) ∧ op.pending = true
    ∧ b = (done ++ { op with
          bytes := op.bytes ++ available.take op.needed
          pending := decide (available.length < op.needed) } :: later,
        a.2 ++ if op.needed ≤ available.length then [done.length] else [])

/-! ## The copy loop -/

/-- The bytes of the chain from the cursor on. -/
def RecvCursor.rest (c : RecvCursor) : List UInt8 :=
  c.nextPbuf.flatten.drop c.offsetInsideNextPbuf

/-- **The cursor is in the chain**: the offset is inside the next pbuf, and
`len_data_available` counts the bytes from there on. -/
structure RecvCursor.Valid (c : RecvCursor) : Prop where
  offset : ∀ p ∈ c.nextPbuf.head?, c.offsetInsideNextPbuf ≤ p.length
  len : c.lenDataAvailable = c.rest.length

/-- `pbuf_skip` does not change which bytes come next. -/
theorem pbufSkip_spec (ps : List (List UInt8)) (n : ℕ) :
    (pbufSkip ps n).1.flatten.drop (pbufSkip ps n).2 = ps.flatten.drop n
      ∧ ∀ p ∈ (pbufSkip ps n).1.head?, (pbufSkip ps n).2 ≤ p.length := by
  induction ps generalizing n with
  | nil => exact ⟨rfl, by simp [pbufSkip]⟩
  | cons p ps ih =>
    rw [pbufSkip]
    by_cases h : p.length ≤ n
    · rw [if_pos h]
      refine ⟨?_, (ih _).2⟩
      rw [(ih _).1, List.flatten_cons, List.drop_append,
        List.drop_eq_nil_of_le h, List.nil_append]
    · rw [if_neg h]
      refine ⟨rfl, fun q hq => ?_⟩
      obtain rfl := Option.some.inj hq
      show n ≤ p.length
      omega

/-- **The copy loop** takes as many bytes as are needed and there. -/
theorem fillFromPbufs_spec {ps : List (List UInt8)} {offset len needed a : ℕ}
    {e : PifusRecvQueueEntry} (hoff : ∀ p ∈ ps.head?, offset ≤ p.length)
    (hlen : len = (ps.flatten.drop offset).length)
    (hdone : ∀ o ∈ done, o.pending = false) (hop : op.pending = true)
    (hblock : op.recvBlockOffset = e.recvBlockOffset)
    (hdata : op.bytes.length = e.dataOffset) :
    ∃ c events, fillFromPbufs a ps offset len needed e
        = (c, ⟨e.size - min needed len, e.recvBlockOffset,
            e.dataOffset + min needed len⟩, events)
      ∧ c.Valid ∧ c.rest = (ps.flatten.drop offset).drop needed
      ∧ c.totalDataAckable = a + min needed len
      ∧ events.foldl applyEvent (done ++ op :: later)
          = done ++ { op with
              bytes := op.bytes ++ (ps.flatten.drop offset).take needed }
            :: later
      ∧ recvedBy events = 0
      ∧ ∀ e' ∈ events, ∃ off dataOffset bytes,
        e' = RecvEvent.copied off dataOffset bytes := by
  induction ps generalizing offset len needed a e op with
  | nil =>
    simp only [List.flatten_nil, List.drop_nil, List.length_nil] at hlen
    subst hlen
    refine ⟨⟨[], offset, 0, a⟩, [], ?_, ⟨by simp, ?_⟩, ?_, ?_, ?_, rfl,
      by simp⟩
    · rw [fillFromPbufs, Nat.min_zero, Nat.sub_zero, Nat.add_zero]
    · simp [RecvCursor.rest]
    · simp [RecvCursor.rest]
    · rw [Nat.min_zero, Nat.add_zero]
    · simp
  | cons p ps ih =>
    have hp : offset ≤ p.length := hoff p rfl
    have hsplit : (p :: ps).flatten.drop offset = p.drop offset ++ ps.flatten := by
      rw [List.flatten_cons, List.drop_append_of_le_length hp]
    have hlen' : len = p.length - offset + ps.flatten.length := by
      rw [hlen, hsplit, List.length_append, List.length_drop]
    rw [fillFromPbufs]
    by_cases hneed : 0 < needed
    · rw [if_pos hneed]
      by_cases hpart : needed < p.length - offset
      · -- the pbuf is not completely consumed
        rw [if_pos hpart, Nat.min_eq_left (by omega)]
        refine ⟨_, _, rfl, ⟨?_, ?_⟩, ?_, rfl, ?_, rfl, by simp⟩
        · intro q hq
          obtain rfl := Option.some.inj hq
          show offset + needed ≤ p.length
          omega
        · simp only [RecvCursor.rest, List.flatten_cons, List.length_drop,
            List.length_append]
          omega
        · simp only [RecvCursor.rest, List.drop_drop]
        · rw [List.foldl_cons, List.foldl_nil, applyEvent,
            credit_eq hdone hop hblock hdata, hsplit,
            List.take_append_of_le_length (by simp; omega)]
      · rw [if_neg hpart]
        obtain ⟨c, events, heq, hvalid, hrest, hack, hev, hrec, hcopies⟩ :=
          @ih { op with bytes := op.bytes ++ p.drop offset } 0
            (len - (p.length - offset)) (needed - (p.length - offset))
            (a + (p.length - offset))
            { e with
              size := e.size - (p.length - offset)
              dataOffset := e.dataOffset + (p.length - offset) }
            (fun q _ => Nat.zero_le _) (by rw [List.drop_zero]; omega) hop
            hblock (by simp [hdata])
        have hmin : p.length - offset
            + min (needed - (p.length - offset)) (len - (p.length - offset))
            = min needed len := by omega
        refine ⟨c, .copied e.recvBlockOffset e.dataOffset (p.drop offset)
          :: events, ?_, hvalid, ?_, ?_, ?_, hrec, ?_⟩
        · simp only [heq, Nat.sub_sub, Nat.add_assoc, hmin]
        · have hnil : (p.drop offset).drop needed = [] :=
            List.drop_eq_nil_of_le (by rw [List.length_drop]; omega)
          rw [hrest, hsplit, List.drop_zero, List.drop_append, hnil,
            List.nil_append, List.length_drop]
        · rw [hack, Nat.add_assoc, hmin]
        · have hall : (p.drop offset).take needed = p.drop offset :=
            List.take_of_length_le (by rw [List.length_drop]; omega)
          rw [List.foldl_cons, applyEvent, credit_eq hdone hop hblock hdata,
            hev, hsplit, List.drop_zero, List.take_append, hall,
            List.length_drop, List.append_assoc]
        · exact List.forall_mem_cons.mpr ⟨⟨_, _, _, rfl⟩, hcopies⟩
    · have hz : needed = 0 := by omega
      subst hz
      rw [if_neg hneed]
      refine ⟨⟨p :: ps, offset, len, a⟩, [], by simp, ⟨?_, hlen⟩, ?_, ?_, ?_,
        rfl, by simp⟩
      · intro q hq
        obtain rfl := Option.some.inj hq
        exact hp
      · rw [List.drop_zero]
        rfl
      · simp
      · simp

/-! ## The matching loop -/

variable {queue queue' : RingBuffer PifusRecvQueueEntry}
  {buffer buffer' : PifusByteBuffer} {rest stream : List UInt8} {x : RecvOp}

/-- **Serving the oldest pending operation** with the next bytes of the chain,
as many as it needs, keeps the invariant; it may stay pending only if it needs
more than there are. -/
theorem RecvInv.serve (h : RecvInv (done ++ op :: later) queue buffer rest stream)
    (hdone : ∀ o ∈ done, o.pending = false) (hop : op.pending = true)
    (hbytes : x.bytes = op.bytes ++ rest.take op.needed)
    (hpending : x.pending = true → rest.length < op.needed)
    (hqueue : queue'.contents
      = ((x :: later).filter RecvOp.pending).map RecvOp.entry)
    (hbuffer : buffer'.contents = buffer.contents) :
    RecvInv (done ++ x :: later) queue' buffer' (rest.drop op.needed) stream := by
  have hmem : op ∈ done ++ op :: later := by simp
  obtain ⟨hpdone, hptail, hpcross⟩ := List.pairwise_append.mp h.ordered
  obtain ⟨hpop, hplater⟩ := List.pairwise_cons.mp hptail
  refine ⟨?_, fun hne o ho hopend => ?_, ?_, ?_⟩
  · rw [filter_pending_eq hdone, hqueue]
  · rw [hbuffer] at hne
    rcases List.mem_append.mp ho with ho | ho
    · exact absurd hopend (by simp [hdone o ho])
    · rcases List.mem_cons.mp ho with rfl | ho
      · have hz := h.satisfied hne op hmem hop
        have := hpending hopend
        omega
      · exact h.satisfied hne o (by simp [ho]) hopend
  · refine List.pairwise_append.mpr ⟨hpdone, List.pairwise_cons.mpr
      ⟨fun b hb hx _ => ?_, hplater⟩, fun a ha b _ hpend => ?_⟩
    · have hlt := hpending hx
      exact hpop b hb hop (by omega)
    · exact absurd hpend (by simp [hdone a ha])
  · have hlossless := h.lossless
    rw [List.flatMap_append, List.flatMap_cons] at hlossless ⊢
    rw [hbuffer, hbytes]
    by_cases hz : op.needed = 0
    · rw [hz, List.take_zero, List.drop_zero, List.append_nil]
      exact hlossless
    · -- whoever needs bytes has the next place in the stream
      have hbuf : buffer.contents = [] := by
        by_contra hne
        exact hz (h.satisfied hne op hmem hop)
      have hlater : later.flatMap RecvOp.bytes = [] :=
        List.flatMap_eq_nil_iff.mpr (fun b hb => hpop b hb hop hz)
      rw [hbuf, hlater, List.append_nil, List.append_nil] at hlossless ⊢
      rw [← hlossless, List.append_assoc, List.append_assoc, List.append_assoc,
        List.take_append_drop]

/-- The callback pops nothing: where bytes are needed, the buffer is empty. -/
theorem popped_eq (flag : Bool) {e : PifusRecvQueueEntry} {n : ℕ}
    (hsat : buffer.contents ≠ [] → n = 0) :
    ∃ buffer', (if flag then (([] : List UInt8), e, buffer)
        else popFromBuffer buffer e n) = ([], e, buffer')
      ∧ buffer'.contents = buffer.contents := by
  cases flag with
  | true => exact ⟨buffer, rfl, rfl⟩
  | false =>
    obtain ⟨buffer', hpop, hcontents, -⟩ := buffer.pop_spec n
    have hnil : buffer.contents.take n = [] := by
      by_cases hne : buffer.contents = []
      · rw [hne, List.take_nil]
      · rw [hsat hne, List.take_zero]
    refine ⟨buffer', ?_, ?_⟩
    · rw [if_neg (by simp), popFromBuffer, hpop, hnil]
      rfl
    · rw [hcontents]
      by_cases hne : buffer.contents = []
      · rw [hne, List.drop_nil]
      · rw [hsat hne, List.drop_zero]

theorem RecvOp.entry_served (op : RecvOp) (rest : List UInt8) :
    (⟨op.entry.size - min op.needed rest.length, op.entry.recvBlockOffset,
        op.entry.dataOffset + min op.needed rest.length⟩ : PifusRecvQueueEntry)
      = ({ op with bytes := op.bytes ++ rest.take op.needed } : RecvOp).entry
      := by
  simp only [RecvOp.entry, List.length_append, List.length_take, Nat.sub_sub]

/-- **One turn of the matching loop** keeps the invariant. It serves the
oldest entry; an entry that stays has taken all that was there. -/
theorem RecvInv.turn {s : RecvSocket} {c : RecvCursor} {cell : ℕ}
    (h : RecvInv ops s.recvQueue s.recvBuffer c.rest stream) (flag : Bool) (hc : c.Valid)
    (hcell : s.recvQueue.peek = some cell) :
    ∃ s' c' flag' events, recvTurn s c flag cell = (s', c', flag', events)
      ∧ RecvInv (events.foldl applyEvent ops) s'.recvQueue s'.recvBuffer c'.rest
          stream
      ∧ c'.Valid ∧ c'.rest <:+ c.rest
      ∧ c'.totalDataAckable + c'.rest.length
          = c.totalDataAckable + c.rest.length
      ∧ recvedBy events = 0
      ∧ (s'.recvQueue.count + 1 = s.recvQueue.count
        ∨ s'.recvQueue.count = s.recvQueue.count ∧ c'.lenDataAvailable = 0
          ∧ flag' = true)
      ∧ ∀ cs, ServeStep (ops, cs) c.rest
        (events.foldl applyEvent ops, cs ++ completedBy ops events) := by
  obtain ⟨hcell₀, hhead⟩ := RingBuffer.peek_eq_some hcell
  rw [h.queue] at hhead
  obtain ⟨done, op, later, rfl, hdone, hop, hentry⟩ :=
    exists_first_pending hhead
  have hcontents : s.recvQueue.contents
      = op.entry :: (later.filter RecvOp.pending).map RecvOp.entry := by
    rw [h.queue, filter_pending_eq hdone, List.filter_cons_of_pos hop]
    rfl
  obtain ⟨buffer', hpop, hbuffer⟩ := popped_eq flag
    (e := op.entry) (n := op.needed)
    (fun hne => h.satisfied hne op (by simp) hop)
  obtain ⟨c', events, hfill, hvalid, hrest, hack, hev, hrecved, hcopies⟩ :=
    fillFromPbufs_spec
      (a := c.totalDataAckable) (e := op.entry) hc.offset
      hc.len hdone hop rfl rfl
  have hrest : c'.rest = c.rest.drop op.needed := hrest
  have hev : events.foldl applyEvent (done ++ op :: later)
      = done ++ { op with bytes := op.bytes ++ c.rest.take op.needed }
        :: later := hev
  have hcount : c'.totalDataAckable + c'.rest.length
      = c.totalDataAckable + c.rest.length := by
    have hlen := hc.len
    rw [hack, hrest, List.length_drop]
    omega
  have hsuffix : c'.rest <:+ c.rest := by
    rw [hrest]
    exact List.drop_suffix _ _
  have hserved := op.entry_served c.rest
  generalize hx : ({ op with bytes := op.bytes ++ c.rest.take op.needed }
    : RecvOp) = x at hev hserved
  have hxbytes : x.bytes = op.bytes ++ c.rest.take op.needed := by rw [← hx]
  have hxpending : x.pending = true := by rw [← hx, hop]
  have hxentry : (⟨op.entry.size - min op.needed c.lenDataAvailable,
      op.entry.recvBlockOffset,
      op.entry.dataOffset + min op.needed c.lenDataAvailable⟩
      : PifusRecvQueueEntry) = x.entry := by
    rw [hc.len, hserved]
  have hstore : (s.recvQueue.store cell x.entry).contents
      = x.entry :: (later.filter RecvOp.pending).map RecvOp.entry := by
    rw [hcell₀, RingBuffer.contents_store (by rw [hcontents]; simp), hcontents,
      List.set_cons_zero]
  have hneed : op.entry.size % 2 ^ 16 = op.needed := rfl
  have hnone := @completedBy_copies (done ++ op :: later) _ hcopies
  unfold recvTurn
  simp only [hentry.symm, hneed, hpop, hfill, hxentry, List.length_nil,
    Nat.sub_zero, decide_true, if_true, List.nil_append]
  by_cases hful : op.needed ≤ c.lenDataAvailable
  · -- the operation is fulfilled and leaves the queue
    have hne : (s.recvQueue.store cell x.entry).contents ≠ [] := by
      simp [hstore]
    obtain ⟨queue', herase, htail⟩ := RingBuffer.exists_eraseFirst hne
    rw [hstore] at htail
    obtain ⟨-, htail⟩ := List.cons.inj htail
    obtain ⟨hended, hidx⟩ := @completed_first done later x
      op.entry.recvBlockOffset hdone hxpending (by rw [← hx]; rfl)
    have hlast : (events ++ [RecvEvent.completed
        op.entry.recvBlockOffset]).foldl applyEvent (done ++ op :: later)
        = done ++ { x with pending := false } :: later := by
      rw [List.foldl_append, hev]
      exact hended
    rw [if_pos (decide_eq_true hful), herase]
    refine ⟨_, _, _, _, rfl, ?_, hvalid, hsuffix, hcount, ?_, Or.inl ?_,
      fun cs => ⟨done, op, later, rfl, hdone, hop, ?_⟩⟩
    · rw [hlast, hrest]
      refine h.serve hdone hop (x := { x with pending := false }) hxbytes
        (fun hp => absurd hp (by simp)) ?_ hbuffer
      rw [List.filter_cons_of_neg (by simp)]
      exact htail.symm
    · rw [recvedBy_append, hrecved]
      rfl
    · have hlen := congrArg List.length hcontents
      have hlen' := congrArg List.length htail
      simp only [RingBuffer.length_contents, List.length_cons] at hlen hlen'
      simp only [Option.getD_some]
      omega
    · have hle := hc.len ▸ hful
      rw [hlast, completedBy_append, hnone, hev, hidx, if_pos hle, ← hx,
        decide_eq_false (Nat.not_lt.mpr hle)]
      rfl
  · rw [if_neg (by simpa using hful)]
    refine ⟨_, _, _, _, rfl, ?_, hvalid, hsuffix, hcount, hrecved,
      Or.inr ⟨?_, ?_, rfl⟩,
      fun cs => ⟨done, op, later, rfl, hdone, hop, ?_⟩⟩
    · rw [hev, hrest]
      refine h.serve hdone hop hxbytes (fun _ => ?_) ?_ hbuffer
      · have hlen := hc.len
        omega
      · rw [List.filter_cons_of_pos hxpending]
        exact hstore
    · have hlen := congrArg List.length hcontents
      have hlen' := congrArg List.length hstore
      simp only [RingBuffer.length_contents, List.length_cons] at hlen hlen'
      show (s.recvQueue.store cell x.entry).count = _
      omega
    · rw [hvalid.len, hrest, List.length_drop]
      have hlen := hc.len
      omega
    · have hlt : c.rest.length < op.needed := by
        have hlen := hc.len
        omega
      rw [hnone, hev, if_neg (Nat.not_le.mpr hlt), ← hx, decide_eq_true hlt, hop]

/-- **The matching loop ends** and keeps the invariant; it stops in front of
unread bytes only when no operation is pending. -/
theorem RecvInv.loop {s : RecvSocket} {c : RecvCursor} {fuel : ℕ}
    (h : RecvInv ops s.recvQueue s.recvBuffer c.rest stream) (flag : Bool) (hc : c.Valid)
    (hfuel : s.recvQueue.count + 2 ≤ fuel
      ∨ 1 ≤ fuel ∧ c.lenDataAvailable = 0 ∧ flag = true) :
    ∃ s' c' events, recvLoop fuel s c flag = some (s', c', events)
      ∧ RecvInv (events.foldl applyEvent ops) s'.recvQueue s'.recvBuffer c'.rest
          stream
      ∧ c'.Valid ∧ c'.rest <:+ c.rest
      ∧ c'.totalDataAckable + c'.rest.length
          = c.totalDataAckable + c.rest.length
      ∧ recvedBy events = 0
      ∧ (0 < c'.lenDataAvailable → s'.recvQueue.contents = [])
      ∧ ∃ served, ∀ cs, Run ServeStep (ops, cs) served
        (events.foldl applyEvent ops, cs ++ completedBy ops events) := by
  induction fuel generalizing s c flag ops with
  | zero => omega
  | succ fuel ih =>
    rw [recvLoop]
    cases hpeek : s.recvQueue.peek with
    | none =>
      exact ⟨s, c, [], rfl, h, hc, List.suffix_refl _, rfl, rfl,
        fun _ => RingBuffer.peek_eq_none_iff.mp hpeek, [], fun cs => by
          rw [completedBy, List.append_nil]
          exact Run.nil⟩
    | some cell =>
      by_cases hcond : 0 < c.lenDataAvailable ∨ flag = false
      · obtain ⟨s₁, c₁, flag₁, events₁, heq, hinv, hvalid, hsuf, hcnt, hrec,
          hmeasure, hserve⟩ := h.turn flag hc hpeek
        have hfuel' : s₁.recvQueue.count + 2 ≤ fuel
            ∨ 1 ≤ fuel ∧ c₁.lenDataAvailable = 0 ∧ flag₁ = true := by
          rcases hfuel with hfuel | ⟨-, hlen, hflag⟩
          · rcases hmeasure with hless | ⟨hsame, hlen, hflag⟩
            · exact Or.inl (by omega)
            · exact Or.inr ⟨by omega, hlen, hflag⟩
          · rcases hcond with hpos | hne
            · omega
            · rw [hflag] at hne
              exact absurd hne (by simp)
        obtain ⟨s₂, c₂, events₂, heq₂, hinv₂, hvalid₂, hsuf₂, hcnt₂, hrec₂,
          hempty, served, hserved⟩ := ih hinv flag₁ hvalid hfuel'
        refine ⟨s₂, c₂, events₁ ++ events₂, ?_, ?_, hvalid₂, hsuf₂.trans hsuf,
          hcnt₂.trans hcnt, ?_, hempty, c.rest :: served, fun cs => ?_⟩
        · simp only [if_pos hcond, heq, heq₂, Option.map_some]
        · rw [List.foldl_append]
          exact hinv₂
        · rw [recvedBy_append, hrec, hrec₂]
        · rw [completedBy_append, List.foldl_append, ← List.append_assoc]
          exact Run.cons (hserve cs) (hserved _)
      · refine ⟨s, c, [], ?_, h, hc, List.suffix_refl _, rfl, rfl,
          fun hpos => absurd (Or.inl hpos) hcond, [], fun cs => ?_⟩
        · simp only [if_neg hcond]
        · rw [completedBy, List.append_nil]
          exact Run.nil

/-! ## The callback -/

/-- **The buffering loop** moves bytes from the chain into the buffer, in
order. -/
theorem bufferPbufs_spec {ps : List (List UInt8)} {offset len a : ℕ}
    (hoff : ∀ p ∈ ps.head?, offset ≤ p.length)
    (hlen : len = (ps.flatten.drop offset).length) :
    ∃ taken left buffer', bufferPbufs ps offset len a buffer
        = (left.length, a + taken.length, buffer')
      ∧ ps.flatten.drop offset = taken ++ left
      ∧ buffer'.contents = buffer.contents ++ taken := by
  induction ps generalizing offset len a buffer with
  | nil =>
    simp only [List.flatten_nil, List.drop_nil, List.length_nil] at hlen
    exact ⟨[], [], buffer, by rw [bufferPbufs, hlen]; rfl, by simp, by simp⟩
  | cons p ps ih =>
    have hp : offset ≤ p.length := hoff p rfl
    have hsplit : (p :: ps).flatten.drop offset
        = p.drop offset ++ ps.flatten := by
      rw [List.flatten_cons, List.drop_append_of_le_length hp]
    have hlen' : len = p.length - offset + ps.flatten.length := by
      rw [hlen, hsplit, List.length_append, List.length_drop]
    rw [bufferPbufs]
    by_cases hpos : 0 < len
    · rw [if_pos hpos]
      obtain ⟨buffer', hadd, hcontents, -⟩ := buffer.add_spec (p.drop offset)
      rw [List.length_drop] at hadd
      generalize hroom : buffer.endIndex - 1 - buffer.contents.length = room
        at hadd hcontents
      simp only [hadd]
      by_cases hfull : min (p.length - offset) room < p.length - offset
      · -- the buffer is full
        rw [if_pos hfull, Nat.min_eq_right (by omega)]
        refine ⟨(p.drop offset).take room,
          (p.drop offset).drop room ++ ps.flatten, buffer', ?_, ?_, hcontents⟩
        · rw [List.length_append, List.length_drop, List.length_drop,
            List.length_take, List.length_drop, Nat.min_eq_left (by omega)]
          congr 1
          omega
        · rw [hsplit, ← List.append_assoc, List.take_append_drop]
      · rw [if_neg hfull, Nat.min_eq_left (by omega)]
        have hall : (p.drop offset).take room = p.drop offset :=
          List.take_of_length_le (by rw [List.length_drop]; omega)
        obtain ⟨taken, left, buffer'', heq, hbytes, hcontents'⟩ :=
          @ih buffer' 0 (len - (p.length - offset))
            (a + (p.length - offset)) (fun q _ => Nat.zero_le _) (by rw [List.drop_zero]; omega)
        rw [List.drop_zero] at hbytes
        refine ⟨p.drop offset ++ taken, left, buffer'', ?_, ?_, ?_⟩
        · rw [heq, List.length_append, List.length_drop, Nat.add_assoc]
        · rw [hsplit, hbytes, List.append_assoc]
        · rw [hcontents', hcontents, hall, List.append_assoc]
    · rw [if_neg hpos]
      have hz : len = 0 := by omega
      refine ⟨[], [], buffer, by rw [hz]; rfl, ?_, by simp⟩
      exact List.length_eq_zero_iff.mp (hlen.symm.trans hz)

/-- The bytes of a chain that a callback starts with. -/
theorem startCursor_spec (s : RecvSocket) (p : PbufChain) :
    (startCursor s p).rest = p.pbufs.flatten.drop s.unreadDataOffset
      ∧ (startCursor s p).Valid ∧ (startCursor s p).totalDataAckable = 0 := by
  unfold startCursor PbufChain.totLen
  by_cases h : 0 < s.unreadDataOffset
  · obtain ⟨hskip, hoff⟩ := pbufSkip_spec p.pbufs s.unreadDataOffset
    rw [if_pos h]
    refine ⟨hskip, ⟨hoff, ?_⟩, rfl⟩
    show _ = (List.drop _ _).length
    rw [hskip, List.length_drop]
  · have hz : s.unreadDataOffset = 0 := by omega
    rw [if_neg h, hz]
    exact ⟨rfl, ⟨fun q _ => Nat.zero_le _, rfl⟩, rfl⟩

/-- When no operation is pending, buffering keeps the invariant. -/
theorem RecvInv.store {taken left : List UInt8}
    (h : RecvInv ops queue buffer (taken ++ left) stream)
    (hempty : taken ≠ [] → queue.contents = [])
    (hbuffer : buffer'.contents = buffer.contents ++ taken) :
    RecvInv ops queue buffer' left stream := by
  refine ⟨h.queue, fun hne o ho hpend => ?_, h.ordered, ?_⟩
  · by_cases htaken : taken = []
    · rw [hbuffer, htaken, List.append_nil] at hne
      exact h.satisfied hne o ho hpend
    · have hnone := hempty htaken
      rw [h.queue, List.map_eq_nil_iff, List.filter_eq_nil_iff] at hnone
      exact absurd hpend (hnone o ho)
  · rw [hbuffer, ← h.lossless]
    simp only [List.append_assoc]

/-- **`tcp_recv_callback` keeps the invariant**: the bytes it leaves are those
of the chain from the new `unread_data_offset` on, none if it accepts. -/
theorem recvChain_spec {s : RecvSocket} {p : PbufChain}
    (h : RecvInv ops s.recvQueue s.recvBuffer
      (p.pbufs.flatten.drop s.unreadDataOffset) stream) :
    ∃ err s' events left, recvChain s p = some (err, s', events)
      ∧ RecvInv (events.foldl applyEvent ops) s'.recvQueue s'.recvBuffer left
          stream
      ∧ (err = .mem ∧ left = p.pbufs.flatten.drop s'.unreadDataOffset
        ∨ err = .ok ∧ left = [] ∧ s'.unreadDataOffset = 0)
      ∧ recvedBy events + left.length
          = (p.pbufs.flatten.drop s.unreadDataOffset).length
      ∧ ∃ served, ∀ cs, Run ServeStep (ops, cs) served
        (events.foldl applyEvent ops, cs ++ completedBy ops events) := by
  obtain ⟨hstart, hvalid, hzero⟩ := startCursor_spec s p
  rw [← hstart] at h ⊢
  obtain ⟨s₁, c₁, events, hloop, hinv, hvalid₁, hsuffix, hcount, hrecved,
    hempty, served, hserved⟩ := h.loop s.recvBuffer.isEmpty hvalid
      (Or.inl (le_refl _))
  obtain ⟨taken, left, buffer', hbuf, hsplit, hcontents⟩ :=
    bufferPbufs_spec (a := c₁.totalDataAckable)
      hvalid₁.offset hvalid₁.len
  have hsplit : c₁.rest = taken ++ left := hsplit
  rw [hsplit] at hinv
  have hinv' := hinv.store (fun hne => hempty (by
    rw [hvalid₁.len, hsplit, List.length_append]
    have := List.length_pos_iff.mpr hne
    omega)) hcontents
  have hleft : left <:+ p.pbufs.flatten := by
    refine ((List.suffix_append taken left).trans ?_).trans
      (List.drop_suffix s.unreadDataOffset _)
    rw [← hsplit, ← hstart]
    exact hsuffix
  have hfold : (events ++ [RecvEvent.recved (c₁.totalDataAckable
      + taken.length)]).foldl applyEvent ops = events.foldl applyEvent ops := by
    rw [List.foldl_append]
    rfl
  have hsum : recvedBy (events ++ [RecvEvent.recved (c₁.totalDataAckable
      + taken.length)]) + left.length = (startCursor s p).rest.length := by
    rw [recvedBy_append, hrecved]
    rw [hzero, hsplit, List.length_append] at hcount
    simp only [recvedBy]
    omega
  have hserved' : ∃ served, ∀ cs, Run ServeStep (ops, cs) served
      ((events ++ [RecvEvent.recved (c₁.totalDataAckable
        + taken.length)]).foldl applyEvent ops,
      cs ++ completedBy ops (events ++ [RecvEvent.recved (c₁.totalDataAckable
        + taken.length)])) := by
    refine ⟨served, fun cs => ?_⟩
    rw [hfold, completedBy_append]
    simp only [completedBy, List.append_nil]
    exact hserved cs
  unfold recvChain
  simp only [hloop, Option.map_some, hbuf]
  by_cases hpos : 0 < left.length
  · rw [if_pos hpos]
    refine ⟨_, _, _, left, rfl, by rw [hfold]; exact hinv', Or.inl ⟨rfl, ?_⟩,
      hsum, hserved'⟩
    exact List.suffix_iff_eq_drop.mp hleft
  · rw [if_neg hpos]
    refine ⟨_, _, _, left, rfl, by rw [hfold]; exact hinv',
      Or.inr ⟨rfl, ?_, rfl⟩, hsum, hserved'⟩
    exact List.length_eq_zero_iff.mp (by omega)

/-! ## Recv operations -/

/-- **A new operation** keeps the invariant if it takes bytes off the front of
the buffer, and leaves some there only when it needs none any more. -/
theorem RecvInv.submit {popped : List UInt8} {size : ℕ} {pending : Bool}
    (h : RecvInv ops queue buffer rest stream)
    (hsplit : buffer.contents = popped ++ buffer'.contents)
    (hfull : buffer'.contents ≠ [] → popped.length = size % 2 ^ 16)
    (hqueue : queue'.contents = queue.contents
      ++ (if pending then [⟨size - popped.length, off, popped.length⟩] else [])) :
    RecvInv (ops ++ [⟨off, size, popped, pending⟩]) queue' buffer' rest
      stream := by
  refine ⟨?_, fun hne o ho hpend => ?_, ?_, ?_⟩
  · rw [hqueue, h.queue, List.filter_append, List.map_append]
    congr 1
    cases pending <;> rfl
  · have hbuffer : buffer.contents ≠ [] := by
      rw [hsplit]
      exact List.append_ne_nil_of_right_ne_nil _ hne
    rcases List.mem_append.mp ho with ho | ho
    · exact h.satisfied hbuffer o ho hpend
    · obtain rfl := List.mem_singleton.mp ho
      have hlen := hfull hne
      show (size - popped.length) % 2 ^ 16 = 0
      omega
  · refine List.pairwise_append.mpr ⟨h.ordered, List.pairwise_singleton _ _,
      fun a ha b hb hpend hneed => ?_⟩
    obtain rfl := List.mem_singleton.mp hb
    have hbuffer : buffer.contents = [] := by
      by_contra hne
      exact hneed (h.satisfied hne a ha hpend)
    rw [hbuffer] at hsplit
    exact (List.append_eq_nil_iff.mp hsplit.symm).1
  · rw [← h.lossless, hsplit]
    simp

/-- The bytes a new operation gets from the buffer. -/
theorem poppedNew_spec (buffer : PifusByteBuffer) (off size : ℕ) :
    ∃ popped buffer', (if buffer.isEmpty then
          (([] : List UInt8), (⟨size, off, 0⟩ : PifusRecvQueueEntry), buffer)
        else popFromBuffer buffer ⟨size, off, 0⟩ (size % 2 ^ 16))
        = (popped, ⟨size - popped.length, off, popped.length⟩, buffer')
      ∧ buffer.contents = popped ++ buffer'.contents
      ∧ (buffer'.contents ≠ [] → popped.length = size % 2 ^ 16)
      ∧ popped.length ≤ size % 2 ^ 16 := by
  by_cases hempty : buffer.isEmpty = true
  · rw [if_pos hempty]
    rw [PifusByteBuffer.isEmpty_iff] at hempty
    exact ⟨[], buffer, rfl, rfl, fun hne => absurd hempty hne, Nat.zero_le _⟩
  · obtain ⟨buffer', hpop, hcontents, -⟩ := buffer.pop_spec (size % 2 ^ 16)
    rw [if_neg hempty, popFromBuffer, hpop]
    refine ⟨buffer.contents.take (size % 2 ^ 16), buffer', ?_, ?_,
      fun hne => ?_, List.length_take_le _ _⟩
    · by_cases hlen : 0 < (buffer.contents.take (size % 2 ^ 16)).length
      · simp only [if_pos hlen, Nat.zero_add]
      · have hz : (buffer.contents.take (size % 2 ^ 16)).length = 0 := by omega
        simp only [if_neg hlen]
        rw [hz]
        rfl
    · rw [hcontents, List.take_append_drop]
    · rw [hcontents] at hne
      have hlt : size % 2 ^ 16 < buffer.contents.length := by
        by_contra hge
        exact hne (List.drop_eq_nil_of_le (by omega))
      rw [List.length_take, Nat.min_eq_left (by omega)]

/-- **`tx_tcp_recv` keeps the invariant**: the new operation gets bytes only
from a buffer that no older operation needs. -/
theorem txTcpRecv_spec {s : RecvSocket}
    (h : RecvInv ops s.recvQueue s.recvBuffer rest stream) (off size : ℕ) :
    ∃ r s' popped, txTcpRecv s off size = (r, s', popped)
      ∧ RecvInv (ops ++ [⟨off, size, popped, decide (r.resultCode = .async)⟩])
          s'.recvQueue s'.recvBuffer rest stream
      ∧ s'.unreadDataOffset = s.unreadDataOffset
      ∧ popped <+: s.recvBuffer.contents ∧ popped.length ≤ size % 2 ^ 16
      ∧ (r.resultCode = .ok ∧ 0 < popped.length ∧ popped.length = size
        ∨ (r.resultCode = .async ∨ r.resultCode = .err)
          ∧ ¬ (0 < popped.length ∧ popped.length = size)) := by
  obtain ⟨popped, buffer', hpop, hsplit, hfull, hle⟩ :=
    poppedNew_spec s.recvBuffer off size
  have hpre : popped <+: s.recvBuffer.contents := by
    rw [hsplit]
    exact List.prefix_append _ _
  unfold txTcpRecv
  simp only [hpop]
  by_cases hfilled : 0 < popped.length ∧ size = popped.length
  · rw [if_pos hfilled]
    exact ⟨_, _, _, rfl, h.submit hsplit hfull (by simp), rfl, hpre, hle,
      Or.inl ⟨rfl, hfilled.1, hfilled.2.symm⟩⟩
  · have hnot : ¬ (0 < popped.length ∧ popped.length = size) :=
      fun hc => hfilled ⟨hc.1, hc.2.symm⟩
    rw [if_neg hfilled]
    cases hput : s.recvQueue.put ⟨size - popped.length, off, popped.length⟩ with
    | none =>
      exact ⟨_, _, _, rfl, h.submit hsplit hfull (by simp), rfl, hpre, hle,
        Or.inr ⟨Or.inr rfl, hnot⟩⟩
    | some queue =>
      exact ⟨_, _, _, rfl, h.submit hsplit hfull
        (by simpa using RingBuffer.contents_put hput), rfl, hpre, hle,
        Or.inr ⟨Or.inl rfl, hnot⟩⟩

/-! ## Runs -/

/-- The invariant of a run. -/
structure RecvRunInv (s : RecvState) : Prop where
  inv : RecvInv s.ops s.socket.recvQueue s.socket.recvBuffer s.refusedRest
    s.stream
  unread : s.refused = none → s.socket.unreadDataOffset = 0
  recved : s.recved + s.refusedRest.length = s.stream.length

variable {s t : RecvState} {i : RecvInput}

theorem recvRunInv_initial (queue : ℕ → PifusRecvQueueEntry) (buffer : Memory) :
    RecvRunInv (RecvState.initial queue buffer) where
  inv := ⟨rfl, fun _ _ ho => absurd ho (by simp [RecvState.initial]),
    List.Pairwise.nil, rfl⟩
  unread := fun _ => rfl
  recved := rfl

/-- The bytes in front of a callback, and the stream with them. -/
theorem RecvRunInv.chain {p : PbufChain} (h : RecvRunInv s)
    (hp : s.refused = none ∨ s.refused = some p) :
    ∃ stream, stream = (if s.refused = none then s.stream ++ p.pbufs.flatten
        else s.stream)
      ∧ RecvInv s.ops s.socket.recvQueue s.socket.recvBuffer
          (p.pbufs.flatten.drop s.socket.unreadDataOffset) stream
      ∧ s.recved + (p.pbufs.flatten.drop s.socket.unreadDataOffset).length
          = stream.length := by
  refine ⟨_, rfl, ?_⟩
  have hinv := h.inv
  have hrecved := h.recved
  unfold RecvState.refusedRest at hinv hrecved
  rcases hp with hnone | hsome
  · rw [hnone] at hinv hrecved
    rw [if_pos hnone, h.unread hnone, List.drop_zero, List.length_append]
    refine ⟨⟨hinv.queue, hinv.satisfied, hinv.ordered, ?_⟩, ?_⟩
    · have hlossless := hinv.lossless
      rw [List.append_nil] at hlossless
      rw [hlossless]
    · simp only [List.length_nil, Nat.add_zero] at hrecved
      omega
  · rw [hsome] at hinv hrecved
    rw [if_neg (by simp [hsome])]
    exact ⟨hinv, hrecved⟩

/-- **A delivery** can always be taken, and keeps the invariant. -/
theorem RecvRunInv.deliver {p : PbufChain} (h : RecvRunInv s)
    (hp : s.refused = none ∨ s.refused = some p) :
    ∃ t, RecvStep s (.deliver p) t ∧ RecvRunInv t := by
  obtain ⟨stream, hstream, hinv, hsum⟩ := h.chain hp
  obtain ⟨err, s', events, left, heq, hinv', hend, hlen, -⟩ :=
    recvChain_spec hinv
  have hstep : recvStep s (.deliver p) = some
      { socket := s'
        refused := if err = .mem then some p else none
        stream := stream
        ops := events.foldl applyEvent s.ops
        recved := s.recved + recvedBy events } := by
    rw [recvStep, if_pos hp, tcpRecvCallback]
    simp only [if_true, heq, Option.map_some, Option.bind_some, hstream]
  refine ⟨_, hstep, ?_⟩
  rcases hend with ⟨rfl, hleft⟩ | ⟨rfl, hleft, hunread⟩
  · have hrest : RecvState.refusedRest
        { socket := s'
          refused := if ErrT.mem = .mem then some p else none
          stream := stream
          ops := events.foldl applyEvent s.ops
          recved := s.recved + recvedBy events } = left := hleft.symm
    refine ⟨by rw [hrest]; exact hinv', fun hnone => ?_, ?_⟩
    · exact absurd hnone (by simp)
    · rw [hrest]
      show s.recved + recvedBy events + left.length = stream.length
      omega
  · rw [hleft] at hinv' hlen
    refine ⟨hinv', fun _ => hunread, ?_⟩
    show s.recved + recvedBy events + 0 = stream.length
    simp only [List.length_nil] at hlen
    omega

/-- A chain is delivered where none is refused, or this one is. -/
theorem refused_of_deliver {p : PbufChain} (hs : RecvStep s (.deliver p) t) :
    s.refused = none ∨ s.refused = some p := by
  by_contra hne
  rw [RecvStep, recvStep, if_neg hne] at hs
  exact absurd hs (by simp)

/-- **What a delivery does to the operations**: turns of the matching loop. -/
theorem RecvRunInv.served {p : PbufChain} (h : RecvRunInv s)
    (hs : RecvStep s (.deliver p) t) :
    ∃ err s' events served,
      tcpRecvCallback (some s.socket) (some p) .ok = some (err, some s', events)
      ∧ t.ops = events.foldl applyEvent s.ops
      ∧ ∀ cs, Run ServeStep (s.ops, cs) served
        (t.ops, cs ++ completedBy s.ops events) := by
  have hp := refused_of_deliver hs
  obtain ⟨stream, -, hchain, -⟩ := h.chain hp
  obtain ⟨err, s', events, left, heq, -, -, -, served, hserved⟩ :=
    recvChain_spec hchain
  have hcallback : tcpRecvCallback (some s.socket) (some p) .ok
      = some (err, some s', events) := by
    rw [tcpRecvCallback]
    simp only [if_true, heq, Option.map_some]
  rw [RecvStep, recvStep, if_pos hp, hcallback] at hs
  obtain rfl := Option.some.inj hs
  exact ⟨err, s', events, served, hcallback, rfl, hserved⟩

/-- **Every step keeps the invariant.** -/
theorem RecvRunInv.step (h : RecvRunInv s) (hs : RecvStep s i t) :
    RecvRunInv t := by
  cases i with
  | recv off size =>
    obtain ⟨r, s', popped, heq, hinv, hunread, -⟩ :=
      txTcpRecv_spec h.inv off size
    rw [RecvStep, recvStep] at hs
    simp only [heq] at hs
    obtain rfl := Option.some.inj hs
    have hrest : RecvState.refusedRest { s with
        socket := s'
        ops := s.ops ++ [⟨off, size, popped, decide (r.resultCode = .async)⟩] }
        = s.refusedRest := by
      simp only [RecvState.refusedRest, hunread]
    refine ⟨by rw [hrest]; exact hinv,
      fun hnone => hunread.trans (h.unread hnone), by rw [hrest]; exact h.recved⟩
  | deliver p =>
    obtain ⟨t', hs', ht⟩ := h.deliver (refused_of_deliver hs)
    rw [RecvStep] at hs hs'
    rw [hs] at hs'
    obtain rfl := Option.some.inj hs'
    exact ht

/-- **The receive path loses, duplicates and reorders no byte.** In every run
the bytes written into recv blocks, the bytes in the buffer and the unread
rest of the refused chain are the stream that lwIP delivered; `tcp_recved` has
been told of every byte that was taken out of a chain; and no delivery gets
stuck. -/
theorem recv_path_lossless {queue : ℕ → PifusRecvQueueEntry} {buffer : Memory}
    {is : List RecvInput}
    (h : Run RecvStep (RecvState.initial queue buffer) is s) :
    s.written ++ s.socket.recvBuffer.contents ++ s.refusedRest = s.stream
    ∧ s.recved + s.refusedRest.length = s.stream.length
    ∧ ∀ p, (s.refused = none ∨ s.refused = some p) →
        ∃ t, RecvStep s (.deliver p) t := by
  have hinv : RecvRunInv s := h.invariant RecvRunInv
    (recvRunInv_initial queue buffer) (fun _ _ _ hI hs => hI.step hs)
  exact ⟨hinv.inv.lossless, hinv.recved, fun p hp => by
    obtain ⟨t, hs, -⟩ := hinv.deliver hp
    exact ⟨t, hs⟩⟩

/-- A recv operation of three bytes and a chain of four. -/
theorem recv_path_lossless_four :
    ∃ s : RecvState, s.stream = [1, 2, 3, 4]
      ∧ s.written ++ s.socket.recvBuffer.contents ++ s.refusedRest
          = s.stream := by
  have ht : ((recvStep (RecvState.initial (fun _ => ⟨0, 0, 0⟩) (fun _ => 0))
      (.recv 0 3)).bind
      (fun s => recvStep s (.deliver ⟨[[1, 2], [], [3, 4]], by decide⟩))).map
      RecvState.stream = some [1, 2, 3, 4] := by decide +kernel
  obtain ⟨t, ht, hstream⟩ := Option.map_eq_some_iff.mp ht
  obtain ⟨s, hs, ht⟩ := Option.bind_eq_some_iff.mp ht
  exact ⟨t, hstream,
    (recv_path_lossless (Run.snoc (Run.single hs) ht)).1⟩
