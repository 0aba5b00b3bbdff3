import Pifus.Discovery
import Pifus.HeapRuns
import Pifus.Operation
import Pifus.RingBufferAccess

/-!
# Submitting an operation

The functions of `pifus_socket.c` that submit an operation all go the same way:
they return `false` if the squeue is full, build the operation, allocate a block
for its data if it has any, and call `enqueue_operation`, which puts it into the
squeue and increments `squeue_futex`. The check, the allocation and the put are
separate steps, and the prio thread takes operations out of the squeue between
any two of them, access by access (`Pifus.RingBufferAccess`).

If the put failed behind an allocation that did not, the block would never be
given back. It does not fail: the check has seen room, the consumer only makes
more of it, and nobody else puts. So a call that returns `false` has changed
nothing, and one that returns `true` has done everything.

The submitting thread is the only one that puts into the squeue, and while it is
in a call, the heap is its own. Between two calls the heap may change in any
way. `futex_wake` and the mutex around the allocator change nothing of this.
-/

/-! ## Operations -/

/-- `enum pifus_ip_type`. -/
inductive PifusIpType
  | ipv4Addr | ipv6Addr | ipvxAddr
  deriving DecidableEq

/-- `struct pifus_ip_addr`: an address in string form. -/
structure PifusIpAddr where
  value : Vector UInt8 45
  deriving DecidableEq

/-- The `data` of `struct pifus_operation`, by the member that is set. -/
inductive PifusOperationData
  | bind (ipType : PifusIpType) (port : UInt16)
  | connect (ipAddr : PifusIpAddr) (port : UInt16)
  /-- `block_offset` is a `uint64_t`. -/
  | write (blockOffset : ℕ)
  /-- `recv_block_offset` is an `int64_t`. -/
  | recv (recvBlockOffset : ℤ) (size : ℕ)
  | listen (backlogSize : UInt8)
  | unset
  deriving DecidableEq

/-- `struct pifus_operation`. -/
structure PifusOperation where
  code : PifusOperationCode
  data : PifusOperationData
  deriving DecidableEq

/-! ## The submit functions -/

/-- What a submit function does when the squeue is not full. -/
inductive Submission
  /-- It returns `false`. -/
  | refuse
  /-- It stores `accepted_sockets_priority`, if it is given one, and calls
  `enqueue_operation`. -/
  | enqueue (acceptedSocketsPriority : Option PifusPriority)
      (op : PifusOperation)
  /-- It allocates a block, copies the data into it, and calls
  `enqueue_operation` for the operation that carries the block's offset. -/
  | allocate (size : ℕ) (data : List UInt8) (op : ℤ → PifusOperation)

/-- `pifus_socket_bind`. -/
def pifusSocketBind (protocol : PifusProtocol) (ipType : PifusIpType)
    (port : UInt16) : Submission :=
  .enqueue none
    ⟨if protocol = .tcp then .tcpBind else .udpBind, .bind ipType port⟩

/-- `pifus_socket_connect`. -/
def pifusSocketConnect (protocol : PifusProtocol) (ipAddr : PifusIpAddr)
    (port : UInt16) : Submission :=
  .enqueue none
    ⟨if protocol = .tcp then .tcpConnect else .udpConnect, .connect ipAddr port⟩

/-- `pifus_socket_write` of the bytes from `data` on, which are `size`. -/
def pifusSocketWrite (protocol : PifusProtocol) (data : List UInt8) :
    Submission :=
  .allocate data.length data (fun blockOffset =>
    ⟨if protocol = .tcp then .tcpWrite else .udpSend,
      .write (ofInt64 blockOffset)⟩)

/-- `pifus_socket_recv`, which copies nothing into the block. -/
def pifusSocketRecv (protocol : PifusProtocol) (size : ℕ) : Submission :=
  .allocate size [] (fun blockOffset =>
    ⟨if protocol = .tcp then .tcpRecv else .udpRecv, .recv blockOffset size⟩)

/-- `pifus_socket_listen`. -/
def pifusSocketListen (protocol : PifusProtocol) (backlogSize : UInt8) :
    Submission :=
  if protocol = .tcp then .enqueue none ⟨.tcpListen, .listen backlogSize⟩
  else .refuse -- UDP has no listen

/-- `pifus_socket_accept`. -/
def pifusSocketAccept (protocol : PifusProtocol)
    (acceptedSocketsPriority : PifusPriority) : Submission :=
  if protocol = .tcp then
    .enqueue (some acceptedSocketsPriority) ⟨.tcpAccept, .unset⟩
  else .refuse -- UDP has no accept

/-- `pifus_socket_close`. -/
def pifusSocketClose (protocol : PifusProtocol) : Submission :=
  .enqueue none ⟨if protocol = .tcp then .tcpClose else .udpDisconnect, .unset⟩

/-- `pifus_socket_nop`. -/
def pifusSocketNop : Submission :=
  .enqueue none ⟨.clientNop, .unset⟩

/-- A call of a submit function. -/
inductive SubmitCall
  | bind (ipType : PifusIpType) (port : UInt16)
  | connect (ipAddr : PifusIpAddr) (port : UInt16)
  | write (data : List UInt8)
  | recv (size : ℕ)
  | listen (backlogSize : UInt8)
  | accept (acceptedSocketsPriority : PifusPriority)
  | close
  | nop

/-- What is behind the check of the squeue, on a socket of the protocol. -/
def SubmitCall.submission (protocol : PifusProtocol) : SubmitCall → Submission
  | .bind ipType port => pifusSocketBind protocol ipType port
  | .connect ipAddr port => pifusSocketConnect protocol ipAddr port
  | .write data => pifusSocketWrite protocol data
  | .recv size => pifusSocketRecv protocol size
  | .listen backlogSize => pifusSocketListen protocol backlogSize
  | .accept acceptedSocketsPriority =>
    pifusSocketAccept protocol acceptedSocketsPriority
  | .close => pifusSocketClose protocol
  | .nop => pifusSocketNop

/-- The size of the data is one that the heap has room for, in principle. -/
def SubmitCall.SizeFits : SubmitCall → Prop
  | .write data => 0 < data.length ∧ data.length ≤ shmAppSize
  | .recv size => 0 < size ∧ size ≤ shmAppSize
  | _ => True

/-! ## Calls, step by step -/

/-- Where the submitting thread stands. -/
inductive SubmitPc
  /-- Outside. -/
  | outside
  /-- In `is_queue_full`. -/
  | checking (submission : Submission)
  /-- In front of `p_alloc`. -/
  | allocating (size : ℕ) (data : List UInt8) (op : ℤ → PifusOperation)
  /-- In the `put` of `enqueue_operation`. -/
  | enqueuing (op : PifusOperation)
  /-- In front of `socket->squeue_futex++`. -/
  | announcing

variable {words : ℕ} {β : Type*}

/-- A socket and the region of its app. -/
structure SubmitState (words : ℕ) (β : Type*) where
  protocol : PifusProtocol
  squeue : AccessState words β
  squeueFutex : UInt32
  acceptedSocketsPriority : PifusPriority
  mem : Memory
  pc : SubmitPc
  /-- What the last call has returned. -/
  returned : Option Bool

/-- What can happen next. -/
inductive SubmitEvent (words : ℕ) (β : Type*)
  /-- The app calls a submit function. -/
  | call (call : SubmitCall)
  /-- The submitting thread takes its next step. -/
  | tick
  /-- The consumer of the squeue takes its next step. -/
  | stack (e : AccessEvent words β)
  /-- The heap has changed between two calls. -/
  | heap (mem : Memory)

/-- The step is one of the consumer's. -/
def AccessEvent.byConsumer : AccessEvent words β → Bool
  | .callPut _ | .producer => false
  | _ => true

/-- The step is one that is taken inside a call: one of the submitting thread,
or of the consumer. -/
def SubmitEvent.InCall : SubmitEvent words β → Prop
  | .tick | .stack _ => True
  | .call _ | .heap _ => False

/-- What the call that has returned last has returned. -/
def AccessState.lastReturn (s : AccessState words β) : Bool :=
  (s.returns.getLast?.map Prod.snd).getD false

namespace SubmitState

variable (app : AppRegion) (encode : PifusOperation → Element words β)

/-- The call of `put` in `enqueue_operation`. -/
def enqueueOperation (s : SubmitState words β) (op : PifusOperation) :
    Option (SubmitState words β) :=
  (accessStep s.squeue (.callPut (.put (encode op)))).map (fun squeue =>
    { s with squeue := squeue, pc := .enqueuing op })

/-- The call returns. -/
def leave (s : SubmitState words β) (ok : Bool) : SubmitState words β :=
  { s with pc := .outside, returned := some ok }

/-- What follows a check that has seen room. -/
def proceed (s : SubmitState words β) :
    Submission → Option (SubmitState words β)
  | .refuse => some (s.leave false)
  | .enqueue priority op =>
    { s with acceptedSocketsPriority :=
        priority.getD s.acceptedSocketsPriority }.enqueueOperation encode op
  | .allocate size data op => some { s with pc := .allocating size data op }

/-- The next step of the submitting thread. -/
def tick (s : SubmitState words β) : Option (SubmitState words β) :=
  match s.pc with
  | .outside => none
  | .checking submission =>
    s.squeue.produce.bind (fun squeue =>
      match squeue.producer with
      | .idle =>
        if squeue.lastReturn then
          some ({ s with squeue := squeue }.leave false)
        else { s with squeue := squeue }.proceed encode submission
      | _ => some { s with squeue := squeue })
  | .allocating size data op =>
    match shmDataAllocate app.addr s.mem size with
    | none => none
    | some (none, mem) => some ({ s with mem := mem }.leave false)
    | some (some (blockOffset, block), mem) =>
      { s with mem := mem.copy (shmDataGetDataPtr block) data }.enqueueOperation
        encode (op blockOffset)
  | .enqueuing _ =>
    s.squeue.produce.map (fun squeue =>
      match squeue.producer with
      | .idle =>
        if squeue.lastReturn then { s with squeue := squeue, pc := .announcing }
        else { s with squeue := squeue }.leave false
      | _ => { s with squeue := squeue })
  | .announcing =>
    some ({ s with squeueFutex := s.squeueFutex + 1 }.leave true)

end SubmitState

/-- **A step of the submitting thread, of the consumer or of the heap.** -/
def submitStep (app : AppRegion) (encode : PifusOperation → Element words β)
    (s : SubmitState words β) : SubmitEvent words β →
    Option (SubmitState words β)
  | .call call =>
    match s.pc with
    | .outside =>
      (accessStep s.squeue (.callPut .isFull)).map (fun squeue => { s with
        squeue := squeue
        pc := .checking (call.submission s.protocol)
        returned := none })
    | _ => none
  | .tick => s.tick app encode
  | .stack e =>
    if e.byConsumer then
      (accessStep s.squeue e).map (fun squeue => { s with squeue := squeue })
    else none
  | .heap mem =>
    match s.pc with
    | .outside => some { s with mem := mem }
    | _ => none

/-- The steps as a relation. -/
def SubmitStep (app : AppRegion) (encode : PifusOperation → Element words β)
    (s : SubmitState words β) (e : SubmitEvent words β)
    (t : SubmitState words β) : Prop :=
  submitStep app encode s e = some t

/-! ## A call of the producer -/

/-- The call that the producer is in. -/
def ProducerPc.call : ProducerPc words β → Option (PutCall words β)
  | .idle => none
  | .loadHead call | .loadEnd call _ | .loadTail call _ => some call
  | .loadIndex el _ | .storeWord el _ _ _ | .storeHead el _ => some (.put el)

namespace AccessState

variable {s t : AccessState words β} {rb : RingBuffer (Element words β)}
  {call : PutCall words β}

/-- **The elements in the array**, from `tail` to `head`. -/
def contents (s : AccessState words β) : List (Element words β) :=
  Circular.window s.buf s.endIndex s.tail
    (if s.tail ≤ s.head then s.head - s.tail else s.head + s.endIndex - s.tail)

theorem Refines.produced_eq (h : Refines s rb) :
    s.produced = s.consumed ++ s.contents := by
  rw [h.log, contents, h.buf, h.endIndex, h.tail, h.head]
  rfl

/-- The squeue has room for one more element. -/
def HasRoom (s : AccessState words β) : Prop :=
  s.produced.length + 1 < s.consumed.length + s.endIndex

/-- **What a call of the producer has done** when it returns: `is_full` has
appended nothing, and seen room if it returns `false`; `put` has appended its
element, if there was room. -/
def CallReturned (s t : AccessState words β) : PutCall words β → Prop
  | .isFull => t.produced = s.produced ∧ (t.lastReturn = false → t.HasRoom)
  | .put el => t.lastReturn = true ∧ t.produced = s.produced ++ [el]
      ∨ t.lastReturn = false ∧ ¬ s.HasRoom

theorem lastReturn_append (s : AccessState words β) (call : RingCall)
    (ok : Bool) :
    lastReturn { s with returns := s.returns ++ [(call, ok)] } = ok := by
  rw [lastReturn, List.getLast?_append, List.getLast?_singleton]
  rfl

theorem Refines.hasRoom_iff (h : Refines s rb) :
    s.HasRoom ↔ rb.next rb.head ≠ rb.tail := by
  have hlt := rb.count_lt
  have hlog := congrArg List.length h.log
  rw [List.length_append, RingBuffer.length_contents] at hlog
  rw [HasRoom, h.endIndex, ne_eq, RingBuffer.next_head_eq_tail_iff]
  omega

/-- **An access of the producer** in a call is inside the call, or its last. -/
theorem produce_spec (h : Refines s rb) (hcall : s.producer.call = some call)
    (hs : s.produce = some t) :
    t.consumed = s.consumed ∧ t.endIndex = s.endIndex
      ∧ (t.producer.call = some call ∧ t.produced = s.produced
        ∨ t.producer = .idle ∧ CallReturned s t call) := by
  have hpc := h.producer
  rw [produce] at hs
  cases hcase : s.producer with
  | idle =>
    rw [hcase] at hcall
    exact absurd hcall (by simp [ProducerPc.call])
  | loadHead c | loadEnd c head =>
    rw [hcase] at hcall hs
    obtain rfl := Option.some.inj hcall
    obtain rfl := Option.some.inj hs
    exact ⟨rfl, rfl, Or.inl ⟨rfl, rfl⟩⟩
  | loadTail c head =>
    rw [hcase] at hcall hs hpc
    obtain rfl := Option.some.inj hcall
    obtain rfl : head = rb.next rb.head := hpc
    cases c with
    | isFull =>
      obtain rfl := Option.some.inj hs
      refine ⟨rfl, rfl, Or.inr ⟨rfl, rfl, fun hroom => ?_⟩⟩
      have hne : rb.next rb.head ≠ s.tail :=
        of_decide_eq_false ((lastReturn_append _ _ _).symm.trans hroom)
      rw [h.tail, ← h.hasRoom_iff] at hne
      exact hne
    | put el =>
      dsimp only at hs
      split at hs
      · obtain rfl := Option.some.inj hs
        exact ⟨rfl, rfl, Or.inl ⟨rfl, rfl⟩⟩
      · rename_i hfull
        obtain rfl := Option.some.inj hs
        refine ⟨rfl, rfl, Or.inr ⟨rfl, Or.inr ⟨lastReturn_append _ _ _, ?_⟩⟩⟩
        rw [h.hasRoom_iff, ← h.tail]
        exact hfull
  | loadIndex el head =>
    rw [hcase] at hcall hs
    obtain rfl := Option.some.inj hcall
    obtain rfl := Option.some.inj hs
    exact ⟨rfl, rfl, Or.inl ⟨rfl, rfl⟩⟩
  | storeWord el head cell word =>
    rw [hcase] at hcall hs
    obtain rfl := Option.some.inj hcall
    dsimp only at hs
    split at hs <;> obtain rfl := Option.some.inj hs <;>
      exact ⟨rfl, rfl, Or.inl ⟨rfl, rfl⟩⟩
  | storeHead el head =>
    rw [hcase] at hcall hs
    obtain rfl := Option.some.inj hcall
    obtain rfl := Option.some.inj hs
    exact ⟨rfl, rfl, Or.inr ⟨rfl, Or.inl ⟨lastReturn_append _ _ _, rfl⟩⟩⟩

/-- **An access of the consumer** leaves the producer where it is, and appends
nothing. -/
theorem consumer_step {e : AccessEvent words β} (he : e.byConsumer = true)
    (hs : accessStep s e = some t) :
    t.producer = s.producer ∧ t.produced = s.produced
      ∧ t.endIndex = s.endIndex ∧ s.consumed <+: t.consumed := by
  cases e <;> grind [accessStep, consume, AccessEvent.byConsumer,
    List.prefix_append, List.prefix_refl]

end AccessState

/-! ## The allocation -/

variable {app : AppRegion} {m M : Memory}

/-- A visit that finds no block writes nothing. -/
theorem visitBlock_none {prev : Option Ptr} {p : Ptr} {n : ℕ} {a : Ptr}
    (h : visitBlock a m prev p n = .inl (none, M)) : M = m := by
  unfold visitBlock at h
  dsimp only at h
  split at h
  · unfold appendBlock at h
    split at h
    · exact (Prod.mk.inj (Sum.inl.inj h)).2.symm
    · exact absurd h (by simp)
  · split at h
    · exact absurd h (by simp)
    · split at h
      · exact absurd h (by simp)
      · split at h
        · exact absurd h (by simp)
        · exact (Prod.mk.inj (Sum.inl.inj h)).2.symm

theorem nextSuitableBlock_none {a p : Ptr} {prev : Option Ptr} {n fuel : ℕ}
    (h : shmDataNextSuitableBlock a fuel m prev p n = some (none, M)) :
    M = m := by
  induction fuel generalizing prev p with
  | zero => exact absurd h (by simp [shmDataNextSuitableBlock])
  | succ fuel ih =>
    rw [shmDataNextSuitableBlock] at h
    split at h
    · rename_i hvisit
      obtain rfl := Option.some.inj h
      exact visitBlock_none hvisit
    · exact ih h

/-- **An allocation that fails writes nothing**, whatever the region holds. -/
theorem shmDataAllocate_none {a : Ptr} {n : ℕ}
    (h : shmDataAllocate a m n = some (none, M)) : M = m := by
  unfold shmDataAllocate at h
  generalize shmAppSize = fuel at h
  split at h
  · exact absurd h (by simp)
  · rename_i hnone
    obtain ⟨-, rfl⟩ := Prod.mk.inj (Option.some.inj h)
    exact nextSuitableBlock_none hnone
  · exact absurd h (by simp)

/-- **What a call has done when it has submitted the operation**: for one with
data it has allocated, once, a block of its size, has copied the data into it,
and the operation carries the offset; for the others it has left the heap
alone. -/
def Submission.Carries (app : AppRegion) (m m' : Memory) (op : PifusOperation) :
    Submission → Prop
  | .refuse => False
  | .enqueue _ op' => op = op' ∧ m' = m
  | .allocate size data op' => ∃ blockOffset block M,
      shmDataAllocate app.addr m size = some (some (blockOffset, block), M)
      ∧ m' = M.copy (shmDataGetDataPtr block) data ∧ op = op' blockOffset

/-- **What this means for the blocks of a well formed heap**: there is one more
live block, and it is the one the operation carries; or the heap has the blocks
it had. -/
def Submission.OneBlock (app : AppRegion) (m' : Memory) (op : PifusOperation)
    (bs : List Block) : Submission → Prop
  | .allocate size _ op' => ∃ block bs', op = op' (offsetOf app block)
      ∧ Represents app m' bs'
      ∧ (liveOf (app.addr + 4) bs').Perm
        ((block, size) :: liveOf (app.addr + 4) bs)
  | _ => Represents app m' bs

/-- The submission of a call whose size fits. -/
def Submission.SizeFits : Submission → Prop
  | .allocate size data _ => 0 < size ∧ size ≤ shmAppSize ∧ data.length ≤ size
  | _ => True

theorem SubmitCall.sizeFits_submission {call : SubmitCall} (h : call.SizeFits)
    (protocol : PifusProtocol) : (call.submission protocol).SizeFits := by
  cases call with
  | write data => exact ⟨h.1, h.2, Nat.le_refl _⟩
  | recv size => exact ⟨h.1, h.2, Nat.zero_le _⟩
  | listen backlogSize => cases protocol <;> exact True.intro
  | accept priority => cases protocol <;> exact True.intro
  | _ => exact True.intro

/-- **A submitted operation with data has one new block.** -/
theorem Submission.Carries.oneBlock {submission : Submission} {m' : Memory}
    {op : PifusOperation} {bs : List Block}
    (h : submission.Carries app m m' op) (hsize : submission.SizeFits)
    (hrep : Represents app m bs) : submission.OneBlock app m' op bs := by
  cases submission with
  | refuse => exact h.elim
  | enqueue priority op' =>
    obtain ⟨-, rfl⟩ := h
    exact hrep
  | allocate size data op' =>
    obtain ⟨blockOffset, block, M, hcall, rfl, rfl⟩ := h
    obtain ⟨hpos, hmax, hdata⟩ := hsize
    have hplace := shmDataAllocate_place hrep hpos hmax
    rw [hcall] at hplace
    cases hfit : place app size none (app.addr + 4) bs with
    | none =>
      rw [hfit] at hplace
      exact absurd hplace (by simp)
    | some r =>
      obtain ⟨q, bs'⟩ := r
      rw [hfit] at hplace
      obtain ⟨M', hM, hplaced⟩ := hplace
      obtain ⟨hr, rfl⟩ := Prod.mk.inj (Option.some.inj hM)
      obtain ⟨rfl, rfl⟩ := Prod.mk.inj (Option.some.inj hr)
      have hrep' : Represents app M bs' :=
        ⟨hplaced.segment, hplaced.fits, hplaced.tail⟩
      have hmem : (block, size) ∈ liveOf (app.addr + 4) bs' :=
        hplaced.live.mem_iff.mpr List.mem_cons_self
      exact ⟨block, bs', rfl, @Represents.copy app M bs' block size 0 data hrep'
        hmem (by omega), hplaced.live⟩

/-! ## A call from its start to its end -/

namespace SubmitState

variable {encode : PifusOperation → Element words β}
  {b s t u : SubmitState words β} {rb : RingBuffer (Element words β)}
  {submission : Submission}

/-- Nothing that a call changes has changed yet. -/
structure Untouched (b u : SubmitState words β) : Prop where
  produced : u.squeue.produced = b.squeue.produced
  squeueFutex : u.squeueFutex = b.squeueFutex
  mem : u.mem = b.mem

theorem Untouched.setPc (h : Untouched b u) (pc : SubmitPc) :
    Untouched b { u with pc := pc } :=
  ⟨h.produced, h.squeueFutex, h.mem⟩

/-- **What a call has done**, from the state it was made in, where the thread
stands now. -/
def Stage (app : AppRegion) (encode : PifusOperation → Element words β)
    (b : SubmitState words β) (submission : Submission)
    (u : SubmitState words β) : Prop :=
  match u.pc with
  | .checking submission' => submission' = submission ∧ Untouched b u
      ∧ u.squeue.producer.call = some .isFull
  | .allocating size data op => submission = .allocate size data op
      ∧ Untouched b u ∧ u.squeue.producer = .idle ∧ u.squeue.HasRoom
  | .enqueuing op => submission.Carries app b.mem u.mem op
      ∧ u.squeue.produced = b.squeue.produced ∧ u.squeueFutex = b.squeueFutex
      ∧ u.squeue.producer.call = some (.put (encode op)) ∧ u.squeue.HasRoom
  | .announcing => u.squeueFutex = b.squeueFutex ∧ u.squeue.producer = .idle
      ∧ ∃ op, submission.Carries app b.mem u.mem op
        ∧ u.squeue.produced = b.squeue.produced ++ [encode op]
  | .outside => u.squeue.producer = .idle
      ∧ (u.returned = some false ∧ Untouched b u
        ∨ u.returned = some true ∧ u.squeueFutex = b.squeueFutex + 1
          ∧ ∃ op, submission.Carries app b.mem u.mem op
            ∧ u.squeue.produced = b.squeue.produced ++ [encode op])

/-- **A call in progress, or just returned.** -/
structure InCall (app : AppRegion) (encode : PifusOperation → Element words β)
    (b : SubmitState words β) (submission : Submission)
    (u : SubmitState words β) : Prop where
  refines : ∃ rb, u.squeue.Refines rb
  taken : b.squeue.consumed <+: u.squeue.consumed
  stage : Stage app encode b submission u

theorem exists_callPut {q q' : AccessState words β} {call : PutCall words β}
    (hs : accessStep q (.callPut call) = some q') :
    q' = { q with producer := .loadHead call } := by
  rw [accessStep] at hs
  split at hs
  · exact (Option.some.inj hs).symm
  · exact absurd hs (by simp)

/-- **The call of `enqueue_operation`**, with everything in front of it done. -/
theorem InCall.enqueue {op : PifusOperation}
    (hs : s.enqueueOperation encode op = some t) (hrb : s.squeue.Refines rb)
    (htaken : b.squeue.consumed <+: s.squeue.consumed)
    (hcarries : submission.Carries app b.mem s.mem op)
    (hproduced : s.squeue.produced = b.squeue.produced)
    (hfutex : s.squeueFutex = b.squeueFutex) (hroom : s.squeue.HasRoom) :
    InCall app encode b submission t := by
  obtain ⟨q, hq, rfl⟩ := Option.map_eq_some_iff.mp hs
  obtain ⟨rb', hrb'⟩ := hrb.step hq
  obtain rfl := exists_callPut hq
  exact ⟨⟨rb', hrb'⟩, htaken, hcarries, hproduced, hfutex, rfl, hroom⟩

/-- **The call returns `false`**, and has changed nothing. -/
theorem InCall.leave_false (hrb : s.squeue.Refines rb)
    (htaken : b.squeue.consumed <+: s.squeue.consumed)
    (huntouched : Untouched b s) (hidle : s.squeue.producer = .idle) :
    InCall app encode b submission (s.leave false) :=
  ⟨⟨rb, hrb⟩, htaken, hidle, Or.inl ⟨rfl, huntouched.produced,
    huntouched.squeueFutex, huntouched.mem⟩⟩

/-- **What follows a check that has seen room.** -/
theorem InCall.proceed (hs : s.proceed encode submission = some t)
    (hrb : s.squeue.Refines rb)
    (htaken : b.squeue.consumed <+: s.squeue.consumed)
    (huntouched : Untouched b s) (hidle : s.squeue.producer = .idle)
    (hroom : s.squeue.HasRoom) : InCall app encode b submission t := by
  cases submission with
  | refuse =>
    obtain rfl := Option.some.inj hs
    exact InCall.leave_false hrb htaken huntouched hidle
  | enqueue priority op =>
    exact InCall.enqueue hs hrb htaken ⟨rfl, huntouched.mem⟩
      huntouched.produced huntouched.squeueFutex hroom
  | allocate size data op =>
    obtain rfl := Option.some.inj hs
    exact ⟨⟨rb, hrb⟩, htaken, rfl, ⟨huntouched.produced,
      huntouched.squeueFutex, huntouched.mem⟩, hidle, hroom⟩

/-- **A step of the submitting thread** brings the call to its next stage. -/
theorem InCall.tick (h : InCall app encode b submission s)
    (hs : s.tick app encode = some t) : InCall app encode b submission t := by
  obtain ⟨⟨rb, hrb⟩, htaken, hstage⟩ := h
  unfold Stage at hstage
  rw [SubmitState.tick] at hs
  cases hpc : s.pc with
  | outside =>
    rw [hpc] at hs
    exact absurd hs (by simp)
  | checking submission' =>
    rw [hpc] at hs hstage
    obtain ⟨rfl, huntouched, hcall⟩ := hstage
    obtain ⟨q, hq, hs⟩ := Option.bind_eq_some_iff.mp hs
    obtain ⟨rb', hrb'⟩ := hrb.produce hq
    obtain ⟨hconsumed, -, hspec⟩ := AccessState.produce_spec hrb hcall hq
    have htaken' : b.squeue.consumed <+: q.consumed := hconsumed ▸ htaken
    split at hs
    · -- the check has returned
      rename_i hidle
      rcases hspec with ⟨hin, -⟩ | ⟨-, hproduced, hroom⟩
      · rw [hidle] at hin
        exact absurd hin (by simp [ProducerPc.call])
      · have huntouched' : Untouched b { s with squeue := q } :=
          ⟨hproduced.trans huntouched.produced, huntouched.squeueFutex,
            huntouched.mem⟩
        by_cases hfull : q.lastReturn = true
        · rw [if_pos hfull] at hs
          obtain rfl := Option.some.inj hs
          exact InCall.leave_false hrb' htaken' (huntouched'.setPc _) hidle
        · rw [if_neg hfull] at hs
          exact InCall.proceed hs hrb' htaken' (huntouched'.setPc _) hidle
            (hroom (Bool.eq_false_iff.mpr hfull))
    · rename_i hbusy
      obtain rfl := Option.some.inj hs
      rcases hspec with ⟨hin, hproduced⟩ | ⟨hidle, -⟩
      · exact ⟨⟨rb', hrb'⟩, htaken', rfl, ⟨hproduced.trans huntouched.produced,
          huntouched.squeueFutex, huntouched.mem⟩, hin⟩
      · exact absurd hidle hbusy
  | allocating size data op =>
    rw [hpc] at hs hstage
    obtain ⟨rfl, huntouched, hidle, hroom⟩ := hstage
    dsimp only at hs
    split at hs
    · exact absurd hs (by simp)
    · rename_i mem hnone
      obtain rfl := Option.some.inj hs
      obtain rfl := shmDataAllocate_none hnone
      exact InCall.leave_false hrb htaken (huntouched.setPc _) hidle
    · rename_i blockOffset block mem hsome
      refine InCall.enqueue hs hrb htaken ⟨blockOffset, block, mem, ?_, rfl, rfl⟩
        huntouched.produced huntouched.squeueFutex hroom
      rw [← huntouched.mem]
      exact hsome
  | enqueuing op =>
    rw [hpc] at hs hstage
    obtain ⟨hcarries, hproduced, hfutex, hcall, hroom⟩ := hstage
    obtain ⟨q, hq, hs⟩ := Option.map_eq_some_iff.mp hs
    obtain ⟨rb', hrb'⟩ := hrb.produce hq
    obtain ⟨hconsumed, hend, hspec⟩ := AccessState.produce_spec hrb hcall hq
    have htaken' : b.squeue.consumed <+: q.consumed := hconsumed ▸ htaken
    split at hs
    · -- the put has returned, and has not failed
      rename_i hidle
      rcases hspec with ⟨hin, -⟩ | ⟨-, ⟨htrue, happended⟩ | ⟨-, hfull⟩⟩
      · rw [hidle] at hin
        exact absurd hin (by simp [ProducerPc.call])
      · rw [if_pos htrue] at hs
        subst hs
        exact ⟨⟨rb', hrb'⟩, htaken', hfutex, hidle, op, hcarries,
          happended.trans (by rw [hproduced])⟩
      · exact absurd hroom hfull
    · rename_i hbusy
      subst hs
      rcases hspec with ⟨hin, hproduced'⟩ | ⟨hidle, -⟩
      · refine ⟨⟨rb', hrb'⟩, htaken', hcarries, hproduced'.trans hproduced,
          hfutex, hin, ?_⟩
        show q.produced.length + 1 < q.consumed.length + q.endIndex
        rw [hproduced', hconsumed, hend]
        exact hroom
      · exact absurd hidle hbusy
  | announcing =>
    rw [hpc] at hs hstage
    obtain ⟨hfutex, hidle, op, hcarries, hproduced⟩ := hstage
    obtain rfl := Option.some.inj hs
    refine ⟨⟨rb, hrb⟩, htaken, hidle, Or.inr ⟨rfl, ?_, op, hcarries, hproduced⟩⟩
    show s.squeueFutex + 1 = _
    rw [hfutex]

/-- **A step of the consumer** leaves the call where it is. -/
theorem InCall.stack {e : AccessEvent words β} {q : AccessState words β}
    (h : InCall app encode b submission s) (he : e.byConsumer = true)
    (hs : accessStep s.squeue e = some q) :
    InCall app encode b submission { s with squeue := q } := by
  obtain ⟨⟨rb, hrb⟩, htaken, hstage⟩ := h
  obtain ⟨hproducer, hproduced, hend, hconsumed⟩ :=
    AccessState.consumer_step he hs
  have hroom : s.squeue.HasRoom → q.HasRoom := by
    intro hroom
    have hle := hconsumed.length_le
    unfold AccessState.HasRoom at hroom ⊢
    rw [hproduced, hend]
    omega
  refine ⟨hrb.step hs, htaken.trans hconsumed, ?_⟩
  have huntouched : Untouched b s → Untouched b { s with squeue := q } :=
    fun h => ⟨hproduced.trans h.produced, h.squeueFutex, h.mem⟩
  unfold Stage at hstage ⊢
  dsimp only at hstage ⊢
  rw [hproducer, hproduced]
  split at hstage
  · exact ⟨hstage.1, huntouched hstage.2.1, hstage.2.2⟩
  · obtain ⟨hsub, hsame, hidle, hr⟩ := hstage
    exact ⟨hsub, huntouched hsame, hidle, hroom hr⟩
  · obtain ⟨hcarries, hp, hf, hcall, hr⟩ := hstage
    exact ⟨hcarries, hp, hf, hcall, hroom hr⟩
  · exact hstage
  · obtain ⟨hidle, ⟨hfalse, hsame⟩ | htrue⟩ := hstage
    · exact ⟨hidle, Or.inl ⟨hfalse, huntouched hsame⟩⟩
    · exact ⟨hidle, Or.inr htrue⟩

/-- **A call is made.** -/
theorem InCall.start {call : SubmitCall} (hrb : s.squeue.Refines rb)
    (hs : SubmitStep app encode s (.call call) t) :
    InCall app encode s (call.submission s.protocol) t := by
  rw [SubmitStep, submitStep] at hs
  split at hs
  · obtain ⟨q, hq, rfl⟩ := Option.map_eq_some_iff.mp hs
    obtain ⟨rb', hrb'⟩ := hrb.step hq
    obtain rfl := exists_callPut hq
    exact ⟨⟨rb', hrb'⟩, List.prefix_refl _, rfl, ⟨rfl, rfl, rfl⟩, rfl⟩
  · exact absurd hs (by simp)

/-! ## Runs -/

/-- A socket that was just created, in an app whose heap is in any state. -/
def initial (protocol : PifusProtocol) (buf : ℕ → Element words β)
    (squeueFutex : UInt32) (priority : PifusPriority) (mem : Memory) :
    SubmitState words β :=
  ⟨protocol, .create buf squeueSize, squeueFutex, priority, mem, .outside, none⟩

/-- **The invariant**: the squeue is a ring buffer, and the submitting thread is
outside its functions, or in a call. -/
def SubmitInv (app : AppRegion) (encode : PifusOperation → Element words β)
    (s : SubmitState words β) : Prop :=
  (∃ rb, s.squeue.Refines rb)
    ∧ (s.pc = .outside ∨ ∃ b submission, InCall app encode b submission s)

/-- **Every step keeps the invariant.** -/
theorem SubmitInv.step {e : SubmitEvent words β} (h : SubmitInv app encode s)
    (hs : SubmitStep app encode s e t) : SubmitInv app encode t := by
  obtain ⟨⟨rb, hrb⟩, hpc⟩ := h
  cases e with
  | call call =>
    have hcall := InCall.start hrb hs
    exact ⟨hcall.refines, Or.inr ⟨_, _, hcall⟩⟩
  | tick =>
    rw [SubmitStep, submitStep] at hs
    rcases hpc with hpc | ⟨b, submission, hcall⟩
    · rw [SubmitState.tick, hpc] at hs
      exact absurd hs (by simp)
    · exact ⟨(hcall.tick hs).refines, Or.inr ⟨_, _, hcall.tick hs⟩⟩
  | stack e =>
    rw [SubmitStep, submitStep] at hs
    split at hs
    · rename_i he
      obtain ⟨q, hq, rfl⟩ := Option.map_eq_some_iff.mp hs
      refine ⟨hrb.step hq, hpc.imp (fun h => h) ?_⟩
      rintro ⟨b, submission, hcall⟩
      exact ⟨b, submission, hcall.stack he hq⟩
    · exact absurd hs (by simp)
  | heap mem =>
    rw [SubmitStep, submitStep] at hs
    split at hs
    · rename_i hpc'
      obtain rfl := Option.some.inj hs
      exact ⟨⟨rb, hrb⟩, Or.inl hpc'⟩
    · exact absurd hs (by simp)

/-- **In a run of steps inside the call** it stays in progress until it
returns. -/
theorem InCall.run {es : List (SubmitEvent words β)}
    (h : InCall app encode b submission s)
    (hrun : Run (SubmitStep app encode) s es t) (hes : ∀ e ∈ es, e.InCall) :
    InCall app encode b submission t := by
  refine (hrun.guarded_of_events hes).invariant
    (InCall app encode b submission) h ?_
  rintro s e t hcall ⟨he, hs⟩
  rw [SubmitStep] at hs
  cases e with
  | call call | heap mem => exact absurd he (by simp [SubmitEvent.InCall])
  | tick => exact hcall.tick hs
  | stack e =>
    rw [submitStep] at hs
    split at hs
    · obtain ⟨q, hq, rfl⟩ := Option.map_eq_some_iff.mp hs
      exact hcall.stack ‹_› hq
    · exact absurd hs (by simp)

/-- **A failed submission changes nothing, and a successful one does
everything.** Whatever the consumer takes out of the squeue during the call,
there is nothing else that a call that returns `false` has changed. A call that
returns `true` has appended one operation and incremented the futex once; and if
the operation has data, it has allocated one block, which is the one that the
operation carries. -/
theorem submit_all_or_nothing {protocol : PifusProtocol}
    {buf : ℕ → Element words β} {squeueFutex : UInt32} {priority : PifusPriority}
    {mem : Memory} {es₀ es : List (SubmitEvent words β)} {call : SubmitCall}
    (hreach : Run (SubmitStep app encode)
      (initial protocol buf squeueFutex priority mem) es₀ s)
    (hcall : SubmitStep app encode s (.call call) u)
    (hrun : Run (SubmitStep app encode) u es t) (hes : ∀ e ∈ es, e.InCall)
    (hreturned : t.pc = .outside) (hsize : call.SizeFits) :
    ∃ taken, t.squeue.consumed = s.squeue.consumed ++ taken
      ∧ (t.returned = some false
          ∧ t.mem = s.mem ∧ t.squeueFutex = s.squeueFutex
          ∧ s.squeue.contents = taken ++ t.squeue.contents
        ∨ t.returned = some true
          ∧ t.squeueFutex = s.squeueFutex + 1
          ∧ ∃ op, s.squeue.contents ++ [encode op] = taken ++ t.squeue.contents
            ∧ (call.submission s.protocol).Carries app s.mem t.mem op
            ∧ ∀ bs, Represents app s.mem bs →
              (call.submission s.protocol).OneBlock app t.mem op bs) := by
  have hinv : SubmitInv app encode s := hreach.invariant (SubmitInv app encode)
    ⟨⟨_, AccessState.refines_create squeueSize_pos squeueSize_lt⟩, Or.inl rfl⟩
    (fun _ _ _ hI hs => hI.step hs)
  obtain ⟨⟨rb, hrb⟩, -⟩ := hinv
  obtain ⟨⟨rb', hrb'⟩, ⟨taken, htaken⟩, hstage⟩ :=
    (InCall.start hrb hcall).run hrun hes
  refine ⟨taken, htaken.symm, ?_⟩
  have hbefore := hrb.produced_eq
  have hafter := hrb'.produced_eq
  rw [← htaken, List.append_assoc] at hafter
  rw [Stage, hreturned] at hstage
  rcases hstage.2 with ⟨hfalse, hsame⟩ | ⟨htrue, hfutex, op, hcarries, happended⟩
  · refine Or.inl ⟨hfalse, hsame.mem, hsame.squeueFutex, ?_⟩
    rw [hsame.produced, hbefore] at hafter
    exact List.append_cancel_left hafter
  · refine Or.inr ⟨htrue, hfutex, op, ?_, hcarries, fun bs hrep =>
      hcarries.oneBlock (call.sizeFits_submission hsize s.protocol) hrep⟩
    rw [happended, hbefore, List.append_assoc] at hafter
    exact List.append_cancel_left hafter

/-- A write of three bytes on an empty heap, while the consumer looks at the
squeue and finds it empty. -/
theorem submit_all_or_nothing_three :
    ∃ t : SubmitState 1 PifusOperation, t.returned = some true
      ∧ t.squeueFutex = 1 ∧ ∃ block bs', t.squeue.contents = [fun _ =>
          ⟨.tcpWrite, .write (ofInt64 (offsetOf exampleRegion block))⟩]
      ∧ Represents exampleRegion t.mem bs'
      ∧ (liveOf (exampleRegion.addr + 4) bs').Perm [(block, 3)] := by
  let encode : PifusOperation → Element 1 PifusOperation := fun op _ => op
  let s : SubmitState 1 PifusOperation :=
    initial .tcp (fun _ _ => ⟨.nop, .unset⟩) 0 .low HeapState.zeroed.mem
  let es : List (SubmitEvent 1 PifusOperation) :=
    [.tick, .stack .peek, .tick, .stack .consumer, .tick, .tick,
      .stack .consumer] ++ List.replicate 8 .tick
  have ht : ((submitStep exampleRegion encode s (.call (.write [1, 2, 3]))).bind
      (fun u => es.foldlM (submitStep exampleRegion encode) u)).any (fun t =>
        t.returned = some true ∧ t.squeue.consumed.length = 0
        ∧ (match t.pc with | .outside => true | _ => false) = true) = true := by
    decide +kernel
  obtain ⟨t, hrun, ht⟩ := (Option.any_eq_true _ _).mp ht
  obtain ⟨u, hcall, hrun⟩ := Option.bind_eq_some_iff.mp hrun
  obtain ⟨htrue, hconsumed, hpc⟩ := of_decide_eq_true ht
  have hpc : t.pc = .outside := by
    split at hpc
    · assumption
    · exact absurd hpc (by simp)
  have hes : ∀ e ∈ es, e.InCall := by
    intro e he
    simp only [es, List.mem_append, List.mem_cons, List.mem_replicate,
      List.not_mem_nil, or_false] at he
    rcases he with (rfl | rfl | rfl | rfl | rfl | rfl | rfl) | ⟨-, rfl⟩ <;>
      exact True.intro
  obtain ⟨taken, htaken, ⟨hfalse, -⟩ | ⟨-, hfutex, op, hcontents, -, hblock⟩⟩ :=
    submit_all_or_nothing (Run.nil : Run (SubmitStep exampleRegion encode) s [] s)
      hcall (Run.of_foldlM hrun) hes hpc ⟨by decide, by decide⟩
  · rw [htrue] at hfalse
    exact absurd hfalse (by simp)
  · obtain ⟨block, bs', rfl, hrep, hlive⟩ := hblock [] represents_zeroed
    have hnil : t.squeue.consumed = [] := List.length_eq_zero_iff.mp hconsumed
    rw [hnil] at htaken
    obtain rfl : taken = [] := (List.append_eq_nil_iff.mp htaken.symm).2
    have hone : (0 : UInt32) + 1 = 1 := by decide
    exact ⟨t, htrue, hfutex.trans hone, block, bs', hcontents.symm, hrep, hlive⟩

end SubmitState
