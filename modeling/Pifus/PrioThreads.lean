import Pifus.FillWaitv
import Pifus.SqueueChange

/-!
# The prio threads

`prio_thread_loop` runs in three threads, one for each priority. A thread
drains its new-socket queue into its list, passes over the list with
`fill_prio_waitv`, and waits with `futex_waitv` for the words of its open
sockets and of its new-socket queue. The words are compared with shadows: that
of a socket counts the operations moved (`Pifus.SqueueChange`), and that of the
queue the sockets taken out of it.

The threads take their steps in any order, between those of the apps, of the
discovery thread and of the stack. The list, the shadow of the queue and
`socket_from_futex_nr` belong to a thread; `waitvs` is `static`, so there is
one array for all three. `futex_waitv` copies it when it is called, compares
all words at once and blocks if all have their expected values. An increment of
a word and the `futex_wake` behind it are one step: what is blocked on the word
in between is about to be woken.

A thread that accesses a node that is not in its list, writes behind the end of
an array or follows a pointer that was never set goes no further.
-/

/-- A cell of `socket_from_futex_nr`. -/
inductive SocketPtr
  | null | socket (id : PifusSocketIdentifier)
  /-- What was in the memory of the array. -/
  | garbage
  deriving DecidableEq

/-- Where a prio thread stands. -/
inductive PrioPc
  /-- In front of `pifus_socket_identifier_queue_get`. -/
  | draining
  /-- In front of `ListPushFront`. -/
  | pushing (id : PifusSocketIdentifier)
  /-- In front of `fill_prio_waitv`, and of its first `ListFirst`. -/
  | first
  /-- In front of `ListNext` in the first loop. -/
  | next
  /-- In front of the comparison of `squeue_futex` with its shadow. -/
  | comparing (id : PifusSocketIdentifier)
  /-- In `handle_squeue_change`, called from `fill_prio_waitv`. -/
  | handling (id : PifusSocketIdentifier)
  /-- In front of the writes to `waitvs` and `socket_from_futex_nr`. -/
  | recording (id : PifusSocketIdentifier)
  /-- In front of the `ListFirst` of the second loop. -/
  | removing
  /-- In front of `ListNext` in the second loop. -/
  | seeking (currentIndex : ℕ)
  /-- In front of the writes of the entry for the new-socket queue. -/
  | queueEntry
  /-- In front of `futex_waitv`. -/
  | waiting
  /-- Blocked in `futex_waitv`, which has copied these entries. -/
  | blocked (entries : List FutexWaitv)
  /-- `futex_waitv` has returned this number. -/
  | woken (retCode : ℕ)
  /-- In `handle_squeue_change`, called from the loop. -/
  | serving (id : PifusSocketIdentifier)
  /-- In front of `memset`. -/
  | clearing
  /-- The thread goes no further. -/
  | faulted
  deriving DecidableEq

/-- The socket that `handle_squeue_change` was called for. -/
def PrioPc.current : PrioPc → Option PifusSocketIdentifier
  | .handling id | .serving id => some id
  | _ => none

/-- The variables of `prio_thread_loop`. -/
structure PrioThread where
  pc : PrioPc
  list : LinkedList PifusSocketIdentifier
  /-- `current_amount_futexes`, and then `amount_futexes`. -/
  amountFutexes : ℕ
  removableSocketInsideList : Bool
  socketFromFutexNr : ℕ → SocketPtr
  newSocketQueueFutexShadow : UInt32
  /-- The sockets put into the list, the last one first. -/
  registered : List PifusSocketIdentifier
  /-- The entries of `waitvs` that the thread has written for its next
  `futex_waitv`. -/
  written : List FutexWaitv

/-- The sockets, the new-socket queues and the prio threads. -/
structure PrioState (α : Type) where
  sockets : PifusSocketIdentifier → SqueueState α
  /-- The slots of `socket_ptrs` that are not `NULL`. -/
  socketPtrs : PifusSocketIdentifier → Bool
  /-- `socket_queue` of each priority. -/
  queue : PifusPriority → RingBuffer PifusSocketIdentifier
  /-- `socket_queue_futex` of each priority. -/
  queueFutex : PifusPriority → UInt32
  /-- The queue the discovery thread has called `put` for and not incremented
  the futex of. -/
  handing : Option PifusPriority
  waitvs : ℕ → FutexWaitv
  threads : PifusPriority → PrioThread
  /-- The sockets that were handed to each priority, whether or not `put` had
  room for them. -/
  handed : PifusPriority → List PifusSocketIdentifier

/-- What can happen next. -/
inductive PrioEvent (α : Type)
  /-- An app calls `enqueue_operation`, up to the increment of the futex. -/
  | enqueue (id : PifusSocketIdentifier) (op : α)
  /-- An app increments `squeue_futex` and wakes who waits for it. -/
  | announce (id : PifusSocketIdentifier)
  /-- The stack, or another socket of the prio thread. -/
  | others (id : PifusSocketIdentifier)
      (txQueue : RingBuffer (InternalOperation α)) (dequeuedOps : UInt64)
  /-- The discovery thread maps a socket and puts its identifier into a queue,
  if that has room. -/
  | handOver (prio : PifusPriority) (id : PifusSocketIdentifier)
  /-- The discovery thread increments `socket_queue_futex` and wakes who waits
  for it. -/
  | announceSocket
  /-- The stack closes a socket. -/
  | close (id : PifusSocketIdentifier)
  /-- A prio thread takes its next step. `malloc` returns this node. -/
  | tick (prio : PifusPriority) (newNode : ℕ)
  /-- `futex_waitv` is interrupted. -/
  | interrupt (prio : PifusPriority)

/-- The slot of the socket is inside the tables of the stack. -/
def PifusSocketIdentifier.InTables (id : PifusSocketIdentifier) : Prop :=
  id.appIndex < maxAppAmount ∧ id.socketIndex < maxSocketsPerApp

instance (id : PifusSocketIdentifier) : Decidable id.InTables :=
  inferInstanceAs (Decidable (_ ∧ _))

namespace PrioState

variable {α : Type}

/-- The value of a word. -/
def word (s : PrioState α) : FutexWord → UInt32
  | .squeueFutex id => (s.sockets id).squeueFutex
  | .socketQueueFutex prio => s.queueFutex prio

/-- The state with other variables of a thread. -/
def setThread (s : PrioState α) (prio : PifusPriority) (th : PrioThread) :
    PrioState α :=
  { s with threads := Function.update s.threads prio th }

/-- The state with a step of a socket. -/
def stepSocket (s : PrioState α) (id : PifusSocketIdentifier)
    (e : SqueueEvent α) : Option (PrioState α) :=
  (squeueStep (s.sockets id) e).map (fun socket =>
    { s with sockets := Function.update s.sockets id socket })

/-- `futex_wake`. -/
def futexWake (s : PrioState α) (uaddr : FutexWord) : PrioState α :=
  { s with threads := fun prio =>
      match (s.threads prio).pc with
      | .blocked entries =>
        if uaddr ∈ entries.map FutexWaitv.uaddr then
          { s.threads prio with
            pc := .woken ((entries.map FutexWaitv.uaddr).idxOf uaddr) }
        else s.threads prio
      | _ => s.threads prio }

/-- A step inside `handle_squeue_change`, or behind it. -/
def handleSqueueChange (s : PrioState α) (prio : PifusPriority)
    (id : PifusSocketIdentifier) (behind : PrioPc) : Option (PrioState α) :=
  match (s.sockets id).pc with
  | .outside => some (s.setThread prio { s.threads prio with pc := behind })
  | _ => s.stepSocket id .tick

/-- The write of an entry of `waitvs`. -/
def putWaitv (s : PrioState α) (prio : PifusPriority) (entry : FutexWaitv)
    (socketFromFutexNr : ℕ → SocketPtr) (pc : PrioPc) : PrioState α :=
  let th := s.threads prio
  if th.amountFutexes < txMaxFutexesPerThread then
    { s with waitvs := Function.update s.waitvs th.amountFutexes entry }.setThread
      prio { th with
        amountFutexes := th.amountFutexes + 1
        written := th.written ++ [entry]
        socketFromFutexNr := socketFromFutexNr
        pc := pc }
  else s.setThread prio { th with pc := .faulted }

/-- The entries that `futex_waitv` is called with. -/
def passed (s : PrioState α) (prio : PifusPriority) : List FutexWaitv :=
  (List.range (s.threads prio).amountFutexes).map s.waitvs

/-- The next step of a prio thread. -/
def tick (s : PrioState α) (prio : PifusPriority) (newNode : ℕ) :
    Option (PrioState α) :=
  let th := s.threads prio
  let goto (th : PrioThread) : Option (PrioState α) :=
    some (s.setThread prio th)
  let fault : Option (PrioState α) := goto { th with pc := .faulted }
  match th.pc with
  | .draining =>
    match (s.queue prio).get with
    | some (id, ring) => some
        ({ s with queue := Function.update s.queue prio ring }.setThread prio
          { th with pc := .pushing id })
    | none => goto { th with pc := .first }
  | .pushing id =>
    if th.list.nodes newNode = none then
      match th.list.listPushFront newNode id with
      | some list => goto { th with
          list := list
          registered := id :: th.registered
          newSocketQueueFutexShadow := th.newSocketQueueFutexShadow + 1
          pc := .draining }
      | none => fault
    else none
  | .first =>
    match th.list.listFirst false with
    | some list => goto { th with
        list := list
        amountFutexes := 0
        written := []
        removableSocketInsideList := false
        pc := .next }
    | none => fault
  | .next =>
    match th.list.listNext with
    | some (none, list) => goto { th with
        list := list
        pc := if th.removableSocketInsideList then .removing else .queueEntry }
    | some (some id, list) =>
      if s.socketPtrs id then goto { th with list := list, pc := .comparing id }
      else goto { th with list := list, removableSocketInsideList := true }
    | none => fault
  | .comparing id =>
    if (s.sockets id).squeueFutex ≠ (s.sockets id).shadow then
      (s.stepSocket id .call).map (fun s =>
        s.setThread prio { th with pc := .handling id })
    else goto { th with pc := .recording id }
  | .handling id => s.handleSqueueChange prio id (.recording id)
  | .recording id => some (s.putWaitv prio
      ⟨.squeueFutex id, (s.sockets id).shadow⟩
      (Function.update th.socketFromFutexNr th.amountFutexes (.socket id)) .next)
  | .removing =>
    match th.list.listFirst false with
    | some list => goto { th with list := list, pc := .seeking 0 }
    | none => fault
  | .seeking currentIndex =>
    match th.list.listNext with
    | some (none, list) => goto { th with list := list, pc := .queueEntry }
    | some (some id, list) =>
      if s.socketPtrs id then goto { th with
        list := list, pc := .seeking ((currentIndex + 1) % 2 ^ 16) }
      else
        match list.listRemove currentIndex with
        | some r => goto { th with list := r.2, pc := .queueEntry }
        | none => fault
    | none => fault
  | .queueEntry => some (s.putWaitv prio
      ⟨.socketQueueFutex prio, th.newSocketQueueFutexShadow⟩
      th.socketFromFutexNr .waiting)
  | .waiting =>
    if ∀ entry ∈ s.passed prio, s.word entry.uaddr = entry.val then
      goto { th with pc := .blocked (s.passed prio) }
    else goto { th with pc := .draining }
  | .blocked _ => none
  | .woken retCode =>
    match th.socketFromFutexNr retCode with
    | .null => goto { th with pc := .clearing }
    | .socket id =>
      (s.stepSocket id .call).map (fun s =>
        s.setThread prio { th with pc := .serving id })
    | .garbage => fault
  | .serving id => s.handleSqueueChange prio id .clearing
  | .clearing => goto { th with
      socketFromFutexNr := fun _ => .null, pc := .draining }
  | .faulted => none

/-- The sockets that were handed over. -/
def everHanded (s : PrioState α) : List PifusSocketIdentifier :=
  s.handed .high ++ s.handed .medium ++ s.handed .low

/-- An iteration of `map_new_sockets`, up to the increment of the futex. Of
each socket there is one. -/
def handOver (s : PrioState α) (prio : PifusPriority)
    (id : PifusSocketIdentifier) : Option (PrioState α) :=
  if s.handing = none ∧ id.InTables ∧ id ∉ s.everHanded then
    some { s with
      socketPtrs := Function.update s.socketPtrs id true
      queue := Function.update s.queue prio
        (((s.queue prio).put id).getD (s.queue prio))
      handed := Function.update s.handed prio (s.handed prio ++ [id])
      handing := some prio }
  else none

end PrioState

variable {α : Type}

/-- **A step of an app, of the discovery thread, of the stack or of a prio
thread.** -/
def prioStep (s : PrioState α) : PrioEvent α → Option (PrioState α)
  | .enqueue id op => s.stepSocket id (.enqueue op)
  | .announce id =>
    (s.stepSocket id .announce).map (fun s => s.futexWake (.squeueFutex id))
  | .others id txQueue dequeuedOps =>
    s.stepSocket id (.others txQueue dequeuedOps)
  | .handOver prio id => s.handOver prio id
  | .announceSocket =>
    s.handing.map (fun prio =>
      { s with
        queueFutex := Function.update s.queueFutex prio (s.queueFutex prio + 1)
        handing := none }.futexWake (.socketQueueFutex prio))
  | .close id => some { s with
      socketPtrs := Function.update s.socketPtrs id false }
  | .tick prio newNode => s.tick prio newNode
  | .interrupt prio =>
    match (s.threads prio).pc with
    | .blocked _ =>
      some (s.setThread prio { s.threads prio with pc := .draining })
    | _ => none

namespace PrioState

/-- A prio thread that has just been started. -/
def startThread (iterRound : ℕ) (stale : ℕ → Bool) : PrioThread :=
  ⟨.draining, .listInit iterRound, 0, false,
    fun i => if stale i then .garbage else .null, 0, [], []⟩

/-- The prio threads have just been started, and no socket was handed over.
Apps may have been at work. -/
structure Initial (s : PrioState α) : Prop where
  sockets : ∀ id, (s.sockets id).Initial
  socketPtrs : ∀ id, s.socketPtrs id = false
  queue : ∀ prio, (s.queue prio).contents = []
  queueFutex : ∀ prio, s.queueFutex prio = 0
  handing : s.handing = none
  threads : ∀ prio, ∃ iterRound stale,
    s.threads prio = startThread iterRound stale
  handed : ∀ prio, s.handed prio = []

/-- A prio thread calls `futex_waitv` with the entries it has written. -/
def PassesOwn (s : PrioState α) : PrioEvent α → Prop
  | .tick prio _ => (s.threads prio).pc = .waiting →
      s.passed prio = (s.threads prio).written
  | _ => True

instance (s : PrioState α) (e : PrioEvent α) : Decidable (s.PassesOwn e) :=
  match e with
  | .tick _ _ => inferInstanceAs (Decidable (_ → _))
  | .enqueue _ _ | .announce _ | .others _ _ _ | .handOver _ _
  | .announceSocket | .close _ | .interrupt _ => isTrue trivial

end PrioState
