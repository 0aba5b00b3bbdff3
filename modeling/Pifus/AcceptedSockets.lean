import Mathlib.Data.List.Basic
import Pifus.Discovery
import Pifus.Operation
import Pifus.RingBuffer

/-!
# From an accepted connection to its socket

A connection reaches the app in three steps. lwIP calls
`tcp_accepted_callback` of a listening socket, which puts a `TCP_ACCEPT`
result with the new pcb into the socket's cqueue; the app pops the result; and
the pop creates a socket for the pcb. Between the steps the cqueue takes other
results as well, and the app creates sockets of its own.

lwIP calls the callback in two situations. A connection has been established:
then there is a pcb and `err` is `ERR_OK`. Or a connection request came and
there was no memory for a pcb: then the pcb is `NULL` and `err` is `ERR_MEM`.
The callback does not look at `err`.

What else the callback does with the pcb is in `Pifus.PcbStates`, and the
stack's side of a new socket in `Pifus.Discovery`.
-/

/-- The data of a `TCP_ACCEPT` result. -/
structure AcceptData where
  socket : Option ℕ
  pcb : Option ℕ
  deriving DecidableEq

/-- A socket as its app creates it, and the number in the name of its
region. -/
structure CreatedSocket where
  number : ℕ
  region : SocketRegion
  deriving DecidableEq

/-- `pcb.tcp` of the socket. -/
def CreatedSocket.tcp (socket : CreatedSocket) : Option ℕ := socket.region.pcb

/-- A listening socket and its app, and the history of what lwIP delivered and
the app created. -/
structure AcceptState where
  cqueue : RingBuffer (PifusOperationResult AcceptData)
  /-- `accepted_sockets_priority` of the socket. -/
  acceptedSocketsPriority : PifusPriority
  /-- `highest_socket_number` of the app. -/
  highestSocketNumber : ℕ
  /-- The pcbs that `tcp_accepted_callback` was called with, oldest first. -/
  delivered : List (Option ℕ)
  /-- The results the app popped, as it got them. -/
  popped : List (PifusOperationResult AcceptData)
  /-- The sockets that pops created, oldest first. -/
  created : List CreatedSocket

/-- What can happen next. -/
inductive AcceptEvent
  /-- lwIP calls `tcp_accepted_callback`. -/
  | accept (newpcb : Option ℕ)
  /-- Another result of the socket. -/
  | result (r : PifusOperationResult AcceptData)
  /-- The app calls `pifus_socket_accept`. -/
  | pifusSocketAccept (priority : PifusPriority)
  /-- The app creates a socket of its own. -/
  | pifusSocket (protocol : PifusProtocol) (priority : PifusPriority)
  /-- The app calls `pifus_socket_pop_result`. -/
  | pop

namespace AcceptState

/-- `enqueue_in_cqueue`. -/
def enqueueInCqueue (s : AcceptState) (r : PifusOperationResult AcceptData) :
    AcceptState :=
  match s.cqueue.put r with
  | some ring => { s with cqueue := ring }
  | none => s

/-- What `tcp_accepted_callback` makes of a pcb. -/
def acceptResult (newpcb : Option ℕ) : PifusOperationResult AcceptData :=
  ⟨.tcpAccept, .ok, ⟨none, newpcb⟩⟩

/-- `tcp_accepted_callback`. -/
def tcpAcceptedCallback (s : AcceptState) (newpcb : Option ℕ) : AcceptState :=
  ({ s with delivered := s.delivered ++ [newpcb] } : AcceptState).enqueueInCqueue
    (acceptResult newpcb)

/-- `map_socket_region`: a region of zeros under the next number. -/
def mapSocketRegion (s : AcceptState) : AcceptState × CreatedSocket :=
  ({ s with highestSocketNumber := s.highestSocketNumber + 1 },
    ⟨s.highestSocketNumber + 1, .zeroed⟩)

/-- `pifus_socket_with_tcp_pcb`. -/
def pifusSocketWithTcpPcb (s : AcceptState) (protocol : PifusProtocol)
    (priority : PifusPriority) (tcpPcb : Option ℕ) : AcceptState × CreatedSocket :=
  let (s, socket) := s.mapSocketRegion
  let region := { socket.region with
    protocol := protocol, priority := priority }
  (s, ⟨socket.number,
    if tcpPcb ≠ none then { region with pcb := tcpPcb } else region⟩)

/-- `dequeue_operation`, as far as accepted connections are concerned. -/
def dequeueOperation (s : AcceptState) : AcceptState :=
  match s.cqueue.get with
  | some (r, ring) =>
    let s := { s with cqueue := ring }
    if r.code = .tcpAccept ∧ r.resultCode = .ok then
      let (s, socket) := s.pifusSocketWithTcpPcb .tcp s.acceptedSocketsPriority
        r.data.pcb
      { s with
        popped := s.popped
          ++ [{ r with data := { r.data with socket := some socket.number } }]
        created := s.created ++ [socket] }
    else { s with popped := s.popped ++ [r] }
  | none => s

end AcceptState

/-- **A step of lwIP, of the stack or of the app.** Only
`tcp_accepted_callback` makes `TCP_ACCEPT` results for the cqueue. -/
def acceptStep (s : AcceptState) : AcceptEvent → Option AcceptState
  | .accept newpcb => some (s.tcpAcceptedCallback newpcb)
  | .result r => if r.code ≠ .tcpAccept then some (s.enqueueInCqueue r) else none
  | .pifusSocketAccept priority =>
    some { s with acceptedSocketsPriority := priority }
  | .pifusSocket protocol priority =>
    some (s.pifusSocketWithTcpPcb protocol priority none).1
  | .pop => some s.dequeueOperation

/-- The steps as a relation. -/
def AcceptStep (s : AcceptState) (e : AcceptEvent) (t : AcceptState) : Prop :=
  acceptStep s e = some t

/-- A result that is about a connection. -/
def isAccept (r : PifusOperationResult AcceptData) : Bool :=
  r.code = .tcpAccept

namespace AcceptState

/-- The cqueue has room for the result. -/
def NoOverflow (s : AcceptState) : AcceptEvent → Prop
  | .accept _ | .result _ => s.cqueue.isFull = false
  | _ => True

instance (s : AcceptState) (e : AcceptEvent) : Decidable (s.NoOverflow e) := by
  cases e <;> unfold NoOverflow <;> infer_instance

/-- How many `TCP_ACCEPT` results the app has popped. -/
def acceptsPopped (s : AcceptState) : ℕ := s.popped.countP isAccept

/-- The connections established among the calls of the callback whose results
the app has popped. -/
def connections (s : AcceptState) : List ℕ :=
  (s.delivered.take s.acceptsPopped).filterMap id

/-- **Sockets and connections correspond**: the sockets have different regions,
one after the other, and their pcbs are those of the connections, in order. -/
def Corresponds (s : AcceptState) : Prop :=
  s.created.map CreatedSocket.tcp = s.connections.map some
    ∧ s.created.Pairwise (fun a b => a.number < b.number)

instance (s : AcceptState) : Decidable s.Corresponds :=
  inferInstanceAs (Decidable (_ ∧ _))

/-- A listening socket, before anything was delivered. -/
structure Initial (s : AcceptState) : Prop where
  cqueue : s.cqueue.contents = []
  delivered : s.delivered = []
  popped : s.popped = []
  created : s.created = []

/-- **The invariant**: the results of the calls of the callback wait in the
cqueue in order, and those popped have become sockets. -/
structure AcceptInv (s : AcceptState) : Prop where
  pending : s.cqueue.contents.filter isAccept
    = (s.delivered.drop s.created.length).map acceptResult
  created : s.created.map CreatedSocket.tcp
    = s.delivered.take s.created.length
  popped : (s.popped.filter isAccept).map (fun r => r.data.socket)
    = s.created.map (fun socket => some socket.number)
  numbers : s.created.Pairwise (fun a b => a.number < b.number)
  highest : ∀ socket ∈ s.created, socket.number ≤ s.highestSocketNumber

variable {start s t : AcceptState}

theorem AcceptInv.le_delivered (h : AcceptInv s) :
    s.created.length ≤ s.delivered.length := by
  have hlength := congrArg List.length h.created
  rw [List.length_map, List.length_take] at hlength
  omega

theorem AcceptInv.acceptsPopped_eq (h : AcceptInv s) :
    s.acceptsPopped = s.created.length := by
  have hlength := congrArg List.length h.popped
  rw [List.length_map, List.length_map] at hlength
  rw [acceptsPopped, List.countP_eq_length_filter, hlength]

/-! ## The steps -/

theorem enqueueInCqueue_eq (r : PifusOperationResult AcceptData)
    (hroom : s.cqueue.isFull = false) :
    ∃ ring, ring.contents = s.cqueue.contents ++ [r]
      ∧ s.enqueueInCqueue r = { s with cqueue := ring } := by
  unfold enqueueInCqueue
  split
  · exact ⟨_, RingBuffer.contents_put ‹_›, rfl⟩
  · rename_i hnone
    rw [RingBuffer.put_eq_none_iff, ← RingBuffer.isFull_iff, hroom] at hnone
    exact absurd hnone (by simp)

/-- **`tcp_accepted_callback`** hands over the pcb, whether there is one or
not. -/
theorem AcceptInv.accept (h : AcceptInv s) (newpcb : Option ℕ)
    (hroom : s.cqueue.isFull = false) :
    AcceptInv (s.tcpAcceptedCallback newpcb) := by
  obtain ⟨ring, hring, heq⟩ := enqueueInCqueue_eq
    (s := { s with delivered := s.delivered ++ [newpcb] })
    (acceptResult newpcb) hroom
  have hle := h.le_delivered
  unfold tcpAcceptedCallback
  rw [heq]
  refine ⟨?_, ?_, h.popped, h.numbers, h.highest⟩
  · show ring.contents.filter isAccept
      = ((s.delivered ++ [newpcb]).drop s.created.length).map acceptResult
    rw [hring, List.filter_append, h.pending, List.drop_append_of_le_length hle,
      List.map_append]
    rfl
  · show s.created.map CreatedSocket.tcp
      = (s.delivered ++ [newpcb]).take s.created.length
    rw [List.take_append_of_le_length hle]
    exact h.created

theorem AcceptInv.result (h : AcceptInv s)
    {r : PifusOperationResult AcceptData} (hcode : r.code ≠ .tcpAccept)
    (hroom : s.cqueue.isFull = false) : AcceptInv (s.enqueueInCqueue r) := by
  obtain ⟨ring, hring, heq⟩ := enqueueInCqueue_eq r hroom
  rw [heq]
  refine ⟨?_, h.created, h.popped, h.numbers, h.highest⟩
  show ring.contents.filter isAccept = _
  rw [hring, List.filter_append, List.filter_cons_of_neg (by simp [isAccept, hcode])]
  simpa using h.pending

/-- The region is zeroed, so a socket has the pcb it is given, or none. -/
theorem pifusSocketWithTcpPcb_eq (s : AcceptState) (protocol : PifusProtocol)
    (priority : PifusPriority) (tcpPcb : Option ℕ) :
    s.pifusSocketWithTcpPcb protocol priority tcpPcb
      = ({ s with highestSocketNumber := s.highestSocketNumber + 1 },
        ⟨s.highestSocketNumber + 1, ⟨protocol, priority, tcpPcb⟩⟩) := by
  cases tcpPcb <;> rfl

/-- A pop of the oldest result. -/
theorem dequeueOperation_eq {r : PifusOperationResult AcceptData}
    {ring : RingBuffer (PifusOperationResult AcceptData)}
    (hget : s.cqueue.get = some (r, ring)) :
    s.dequeueOperation
      = if r.code = .tcpAccept ∧ r.resultCode = .ok then { s with
          cqueue := ring, highestSocketNumber := s.highestSocketNumber + 1
          popped := s.popped ++ [{ r with data := { r.data with
            socket := some (s.highestSocketNumber + 1) } }]
          created := s.created ++ [⟨s.highestSocketNumber + 1,
            .tcp, s.acceptedSocketsPriority, r.data.pcb⟩] }
        else { s with cqueue := ring, popped := s.popped ++ [r] } := by
  unfold dequeueOperation
  rw [hget]
  dsimp only
  rw [pifusSocketWithTcpPcb_eq]

/-- **A pop** makes a socket of the oldest result about a connection. -/
theorem AcceptInv.pop (h : AcceptInv s) : AcceptInv s.dequeueOperation := by
  cases hget : s.cqueue.get with
  | none =>
    unfold dequeueOperation
    rw [hget]
    exact h
  | some p =>
    obtain ⟨r, ring⟩ := p
    have hcontents := RingBuffer.contents_get hget
    have hpending := h.pending
    rw [hcontents] at hpending
    rw [dequeueOperation_eq hget]
    by_cases hr : isAccept r = true
    · -- it is the result of the oldest call without a socket
      rw [List.filter_cons_of_pos hr] at hpending
      obtain ⟨newpcb, later, hdrop, hresult, hlater⟩ :=
        List.map_eq_cons_iff.mp hpending.symm
      have htake : s.delivered.take (s.created.length + 1)
          = s.delivered.take s.created.length ++ [newpcb] := by
        rw [List.take_add_one, ← List.head?_drop, hdrop]
        rfl
      have hrest : s.delivered.drop (s.created.length + 1) = later := by
        rw [← List.tail_drop, hdrop]
        rfl
      rw [if_pos (by rw [← hresult]; exact ⟨rfl, rfl⟩)]
      refine ⟨?_, ?_, ?_, ?_, ?_⟩
      · show ring.contents.filter isAccept
          = (s.delivered.drop (s.created ++ [_]).length).map acceptResult
        rw [List.length_append, List.length_singleton, hrest, hlater]
      · show (s.created ++ [_]).map CreatedSocket.tcp
          = s.delivered.take (s.created ++ [_]).length
        rw [List.map_append, h.created, List.length_append,
          List.length_singleton, htake, ← hresult]
        rfl
      · show ((s.popped ++ [_]).filter isAccept).map _
          = (s.created ++ [_]).map _
        rw [List.filter_append, List.map_append, h.popped, List.map_append,
          List.filter_cons_of_pos (by exact hr)]
        rfl
      · show (s.created ++ [_]).Pairwise _
        refine List.pairwise_append.mpr ⟨h.numbers, List.pairwise_singleton _ _,
          fun a ha b hb => ?_⟩
        rw [List.mem_singleton.mp hb]
        exact Nat.lt_succ_of_le (h.highest a ha)
      · intro socket hsocket
        rcases List.mem_append.mp hsocket with hsocket | hsocket
        · exact Nat.le_succ_of_le (h.highest socket hsocket)
        · exact Nat.le_of_eq (congrArg CreatedSocket.number
            (List.mem_singleton.mp hsocket))
    · rw [List.filter_cons_of_neg hr] at hpending
      rw [if_neg (fun hcode => hr (decide_eq_true hcode.1))]
      refine ⟨hpending, h.created, ?_, h.numbers, h.highest⟩
      show ((s.popped ++ [r]).filter isAccept).map _ = _
      rw [List.filter_append, List.filter_cons_of_neg hr, List.filter_nil,
        List.append_nil]
      exact h.popped

/-- **Every step keeps the invariant**, as long as the cqueue does not
overflow. -/
theorem AcceptInv.step {e : AcceptEvent} (h : AcceptInv s)
    (hs : Guarded NoOverflow AcceptStep s e t) : AcceptInv t := by
  obtain ⟨hroom, hs⟩ := hs
  unfold AcceptStep at hs
  cases e with
  | accept newpcb =>
    obtain rfl := Option.some.inj hs
    exact h.accept newpcb hroom
  | result r =>
    rw [acceptStep] at hs
    split at hs
    · obtain rfl := Option.some.inj hs
      exact h.result ‹_› hroom
    · exact absurd hs (by simp)
  | pifusSocketAccept priority =>
    obtain rfl := Option.some.inj hs
    exact ⟨h.pending, h.created, h.popped, h.numbers, h.highest⟩
  | pifusSocket protocol priority =>
    obtain rfl := Option.some.inj hs
    exact ⟨h.pending, h.created, h.popped, h.numbers,
      fun socket hsocket => Nat.le_succ_of_le (h.highest socket hsocket)⟩
  | pop =>
    obtain rfl := Option.some.inj hs
    exact h.pop

theorem acceptInv_initial (h : start.Initial) : AcceptInv start := by
  refine ⟨?_, ?_, ?_, ?_, ?_⟩
  · rw [h.cqueue, h.delivered, List.drop_nil]
    rfl
  · rw [h.created]
    rfl
  · rw [h.popped, h.created]
    rfl
  · rw [h.created]
    exact List.Pairwise.nil
  · rw [h.created]
    exact fun socket hsocket => absurd hsocket (by simp)

/-! ## Runs -/

/-- The pointers of a list are those it has, if and only if none is `NULL`. -/
theorem eq_map_some_iff {α : Type*} (l : List (Option α)) :
    l = (l.filterMap id).map some ↔ ∀ x ∈ l, x ≠ none := by
  constructor
  · intro h x hx
    rw [h] at hx
    obtain ⟨a, -, rfl⟩ := List.mem_map.mp hx
    simp
  · intro h
    induction l with
    | nil => rfl
    | cons x l ih =>
      obtain ⟨a, rfl⟩ := Option.ne_none_iff_exists'.mp (h x List.mem_cons_self)
      rw [List.filterMap_cons_some (by rfl), List.map_cons,
        ← ih (fun y hy => h y (List.mem_cons_of_mem _ hy))]

/-- **When sockets and connections correspond**: if and only if each of the
calls of `tcp_accepted_callback` whose result the app has popped was for a
connection. Every one of these calls has led to a socket. -/
theorem accepted_sockets_correspond_iff {es : List AcceptEvent}
    (hstart : start.Initial)
    (h : Run (Guarded NoOverflow AcceptStep) start es s) :
    (s.Corresponds ↔ ∀ newpcb ∈ s.delivered.take s.acceptsPopped,
      newpcb ≠ none)
    ∧ s.created.length = s.acceptsPopped
    ∧ s.acceptsPopped + s.cqueue.contents.countP isAccept
      = s.delivered.length := by
  have hinv : AcceptInv s := h.invariant AcceptInv (acceptInv_initial hstart)
    (fun _ _ _ hI hs => hI.step hs)
  have hpopped := hinv.acceptsPopped_eq
  refine ⟨?_, hpopped.symm, ?_⟩
  · rw [← eq_map_some_iff]
    unfold Corresponds connections
    rw [hinv.created, hpopped]
    exact ⟨And.left, fun heq => ⟨heq, hinv.numbers⟩⟩
  · have hpending := congrArg List.length hinv.pending
    rw [List.length_map, List.length_drop] at hpending
    have hle := hinv.le_delivered
    rw [hpopped, List.countP_eq_length_filter, hpending]
    omega

/-- A listening socket with number 1. -/
def listening : AcceptState :=
  ⟨.create (fun _ => ⟨.nop, .ok, ⟨none, none⟩⟩) cqueueSize cqueueSize_pos
    cqueueSize_lt, .medium, 1, [], [], []⟩

theorem listening_initial : listening.Initial :=
  ⟨rfl, rfl, rfl, rfl⟩

/-- Two connections, with another result between them and a socket of the app's
own in front of the second pop. -/
theorem accepted_sockets_correspond_iff_two :
    ∃ s : AcceptState, s.created = [⟨2, .tcp, .medium, some 70⟩,
        ⟨4, .tcp, .medium, some 71⟩]
      ∧ s.delivered = [some 70, some 71] ∧ s.Corresponds := by
  have hs : ([.accept (some 70), .result ⟨.connectionLost, .ok, ⟨none, none⟩⟩,
      .accept (some 71), .pop, .pop, .pifusSocket .tcp .low, .pop].foldlM
      (guardedStep NoOverflow acceptStep) listening).any (fun s =>
      s.created = [⟨2, .tcp, .medium, some 70⟩, ⟨4, .tcp, .medium, some 71⟩]
        ∧ s.delivered = [some 70, some 71]
        ∧ ∀ newpcb ∈ s.delivered.take s.acceptsPopped, newpcb ≠ none)
      = true := by decide +kernel
  obtain ⟨s, hrun, hp⟩ := (Option.any_eq_true _ _).mp hs
  obtain ⟨hcreated, hdelivered, hpcbs⟩ := of_decide_eq_true hp
  exact ⟨s, hcreated, hdelivered, (accepted_sockets_correspond_iff
    listening_initial (Run.guarded_of_foldlM hrun)).1.mpr hpcbs⟩

/-- **A failed accept makes a socket**: lwIP has no memory for a pcb and calls
the callback with `NULL`; the app pops a result with `PIFUS_OK` and gets a
socket without a pcb, though no connection was established. -/
theorem failed_accept_creates_socket :
    ∃ (es : List AcceptEvent) (s : AcceptState),
      Run (Guarded NoOverflow AcceptStep) listening es s
      ∧ s.delivered = [none] ∧ s.created = [⟨2, .tcp, .medium, none⟩]
      ∧ s.connections = [] ∧ ¬ s.Corresponds := by
  have hs : ([.accept none, .pop].foldlM (guardedStep NoOverflow acceptStep)
      listening).any (fun s => s.delivered = [none]
        ∧ s.created = [⟨2, .tcp, .medium, none⟩] ∧ s.connections = []
        ∧ ¬ s.Corresponds) = true := by decide +kernel
  obtain ⟨s, hrun, hp⟩ := (Option.any_eq_true _ _).mp hs
  exact ⟨_, s, Run.guarded_of_foldlM hrun, of_decide_eq_true hp⟩

end AcceptState
