import Mathlib.Data.List.Perm.Basic
import Pifus.SqueueChange
import Pifus.StackRuns

/-!
# The limit on the operations of a socket

A prio thread puts an operation into its ring of `tx_queue` only while
`has_socket_max_parallel_ops` says that the socket has less than ten of them
there. The test reads two counters of the socket. The prio thread increments
`enqueued_ops` some steps after it has put an operation; the stack increments
`dequeued_ops` when it has processed one, which may be long before the entry
leaves the ring.

`handle_squeue_change` (`Pifus.SqueueChange`) and the main loop of the stack
(`Pifus.Stack`) are put together here. Each socket belongs to one of the three
rings. What a prio thread sees of the ring and of `dequeued_ops` is what the
stack has left there, and what it puts is a put for the stack.

What counts is how many operations were put and how many were counted as
dequeued: the difference is the number of entries not counted yet
(`StackInv.uncounted_add`), whichever place in a ring they have.
-/

/-- What `handle_squeue_change` sees of a ring of `tx_queue`. -/
def RingBuffer.operations (ring : RingBuffer TxEntry) :
    RingBuffer (InternalOperation PifusOperationCode) :=
  ⟨ring.endIndex, ring.head, ring.tail,
    fun i => ⟨(ring.buf i).op.code, (ring.buf i).op.socket⟩,
    ring.head_lt, ring.tail_lt, ring.endIndex_lt⟩

/-- The stack and the sockets with their prio threads. -/
structure RateState where
  stack : StackState
  sockets : ℕ → SqueueState PifusOperationCode

/-- What can happen next. -/
inductive RateEvent
  /-- The app of a socket calls `enqueue_operation`, up to the increment of
  the futex. -/
  | enqueue (socket : ℕ) (code : PifusOperationCode)
  /-- The app increments the futex. -/
  | announce (socket : ℕ)
  /-- The prio thread calls `handle_squeue_change` for a socket. -/
  | call (socket : ℕ)
  /-- The prio thread takes its next step for a socket. -/
  | tick (socket : ℕ)
  /-- The stack takes a step. -/
  | stack (e : StackEvent)

/-- The step is one of the stack, not a put of a prio thread. -/
def StackEvent.isStep : StackEvent → Bool
  | .put _ _ _ => false
  | _ => true

namespace RateState

/-- The socket as its prio thread finds it now. -/
def socketNow (prio : ℕ → TxPrio) (s : RateState) (socket : ℕ) :
    SqueueState PifusOperationCode :=
  { s.sockets socket with
    txQueue := (s.stack.queue (prio socket)).operations
    dequeuedOps := s.stack.dequeuedOps socket }

/-- The stack after the prio thread's next step for a socket. -/
def afterTick (prio : ℕ → TxPrio) (s : RateState) (socket : ℕ) : StackState :=
  match (s.sockets socket).pc with
  | .putting code _ => s.stack.put (prio socket) code socket
  | _ => s.stack

/-- The state with a step of a socket. -/
def stepSocket (prio : ℕ → TxPrio) (s : RateState) (socket : ℕ)
    (e : SqueueEvent PifusOperationCode) (stack : StackState) :
    Option RateState :=
  (squeueStep (s.socketNow prio socket) e).map (fun now =>
    ⟨stack, Function.update s.sockets socket now⟩)

end RateState

/-- **A step of an app, of a prio thread or of the stack**, where `prio` is
the ring each socket belongs to. No function of `pifus_socket.c` submits a
`NOP`. -/
def rateStep (prio : ℕ → TxPrio) (s : RateState) :
    RateEvent → Option RateState
  | .enqueue socket code =>
    if code ≠ .nop then s.stepSocket prio socket (.enqueue code) s.stack
    else none
  | .announce socket => s.stepSocket prio socket .announce s.stack
  | .call socket => s.stepSocket prio socket .call s.stack
  | .tick socket => s.stepSocket prio socket .tick (s.afterTick prio socket)
  | .stack e =>
    if e.isStep then (stackStep s.stack e).map (fun t => { s with stack := t })
    else none

/-- The steps as a relation. -/
def RateStep (prio : ℕ → TxPrio) (s : RateState) (e : RateEvent)
    (t : RateState) : Prop :=
  rateStep prio s e = some t

/-- The sum over the three rings. -/
def overPrios (f : TxPrio → ℕ) : ℕ := f .high + f .medium + f .low

namespace StackState

/-- The operations of a ring that were counted in `dequeued_ops`. -/
def counted (s : StackState) (prio : TxPrio) : List PifusInternalOperation :=
  (s.processed.filter (fun r => r.counts && r.prio = prio)).map
    (fun r => r.entry.origin)

/-- **The operations of a socket in `tx_queue` that the stack has not
counted** in `dequeued_ops`. -/
def uncounted (s : StackState) (socket : ℕ) : ℕ :=
  overPrios (fun q => (s.queue q).contents.countP
    (fun e => e.op.socket = socket && e.origin ∉ s.counted q))

/-- How often an operation of the socket was put into `tx_queue`. -/
def puts (s : StackState) (socket : ℕ) : ℕ :=
  overPrios (fun q => (s.log q).countP (fun op => op.socket = socket))

/-- How often `dequeued_ops` of the socket was incremented. -/
def dequeues (s : StackState) (socket : ℕ) : ℕ :=
  s.processed.countP (fun r => r.counts && r.entry.op.socket = socket)

/-- **No `NOP` was put**, and an entry is processed for the socket it was put
for. -/
structure PutsInv (s : StackState) : Prop where
  log : ∀ q, ∀ op ∈ s.log q, op.code ≠ .nop
  processed : ∀ r ∈ s.processed, r.entry.op.socket = r.entry.origin.socket
    ∧ r.entry.origin.code ≠ .nop

end StackState

/-! ## What was put and what was counted -/

variable {start s t : StackState} {socket : ℕ}

/-- In one ring: the entries not taken into account, and the operations that
took effect, are the operations that were put. -/
theorem QueueInv.countP_add {log eff : List PifusInternalOperation}
    {contents erased : List TxEntry} {mid : Option PifusInternalOperation}
    (h : QueueInv log eff contents erased mid) (socket : ℕ) :
    contents.countP (fun e => e.op.socket = socket && e.origin ∉ eff)
      + eff.countP (fun op => op.socket = socket)
      = log.countP (fun op => op.socket = socket) := by
  obtain ⟨rest, hlog, hcontents, -⟩ := h.split
  -- the operations that were put and have not taken effect are in the ring
  have hrest : contents.countP (fun e => e.op.socket = socket && e.origin ∉ eff)
      = log.countP (fun op => op.socket = socket && op ∉ eff) := by
    have herased : (erased.map TxEntry.origin).countP
        (fun op => op.socket = socket && op ∉ eff) = 0 := by
      rw [List.countP_eq_zero]
      intro op hop
      obtain ⟨e, he, rfl⟩ := List.mem_map.mp hop
      simp [h.gone e he]
    rw [hlog, List.countP_append, herased, Nat.zero_add, hcontents,
      List.countP_map]
    refine List.countP_congr (fun op _ => ?_)
    simp only [Function.comp_apply, entryOf]
    split <;> rfl
  have heff : eff.countP (fun op => op.socket = socket)
      = log.countP (fun op => op.socket = socket && op ∈ eff) := by
    have hperm : (log.filter (fun op => op ∈ eff)).Perm eff := by
      refine (List.perm_ext_iff_of_nodup (h.nodup.filter _)
        h.nodup_effects).mpr (fun op => ?_)
      simp only [List.mem_filter, decide_eq_true_eq]
      exact ⟨And.right, fun hop => ⟨h.subset hop, hop⟩⟩
    rw [← hperm.countP_eq, List.countP_filter]
  have hsplit := List.countP_eq_countP_filter_add log
    (fun op => op.socket = socket) (fun op => op ∉ eff)
  rw [List.countP_filter, List.countP_filter] at hsplit
  rw [hrest, heff, hsplit]
  simp only [decide_not, Bool.not_not]

/-- Where no `NOP` was put, an operation is counted when it takes effect. -/
theorem StackState.PutsInv.counted_eq (h : s.PutsInv) (q : TxPrio) :
    s.counted q = s.effects q := by
  unfold StackState.counted StackState.effects
  congr 1
  refine List.filter_congr (fun r hr => ?_)
  have hcode := (h.processed r hr).2
  unfold Processed.counts Processed.tookEffect
  grind

/-- Every increment is for an operation of one of the rings. -/
theorem StackState.PutsInv.dequeues_eq (h : s.PutsInv) (socket : ℕ) :
    overPrios (fun q => (s.counted q).countP (fun op => op.socket = socket))
      = s.dequeues socket := by
  have hprocessed := h.processed
  unfold StackState.counted StackState.dequeues overPrios
  simp only [List.countP_map, List.countP_filter]
  generalize s.processed = processed at hprocessed
  induction processed with
  | nil => rfl
  | cons r processed ih =>
    have ih := ih (fun r' hr' => hprocessed r' (List.mem_cons_of_mem _ hr'))
    have hsocket := (hprocessed r List.mem_cons_self).1
    simp only [List.countP_cons, Function.comp_apply, ← hsocket]
    rw [← ih]
    cases r.prio <;> cases r.counts <;> simp <;> omega


theorem QueueInv.origin_mem {log eff : List PifusInternalOperation}
    {contents erased : List TxEntry} {mid : Option PifusInternalOperation}
    {e : TxEntry} (h : QueueInv log eff contents erased mid)
    (he : e ∈ contents) : e.origin ∈ log := by
  obtain ⟨rest, rfl, rfl, -⟩ := h.split
  obtain ⟨op, hop, rfl⟩ := List.mem_map.mp he
  have horigin : (entryOf eff mid op).origin = op := by
    unfold entryOf
    split <;> rfl
  rw [horigin]
  exact List.mem_append_right _ hop

theorem QueueInv.socket_eq {log eff : List PifusInternalOperation}
    {contents erased : List TxEntry} {mid : Option PifusInternalOperation}
    {e : TxEntry} (h : QueueInv log eff contents erased mid)
    (he : e ∈ contents) : e.op.socket = e.origin.socket := by
  obtain ⟨rest, -, rfl, -⟩ := h.split
  obtain ⟨op, -, rfl⟩ := List.mem_map.mp he
  unfold entryOf
  split <;> rfl

/-- **What is not counted** in `dequeued_ops`, and what is, was put. -/
theorem StackInv.uncounted_add (h : StackInv start s) (hputs : s.PutsInv)
    (socket : ℕ) : s.uncounted socket + s.dequeues socket = s.puts socket := by
  obtain ⟨⟨mid, hqueues, -⟩, -⟩ := h
  rw [← hputs.dequeues_eq socket]
  unfold StackState.uncounted StackState.puts overPrios
  simp only [hputs.counted_eq, ← fun q => (hqueues q).countP_add socket]
  omega

/-! ## The steps of the stack -/

/-- A step of the stack puts nothing, and processes at most one entry of a
ring. -/
theorem stackStep_frame {e : StackEvent} (hstep : e.isStep = true)
    (hs : stackStep s e = some t) :
    t.log = s.log ∧ (t.processed = s.processed
      ∨ ∃ p cell recvScan d result, s.pc = .handling p cell recvScan d
        ∧ t.processed = s.processed ++ [⟨p, (s.queue p).buf cell, result⟩]) := by
  cases e with
  | put p code socket => exact absurd hstep (by simp [StackEvent.isStep])
  | call =>
    rw [stackStep] at hs
    split at hs
    · obtain rfl := Option.some.inj hs
      exact ⟨rfl, Or.inl rfl⟩
    · exact absurd hs (by simp)
  | tick =>
    rw [stackStep] at hs
    split at hs
    · obtain rfl := Option.some.inj hs
      unfold StackState.peek
      split <;> exact ⟨rfl, Or.inl rfl⟩
    · obtain rfl := Option.some.inj hs
      unfold StackState.find
      split <;> exact ⟨rfl, Or.inl rfl⟩
    · obtain ⟨p, -, rfl⟩ := Option.map_eq_some_iff.mp hs
      exact ⟨rfl, Or.inl rfl⟩
    · obtain rfl := Option.some.inj hs
      exact ⟨rfl, Or.inl rfl⟩
    · exact absurd hs (by simp)
  | process result =>
    rw [stackStep] at hs
    split at hs
    · rename_i p cell recvScan d hpc
      split at hs
      · obtain rfl := Option.some.inj hs
        have hframe : (s.handle p cell recvScan d result).log = s.log
            ∧ (s.handle p cell recvScan d result).processed
              = s.processed ++ [⟨p, (s.queue p).buf cell, result⟩] := by
          dsimp only [StackState.handle]
          split
          · exact ⟨rfl, rfl⟩
          · split
            · split <;> exact ⟨rfl, rfl⟩
            · exact ⟨rfl, rfl⟩
        exact ⟨hframe.1, Or.inr ⟨p, cell, recvScan, d, result, hpc, hframe.2⟩⟩
      · exact absurd hs (by simp)
    · exact absurd hs (by simp)

/-- A step of the stack changes nothing that was put, and counts at most one
more operation. -/
theorem stackStep_counts {e : StackEvent} (hstep : e.isStep = true)
    (hs : stackStep s e = some t) (socket : ℕ) :
    t.puts socket = s.puts socket ∧ s.dequeues socket ≤ t.dequeues socket := by
  obtain ⟨hlog, hprocessed⟩ := stackStep_frame hstep hs
  unfold StackState.puts StackState.dequeues
  rw [hlog]
  refine ⟨rfl, ?_⟩
  rcases hprocessed with hprocessed | ⟨p, cell, recvScan, d, result, -, hprocessed⟩
  · rw [hprocessed]
  · rw [hprocessed, List.countP_append]
    exact Nat.le_add_right _ _

/-- A step of the stack processes an entry for the socket it was put for. -/
theorem StackState.PutsInv.step {e : StackEvent} (h : s.PutsInv)
    (hinv : StackInv start s) (hstep : e.isStep = true)
    (hs : stackStep s e = some t) : t.PutsInv := by
  obtain ⟨hlog, hprocessed⟩ := stackStep_frame hstep hs
  refine ⟨by rw [hlog]; exact h.log, ?_⟩
  rcases hprocessed with hprocessed | ⟨p, cell, recvScan, d, result, hpc, hprocessed⟩
  · rw [hprocessed]
    exact h.processed
  · obtain ⟨⟨mid, hqueues, hmid⟩, -⟩ := hinv
    rw [PcInv, hpc] at hmid
    obtain ⟨-, l, entry, r, hcontents, hcell, -⟩ := hmid
    have hbuf := buf_of_contents hcontents
    rw [← hcell] at hbuf
    have hmem : entry ∈ (s.queue p).contents := by rw [hcontents]; simp
    rw [hprocessed, hbuf, List.forall_mem_append]
    refine ⟨h.processed, fun r hr => ?_⟩
    obtain rfl := List.mem_singleton.mp hr
    exact ⟨(hqueues p).socket_eq hmem, h.log p _ ((hqueues p).origin_mem hmem)⟩

/-! ## The puts -/

/-- Whether a ring is full does not depend on what is put. -/
theorem RingBuffer.put_operations (ring : RingBuffer TxEntry) (e : TxEntry)
    (op : InternalOperation PifusOperationCode) :
    ring.operations.put op = none ↔ ring.put e = none := by
  rw [put_eq_none_iff, put_eq_none_iff, length_contents, length_contents]
  exact Iff.rfl

/-- A put of a prio thread adds one operation of its socket, or none where the
ring is full. -/
theorem StackState.put_counts (s : StackState) (p : TxPrio)
    (code : PifusOperationCode) (socket : ℕ)
    (op : InternalOperation PifusOperationCode) :
    (s.queue p).operations.put op = none ∧ s.put p code socket = s
    ∨ (s.queue p).operations.put op ≠ none
      ∧ (∀ k, (s.put p code socket).puts k
        = s.puts k + if k = socket then 1 else 0)
      ∧ ∀ k, (s.put p code socket).dequeues k = s.dequeues k := by
  have hfull := (s.queue p).put_operations ⟨⟨code, socket, (s.log p).length⟩,
    ⟨code, socket, (s.log p).length⟩⟩ op
  rw [hfull]
  dsimp only [StackState.put]
  split
  · rename_i ring hput
    refine Or.inr ⟨by rw [Ne, hfull, hput]; simp, fun k => ?_,
      fun k => rfl⟩
    have hlog : ∀ q, (Function.update s.log p
        (s.log p ++ [⟨code, socket, (s.log p).length⟩]) q).countP
          (fun op => op.socket = k)
        = (s.log q).countP (fun op => op.socket = k)
          + if q = p ∧ k = socket then 1 else 0 := by
      intro q
      by_cases hq : q = p
      · subst hq
        rw [Function.update_self, List.countP_append, List.countP_singleton]
        simp [eq_comm]
      · rw [Function.update_of_ne hq]
        simp [hq]
    unfold StackState.puts overPrios
    simp only [hlog]
    cases p <;> simp <;> omega
  · exact Or.inl ⟨‹_›, rfl⟩

/-- A put of an operation that is no `NOP`. -/
theorem StackState.PutsInv.put (h : s.PutsInv) (p : TxPrio)
    {code : PifusOperationCode} (socket : ℕ) (hcode : code ≠ .nop) :
    (s.put p code socket).PutsInv := by
  dsimp only [StackState.put]
  split
  · refine ⟨fun q => ?_, h.processed⟩
    show ∀ op ∈ Function.update s.log p _ q, _
    by_cases hq : q = p
    · subst hq
      rw [Function.update_self, List.forall_mem_append]
      refine ⟨h.log q, fun op hop => ?_⟩
      rw [List.mem_singleton.mp hop]
      exact hcode
    · rw [Function.update_of_ne hq]
      exact h.log q
  · exact h

/-! ## The steps of a socket -/

namespace SqueueState

variable {sq sq' : SqueueState PifusOperationCode}

/-- The operations that were put into `tx_queue` and not yet counted in
`enqueued_ops`. -/
def inFlight (s : SqueueState PifusOperationCode) : ℕ :=
  match s.pc with
  | .erasing _ | .shadowing _ | .counting _ => 1
  | _ => 0

/-- The prio thread is between the test of the limit and the put. -/
def checked (s : SqueueState PifusOperationCode) : Bool :=
  match s.pc with
  | .peeking _ | .copying _ _ | .putting _ _ => true
  | _ => false

/-- **What a step of the prio thread means for the counters**: it puts an
operation after the test of the limit, or it puts none and `enqueued_ops` takes
over what was in flight. -/
theorem handle_counts (hs : sq.handle = some sq') :
    sq'.socket = sq.socket ∧ sq'.enqueued = sq.enqueued
    ∧ ((∃ op diff, sq.pc = .putting op diff
          ∧ sq.txQueue.put ⟨op, sq.socket⟩ ≠ none
          ∧ sq'.enqueuedOps = sq.enqueuedOps ∧ sq'.inFlight = 1
          ∧ sq'.checked = false)
      ∨ ((∀ op diff, sq.pc = .putting op diff →
            sq.txQueue.put ⟨op, sq.socket⟩ = none)
          ∧ sq'.enqueuedOps + UInt64.ofNat sq'.inFlight
            = sq.enqueuedOps + UInt64.ofNat sq.inFlight
          ∧ (sq'.checked = true → sq.checked = true
            ∨ sq.inFlight = 0 ∧ sq.hasSocketMaxParallelOps = false))) := by
  rw [handle] at hs
  cases hpc : sq.pc with
  | outside =>
    rw [hpc] at hs
    exact absurd hs (by simp)
  | reading d | erasing d | shadowing d | counting d =>
    rw [hpc] at hs
    obtain rfl := Option.some.inj hs
    exact ⟨rfl, rfl, Or.inr ⟨by simp, by simp [inFlight, hpc],
      by simp [checked]⟩⟩
  | looping diff =>
    rw [hpc] at hs
    dsimp only at hs
    split at hs
    · rename_i hgo
      obtain rfl := Option.some.inj hs
      exact ⟨rfl, rfl, Or.inr ⟨by simp, by simp [inFlight, hpc],
        fun _ => Or.inr ⟨by simp [inFlight, hpc], hgo.2⟩⟩⟩
    · obtain rfl := Option.some.inj hs
      exact ⟨rfl, rfl, Or.inr ⟨by simp, by simp [inFlight, hpc],
        by simp [checked]⟩⟩
  | peeking diff =>
    rw [hpc] at hs
    dsimp only at hs
    split at hs <;> obtain rfl := Option.some.inj hs <;>
      exact ⟨rfl, rfl, Or.inr ⟨by simp, by simp [inFlight, hpc],
        by simp [checked, hpc]⟩⟩
  | copying cell diff =>
    rw [hpc] at hs
    obtain rfl := Option.some.inj hs
    exact ⟨rfl, rfl, Or.inr ⟨by simp, by simp [inFlight, hpc],
      by simp [checked, hpc]⟩⟩
  | putting op diff =>
    rw [hpc] at hs
    obtain rfl := Option.some.inj hs
    unfold putTx
    split
    · rename_i ring hput
      exact ⟨rfl, rfl, Or.inl ⟨op, diff, rfl, by simp [hput], rfl, rfl, rfl⟩⟩
    · rename_i hput
      refine ⟨rfl, rfl, Or.inr ⟨fun op' diff' heq => ?_,
        by simp [inFlight, hpc], by simp [checked]⟩⟩
      obtain ⟨rfl, -⟩ := HandlePc.putting.inj heq
      exact hput

end SqueueState

/-! ## The invariant -/

/-- Empty rings, and sockets that have just been created. -/
structure RateState.Initial (s : RateState) : Prop where
  stack : s.stack.Initial
  log : ∀ q, s.stack.log q = []
  dequeuedOps : ∀ k, s.stack.dequeuedOps k = 0
  sockets : ∀ k, (s.sockets k).Initial
  socket : ∀ k, (s.sockets k).socket = k
  enqueuedOps : ∀ k, (s.sockets k).enqueuedOps = 0

/-- **The invariant of a socket**: `enqueued_ops` counts the puts up to the one
in flight, and after the test of the limit there is room for one more
operation. -/
structure SocketInv (stack : StackState) (k : ℕ)
    (sq : SqueueState PifusOperationCode) : Prop where
  socket : sq.socket = k
  squeue : SqueueInv sq
  nops : .nop ∉ sq.enqueued
  enqueuedOps : sq.enqueuedOps + UInt64.ofNat sq.inFlight
    = UInt64.ofNat (stack.puts k)
  limit : stack.puts k ≤ stack.dequeues k + txMaxParallelOpsPerSocket
  checked : sq.checked = true →
    stack.puts k < stack.dequeues k + txMaxParallelOpsPerSocket

/-- **The invariant of the stack and its sockets.** -/
structure RateInv (start : StackState) (s : RateState) : Prop where
  stack : StackInv start s.stack
  puts : s.stack.PutsInv
  sockets : ∀ k, SocketInv s.stack k (s.sockets k)

variable {prio : ℕ → TxPrio} {sq sq' : SqueueState PifusOperationCode}

theorem SocketInv.frame {stack stack' : StackState} {k : ℕ}
    (h : SocketInv stack k sq) (hputs : stack'.puts k = stack.puts k)
    (hdequeues : stack.dequeues k ≤ stack'.dequeues k) :
    SocketInv stack' k sq := by
  refine ⟨h.socket, h.squeue, h.nops, by rw [hputs]; exact h.enqueuedOps, ?_,
    fun hchecked => ?_⟩
  · rw [hputs]
    exact h.limit.trans (Nat.add_le_add_right hdequeues _)
  · rw [hputs]
    exact (h.checked hchecked).trans_le (Nat.add_le_add_right hdequeues _)

/-- A step of the socket's app. -/
theorem SocketInv.app {stack : StackState} {k : ℕ}
    {e : SqueueEvent PifusOperationCode} (h : SocketInv stack k sq)
    (hs : squeueStep sq e = some sq') (hsocket : sq'.socket = sq.socket)
    (hnops : .nop ∉ sq'.enqueued) (hops : sq'.enqueuedOps = sq.enqueuedOps)
    (hpc : sq'.pc = sq.pc) : SocketInv stack k sq' := by
  have hflight : sq'.inFlight = sq.inFlight := by
    unfold SqueueState.inFlight
    rw [hpc]
  have hchecked : sq'.checked = sq.checked := by
    unfold SqueueState.checked
    rw [hpc]
  refine ⟨hsocket.trans h.socket, h.squeue.step hs, hnops, ?_, h.limit, ?_⟩
  · rw [hops, hflight]
    exact h.enqueuedOps
  · rw [hchecked]
    exact h.checked

/-- The app enqueues an operation that is no `NOP`. -/
theorem SocketInv.enqueue {stack : StackState} {k : ℕ}
    {code : PifusOperationCode} (h : SocketInv stack k sq)
    (hcode : code ≠ .nop) (hs : squeueStep sq (.enqueue code) = some sq') :
    SocketInv stack k sq' := by
  obtain ⟨op, heq, -, rfl⟩ | ⟨heq, -⟩ | ⟨heq, -⟩ | ⟨heq, -⟩ | ⟨_, _, heq, -⟩ :=
    squeueStep_cases hs
  · obtain rfl := SqueueEvent.enqueue.inj heq
    refine h.app hs ?_ ?_ ?_ (SqueueState.pc_enqueue sq code)
    · unfold SqueueState.enqueue
      split <;> rfl
    · unfold SqueueState.enqueue
      split
      · simp [h.nops, Ne.symm hcode]
      · exact h.nops
    · unfold SqueueState.enqueue
      split <;> rfl
  all_goals exact absurd heq (by simp)

theorem SocketInv.announce {stack : StackState} {k : ℕ}
    (h : SocketInv stack k sq) (hs : squeueStep sq .announce = some sq') :
    SocketInv stack k sq' := by
  obtain ⟨_, heq, -⟩ | ⟨-, -, rfl⟩ | ⟨heq, -⟩ | ⟨heq, -⟩ | ⟨_, _, heq, -⟩ :=
    squeueStep_cases hs
  case inr.inl => exact h.app hs rfl h.nops rfl rfl
  all_goals exact absurd heq (by simp)

theorem SocketInv.call {stack : StackState} {k : ℕ} (h : SocketInv stack k sq)
    (hs : squeueStep sq .call = some sq') : SocketInv stack k sq' := by
  obtain ⟨_, heq, -⟩ | ⟨heq, -⟩ | ⟨-, hpc, rfl⟩ | ⟨heq, -⟩ | ⟨_, _, heq, -⟩ :=
    squeueStep_cases hs
  case inr.inr.inl =>
    have hops := h.enqueuedOps
    rw [SqueueState.inFlight, hpc] at hops
    exact ⟨h.socket, h.squeue.step hs, h.nops, hops, h.limit,
      fun hc => absurd hc (by simp [SqueueState.checked])⟩
  all_goals exact absurd heq (by simp)

/-- What the prio thread reads of the two counters, when nothing is in
flight. -/
theorem RateInv.counters {start : StackState} {s : RateState} {k : ℕ}
    (h : RateInv start s) (hstart : ∀ k, start.dequeuedOps k = 0)
    (hflight : (s.sockets k).inFlight = 0) :
    (s.sockets k).enqueuedOps = UInt64.ofNat (s.stack.puts k)
    ∧ s.stack.dequeuedOps k = UInt64.ofNat (s.stack.dequeues k)
    ∧ ((s.sockets k).enqueuedOps - s.stack.dequeuedOps k).toNat
      = s.stack.uncounted k := by
  have henqueued := (h.sockets k).enqueuedOps
  have hlimit := (h.sockets k).limit
  have hdequeued : s.stack.dequeuedOps k
      = UInt64.ofNat (s.stack.dequeues k) := by
    rw [h.stack.dequeued k, hstart k, UInt64.zero_add]
    rfl
  have hsum := h.stack.uncounted_add h.puts k
  rw [hflight, show UInt64.ofNat 0 = 0 from rfl, UInt64.add_zero] at henqueued
  refine ⟨henqueued, hdequeued, ?_⟩
  -- the difference of the counters is that of the counts, modulo 2^64
  have hdiff : UInt64.ofNat (s.stack.puts k) - UInt64.ofNat (s.stack.dequeues k)
      = UInt64.ofNat (s.stack.uncounted k) := by
    rw [← hsum, UInt64.ofNat_add, UInt64.add_sub_cancel]
  rw [henqueued, hdequeued, hdiff, UInt64.toNat_ofNat']
  refine Nat.mod_eq_of_lt ?_
  unfold txMaxParallelOpsPerSocket at hlimit
  omega

/-- **The step of a socket's prio thread.** -/
theorem RateInv.tick {start : StackState} {s : RateState} {k : ℕ}
    (h : RateInv start s) (hstart : ∀ k, start.dequeuedOps k = 0)
    (hs : (s.socketNow prio k).handle = some sq') :
    StackInv start (s.afterTick prio k) ∧ (s.afterTick prio k).PutsInv
    ∧ SocketInv (s.afterTick prio k) k sq'
    ∧ ∀ j, j ≠ k → SocketInv (s.afterTick prio k) j (s.sockets j) := by
  obtain ⟨hsocket, henqueued, hcounts⟩ := SqueueState.handle_counts hs
  have hk := h.sockets k
  have hsqueue : SqueueInv (s.socketNow prio k) :=
    ⟨hk.squeue.enqueued, hk.squeue.calls, hk.squeue.futex, hk.squeue.pc⟩
  have hsqueue' : SqueueInv sq' := hsqueue.handle hs
  have hnops' : PifusOperationCode.nop ∉ sq'.enqueued := by
    rw [henqueued]
    exact hk.nops
  have hquiet : s.afterTick prio k = s.stack →
      sq'.enqueuedOps + UInt64.ofNat sq'.inFlight
        = (s.sockets k).enqueuedOps + UInt64.ofNat (s.sockets k).inFlight →
      (sq'.checked = true → (s.sockets k).checked = true
        ∨ (s.sockets k).inFlight = 0
          ∧ (s.socketNow prio k).hasSocketMaxParallelOps = false) →
      StackInv start (s.afterTick prio k) ∧ (s.afterTick prio k).PutsInv
      ∧ SocketInv (s.afterTick prio k) k sq'
      ∧ ∀ j, j ≠ k → SocketInv (s.afterTick prio k) j (s.sockets j) := by
    intro hstack hops hchecked
    rw [hstack]
    refine ⟨h.stack, h.puts, ⟨hsocket.trans hk.socket, hsqueue', hnops',
      hops.trans hk.enqueuedOps, hk.limit, fun hc => ?_⟩,
      fun j _ => h.sockets j⟩
    rcases hchecked hc with hc | ⟨hflight, hmax⟩
    · exact hk.checked hc
    · -- the test has just found room
      obtain ⟨-, -, hdiff⟩ := h.counters hstart hflight
      have hsum := h.stack.uncounted_add h.puts k
      have hlt : ((s.sockets k).enqueuedOps - s.stack.dequeuedOps k).toNat
          < txMaxParallelOpsPerSocket := by
        unfold SqueueState.hasSocketMaxParallelOps at hmax
        exact Nat.lt_of_not_le (of_decide_eq_false hmax)
      omega
  rcases hcounts with ⟨op, diff, hpc, hput, hops, hflight, hnot⟩ |
    ⟨hnone, hops, hchecked⟩
  · -- an operation is put
    have hpc' : (s.sockets k).pc = .putting op diff := hpc
    have hstack : s.afterTick prio k = s.stack.put (prio k) op k := by
      unfold RateState.afterTick
      rw [hpc']
    have hop : op ≠ .nop := by
      rintro rfl
      have hmem := hk.squeue.pc
      rw [SqueueState.PcInv, hpc'] at hmem
      refine hk.nops ?_
      rw [hk.squeue.enqueued, SqueueState.rest, hpc']
      exact List.mem_append_right _ (List.mem_of_head? hmem.1)
    rcases s.stack.put_counts (prio k) op k ⟨op, (s.sockets k).socket⟩ with
      ⟨hfull, -⟩ | ⟨-, hputs, hdequeues⟩
    · exact absurd hfull hput
    · have hmore := hputs k
      rw [if_pos rfl] at hmore
      have hroom := hk.checked (by rw [SqueueState.checked, hpc'])
      have henqueuedOps := hk.enqueuedOps
      have hnone : (s.sockets k).inFlight = 0 := by rw [SqueueState.inFlight, hpc']
      rw [hnone, show UInt64.ofNat 0 = 0 from rfl,
      UInt64.add_zero] at henqueuedOps
      rw [hstack]
      refine ⟨h.stack.put _ _ _, h.puts.put _ _ hop,
        ⟨hsocket.trans hk.socket, hsqueue', hnops', ?_, ?_, ?_⟩, ?_⟩
      · rw [hops, hflight, hmore, UInt64.ofNat_add, ← henqueuedOps]
        rfl
      · rw [hmore, hdequeues]
        exact hroom
      · rw [hnot]
        exact fun hc => absurd hc (by simp)
      · intro j hj
        refine (h.sockets j).frame ?_ (hdequeues j).ge
        rw [hputs j, if_neg hj, Nat.add_zero]
  · refine hquiet ?_ hops hchecked
    unfold RateState.afterTick
    split
    · rename_i op diff hpc
      rcases s.stack.put_counts (prio k) op k ⟨op, (s.sockets k).socket⟩ with
        ⟨-, hsame⟩ | ⟨hput, -⟩
      · exact hsame
      · exact absurd (hnone op diff hpc) hput
    · rfl

/-- **Every step keeps the invariant.** -/
theorem RateInv.step {start : StackState} {s t : RateState} {e : RateEvent}
    (h : RateInv start s) (hstart : ∀ k, start.dequeuedOps k = 0)
    (hs : RateStep prio s e t) : RateInv start t := by
  unfold RateStep at hs
  have happ : ∀ {k : ℕ} {ev : SqueueEvent PifusOperationCode},
      s.stepSocket prio k ev s.stack = some t →
      (∀ sq', squeueStep (s.socketNow prio k) ev = some sq' →
        SocketInv s.stack k sq') → RateInv start t := by
    intro k ev hstep hk
    obtain ⟨sq', hsq, rfl⟩ := Option.map_eq_some_iff.mp hstep
    refine ⟨h.stack, h.puts, fun j => ?_⟩
    show SocketInv s.stack j (Function.update s.sockets k sq' j)
    by_cases hj : j = k
    · subst hj
      rw [Function.update_self]
      exact hk sq' hsq
    · rw [Function.update_of_ne hj]
      exact h.sockets j
  have hnow : ∀ k, SocketInv s.stack k (s.socketNow prio k) := fun k =>
    have hk := h.sockets k
    ⟨hk.socket, ⟨hk.squeue.enqueued, hk.squeue.calls, hk.squeue.futex,
      hk.squeue.pc⟩, hk.nops, hk.enqueuedOps, hk.limit, hk.checked⟩
  cases e with
  | enqueue k code =>
    rw [rateStep] at hs
    split at hs
    · exact happ hs (fun sq' hsq => (hnow k).enqueue ‹_› hsq)
    · exact absurd hs (by simp)
  | announce k => exact happ hs (fun sq' hsq => (hnow k).announce hsq)
  | call k => exact happ hs (fun sq' hsq => (hnow k).call hsq)
  | tick k =>
    obtain ⟨sq', hsq, rfl⟩ := Option.map_eq_some_iff.mp hs
    obtain ⟨hstack, hputs, hk, hothers⟩ := h.tick hstart hsq
    refine ⟨hstack, hputs, fun j => ?_⟩
    show SocketInv (s.afterTick prio k) j (Function.update s.sockets k sq' j)
    by_cases hj : j = k
    · subst hj
      rw [Function.update_self]
      exact hk
    · rw [Function.update_of_ne hj]
      exact hothers j hj
  | stack e =>
    rw [rateStep] at hs
    split at hs
    · rename_i hstep
      obtain ⟨stack, hstack, rfl⟩ := Option.map_eq_some_iff.mp hs
      refine ⟨h.stack.step hstack, h.puts.step h.stack hstep hstack,
        fun k => ?_⟩
      obtain ⟨hputs, hdequeues⟩ := stackStep_counts hstep hstack k
      exact (h.sockets k).frame hputs hdequeues
    · exact absurd hs (by simp)

theorem rateInv_initial {start : RateState} (h : start.Initial) :
    RateInv start.stack start := by
  have hputs : ∀ k, start.stack.puts k = 0 := fun k => by
    simp [StackState.puts, overPrios, h.log]
  refine ⟨stackInv_initial h.stack, ⟨fun q op hop => ?_, fun r hr => ?_⟩,
    fun k => ⟨h.socket k, squeueInv_initial (h.sockets k), ?_, ?_, ?_, ?_⟩⟩
  · rw [h.log q] at hop
    exact absurd hop (by simp)
  · rw [h.stack.processed] at hr
    exact absurd hr (by simp)
  · rw [(h.sockets k).enqueued]
    simp
  · rw [h.enqueuedOps k, SqueueState.inFlight, (h.sockets k).pc, hputs k]
    rfl
  · rw [hputs k]
    exact Nat.zero_le _
  · rw [SqueueState.checked, (h.sockets k).pc]
    exact fun hc => absurd hc (by simp)

/-! ## Runs -/

/-- **The limit holds at all times**, for every interleaving of the apps, the
prio threads and the stack: of no socket are there more than
`TX_MAX_PARALLEL_OPS_PER_SOCKET` operations in `tx_queue` that the stack has
not counted. And where `has_socket_max_parallel_ops` is evaluated,
`enqueued_ops` and `dequeued_ops` count the puts and the operations counted, the
second is at most the first – also as numbers of 64 bits, as long as
`enqueued_ops` has not wrapped – and their difference is the number of these
operations. -/
theorem socket_limit_holds {start s : RateState} {prio : ℕ → TxPrio}
    {es : List RateEvent} (hstart : start.Initial)
    (h : Run (RateStep prio) start es s) :
    (∀ k, s.stack.uncounted k ≤ txMaxParallelOpsPerSocket)
    ∧ ∀ k diff, (s.socketNow prio k).pc = .looping diff →
      (s.socketNow prio k).enqueuedOps = UInt64.ofNat (s.stack.puts k)
      ∧ (s.socketNow prio k).dequeuedOps = UInt64.ofNat (s.stack.dequeues k)
      ∧ s.stack.dequeues k ≤ s.stack.puts k
      ∧ (s.stack.puts k < UInt64.size →
        (s.socketNow prio k).dequeuedOps ≤ (s.socketNow prio k).enqueuedOps)
      ∧ ((s.socketNow prio k).enqueuedOps
          - (s.socketNow prio k).dequeuedOps).toNat = s.stack.uncounted k := by
  have hinv : RateInv start.stack s := h.invariant (RateInv start.stack)
    (rateInv_initial hstart) (fun _ _ _ hI hs => hI.step hstart.dequeuedOps hs)
  refine ⟨fun k => ?_, fun k diff hpc => ?_⟩
  · have hsum := hinv.stack.uncounted_add hinv.puts k
    have hlimit := (hinv.sockets k).limit
    omega
  · have hpc' : (s.sockets k).pc = .looping diff := hpc
    obtain ⟨henqueued, hdequeued, hdiff⟩ := hinv.counters hstart.dequeuedOps
      (k := k) (by rw [SqueueState.inFlight, hpc'])
    have hle : s.stack.dequeues k ≤ s.stack.puts k := by
      have hsum := hinv.stack.uncounted_add hinv.puts k
      omega
    refine ⟨henqueued, hdequeued, hle, fun hsize => ?_, hdiff⟩
    show s.stack.dequeuedOps k ≤ (s.sockets k).enqueuedOps
    rw [henqueued, hdequeued, UInt64.le_iff_toNat_le, UInt64.toNat_ofNat',
      UInt64.toNat_ofNat', Nat.mod_eq_of_lt hsize,
      Nat.mod_eq_of_lt (hle.trans_lt hsize)]
    exact hle

/-- A socket with two operations, the first one in `tx_queue` when the test is
made for the second one. -/
theorem socket_limit_holds_two :
    ∃ s : RateState, (s.sockets 0).pc = .looping 1 ∧ s.stack.uncounted 0 = 1
      ∧ ((s.sockets 0).enqueuedOps - s.stack.dequeuedOps 0).toNat
        = s.stack.uncounted 0 := by
  let op : PifusInternalOperation := ⟨.nop, 0, 0⟩
  let start : RateState :=
    ⟨⟨fun _ => .create (fun _ => ⟨op, op⟩) txQueueSize txQueueSize_pos
        txQueueSize_lt, none, 0, fun _ => 0, .outside, fun _ => [], [],
        fun _ => [], []⟩,
      fun k => ⟨k, .create (fun _ => .nop) squeueSize squeueSize_pos
        squeueSize_lt, 0, 0, 0, 0, .create (fun _ => ⟨.nop, 0⟩) txQueueSize
        txQueueSize_pos txQueueSize_lt, .outside, .outside, [], 0, []⟩⟩
  have hstart : start.Initial :=
    ⟨⟨rfl, rfl, rfl, fun _ => rfl, fun _ => rfl, fun _ => rfl⟩, fun _ => rfl,
      fun _ => rfl, fun _ => ⟨rfl, rfl, rfl, rfl, rfl, rfl, rfl⟩, fun _ => rfl,
      fun _ => rfl⟩
  have hs : ([.enqueue 0 .tcpWrite, .announce 0, .enqueue 0 .tcpRecv,
      .announce 0, .call 0, .tick 0, .tick 0, .tick 0, .tick 0, .tick 0,
      .tick 0, .tick 0, .tick 0].foldlM (rateStep (fun _ => .high)) start).any
        (fun s => (s.sockets 0).pc = .looping 1 ∧ s.stack.uncounted 0 = 1)
      = true := by decide +kernel
  obtain ⟨s, hrun, hp⟩ := (Option.any_eq_true _ _).mp hs
  obtain ⟨hpc, hone⟩ := of_decide_eq_true hp
  exact ⟨s, hpc, hone, ((socket_limit_holds hstart (Run.of_foldlM hrun)).2 0 1
    hpc).2.2.2.2⟩
