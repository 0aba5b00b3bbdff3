import Pifus.Constants
import Pifus.RingBuffer
import Pifus.Util.Counter
import Pifus.Util.Transition

/-!
# From a socket's squeue to the stack

`enqueue_operation` of the app and `handle_squeue_change` of the prio thread
that is responsible for the socket. The app puts an operation into the
socket's squeue and then increments `squeue_futex`; the prio thread compares
the futex to the shadow it keeps in `socket_futexes` and moves as many
operations into `tx_queue`.

Both run at the same time, in different processes, so each is a program
counter in front of its next access to something shared. `tx_queue` and
`dequeued_ops` belong to the stack and to the other sockets of the prio thread
as well: between any two steps they may have changed in any way. That is how
a pass gets to stop early, after any element.

The calls of `enqueue_operation` for one socket follow one another, and so do
those of `handle_squeue_change`.
-/

/-- `struct pifus_internal_operation`: an operation and its socket. -/
structure InternalOperation (α : Type*) where
  operation : α
  socket : ℕ
  deriving DecidableEq

/-- Where the app stands in `enqueue_operation`. -/
inductive EnqueuePc
  /-- Outside. -/
  | outside
  /-- In front of `socket->squeue_futex++`. -/
  | announcing
  deriving DecidableEq

/-- Where the prio thread stands in `handle_squeue_change`. `old` is
`old_shadow_value` and `diff` is `shadow_actual_difference`. -/
inductive HandlePc (α : Type*)
  /-- Outside. -/
  | outside
  /-- In front of the read of `squeue_futex`. -/
  | reading (old : UInt32)
  /-- At the head of the loop. -/
  | looping (diff : ℕ)
  /-- In front of `peek`. -/
  | peeking (diff : ℕ)
  /-- In front of `internal_op.operation = *op`, `op` pointing to a cell of
  the squeue. -/
  | copying (cell diff : ℕ)
  /-- In front of the `put` into `tx_queue`. -/
  | putting (op : α) (diff : ℕ)
  /-- In front of `erase_first`. -/
  | erasing (diff : ℕ)
  /-- In front of the increment of the shadow. -/
  | shadowing (diff : ℕ)
  /-- In front of `socket->enqueued_ops++`. -/
  | counting (diff : ℕ)
  deriving DecidableEq

/-- One socket between its app and its prio thread, and the history of what
was enqueued, announced and moved. -/
structure SqueueState (α : Type*) where
  /-- Which socket this is. -/
  socket : ℕ
  squeue : RingBuffer α
  /-- `squeue_futex`. -/
  squeueFutex : UInt32
  /-- The shadow of `squeue_futex` in the stack's `socket_futexes`. -/
  shadow : UInt32
  /-- `enqueued_ops`, a `uint64_t`. -/
  enqueuedOps : UInt64
  /-- `dequeued_ops`, a `uint64_t`. -/
  dequeuedOps : UInt64
  txQueue : RingBuffer (InternalOperation α)
  appPc : EnqueuePc
  pc : HandlePc α
  /-- The operations successfully put into the squeue, oldest first. -/
  enqueued : List α
  /-- The number of increments of `squeue_futex`. -/
  increments : ℕ
  /-- The operations put into `tx_queue`, oldest first. -/
  moved : List α

/-- What can happen next. -/
inductive SqueueEvent (α : Type*)
  /-- The app calls `enqueue_operation`, up to the increment of the futex. -/
  | enqueue (op : α)
  /-- The app increments the futex. -/
  | announce
  /-- The prio thread calls `handle_squeue_change`. -/
  | call
  /-- The prio thread takes its next step. -/
  | tick
  /-- The stack, or another socket of the prio thread. -/
  | others (txQueue : RingBuffer (InternalOperation α)) (dequeuedOps : UInt64)

namespace SqueueState

variable {α : Type*}

/-- `has_socket_max_parallel_ops`. -/
def hasSocketMaxParallelOps (s : SqueueState α) : Bool :=
  txMaxParallelOpsPerSocket ≤ (s.enqueuedOps - s.dequeuedOps).toNat

/-- The `put` of `enqueue_operation`; on a full squeue the call returns
`false`. -/
def enqueue (s : SqueueState α) (op : α) : SqueueState α :=
  match s.squeue.put op with
  | some ring => { s with
      squeue := ring, appPc := .announcing, enqueued := s.enqueued ++ [op] }
  | none => s

/-- The `put` into `tx_queue`; on a full one the call returns. -/
def putTx (s : SqueueState α) (op : α) (diff : ℕ) : SqueueState α :=
  match s.txQueue.put ⟨op, s.socket⟩ with
  | some ring => { s with
      txQueue := ring, pc := .erasing diff, moved := s.moved ++ [op] }
  | none => { s with pc := .outside }

/-- The next step of `handle_squeue_change`. -/
def handle (s : SqueueState α) : Option (SqueueState α) :=
  match s.pc with
  | .outside => none
  | .reading old =>
    some { s with pc := .looping (s.squeueFutex - old).toNat }
  | .looping diff =>
    if 0 < diff ∧ s.hasSocketMaxParallelOps = false then
      some { s with pc := .peeking diff }
    else some { s with pc := .outside }
  | .peeking diff =>
    match s.squeue.peek with
    | some cell => some { s with pc := .copying cell diff }
    | none => some { s with pc := .outside }
  | .copying cell diff => some { s with pc := .putting (s.squeue.buf cell) diff }
  | .putting op diff => some (s.putTx op diff)
  | .erasing diff => some { s with
      squeue := s.squeue.eraseFirst.getD s.squeue, pc := .shadowing (diff - 1) }
  | .shadowing diff =>
    some { s with shadow := s.shadow + 1, pc := .counting diff }
  | .counting diff =>
    some { s with enqueuedOps := s.enqueuedOps + 1, pc := .looping diff }

end SqueueState

open SqueueState

variable {α : Type*}

/-- **A step of the app, of the prio thread or of the rest.** -/
def squeueStep (s : SqueueState α) : SqueueEvent α → Option (SqueueState α)
  | .enqueue op =>
    match s.appPc with
    | .outside => some (s.enqueue op)
    | .announcing => none
  | .announce =>
    match s.appPc with
    | .outside => none
    | .announcing => some { s with
        squeueFutex := s.squeueFutex + 1, increments := s.increments + 1
        appPc := .outside }
  | .call =>
    match s.pc with
    | .outside => some { s with pc := .reading s.shadow }
    | _ => none
  | .tick => s.handle
  | .others txQueue dequeuedOps =>
    some { s with txQueue := txQueue, dequeuedOps := dequeuedOps }

/-- What a step can do. -/
theorem squeueStep_cases {s t : SqueueState α} {e : SqueueEvent α}
    (hs : squeueStep s e = some t) :
    (∃ op, e = .enqueue op ∧ s.appPc = .outside ∧ t = s.enqueue op)
    ∨ (e = .announce ∧ s.appPc = .announcing ∧ t = { s with
        squeueFutex := s.squeueFutex + 1, increments := s.increments + 1
        appPc := .outside })
    ∨ (e = .call ∧ s.pc = .outside ∧ t = { s with pc := .reading s.shadow })
    ∨ (e = .tick ∧ s.handle = some t)
    ∨ ∃ txQueue dequeuedOps, e = .others txQueue dequeuedOps
      ∧ t = { s with txQueue := txQueue, dequeuedOps := dequeuedOps } := by
  cases e with
  | enqueue op =>
    rw [squeueStep] at hs
    split at hs
    · exact Or.inl ⟨op, rfl, ‹_›, (Option.some.inj hs).symm⟩
    · exact absurd hs (by simp)
  | announce =>
    rw [squeueStep] at hs
    split at hs
    · exact absurd hs (by simp)
    · exact Or.inr (Or.inl ⟨rfl, ‹_›, (Option.some.inj hs).symm⟩)
  | call =>
    rw [squeueStep] at hs
    split at hs
    · exact Or.inr (Or.inr (Or.inl ⟨rfl, ‹_›, (Option.some.inj hs).symm⟩))
    · exact absurd hs (by simp)
  | tick => exact Or.inr (Or.inr (Or.inr (Or.inl ⟨rfl, hs⟩)))
  | others txQueue dequeuedOps =>
    exact Or.inr (Or.inr (Or.inr (Or.inr
      ⟨txQueue, dequeuedOps, rfl, (Option.some.inj hs).symm⟩)))

namespace SqueueState

@[simp] theorem pc_enqueue (s : SqueueState α) (op : α) :
    (s.enqueue op).pc = s.pc := by
  unfold enqueue
  split <;> rfl

@[simp] theorem shadow_enqueue (s : SqueueState α) (op : α) :
    (s.enqueue op).shadow = s.shadow := by
  unfold enqueue
  split <;> rfl

@[simp] theorem squeueFutex_enqueue (s : SqueueState α) (op : α) :
    (s.enqueue op).squeueFutex = s.squeueFutex := by
  unfold enqueue
  split <;> rfl

/-- The prio thread is in the middle of moving one element: it has put it
into `tx_queue` and has not incremented the shadow yet. -/
def MidMove (s : SqueueState α) : Prop :=
  (∃ diff, s.pc = .erasing diff) ∨ ∃ diff, s.pc = .shadowing diff

/-- The operations not moved yet whose increment of the futex has happened.
The increments come in the order of the operations. -/
def announced (s : SqueueState α) : List α :=
  (s.enqueued.take s.increments).drop s.moved.length

/-- A socket that has just been created. -/
structure Initial (s : SqueueState α) : Prop where
  contents : s.squeue.contents = []
  futex : s.squeueFutex = s.shadow
  appPc : s.appPc = .outside
  pc : s.pc = .outside
  enqueued : s.enqueued = []
  increments : s.increments = 0
  moved : s.moved = []

/-! ## The invariant -/

/-- What is left to move. The element being erased has been moved already. -/
def rest (s : SqueueState α) : List α :=
  match s.pc with
  | .erasing _ => s.squeue.contents.tail
  | _ => s.squeue.contents

/-- How far the shadow is behind what has been moved. -/
def lag (s : SqueueState α) : ℕ :=
  match s.pc with
  | .erasing _ | .shadowing _ => 1
  | _ => 0

/-- The calls of `enqueue_operation` in front of their increment. -/
def pending (s : SqueueState α) : ℕ :=
  match s.appPc with
  | .outside => 0
  | .announcing => 1

/-- `diff` more operations have been announced. -/
def Owes (s : SqueueState α) (diff : ℕ) : Prop :=
  s.moved.length + diff ≤ s.increments

/-- What the prio thread knows where it stands. -/
def PcInv (s : SqueueState α) : Prop :=
  match s.pc with
  | .outside => True
  | .reading old => old = s.shadow
  | .looping diff | .shadowing diff | .counting diff => s.Owes diff
  | .peeking diff => 0 < diff ∧ s.Owes diff
  | .copying cell diff => cell = s.squeue.cell 0 ∧ 0 < diff ∧ s.Owes diff
  | .putting op diff => s.squeue.contents.head? = some op ∧ 0 < diff
      ∧ s.Owes diff
  | .erasing diff => s.squeue.contents ≠ [] ∧ s.Owes (diff - 1)

end SqueueState

/-- **The invariant**: what has been moved and what is left is what was
enqueued; the futex counts the calls that are through with it; and the shadow
follows what has been moved. -/
structure SqueueInv (s : SqueueState α) : Prop where
  enqueued : s.enqueued = s.moved ++ s.rest
  calls : s.increments + s.pending = s.enqueued.length
  futex : ∃ k, s.moved.length + k = s.increments
    ∧ s.squeueFutex - s.shadow = UInt32.ofNat (k + s.lag)
  pc : s.PcInv

variable {start s t : SqueueState α}

theorem SqueueInv.contents_ne_nil {diff : ℕ} (h : SqueueInv s)
    (hrest : s.rest = s.squeue.contents) (hpos : 0 < diff)
    (howes : s.Owes diff) : s.squeue.contents ≠ [] := by
  intro hnil
  have hcalls := h.calls
  rw [h.enqueued, hrest, hnil, List.append_nil] at hcalls
  unfold Owes at howes
  omega

/-- Outside the middle of a move, the squeue is what is left, and the shadow is
not behind. -/
theorem SqueueState.settled (hmid : ¬ s.MidMove) :
    s.rest = s.squeue.contents ∧ s.lag = 0 := by
  unfold rest lag
  cases hs : s.pc with
  | erasing diff => exact absurd (Or.inl ⟨diff, hs⟩) hmid
  | shadowing diff => exact absurd (Or.inr ⟨diff, hs⟩) hmid
  | _ => exact ⟨rfl, rfl⟩

/-! ## The steps -/

/-- An operation appended to the squeue changes nothing the prio thread
knows. -/
theorem SqueueInv.enqueue {op : α} (h : SqueueInv s)
    (happ : s.appPc = .outside) : SqueueInv (s.enqueue op) := by
  unfold SqueueState.enqueue
  split
  · rename_i ring hput
    have hcontents := RingBuffer.contents_put hput
    have hcell : ring.cell 0 = s.squeue.cell 0 := RingBuffer.cell_put hput
    obtain ⟨henq, hcalls, hfutex, hpc⟩ := h
    have hpending : s.pending = 0 := by rw [pending, happ]
    refine ⟨?_, ?_, hfutex, ?_⟩
    · -- only in the middle of an erase is the front not part of the rest
      show s.enqueued ++ [op] = s.moved ++ _
      rw [henq, List.append_assoc]
      unfold SqueueState.rest
      unfold PcInv at hpc
      cases hs : s.pc with
      | erasing diff =>
        rw [hs] at hpc
        dsimp only
        rw [hcontents, List.tail_append_of_ne_nil hpc.1]
      | _ => dsimp only; rw [hcontents]
    · show s.increments + 1 = (s.enqueued ++ [op]).length
      rw [List.length_append, ← hcalls, hpending]
      rfl
    · unfold PcInv at hpc ⊢
      cases hs : s.pc with
      | copying cell diff =>
        rw [hs] at hpc
        exact ⟨hpc.1.trans hcell.symm, hpc.2⟩
      | putting op' diff =>
        rw [hs] at hpc
        refine ⟨?_, hpc.2⟩
        show ring.contents.head? = some op'
        rw [hcontents, List.head?_append, hpc.1]
        rfl
      | erasing diff =>
        rw [hs] at hpc
        refine ⟨?_, hpc.2⟩
        show ring.contents ≠ []
        rw [hcontents]
        exact List.append_ne_nil_of_left_ne_nil hpc.1 _
      | _ => rw [hs] at hpc; exact hpc
  · exact h

/-- An increment of the futex announces one more operation. -/
theorem SqueueInv.announce (h : SqueueInv s) (happ : s.appPc = .announcing) :
    SqueueInv { s with
      squeueFutex := s.squeueFutex + 1, increments := s.increments + 1
      appPc := .outside } := by
  obtain ⟨henq, hcalls, ⟨k, hk, hfutex⟩, hpc⟩ := h
  have hpending : s.pending = 1 := by rw [pending, happ]
  refine ⟨henq, ?_, ⟨k + 1, ?_, ?_⟩, ?_⟩
  · show s.increments + 1 + 0 = s.enqueued.length
    rw [← hcalls, hpending]
  · show s.moved.length + (k + 1) = s.increments + 1
    rw [← hk, Nat.add_assoc]
  · show s.squeueFutex + 1 - s.shadow = UInt32.ofNat (k + 1 + s.lag)
    rw [Counter.sub_ahead hfutex, Nat.add_right_comm]
  · have hmore : ∀ {diff}, s.Owes diff →
        s.moved.length + diff ≤ s.increments + 1 := fun h => Nat.le_succ_of_le h
    unfold PcInv at hpc ⊢
    cases hs : s.pc with
    | outside => trivial
    | reading old => rw [hs] at hpc; exact hpc
    | looping diff | shadowing diff | counting diff =>
      rw [hs] at hpc
      exact hmore hpc
    | peeking diff | erasing diff => rw [hs] at hpc; exact ⟨hpc.1, hmore hpc.2⟩
    | copying cell diff => rw [hs] at hpc; exact ⟨hpc.1, hpc.2.1, hmore hpc.2.2⟩
    | putting op diff => rw [hs] at hpc; exact ⟨hpc.1, hpc.2.1, hmore hpc.2.2⟩

theorem SqueueInv.goto {pc : HandlePc α} (h : SqueueInv s) (hmid : ¬ s.MidMove)
    (hmid' : ¬ ({ s with pc := pc } : SqueueState α).MidMove)
    (hpc : ({ s with pc := pc } : SqueueState α).PcInv) :
    SqueueInv { s with pc := pc } := by
  obtain ⟨hrest, hlag⟩ := settled hmid
  obtain ⟨hrest', hlag'⟩ := settled hmid'
  obtain ⟨henq, hcalls, ⟨k, hk, hfutex⟩, -⟩ := h
  refine ⟨?_, hcalls, ⟨k, hk, ?_⟩, hpc⟩
  · rw [hrest', ← hrest]
    exact henq
  · rw [hlag', ← hlag]
    exact hfutex

/-- A successful `put` into `tx_queue` moves the front of the squeue. -/
theorem SqueueInv.putTx {op : α} {diff : ℕ} (h : SqueueInv s)
    (hs : s.pc = .putting op diff) : SqueueInv (s.putTx op diff) := by
  have hmid : ¬ s.MidMove := by simp [MidMove, hs]
  obtain ⟨hrest, hlag⟩ := settled hmid
  unfold SqueueState.putTx
  split
  · obtain ⟨henq, hcalls, ⟨k, hk, hfutex⟩, hpc⟩ := h
    unfold PcInv at hpc
    rw [hs] at hpc
    obtain ⟨hhead, hpos, howes⟩ := hpc
    unfold Owes at howes
    obtain ⟨l, hl⟩ := List.head?_eq_some_iff.mp hhead
    refine ⟨?_, hcalls, ⟨k - 1, ?_, ?_⟩, ?_, ?_⟩
    · show s.enqueued = (s.moved ++ [op]) ++ s.squeue.contents.tail
      rw [henq, hrest, hl, List.append_assoc]
      rfl
    · show (s.moved ++ [op]).length + (k - 1) = s.increments
      rw [List.length_append, List.length_singleton]
      omega
    · show s.squeueFutex - s.shadow = UInt32.ofNat (k - 1 + 1)
      rw [hfutex, hlag, Nat.add_zero, Nat.sub_add_cancel (by omega)]
    · show s.squeue.contents ≠ []
      rw [hl]
      exact List.cons_ne_nil _ _
    · show (s.moved ++ [op]).length + (diff - 1) ≤ s.increments
      rw [List.length_append, List.length_singleton]
      omega
  · exact h.goto hmid (by simp [MidMove]) trivial

/-- **Every step of the prio thread keeps the invariant.** -/
theorem SqueueInv.handle (h : SqueueInv s) (hs : s.handle = some t) :
    SqueueInv t := by
  have hpc := h.pc
  rw [PcInv] at hpc
  rw [SqueueState.handle] at hs
  cases hcase : s.pc with
  | outside =>
    rw [hcase] at hs
    exact absurd hs (by simp)
  | reading old =>
    rw [hcase] at hpc hs
    obtain rfl := Option.some.inj hs
    have hmid : ¬ s.MidMove := by simp [MidMove, hcase]
    refine h.goto hmid (by simp [MidMove]) ?_
    obtain ⟨k, hk, hfutex⟩ := h.futex
    rw [(settled hmid).2] at hfutex
    have hle := Counter.toNat_sub_le hfutex
    show s.moved.length + (s.squeueFutex - old).toNat ≤ s.increments
    rw [hpc]
    omega
  | looping diff =>
    rw [hcase] at hpc hs
    have hmid : ¬ s.MidMove := by simp [MidMove, hcase]
    dsimp only at hs
    split at hs
    · rename_i hgo
      obtain rfl := Option.some.inj hs
      exact h.goto hmid (by simp [MidMove]) ⟨hgo.1, hpc⟩
    · obtain rfl := Option.some.inj hs
      exact h.goto hmid (by simp [MidMove]) trivial
  | peeking diff =>
    rw [hcase] at hpc hs
    have hmid : ¬ s.MidMove := by simp [MidMove, hcase]
    dsimp only at hs
    split at hs
    · rename_i cell hpeek
      obtain rfl := Option.some.inj hs
      exact h.goto hmid (by simp [MidMove])
        ⟨(RingBuffer.peek_eq_some hpeek).1, hpc⟩
    · obtain rfl := Option.some.inj hs
      exact h.goto hmid (by simp [MidMove]) trivial
  | copying cell diff =>
    rw [hcase] at hpc hs
    obtain rfl := Option.some.inj hs
    have hmid : ¬ s.MidMove := by simp [MidMove, hcase]
    obtain ⟨rfl, hpos, howes⟩ := hpc
    refine h.goto hmid (by simp [MidMove]) ⟨?_, hpos, howes⟩
    show s.squeue.contents.head? = some (s.squeue.buf (s.squeue.cell 0))
    rw [RingBuffer.cell_zero]
    exact RingBuffer.head?_contents
      (h.contents_ne_nil (settled hmid).1 hpos howes)
  | putting op diff =>
    rw [hcase] at hs
    obtain rfl := Option.some.inj hs
    exact h.putTx hcase
  | erasing diff =>
    rw [hcase] at hpc hs
    obtain rfl := Option.some.inj hs
    obtain ⟨hne, howes⟩ := hpc
    have hrest : s.rest = s.squeue.contents.tail := by rw [rest, hcase]
    have hlag : s.lag = 1 := by rw [lag, hcase]
    obtain ⟨ring, hring, hcontents⟩ := RingBuffer.exists_eraseFirst hne
    obtain ⟨henq, hcalls, ⟨k, hk, hfutex⟩, -⟩ := h
    refine ⟨?_, hcalls, ⟨k, hk, ?_⟩, howes⟩
    · show s.enqueued = s.moved ++ (s.squeue.eraseFirst.getD s.squeue).contents
      rw [henq, hrest, hring, hcontents]
      rfl
    · rw [hfutex, hlag]
      rfl
  | shadowing diff =>
    rw [hcase] at hpc hs
    obtain rfl := Option.some.inj hs
    have hrest : s.rest = s.squeue.contents := by rw [rest, hcase]
    have hlag : s.lag = 1 := by rw [lag, hcase]
    obtain ⟨henq, hcalls, ⟨k, hk, hfutex⟩, -⟩ := h
    rw [hlag] at hfutex
    exact ⟨henq.trans (by rw [hrest]; rfl), hcalls,
      ⟨k, hk, Counter.sub_behind hfutex⟩, hpc⟩
  | counting diff =>
    rw [hcase] at hpc hs
    obtain rfl := Option.some.inj hs
    obtain ⟨hrest, hlag⟩ := settled (s := s) (by simp [MidMove, hcase])
    obtain ⟨henq, hcalls, ⟨k, hk, hfutex⟩, -⟩ := h
    rw [hlag] at hfutex
    exact ⟨henq.trans (by rw [hrest]; rfl), hcalls, ⟨k, hk, hfutex⟩, hpc⟩

/-- **Every step keeps the invariant.** -/
theorem SqueueInv.step {e : SqueueEvent α} (h : SqueueInv s)
    (hs : squeueStep s e = some t) : SqueueInv t := by
  obtain ⟨op, -, happ, rfl⟩ | ⟨-, happ, rfl⟩ | ⟨-, hpc, rfl⟩ | ⟨-, hhandle⟩ |
    ⟨txQueue, dequeuedOps, -, rfl⟩ := squeueStep_cases hs
  · exact h.enqueue happ
  · exact h.announce happ
  · exact h.goto (by simp [MidMove, hpc]) (by simp [MidMove]) rfl
  · exact h.handle hhandle
  · exact ⟨h.enqueued, h.calls, h.futex, h.pc⟩

theorem squeueInv_initial (h : start.Initial) : SqueueInv start := by
  have hrest : start.rest = [] := by rw [rest, h.pc, h.contents]
  refine ⟨?_, ?_, ⟨0, ?_, ?_⟩, ?_⟩
  · rw [h.enqueued, h.moved, hrest]
    rfl
  · rw [h.increments, pending, h.appPc, h.enqueued]
    rfl
  · rw [h.moved, h.increments]
    rfl
  · rw [h.futex, UInt32.sub_self, lag, h.pc]
    rfl
  · rw [PcInv, h.pc]
    trivial

/-! ## Runs -/

/-- The steps as a relation. -/
def SqueueStep (s : SqueueState α) (e : SqueueEvent α)
    (t : SqueueState α) : Prop :=
  squeueStep s e = some t

/-- **Operations travel to the stack once and in order.** What has been put
into `tx_queue` is at all times a prefix of what was enqueued. Unless the prio
thread is in the middle of moving an element, the squeue holds the rest, and
the futex is ahead of its shadow by the number of operations in the squeue
whose increment has happened. So the `peek` in the loop never fails. -/
theorem operations_move_once_in_order {es : List (SqueueEvent α)}
    (hstart : start.Initial) (h : Run SqueueStep start es s) :
    s.moved <+: s.enqueued
    ∧ (¬ s.MidMove → s.enqueued = s.moved ++ s.squeue.contents
      ∧ s.announced <+: s.squeue.contents
      ∧ s.squeueFutex - s.shadow = UInt32.ofNat s.announced.length)
    ∧ ∀ diff, s.pc = .peeking diff → ∃ cell, s.squeue.peek = some cell := by
  have hinv : SqueueInv s := h.invariant SqueueInv (squeueInv_initial hstart)
    (fun _ _ _ hI hs => hI.step hs)
  refine ⟨?_, fun hmid => ?_, fun diff hpc => ?_⟩
  · rw [hinv.enqueued]
    exact List.prefix_append _ _
  · obtain ⟨hrest, hlag⟩ := settled hmid
    obtain ⟨k, hk, hfutex⟩ := hinv.futex
    have henq := hinv.enqueued
    have hcalls := hinv.calls
    rw [hrest] at henq
    have hannounced : s.announced = s.squeue.contents.take k := by
      rw [announced, henq, ← hk, List.take_length_add_append,
        List.drop_left]
    have hle : k ≤ s.squeue.contents.length := by
      rw [henq, List.length_append] at hcalls
      omega
    refine ⟨henq, ?_, ?_⟩
    · rw [hannounced]
      exact List.take_prefix _ _
    · rw [hfutex, hlag, hannounced, List.length_take, Nat.min_eq_left hle]
      rfl
  · have hrest : s.rest = s.squeue.contents := by rw [rest, hpc]
    have hpcInv := hinv.pc
    rw [PcInv, hpc] at hpcInv
    exact Option.ne_none_iff_exists'.mp (fun hnone =>
      hinv.contents_ne_nil hrest hpcInv.1 hpcInv.2
        (RingBuffer.peek_eq_none_iff.mp hnone))

/-- Two operations, the second one announced while the first is being
moved. -/
theorem operations_move_once_in_order_two :
    ∃ s : SqueueState ℕ, s.moved = [7] ∧ s.moved <+: s.enqueued := by
  let start : SqueueState ℕ :=
    ⟨3, .create (fun _ => 0) squeueSize squeueSize_pos squeueSize_lt, 0, 0, 0, 0,
      .create (fun _ => ⟨0, 0⟩) txQueueSize txQueueSize_pos txQueueSize_lt, .outside,
      .outside, [], 0, []⟩
  have hstart : start.Initial := ⟨rfl, rfl, rfl, rfl, rfl, rfl, rfl⟩
  have hs : ([.enqueue 7, .announce, .call, .tick, .enqueue 8, .tick, .tick,
      .tick, .tick, .announce, .tick, .tick, .tick].foldlM squeueStep start).map
        (fun s => s.moved) = some [7] := by decide +kernel
  obtain ⟨s, hrun, hmoved⟩ := Option.map_eq_some_iff.mp hs
  exact ⟨s, hmoved, (operations_move_once_in_order hstart
    (Run.of_foldlM hrun)).1⟩
