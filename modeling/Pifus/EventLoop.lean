import Pifus.Pipeline
import Pifus.Precedence

/-!
# The stack sleeps and is woken

The main loop of `init.c` calls `tapif_select` and then `lwip_loop_iteration`.
In `tapif_select` the stack sleeps in `select` until a packet arrives, a timeout
of lwIP is due or the counter of the eventfd `tx_fd` is not zero; the counter is
reset by `eventfd_read`. A prio thread increments it with `signal_tx_interrupt`,
some steps after it has put an operation into `tx_queue`.

So the reset may come between a put and its signal, and puts happen while the
stack looks at the rings one after the other. No wake-up is lost by that
(`no_wakeup_is_lost`): where the stack has found all rings empty and then sleeps,
an operation in a ring is one whose signal is still to come. An iteration that
ends for another reason, after `MAX_DEQUEUES_PER_ITERATION` operations or at one
that has to be tried again, leaves operations in the rings that were signalled
already; with those the stack may sleep until something else happens.

`sys_check_timeouts`, `netif_poll_all` and the input of a packet do not touch
`tx_queue`; they are in front of `select` and behind it.
-/

/-- `eventfd_write(tx_fd, 1)`: the counter of an eventfd stops at `2^64 - 2`,
where a write to a non-blocking one fails. -/
def eventfdWrite (counter : ℕ) : ℕ :=
  if counter + 1 ≤ 2 ^ 64 - 2 then counter + 1 else counter

/-- Where the thread of the stack stands. -/
inductive LoopPc
  /-- In front of `select`. -/
  | selecting
  /-- In front of `eventfd_read`. -/
  | reading
  /-- In front of `lwip_loop_iteration`. -/
  | calling
  /-- In `lwip_loop_iteration`. -/
  | iterating
  deriving DecidableEq

/-- Why an iteration has ended. -/
inductive IterationEnd
  /-- No ring had an operation. -/
  | empty
  /-- `MAX_DEQUEUES_PER_ITERATION` operations were dequeued. -/
  | limit
  /-- `handle_operation` has returned `false`. -/
  | tryAgain
  deriving DecidableEq

/-- The stack with its main loop, the sockets and the eventfd. -/
structure LoopState where
  rate : RateState
  /-- The counter of the eventfd `tx_fd`. -/
  txFd : ℕ
  /-- The prio thread is in front of `signal_tx_interrupt` for the socket. -/
  signalling : ℕ → Bool
  pc : LoopPc
  /-- Why the last iteration has ended. -/
  ended : IterationEnd

/-- What can happen next. -/
inductive LoopEvent
  /-- A step of an app, of a prio thread or of `lwip_loop_iteration`. -/
  | rate (e : RateEvent)
  /-- `select` returns. -/
  | select (packet timeout : Bool)
  /-- `eventfd_read`. -/
  | read

/-- Why an iteration ends that does so from here. -/
def StackPc.endsWith : StackPc → IterationEnd
  | .peeking _ _ => .empty
  | .erasing _ _ | .patching _ _ _ => .limit
  | _ => .tryAgain

namespace LoopState

/-- A step of the stack in `lwip_loop_iteration`. -/
def iterate (s : LoopState) (rate : RateState) : LoopState :=
  if rate.stack.pc = .outside then
    { s with rate := rate, pc := .selecting, ended := s.rate.stack.pc.endsWith }
  else { s with rate := rate }

/-- The next step of the prio thread for a socket. -/
def tick (prio : ℕ → TxPrio) (s : LoopState) (k : ℕ) : Option LoopState :=
  if s.signalling k then
    some { s with
      txFd := eventfdWrite s.txFd
      signalling := Function.update s.signalling k false }
  else
    (rateStep prio s.rate (.tick k)).map (fun rate => { s with
      rate := rate
      signalling := Function.update s.signalling k
        ((s.rate.sockets k).pc matches .counting _) })

end LoopState

/-- **A step of an app, of a prio thread or of the stack's thread.** -/
def loopStep (prio : ℕ → TxPrio) (s : LoopState) : LoopEvent → Option LoopState
  | .rate (.tick k) => s.tick prio k
  | .rate (.stack .call) =>
    if s.pc = .calling then
      (rateStep prio s.rate (.stack .call)).map (fun rate =>
        { s with rate := rate, pc := .iterating })
    else none
  | .rate (.stack e) =>
    if s.pc = .iterating then (rateStep prio s.rate (.stack e)).map s.iterate
    else none
  | .rate e =>
    (rateStep prio s.rate e).map (fun rate => { s with rate := rate })
  | .select packet timeout =>
    if s.pc = .selecting ∧ (packet ∨ timeout ∨ 0 < s.txFd) then
      some { s with pc := if 0 < s.txFd then .reading else .calling }
    else none
  | .read =>
    if s.pc = .reading then some { s with txFd := 0, pc := .calling } else none

/-- The steps as a relation. -/
def LoopStep (prio : ℕ → TxPrio) (s : LoopState) (e : LoopEvent)
    (t : LoopState) : Prop :=
  loopStep prio s e = some t

namespace LoopState

/-- **The operations of a socket that were put and not signalled yet.** -/
def unsignalled (s : LoopState) (k : ℕ) : ℕ :=
  (s.rate.sockets k).inFlight + (s.signalling k).toNat

/-- The stack does not look at the ring again before it sleeps. -/
def Passed (s : LoopState) (q : TxPrio) : Prop :=
  match s.pc with
  | .selecting => s.ended = .empty
  | .iterating =>
    match s.rate.stack.pc with
    | .peeking p _ => p.behind < q.behind
    | _ => False
  | _ => False

/-- The stack has just been initialised: it has not slept and there is
nothing to do. -/
structure Initial (s : LoopState) : Prop where
  rate : s.rate.Initial
  txFd : s.txFd = 0
  signalling : ∀ k, s.signalling k = false
  pc : s.pc = .selecting

end LoopState

/-- The entries of a socket in a ring. -/
def entriesOf (k : ℕ) (contents : List TxEntry) : ℕ :=
  contents.countP (fun e => e.op.socket = k)

/-- **The invariant**: in a ring that the stack has passed, the entries are those
whose signal is to come, unless a signal is there. -/
structure LoopInv (start : StackState) (s : LoopState) : Prop where
  rate : RateInv start s.rate
  flight : ∀ k, s.unsignalled k ≤ 1
  signals : ∀ q, s.Passed q → s.txFd = 0 →
    ∀ k, entriesOf k (s.rate.stack.queue q).contents ≤ s.unsignalled k

variable {prio : ℕ → TxPrio} {start : StackState} {s t : LoopState}
  {e : LoopEvent}

/-! ## The prio threads -/

theorem eventfdWrite_pos (counter : ℕ) : 0 < eventfdWrite counter := by
  unfold eventfdWrite
  split <;> omega

/-- **What a step of the prio thread has in flight**: it puts an operation, or
what was in flight is, unless it was counted. -/
theorem SqueueState.handle_inFlight {sq sq' : SqueueState PifusOperationCode}
    (hs : sq.handle = some sq') :
    (∃ op diff, sq.pc = .putting op diff
        ∧ sq.txQueue.put ⟨op, sq.socket⟩ ≠ none
        ∧ sq'.inFlight = sq.inFlight + 1)
    ∨ ((∀ op diff, sq.pc = .putting op diff →
          sq.txQueue.put ⟨op, sq.socket⟩ = none)
        ∧ sq'.inFlight + (sq.pc matches .counting _ : Bool).toNat
          = sq.inFlight) := by
  rw [handle] at hs
  cases hpc : sq.pc with
  | outside =>
    rw [hpc] at hs
    exact absurd hs (by simp)
  | putting op diff =>
    rw [hpc] at hs
    obtain rfl := Option.some.inj hs
    unfold putTx
    split
    · rename_i ring hput
      exact Or.inl ⟨op, diff, rfl, by simp [hput], by simp [inFlight, hpc]⟩
    · rename_i hput
      refine Or.inr ⟨fun op' diff' heq => ?_, by simp [inFlight, hpc]⟩
      obtain ⟨rfl, -⟩ := HandlePc.putting.inj heq
      exact hput
  | looping diff | peeking diff =>
    rw [hpc] at hs
    dsimp only at hs
    refine Or.inr ⟨fun _ _ heq => absurd heq (by simp), ?_⟩
    split at hs <;> obtain rfl := Option.some.inj hs <;> simp [inFlight, hpc]
  | _ =>
    rw [hpc] at hs
    obtain rfl := Option.some.inj hs
    exact Or.inr ⟨fun _ _ heq => absurd heq (by simp), by simp [inFlight, hpc]⟩

/-- What a put adds to a ring. -/
theorem entriesOf_put (s : StackState) (p : TxPrio) (code : PifusOperationCode)
    (k : ℕ) (q : TxPrio) (j : ℕ) :
    entriesOf j ((s.put p code k).queue q).contents
      ≤ entriesOf j (s.queue q).contents + if j = k then 1 else 0 := by
  dsimp only [StackState.put]
  split
  · rename_i ring hput
    dsimp only
    by_cases hq : q = p
    · subst hq
      rw [Function.update_self, RingBuffer.contents_put hput, entriesOf,
        List.countP_append, List.countP_singleton]
      simp [entriesOf, eq_comm]
    · rw [Function.update_of_ne hq]
      exact Nat.le_add_right _ _
  · exact Nat.le_add_right _ _

namespace LoopState

theorem Passed.congr {q : TxPrio} (h : t.Passed q) (hpc : s.pc = t.pc)
    (hended : s.ended = t.ended) (hstack : s.rate.stack.pc = t.rate.stack.pc) :
    s.Passed q := by
  unfold Passed at h ⊢
  rw [hpc, hended, hstack]
  exact h

/-- A ring is passed when the iteration has ended at an empty queue, or has come
to a later ring. -/
theorem passed_iterate (hpc : s.pc = .iterating) (rate : RateState)
    (q : TxPrio) : (s.iterate rate).Passed q ↔
      if rate.stack.pc = .outside then s.rate.stack.pc.endsWith = .empty
      else ∃ p d, rate.stack.pc = .peeking p d ∧ p.behind < q.behind := by
  unfold iterate
  split
  · exact Iff.rfl
  · unfold Passed
    rw [hpc]
    dsimp only
    split
    · rename_i p d hpc'
      rw [hpc']
      refine ⟨fun h => ⟨p, d, rfl, h⟩, ?_⟩
      rintro ⟨p', d', heq, h⟩
      rw [(StackPc.peeking.inj heq).1]
      exact h
    · rename_i hnot
      exact ⟨False.elim, fun ⟨p, d, hpc', _⟩ => hnot p d hpc'⟩

end LoopState

/-- **A step of the prio thread for a socket.** -/
theorem LoopInv.tick {k : ℕ} (h : LoopInv start s)
    (hstart : ∀ k, start.dequeuedOps k = 0) (hs : s.tick prio k = some t) :
    LoopInv start t := by
  unfold LoopState.tick at hs
  split at hs
  · -- the signal
    obtain rfl := Option.some.inj hs
    refine ⟨h.rate, fun j => ?_, fun q _ hzero => absurd hzero ?_⟩
    · refine Nat.le_trans (Nat.add_le_add_left ?_ _) (h.flight j)
      show (Function.update s.signalling k false j).toNat ≤ _
      by_cases hj : j = k
      · subst hj
        rw [Function.update_self]
        exact Nat.zero_le _
      · rw [Function.update_of_ne hj]
    · exact Nat.ne_of_gt (eventfdWrite_pos _)
  · rename_i hnot
    obtain ⟨rate, hrate, rfl⟩ := Option.map_eq_some_iff.mp hs
    have hrate' := h.rate.step hstart hrate
    obtain ⟨sq', hsq, rfl⟩ := Option.map_eq_some_iff.mp hrate
    rcases SqueueState.handle_inFlight hsq with ⟨op, diff, hpc, -, hflight⟩ |
      ⟨hnone, hflight⟩
    · -- one more entry, and one more that is not signalled
      have hpc' : (s.rate.sockets k).pc = .putting op diff := hpc
      have hzero : (s.rate.socketNow prio k).inFlight = 0 := by
        rw [SqueueState.inFlight, hpc]
      rw [hzero] at hflight
      have hafter : s.rate.afterTick prio k
          = s.rate.stack.put (prio k) op k := by
        unfold RateState.afterTick
        rw [hpc']
      refine ⟨hrate', fun j => ?_, fun q hpassed hzero j => ?_⟩
      · rw [LoopState.unsignalled]
        dsimp only
        by_cases hj : j = k
        · subst hj
          rw [Function.update_self, Function.update_self, hpc', hflight]
          exact Nat.le_refl 1
        · rw [Function.update_of_ne hj, Function.update_of_ne hj]
          exact h.flight j
      · rw [hafter] at hpassed
        have hbefore : s.Passed q :=
          hpassed.congr rfl rfl (StackState.pc_put _ _ _ _).symm
        have hle := h.signals q hbefore hzero j
        have hput := entriesOf_put s.rate.stack (prio k) op k q j
        rw [LoopState.unsignalled] at hle ⊢
        dsimp only
        rw [hafter]
        by_cases hj : j = k
        · subst hj
          have hnow : (s.rate.sockets j).inFlight = 0 := by
            rw [SqueueState.inFlight, hpc']
          rw [Function.update_self, Function.update_self, hpc', hflight]
          rw [if_pos rfl] at hput
          simp only [hnot, hnow, Bool.toNat_false] at hle ⊢
          omega
        · rw [Function.update_of_ne hj, Function.update_of_ne hj]
          rw [if_neg hj] at hput
          exact hput.trans hle
    · have hsame : ∀ j, LoopState.unsignalled { s with
          rate := ⟨s.rate.afterTick prio k,
            Function.update s.rate.sockets k sq'⟩
          signalling := Function.update s.signalling k
            ((s.rate.sockets k).pc matches .counting _) } j
          = s.unsignalled j := by
        intro j
        rw [LoopState.unsignalled, LoopState.unsignalled]
        dsimp only
        by_cases hj : j = k
        · subst hj
          rw [Function.update_self, Function.update_self]
          simp only [hnot, Bool.toNat_false, Nat.add_zero]
          exact hflight
        · rw [Function.update_of_ne hj, Function.update_of_ne hj]
      refine ⟨hrate', fun j => (hsame j).trans_le (h.flight j),
        fun q hpassed hzero j => ?_⟩
      rw [hsame j]
      rw [RateState.afterTick_of_none hnone] at hpassed ⊢
      have hbefore : s.Passed q := hpassed.congr rfl rfl rfl
      exact h.signals q hbefore hzero j

/-! ## The stack -/

/-- **A step of `lwip_loop_iteration`** leaves a ring that it peeks into and
finds empty; otherwise it starts from the first ring again, or ends before it has
found all rings empty. -/
theorem stackStep_passes {s t : StackState} {ev : StackEvent}
    (hs : stackStep s ev = some t) (hstep : ev.isStep = true) :
    (∃ p d, s.pc = .peeking p d ∧ (s.queue p).contents = [] ∧ t.queue = s.queue
        ∧ t.pc = p.next.elim .outside (fun p => .peeking p d))
    ∨ ((t.pc = .outside → s.pc.endsWith ≠ .empty)
        ∧ ∀ p d, t.pc = .peeking p d → p = .high) := by
  have hhead : ∀ d, t.pc = StackState.loopHead d →
      ∀ p d', t.pc = .peeking p d' → p = .high := by
    intro d hpc p d' hpc'
    rcases loopHead_cases d with hd | hd
    · rw [hpc, hd] at hpc'
      exact absurd hpc' (by simp)
    · rw [hpc, hd] at hpc'
      exact (StackPc.peeking.inj hpc').1.symm
  cases ev with
  | put p code socket => exact absurd hstep (by simp [StackEvent.isStep])
  | call =>
    rw [stackStep] at hs
    split at hs
    · rename_i hpc
      obtain rfl := Option.some.inj hs
      exact Or.inr ⟨fun _ => by rw [hpc]; simp [StackPc.endsWith], hhead 0 rfl⟩
    · exact absurd hs (by simp)
  | tick =>
    rw [stackStep] at hs
    cases hpc : s.pc with
    | outside | handling => rw [hpc] at hs; exact absurd hs (by simp)
    | peeking p d =>
      rw [hpc] at hs
      obtain rfl := Option.some.inj hs
      unfold StackState.peek at hhead ⊢
      split
      · exact Or.inr ⟨fun hout => absurd hout (by simp),
          fun p' d' hp => absurd hp (by simp)⟩
      · exact Or.inl ⟨p, d, rfl, RingBuffer.peek_eq_none_iff.mp ‹_›, rfl, rfl⟩
    | finding p d =>
      rw [hpc] at hs
      obtain rfl := Option.some.inj hs
      refine Or.inr ⟨fun _ => by simp [StackPc.endsWith], fun p' d' hp => ?_⟩
      unfold StackState.find at hp
      split at hp
      · exact absurd hp (by simp)
      · cases p <;> exact absurd hp (by simp [TxPrio.next])
    | erasing counts d =>
      rw [hpc] at hs
      obtain ⟨p, -, rfl⟩ := Option.map_eq_some_iff.mp hs
      exact Or.inr ⟨fun _ => by simp [StackPc.endsWith], hhead _ rfl⟩
    | patching p cell d =>
      rw [hpc] at hs
      obtain rfl := Option.some.inj hs
      exact Or.inr ⟨fun _ => by simp [StackPc.endsWith], hhead d rfl⟩
  | process result =>
    rw [stackStep] at hs
    split at hs
    · rename_i p cell recvScan d hpc
      split at hs
      · obtain rfl := Option.some.inj hs
        refine Or.inr ⟨fun _ => by rw [hpc]; simp [StackPc.endsWith],
          fun p' d' hp => ?_⟩
        dsimp only [StackState.handle] at hp
        split at hp
        · exact absurd hp (by simp)
        split at hp
        · split at hp <;> exact absurd hp (by simp)
        · dsimp only at hp
          split at hp <;> exact absurd hp (by simp)
      · exact absurd hs (by simp)
    · exact absurd hs (by simp)

theorem TxPrio.behind_cases (p q : TxPrio) :
    p.next.elim True (fun p' => p'.behind < q.behind) →
      q = p ∨ p.behind < q.behind := by
  cases p <;> cases q <;> simp [TxPrio.next, TxPrio.behind]

/-- **A step of the stack in `lwip_loop_iteration`.** -/
theorem LoopInv.iterate {ev : StackEvent} {rate : RateState}
    (h : LoopInv start s) (hrate : RateInv start rate)
    (hiterating : s.pc = .iterating)
    (hstep : ev.isStep = true) (hs : stackStep s.rate.stack ev = some rate.stack)
    (hsockets : rate.sockets = s.rate.sockets) :
    LoopInv start (s.iterate rate) := by
  have hrate' : (s.iterate rate).rate = rate := by
    unfold LoopState.iterate
    split <;> rfl
  have hsignals : (s.iterate rate).txFd = s.txFd
      ∧ (s.iterate rate).signalling = s.signalling := by
    unfold LoopState.iterate
    split <;> exact ⟨rfl, rfl⟩
  have hsame : ∀ k, (s.iterate rate).unsignalled k = s.unsignalled k := by
    intro k
    rw [LoopState.unsignalled, hrate', hsockets, hsignals.2]
    rfl
  refine ⟨by rw [hrate']; exact hrate, fun k => by rw [hsame k]; exact h.flight k,
    fun q hpassed hzero k => ?_⟩
  rw [hsignals.1] at hzero
  rw [hsame k, hrate']
  rw [LoopState.passed_iterate hiterating] at hpassed
  have hbefore : ∀ p d, s.rate.stack.pc = .peeking p d → p.behind < q.behind →
      s.Passed q := by
    intro p d hpc hlt
    unfold LoopState.Passed
    rw [hiterating, hpc]
    exact hlt
  rcases stackStep_passes hs hstep with
    ⟨p, d, hpc, hempty, hqueue, hpc'⟩ | ⟨hend, hhigh⟩
  · have hcases : q = p ∨ p.behind < q.behind := by
      refine p.behind_cases q ?_
      cases hnext : p.next with
      | none => trivial
      | some p' =>
        rw [hnext, Option.elim_some] at hpc'
        rw [hpc', if_neg (by simp)] at hpassed
        obtain ⟨p'', d', heq, hlt⟩ := hpassed
        rw [(StackPc.peeking.inj heq).1]
        exact hlt
    rw [hqueue]
    rcases hcases with rfl | hlt
    · rw [hempty]
      exact Nat.zero_le _
    · exact h.signals q (hbefore p d hpc hlt) hzero k
  · split at hpassed
    · exact absurd hpassed (hend ‹_›)
    · obtain ⟨p, d, hpc', hlt⟩ := hpassed
      rw [hhigh p d hpc'] at hlt
      cases q <;> exact absurd hlt (by simp [TxPrio.behind])

/-- A step that leaves the stack alone and nothing more in flight. -/
theorem LoopInv.app {rate : RateState} (h : LoopInv start s)
    (hrate : RateInv start rate) (hstack : rate.stack = s.rate.stack)
    (hflight : ∀ k, (rate.sockets k).inFlight = (s.rate.sockets k).inFlight) :
    LoopInv start { s with rate := rate } := by
  have hsame : ∀ k, LoopState.unsignalled { s with rate := rate } k
      = s.unsignalled k := fun k => congrArg (· + _) (hflight k)
  refine ⟨hrate, fun k => (hsame k).trans_le (h.flight k),
    fun q hpassed hzero k => ?_⟩
  have hbefore : s.Passed q :=
    hpassed.congr rfl rfl (congrArg StackState.pc hstack).symm
  rw [hsame k]
  dsimp only
  rw [hstack]
  exact h.signals q hbefore hzero k

theorem LoopInv.goto (h : LoopInv start s) (hrate : RateInv start t.rate)
    (hsockets : t.rate.sockets = s.rate.sockets)
    (hsignalling : t.signalling = s.signalling) (hpassed : ∀ q, ¬ t.Passed q) :
    LoopInv start t := by
  refine ⟨hrate, fun k => ?_, fun q hq => absurd hq (hpassed q)⟩
  rw [LoopState.unsignalled, hsockets, hsignalling]
  exact h.flight k

/-- Only the steps of `handle_squeue_change` have operations in flight. -/
theorem squeueStep_inFlight {sq sq' : SqueueState PifusOperationCode}
    {ev : SqueueEvent PifusOperationCode} (hs : squeueStep sq ev = some sq')
    (htick : ev ≠ .tick) : sq'.inFlight = sq.inFlight := by
  obtain ⟨op, -, -, rfl⟩ | ⟨-, -, rfl⟩ | ⟨-, hpc, rfl⟩ | ⟨rfl, -⟩ | ⟨_, _, -, rfl⟩ :=
    squeueStep_cases hs
  · unfold SqueueState.inFlight
    rw [SqueueState.pc_enqueue]
  · rfl
  · unfold SqueueState.inFlight
    rw [hpc]
  · exact absurd rfl htick
  · rfl

/-- **Every step keeps the invariant.** -/
theorem LoopInv.step (h : LoopInv start s)
    (hstart : ∀ k, start.dequeuedOps k = 0) (hs : LoopStep prio s e t) :
    LoopInv start t := by
  -- a step of an app, or the call of `handle_squeue_change`
  have happ : ∀ {k : ℕ} {ev : SqueueEvent PifusOperationCode} {rate : RateState},
      ev ≠ .tick → RateInv start rate →
      s.rate.stepSocket prio k ev s.rate.stack = some rate →
      LoopInv start { s with rate := rate } := by
    intro k ev rate hev hrate hstep
    obtain ⟨sq', hsq, rfl⟩ := Option.map_eq_some_iff.mp hstep
    refine h.app hrate rfl (fun j => ?_)
    by_cases hj : j = k
    · subst hj
      dsimp only
      rw [Function.update_self]
      exact (squeueStep_inFlight hsq hev).trans rfl
    · dsimp only
      rw [Function.update_of_ne hj]
  rw [LoopStep] at hs
  cases e with
  | select packet timeout =>
    rw [loopStep] at hs
    split at hs
    · obtain rfl := Option.some.inj hs
      refine h.goto h.rate rfl rfl (fun q => ?_)
      by_cases hpos : 0 < s.txFd
      · rw [if_pos hpos]
        exact id
      · rw [if_neg hpos]
        exact id
    · exact absurd hs (by simp)
  | read =>
    rw [loopStep] at hs
    split at hs
    · obtain rfl := Option.some.inj hs
      exact h.goto h.rate rfl rfl (fun q => id)
    · exact absurd hs (by simp)
  | rate e =>
    cases e with
    | tick k => exact h.tick hstart hs
    | enqueue k code =>
      obtain ⟨rate, hrate, rfl⟩ := Option.map_eq_some_iff.mp hs
      have hrate' := h.rate.step hstart hrate
      rw [rateStep] at hrate
      split at hrate
      · exact happ (by simp) hrate' hrate
      · exact absurd hrate (by simp)
    | announce k | call k =>
      obtain ⟨rate, hrate, rfl⟩ := Option.map_eq_some_iff.mp hs
      exact happ (by simp) (h.rate.step hstart hrate) hrate
    | stack ev =>
      have hiterating : ∀ rate, s.pc = .iterating →
          rateStep prio s.rate (.stack ev) = some rate →
          LoopInv start (s.iterate rate) := by
        intro rate hpc hrate
        have hrate' := h.rate.step hstart hrate
        rw [rateStep] at hrate
        split at hrate
        · obtain ⟨stack, hstack, rfl⟩ := Option.map_eq_some_iff.mp hrate
          exact h.iterate hrate' hpc ‹_› hstack rfl
        · exact absurd hrate (by simp)
      cases ev with
      | call =>
        rw [loopStep] at hs
        split at hs
        · obtain ⟨rate, hrate, rfl⟩ := Option.map_eq_some_iff.mp hs
          have hrate' := h.rate.step hstart hrate
          rw [rateStep] at hrate
          split at hrate
          · obtain ⟨stack, hstack, rfl⟩ := Option.map_eq_some_iff.mp hrate
            refine h.goto hrate' rfl rfl (fun q => ?_)
            rw [stackStep] at hstack
            split at hstack
            · obtain rfl := Option.some.inj hstack
              cases q <;> exact Nat.not_lt.mpr (by simp [TxPrio.behind])
            · exact absurd hstack (by simp)
          · exact absurd hrate (by simp)
        · exact absurd hs (by simp)
      | _ =>
        rw [loopStep] at hs
        · split at hs
          · obtain ⟨rate, hrate, rfl⟩ := Option.map_eq_some_iff.mp hs
            exact hiterating rate ‹_› hrate
          · exact absurd hs (by simp)
        · simp

theorem loopInv_initial (h : s.Initial) : LoopInv s.rate.stack s := by
  refine ⟨rateInv_initial h.rate, fun k => ?_, fun q _ _ k => ?_⟩
  · rw [LoopState.unsignalled, h.signalling k, SqueueState.inFlight,
      (h.rate.sockets k).pc]
    exact Nat.zero_le 1
  · rw [h.rate.stack.contents, h.rate.log]
    exact Nat.zero_le _

/-- What a step does to the rings and to the sockets is a step of theirs. -/
theorem loopStep_rate (hs : LoopStep prio s e t) :
    t.rate = s.rate ∨ ∃ ev, RateStep prio s.rate ev t.rate := by
  have hiterate : ∀ rate, (s.iterate rate).rate = rate := fun rate => by
    unfold LoopState.iterate
    split <;> rfl
  rw [LoopStep] at hs
  cases e with
  | select packet timeout | read =>
    rw [loopStep] at hs
    split at hs
    · obtain rfl := Option.some.inj hs
      exact Or.inl rfl
    · exact absurd hs (by simp)
  | rate e =>
    cases e with
    | tick k =>
      rw [loopStep, LoopState.tick] at hs
      split at hs
      · obtain rfl := Option.some.inj hs
        exact Or.inl rfl
      · obtain ⟨rate, hrate, rfl⟩ := Option.map_eq_some_iff.mp hs
        exact Or.inr ⟨_, hrate⟩
    | enqueue k code | announce k | call k =>
      obtain ⟨rate, hrate, rfl⟩ := Option.map_eq_some_iff.mp hs
      exact Or.inr ⟨_, hrate⟩
    | stack ev =>
      cases ev with
      | call =>
        rw [loopStep] at hs
        split at hs
        · obtain ⟨rate, hrate, rfl⟩ := Option.map_eq_some_iff.mp hs
          exact Or.inr ⟨_, hrate⟩
        · exact absurd hs (by simp)
      | _ =>
        rw [loopStep] at hs
        · split at hs
          · obtain ⟨rate, hrate, rfl⟩ := Option.map_eq_some_iff.mp hs
            exact Or.inr ⟨_, (hiterate rate).symm ▸ hrate⟩
          · exact absurd hs (by simp)
        · simp

/-- **The rings hold the operations of their sockets only**, in every state that
is reached. -/
theorem placed_of_run {s₀ : LoopState} {es : List LoopEvent}
    (hstart : s₀.Initial) (h : Run (LoopStep prio) s₀ es s) :
    LoopInv s₀.rate.stack s ∧ s.rate.Placed prio := by
  refine h.invariant (fun s => LoopInv s₀.rate.stack s ∧ s.rate.Placed prio)
    ⟨loopInv_initial hstart, fun q op hop => ?_⟩ ?_
  · rw [hstart.rate.log q] at hop
    exact absurd hop (by simp)
  · rintro t e u ⟨hI, hplaced⟩ hs
    refine ⟨hI.step hstart.rate.dequeuedOps hs, ?_⟩
    rcases loopStep_rate hs with hsame | ⟨ev, hrate⟩
    · rwa [hsame]
    · exact (hI.rate.pipe_step hplaced hrate).placed

theorem entriesOf_eq_zero {rate : RateState} {q : TxPrio} {k : ℕ}
    (h : RateInv start rate) (hplaced : rate.Placed prio) (hq : prio k ≠ q) :
    entriesOf k (rate.stack.queue q).contents = 0 := by
  obtain ⟨mid, hqueues, -⟩ := h.stack.queues
  rw [entriesOf, List.countP_eq_zero]
  intro e he hsocket
  have horigin := hplaced q _ ((hqueues q).origin_mem he)
  rw [← (hqueues q).socket_eq he, of_decide_eq_true hsocket] at horigin
  exact hq horigin

/-! ## The signal comes -/

namespace LoopState

/-- The steps of the prio thread up to the signal for what it has put. -/
def toSignal (s : LoopState) (k : ℕ) : ℕ :=
  if s.signalling k then 1
  else match (s.rate.sockets k).pc with
    | .counting _ => 2
    | .shadowing _ => 3
    | .erasing _ => 4
    | _ => 0

/-- What is not signalled will be. -/
theorem toSignal_of_unsignalled {k : ℕ} (h : 0 < s.unsignalled k) :
    ∃ n < 4, s.toSignal k = n + 1 := by
  unfold unsignalled SqueueState.inFlight at h
  unfold toSignal
  by_cases hsignalling : s.signalling k = true
  · rw [if_pos hsignalling]
    exact ⟨0, by omega, rfl⟩
  · rw [if_neg hsignalling]
    rw [Bool.eq_false_of_not_eq_true hsignalling] at h
    cases hpc : (s.rate.sockets k).pc with
    | counting diff => exact ⟨1, by omega, rfl⟩
    | shadowing diff => exact ⟨2, by omega, rfl⟩
    | erasing diff => exact ⟨3, by omega, rfl⟩
    | _ =>
      rw [hpc] at h
      exact absurd h (Nat.lt_irrefl 0)

/-- Each step brings the signal nearer. -/
theorem exists_tick (prio : ℕ → TxPrio) {k n : ℕ} (h : s.toSignal k = n + 1) :
    ∃ t, LoopStep prio s (.rate (.tick k)) t
      ∧ if n = 0 then 0 < t.txFd else t.toSignal k = n := by
  show ∃ t, s.tick prio k = some t ∧ _
  unfold toSignal at h
  unfold tick
  by_cases hsignalling : s.signalling k = true
  · rw [if_pos hsignalling] at h ⊢
    obtain rfl : n = 0 := by omega
    exact ⟨_, rfl, eventfdWrite_pos _⟩
  · rw [if_neg hsignalling] at h ⊢
    -- the step of `handle_squeue_change`, which nothing can block
    have hstep : ∀ {sq' : SqueueState PifusOperationCode},
        (s.rate.socketNow prio k).handle = some sq' →
        rateStep prio s.rate (.tick k) = some ⟨s.rate.afterTick prio k,
          Function.update s.rate.sockets k sq'⟩ := fun hsq =>
      congrArg (Option.map _) hsq
    have hnow : (s.rate.socketNow prio k).pc = (s.rate.sockets k).pc := rfl
    cases hpc : (s.rate.sockets k).pc with
    | counting diff | shadowing diff | erasing diff =>
      rw [hpc] at h hnow
      obtain rfl : n = _ := (Nat.succ.inj h).symm
      have hsq := @hstep _ (by rw [SqueueState.handle, hnow])
      rw [hsq]
      refine ⟨_, rfl, ?_⟩
      rw [if_neg (by omega)]
      simp [toSignal]
    | _ =>
      rw [hpc] at h
      exact absurd h (by simp)

/-- **The prio thread signals what it has put**: nothing it waits for is in
between. -/
theorem signal_follows (prio : ℕ → TxPrio) {k n : ℕ} (h : s.toSignal k = n + 1) :
    ∃ t, Run (LoopStep prio) s (List.replicate (n + 1) (.rate (.tick k))) t
      ∧ 0 < t.txFd := by
  induction n generalizing s with
  | zero =>
    obtain ⟨t, hs, hpos⟩ := exists_tick prio h
    exact ⟨t, Run.single hs, hpos⟩
  | succ n ih =>
    obtain ⟨t, hs, hleft⟩ := exists_tick prio h
    rw [if_neg (Nat.succ_ne_zero n)] at hleft
    obtain ⟨u, hrun, hpos⟩ := ih hleft
    exact ⟨u, Run.cons hs hrun, hpos⟩

end LoopState

/-! ## Runs -/

/-- **No wake-up is lost where the stack has found all rings empty**, in any
interleaving: when it would sleep behind such an iteration, each socket has at
most one operation in the rings together, and that is one whose prio thread has
not signalled it yet – which it will do with its next steps, at most four, so
that the counter is not zero. -/
theorem no_wakeup_is_lost {s₀ s : LoopState} {prio : ℕ → TxPrio}
    {es : List LoopEvent} (hstart : s₀.Initial)
    (h : Run (LoopStep prio) s₀ es s) (hsleeps : s.pc = .selecting ∧ s.txFd = 0)
    (hended : s.ended = .empty) (k : ℕ) :
    overPrios (fun q => entriesOf k (s.rate.stack.queue q).contents)
      ≤ s.unsignalled k
    ∧ s.unsignalled k ≤ 1
    ∧ (0 < s.unsignalled k → ∃ n ≤ 4, ∃ t,
      Run (LoopStep prio) s (List.replicate n (.rate (.tick k))) t
        ∧ 0 < t.txFd) := by
  obtain ⟨hinv, hplaced⟩ := placed_of_run hstart h
  have hpassed : s.Passed (prio k) := by
    unfold LoopState.Passed
    rw [hsleeps.1]
    exact hended
  have hown := hinv.signals (prio k) hpassed hsleeps.2 k
  have hothers : ∀ q, prio k ≠ q →
      entriesOf k (s.rate.stack.queue q).contents = 0 := fun q hq =>
    entriesOf_eq_zero hinv.rate hplaced hq
  refine ⟨?_, hinv.flight k, fun hpos => ?_⟩
  · unfold overPrios
    cases hprio : prio k <;> rw [hprio] at hown hothers <;>
      simp [hothers] <;> exact hown
  · obtain ⟨n, hn, hleft⟩ := LoopState.toSignal_of_unsignalled hpos
    obtain ⟨t, hrun, ht⟩ := LoopState.signal_follows prio hleft
    exact ⟨n + 1, by omega, t, hrun, ht⟩

/-- The stack has looked at all rings; then a write is put, and the stack is
about to sleep before the signal. -/
theorem no_wakeup_is_lost_one :
    ∃ s : LoopState, s.pc = .selecting ∧ s.txFd = 0
      ∧ entriesOf 0 (s.rate.stack.queue .low).contents = 1
      ∧ overPrios (fun q => entriesOf 0 (s.rate.stack.queue q).contents)
        ≤ s.unsignalled 0 := by
  let op : PifusInternalOperation := ⟨.nop, 0, 0⟩
  let start : LoopState :=
    ⟨⟨⟨fun _ => .create (fun _ => ⟨op, op⟩) txQueueSize txQueueSize_pos
        txQueueSize_lt, none, 0, fun _ => 0, .outside, fun _ => [], [],
        fun _ => [], []⟩,
      fun k => ⟨k, .create (fun _ => .nop) squeueSize squeueSize_pos
        squeueSize_lt, 0, 0, 0, 0, .create (fun _ => ⟨.nop, 0⟩) txQueueSize
        txQueueSize_pos txQueueSize_lt, .outside, .outside, [], 0, []⟩⟩,
      0, fun _ => false, .selecting, .empty⟩
  have hstart : start.Initial :=
    ⟨⟨⟨rfl, rfl, rfl, fun _ => rfl, fun _ => rfl, fun _ => rfl⟩, fun _ => rfl,
      fun _ => rfl, fun _ => ⟨rfl, rfl, rfl, rfl, rfl, rfl, rfl⟩, fun _ => rfl,
      fun _ => rfl⟩, rfl, fun _ => rfl, rfl⟩
  have hs : ([.select true false, .rate (.stack .call), .rate (.stack .tick),
      .rate (.stack .tick), .rate (.stack .tick), .rate (.enqueue 0 .tcpWrite),
      .rate (.announce 0), .rate (.call 0), .rate (.tick 0), .rate (.tick 0),
      .rate (.tick 0), .rate (.tick 0), .rate (.tick 0), .rate (.tick 0)].foldlM
      (loopStep (fun _ => .low)) start).any
      (fun s => s.pc = .selecting ∧ s.txFd = 0 ∧ s.ended = .empty
        ∧ entriesOf 0 (s.rate.stack.queue .low).contents = 1) = true := by
    decide +kernel
  obtain ⟨s, hrun, hp⟩ := (Option.any_eq_true _ _).mp hs
  obtain ⟨hpc, hzero, hended, hone⟩ := of_decide_eq_true hp
  exact ⟨s, hpc, hzero, hone, (no_wakeup_is_lost hstart (Run.of_foldlM hrun)
    ⟨hpc, hzero⟩ hended 0).1⟩
