import Pifus.Operation
import Pifus.RingBuffer
import Pifus.Util.Counter
import Pifus.Util.Transition
import Mathlib.Data.Nat.ModEq

/-!
# The callback thread

In callback mode an app waits for its completions in a thread of its own.
`enqueue_in_cqueue` of the stack puts a result into the socket's cqueue and
increments `cqueue_futex`. The callback thread keeps a shadow of the futex in
`socket_futexes` and calls `handle_new_cqueue_entry` when the two differ – from
`fill_sockets_waitv`, which compares them, and from `callback_thread_loop`
after a wake-up. The handler runs one round for each increment that the shadow
has not seen, and in a round it invokes the callback, or logs that the app was
faster.

The handler reads the futex twice, once for the difference and once for the
new shadow, and the stack runs in another process. An increment between the
two reads is in the shadow and not in the difference, so it gets no round:
`swallowed` counts those.
-/

/-- Where the stack stands in `enqueue_in_cqueue`. -/
inductive CompletePc
  /-- Outside. -/
  | outside
  /-- In front of `socket->cqueue_futex++`. -/
  | announcing
  deriving DecidableEq

/-- Where the callback thread stands, as far as this socket is concerned.
`diff` is `shadow_actual_difference`. -/
inductive CallbackPc
  /-- Outside. -/
  | outside
  /-- In `fill_sockets_waitv`, in front of the comparison. -/
  | comparing
  /-- In `handle_new_cqueue_entry`, in front of its first read. -/
  | reading
  /-- In front of the second read of the futex. -/
  | refreshing (diff : ℕ)
  /-- In front of `pifus_socket_peek_result_code`, in round `i`. -/
  | peeking (i diff : ℕ)
  /-- In front of the callback, `next_op_code` pointing into a cell of the
  cqueue. -/
  | calling (cell i diff : ℕ)
  deriving DecidableEq

/-- One socket between the stack and the callback thread of its app, and the
history of its completions. -/
structure CqueueState (δ : Type*) where
  /-- The socket is still in `sockets`. -/
  linked : Bool
  cqueue : RingBuffer (PifusOperationResult δ)
  /-- `cqueue_futex`. -/
  cqueueFutex : UInt32
  /-- The shadow of `cqueue_futex` in the app's `socket_futexes`. -/
  shadow : UInt32
  stackPc : CompletePc
  pc : CallbackPc
  /-- The number of increments of `cqueue_futex`. -/
  increments : ℕ
  /-- The rounds of the handler: the code the callback was invoked with, or
  `none` where the result had been dequeued already. -/
  rounds : List (Option PifusOperationCode)
  /-- The number of increments between the two reads of a handler. -/
  swallowed : ℕ

/-- What can happen next. -/
inductive CqueueEvent (δ : Type*)
  /-- The stack calls `enqueue_in_cqueue`, up to the increment. -/
  | complete (result : PifusOperationResult δ)
  /-- The stack increments the futex. -/
  | announce
  /-- The app dequeues a result. -/
  | pop
  /-- The app dequeues the result of a close, and the socket leaves
  `sockets`. -/
  | unlink
  /-- `fill_sockets_waitv` gets to the socket. -/
  | scan
  /-- `callback_thread_loop` calls `handle_new_cqueue_entry`. -/
  | wake
  /-- The callback thread takes its next step. -/
  | tick

/-- A handler is between its two reads of the futex. -/
def CallbackPc.betweenReads : CallbackPc → Bool
  | refreshing _ => true
  | _ => false

/-- The event is an increment of the futex. -/
def CqueueEvent.isAnnounce {δ : Type*} : CqueueEvent δ → Bool
  | announce => true
  | _ => false

namespace CqueueState

variable {δ : Type*}

/-- The head of the loop in `handle_new_cqueue_entry`. -/
def loopHead (i diff : ℕ) : CallbackPc :=
  if i < diff then .peeking i diff else .outside

/-- The `put` of `enqueue_in_cqueue`. -/
def complete (s : CqueueState δ) (result : PifusOperationResult δ) :
    CqueueState δ :=
  match s.cqueue.put result with
  | some ring => { s with cqueue := ring, stackPc := .announcing }
  | none => s

/-- The increment of the futex. -/
def announce (s : CqueueState δ) : CqueueState δ :=
  { s with
    cqueueFutex := s.cqueueFutex + 1
    stackPc := .outside
    increments := s.increments + 1
    swallowed :=
      if s.pc.betweenReads then s.swallowed + 1 else s.swallowed }

/-- The next step of the callback thread. -/
def handle (s : CqueueState δ) : Option (CqueueState δ) :=
  match s.pc with
  | .outside => none
  | .comparing =>
    if s.cqueueFutex ≠ s.shadow then some { s with pc := .reading }
    else some { s with pc := .outside }
  | .reading =>
    some { s with pc := .refreshing (s.cqueueFutex - s.shadow).toNat }
  | .refreshing diff =>
    some { s with shadow := s.cqueueFutex, pc := loopHead 0 diff }
  | .peeking i diff =>
    match s.cqueue.peek with
    | some cell => some { s with pc := .calling cell i diff }
    | none =>
      some { s with rounds := s.rounds ++ [none], pc := loopHead (i + 1) diff }
  | .calling cell i diff => some { s with
      rounds := s.rounds ++ [some (s.cqueue.buf cell).code]
      pc := loopHead (i + 1) diff }

end CqueueState

variable {δ : Type*}

/-- **A step of the stack, of the app or of its callback thread.** -/
def cqueueStep (s : CqueueState δ) : CqueueEvent δ → Option (CqueueState δ)
  | .complete result =>
    match s.stackPc with
    | .outside => some (s.complete result)
    | .announcing => none
  | .announce =>
    match s.stackPc with
    | .outside => none
    | .announcing => some s.announce
  | .pop => some { s with cqueue := s.cqueue.eraseFirst.getD s.cqueue }
  | .unlink => some { s with
      cqueue := s.cqueue.eraseFirst.getD s.cqueue, linked := false }
  | .scan =>
    match s.pc with
    | .outside => some { s with pc := if s.linked then .comparing else .outside }
    | _ => none
  | .wake =>
    match s.pc with
    | .outside => some { s with pc := if s.linked then .reading else .outside }
    | _ => none
  | .tick => s.handle

/-- The steps as a relation. -/
def CqueueStep (s : CqueueState δ) (e : CqueueEvent δ)
    (t : CqueueState δ) : Prop :=
  cqueueStep s e = some t

namespace CqueueState

/-- A socket without completions. -/
structure Initial (s : CqueueState δ) : Prop where
  futex : s.cqueueFutex = s.shadow
  pc : s.pc = .outside
  increments : s.increments = 0
  rounds : s.rounds = []
  swallowed : s.swallowed = 0

/-- The callback thread is not in the handler and sees nothing new, so
`futex_waitv` would block. -/
def Quiescent (s : CqueueState δ) : Prop :=
  (s.pc = .outside ∨ s.pc = .comparing) ∧ s.shadow = s.cqueueFutex

/-- There was a round for every increment of the futex. -/
def Notified (s : CqueueState δ) : Prop :=
  s.rounds.length ≡ s.increments [MOD 2 ^ 32]

/-- The step is not an increment between the two reads of a handler. -/
def OutsideReads (s : CqueueState δ) (e : CqueueEvent δ) : Prop :=
  ¬ (e.isAnnounce = true ∧ s.pc.betweenReads = true)

instance (s : CqueueState δ) (e : CqueueEvent δ) :
    Decidable (s.OutsideReads e) :=
  inferInstanceAs (Decidable (¬ _))

/-! ## The invariant -/

/-- The rounds that the running handler has still to do. -/
def owed (s : CqueueState δ) : ℕ :=
  match s.pc with
  | .outside | .comparing | .reading => 0
  | .refreshing diff => diff
  | .peeking i diff | .calling _ i diff => diff - i

/-- What no handler has seen. Between its two reads, a handler has seen
everything. -/
def unseen (s : CqueueState δ) : UInt32 :=
  match s.pc with
  | .refreshing _ => 0
  | _ => s.cqueueFutex - s.shadow

/-- A round is one of those that the difference asks for. -/
def InRound (s : CqueueState δ) : Prop :=
  match s.pc with
  | .peeking i diff | .calling _ i diff => i < diff
  | _ => True

/-- **The invariant**: every increment has had its round, or will have it, or
was swallowed, or no handler has seen it. -/
structure Balanced (s : CqueueState δ) : Prop where
  balance : UInt32.ofNat (s.rounds.length + s.owed + s.swallowed) + s.unseen
    = UInt32.ofNat s.increments
  inRound : s.InRound

variable {start s t : CqueueState δ} {i diff : ℕ}

theorem loopHead_cases (i diff : ℕ) :
    i < diff ∧ loopHead i diff = .peeking i diff
      ∨ diff ≤ i ∧ loopHead i diff = .outside := by
  by_cases h : i < diff
  · exact Or.inl ⟨h, if_pos h⟩
  · exact Or.inr ⟨Nat.le_of_not_lt h, if_neg h⟩

theorem owed_loopHead (i diff : ℕ) (hpc : s.pc = loopHead i diff) :
    s.owed = diff - i := by
  rw [owed, hpc]
  rcases loopHead_cases i diff with ⟨-, heq⟩ | ⟨hle, heq⟩
  · rw [heq]
  · rw [heq, Nat.sub_eq_zero_of_le hle]

theorem unseen_loopHead (i diff : ℕ) (hpc : s.pc = loopHead i diff) :
    s.unseen = s.cqueueFutex - s.shadow := by
  rw [unseen, hpc]
  rcases loopHead_cases i diff with ⟨-, heq⟩ | ⟨-, heq⟩ <;> rw [heq]

theorem inRound_loopHead (i diff : ℕ) (hpc : s.pc = loopHead i diff) :
    s.InRound := by
  rw [InRound, hpc]
  rcases loopHead_cases i diff with ⟨hlt, heq⟩ | ⟨-, heq⟩ <;> rw [heq]
  · exact hlt
  · trivial

/-- What an increment adds, it adds to the unseen ones or to the swallowed
ones. -/
theorem Balanced.announce (h : s.Balanced) : s.announce.Balanced := by
  obtain ⟨hbalance, hround⟩ := h
  refine ⟨?_, hround⟩
  show UInt32.ofNat (s.rounds.length + s.owed + s.announce.swallowed)
    + s.announce.unseen = UInt32.ofNat (s.increments + 1)
  rw [UInt32.ofNat_add s.increments, ← hbalance]
  unfold CqueueState.announce unseen CallbackPc.betweenReads
  cases s.pc with
  | refreshing diff =>
    dsimp only
    rw [if_pos rfl]
    rw [← Nat.add_assoc, UInt32.ofNat_add _ 1]
    grind
  | _ => dsimp only; grind

/-- A round that is done is owed no more. -/
theorem Balanced.round {r : Option PifusOperationCode} (h : s.Balanced)
    (howed : s.owed = diff - i) (hi : i < diff)
    (hunseen : s.unseen = s.cqueueFutex - s.shadow) :
    Balanced { s with rounds := s.rounds ++ [r], pc := loopHead (i + 1) diff } := by
  refine ⟨?_, inRound_loopHead (i + 1) diff rfl⟩
  rw [owed_loopHead (i + 1) diff rfl,
    unseen_loopHead (i + 1) diff rfl]
  show UInt32.ofNat ((s.rounds ++ [r]).length + (diff - (i + 1)) + s.swallowed)
    + (s.cqueueFutex - s.shadow) = UInt32.ofNat s.increments
  have hcount : (s.rounds ++ [r]).length + (diff - (i + 1))
      = s.rounds.length + s.owed := by
    rw [List.length_append, List.length_singleton]
    omega
  rw [hcount, ← hunseen]
  exact h.balance

/-- **Every step of the callback thread keeps the invariant.** -/
theorem Balanced.handle (h : s.Balanced) (hs : s.handle = some t) :
    t.Balanced := by
  have hbalance := h.balance
  have hround := h.inRound
  rw [CqueueState.handle] at hs
  rw [owed, unseen] at hbalance
  rw [InRound] at hround
  cases hpc : s.pc with
  | outside =>
    rw [hpc] at hs
    exact absurd hs (by simp)
  | comparing =>
    rw [hpc] at hs hbalance
    dsimp only at hs
    split at hs
    all_goals
      obtain rfl := Option.some.inj hs
      exact ⟨hbalance, trivial⟩
  | reading =>
    rw [hpc] at hs hbalance
    obtain rfl := Option.some.inj hs
    refine ⟨?_, trivial⟩
    -- the difference becomes the rounds to do
    show UInt32.ofNat (s.rounds.length + (s.cqueueFutex - s.shadow).toNat
      + s.swallowed) + 0 = UInt32.ofNat s.increments
    rw [← hbalance, UInt32.ofNat_add, UInt32.ofNat_add, UInt32.ofNat_toNat,
      UInt32.ofNat_add, UInt32.ofNat_add]
    grind
  | refreshing diff =>
    rw [hpc] at hs hbalance
    obtain rfl := Option.some.inj hs
    refine ⟨?_, inRound_loopHead 0 diff rfl⟩
    rw [owed_loopHead 0 diff rfl,
      unseen_loopHead 0 diff rfl]
    show UInt32.ofNat (s.rounds.length + diff + s.swallowed)
      + (s.cqueueFutex - s.cqueueFutex) = UInt32.ofNat s.increments
    rw [UInt32.sub_self]
    exact hbalance
  | peeking i diff =>
    rw [hpc] at hs hround
    have howed : s.owed = diff - i := by rw [owed, hpc]
    have hunseen : s.unseen = s.cqueueFutex - s.shadow := by rw [unseen, hpc]
    dsimp only at hs
    split at hs
    · obtain rfl := Option.some.inj hs
      rw [hpc] at hbalance
      exact ⟨hbalance, hround⟩
    · obtain rfl := Option.some.inj hs
      exact h.round howed hround hunseen
  | calling cell i diff =>
    rw [hpc] at hs hround
    obtain rfl := Option.some.inj hs
    exact h.round (by rw [owed, hpc]) hround (by rw [unseen, hpc])

/-- **Every step keeps the invariant.** -/
theorem Balanced.step {e : CqueueEvent δ} (h : s.Balanced)
    (hs : CqueueStep s e t) : t.Balanced := by
  unfold CqueueStep at hs
  cases e with
  | complete result =>
    rw [cqueueStep] at hs
    split at hs
    · obtain rfl := Option.some.inj hs
      unfold CqueueState.complete
      split
      · exact ⟨h.balance, h.inRound⟩
      · exact h
    · exact absurd hs (by simp)
  | announce =>
    rw [cqueueStep] at hs
    split at hs
    · exact absurd hs (by simp)
    · obtain rfl := Option.some.inj hs
      exact h.announce
  | pop | unlink =>
    obtain rfl := Option.some.inj hs
    exact ⟨h.balance, h.inRound⟩
  | scan | wake =>
    rw [cqueueStep] at hs
    split at hs
    · rename_i hpc
      obtain rfl := Option.some.inj hs
      have hbalance := h.balance
      rw [owed, unseen, hpc] at hbalance
      cases hlinked : s.linked
      all_goals exact ⟨hbalance, trivial⟩
    · exact absurd hs (by simp)
  | tick => exact h.handle hs

theorem balanced_initial (h : start.Initial) : start.Balanced := by
  refine ⟨?_, ?_⟩
  · rw [owed, unseen, h.pc, h.rounds, h.swallowed, h.increments, h.futex]
    rw [UInt32.sub_self]
    rfl
  · rw [InRound, h.pc]
    trivial

/-- Only an increment between the reads of a handler is swallowed. -/
theorem swallowed_step {e : CqueueEvent δ} (h : s.OutsideReads e)
    (hs : CqueueStep s e t) : t.swallowed = s.swallowed := by
  unfold CqueueStep at hs
  cases e with
  | complete result =>
    rw [cqueueStep] at hs
    split at hs
    · obtain rfl := Option.some.inj hs
      unfold CqueueState.complete
      split <;> rfl
    · exact absurd hs (by simp)
  | announce =>
    rw [cqueueStep] at hs
    split at hs
    · exact absurd hs (by simp)
    · obtain rfl := Option.some.inj hs
      exact if_neg (fun hreads => h ⟨rfl, hreads⟩)
  | pop | unlink =>
    obtain rfl := Option.some.inj hs
    rfl
  | scan | wake =>
    rw [cqueueStep] at hs
    split at hs
    · obtain rfl := Option.some.inj hs
      rfl
    · exact absurd hs (by simp)
  | tick =>
    rw [cqueueStep, CqueueState.handle] at hs
    split at hs
    · exact absurd hs (by simp)
    · split at hs
      all_goals
        obtain rfl := Option.some.inj hs
        rfl
    · obtain rfl := Option.some.inj hs
      rfl
    · obtain rfl := Option.some.inj hs
      rfl
    · split at hs
      all_goals
        obtain rfl := Option.some.inj hs
        rfl
    · obtain rfl := Option.some.inj hs
      rfl

/-- When the callback thread has nothing left to see, what it did not do are
the swallowed increments. -/
theorem Balanced.quiescent (h : s.Balanced) (hq : s.Quiescent) :
    s.rounds.length + s.swallowed ≡ s.increments [MOD 2 ^ 32] := by
  obtain ⟨hpc, hshadow⟩ := hq
  have hbalance := h.balance
  have howed : s.owed = 0 := by
    rcases hpc with hpc | hpc <;> rw [owed, hpc]
  have hunseen : s.unseen = s.cqueueFutex - s.shadow := by
    rcases hpc with hpc | hpc <;> rw [unseen, hpc]
  rw [howed, hunseen, hshadow, UInt32.sub_self, UInt32.add_zero,
    Nat.add_zero] at hbalance
  have hmod := congrArg UInt32.toNat hbalance
  rwa [UInt32.toNat_ofNat', UInt32.toNat_ofNat'] at hmod

end CqueueState

/-! ## Runs -/

open CqueueState

variable {start : CqueueState δ}

/-- **Which completions are notified of.** In a run in which no increment of
the futex falls between the two reads of a handler, there has been a round for
every increment whenever the callback thread is about to block. In any other
run this is so if and only if the number of increments that fell between the
reads is a multiple of 2^32. -/
theorem completions_notified (hstart : start.Initial) :
    (∀ es s, Run (Guarded OutsideReads CqueueStep) start es s →
      s.Quiescent → s.Notified)
    ∧ ∀ es s, Run CqueueStep start es s →
      s.Quiescent → (s.Notified ↔ 2 ^ 32 ∣ s.swallowed) := by
  have hall : ∀ es s, Run CqueueStep start es s →
      s.Quiescent → (s.Notified ↔ 2 ^ 32 ∣ s.swallowed) := by
    intro es s h hq
    have hinv : s.Balanced := h.invariant Balanced (balanced_initial hstart)
      (fun _ _ _ hI hs => hI.step hs)
    have hsum := hinv.quiescent hq
    refine Iff.trans ?_ Nat.modEq_zero_iff_dvd
    constructor
    · intro hnotified
      exact Nat.ModEq.add_left_cancel hnotified
        (by simpa using hsum)
    · intro hzero
      have hadd := hzero.add_left s.rounds.length
      exact (hadd.symm.trans hsum)
  refine ⟨fun es s h hq => (hall es s h.of_guarded hq).mpr ?_, hall⟩
  have hzero : s.swallowed = 0 := h.invariant (fun s => s.swallowed = 0)
    hstart.swallowed (fun _ _ _ hI hs => (swallowed_step hs.1 hs.2).trans hI)
  rw [hzero]
  exact Nat.dvd_zero _

/-- A socket without completions, in callback mode. -/
def exampleSocket : CqueueState Unit :=
  ⟨true, .create (fun _ => ⟨.nop, .ok, ()⟩) cqueueSize cqueueSize_pos
      cqueueSize_lt, 0, 0, .outside, .outside, 0, [], 0⟩

theorem exampleSocket_initial : exampleSocket.Initial :=
  ⟨rfl, rfl, rfl, rfl, rfl⟩

/-- Two completions in one handler, which the app pops, and a third one while
the handler is in its second round. -/
theorem completions_notified_three :
    ∃ s : CqueueState Unit,
      s.rounds = [some .tcpBind, some .tcpConnect, some .tcpWrite]
      ∧ s.increments = 3 ∧ s.Notified := by
  have hs : ([.complete ⟨.tcpBind, .ok, ()⟩, .announce,
      .complete ⟨.tcpConnect, .ok, ()⟩, .announce, .wake, .tick, .tick, .tick,
      .tick, .pop, .tick, .complete ⟨.tcpWrite, .ok, ()⟩, .announce, .tick, .pop,
      .scan, .tick, .tick, .tick, .tick, .tick].foldlM
      (guardedStep OutsideReads cqueueStep) exampleSocket).map
      (fun s => (s.rounds, s.increments, s.pc, s.shadow, s.cqueueFutex))
      = some ([some .tcpBind, some .tcpConnect, some .tcpWrite], 3, .outside,
        3, 3) := by decide +kernel
  obtain ⟨s, hrun, hmap⟩ := Option.map_eq_some_iff.mp hs
  obtain ⟨hrounds, hincrements, hpc, hshadow, hfutex⟩ := by
    simpa only [Prod.mk.injEq] using hmap
  exact ⟨s, hrounds, hincrements, (completions_notified exampleSocket_initial).1
    _ s (Run.guarded_of_foldlM hrun) ⟨Or.inl hpc, hshadow.trans hfutex.symm⟩⟩

/-- **A second completion between the two reads of the handler**: the futex
has been incremented twice, the shadow has caught up, and there was one
round. -/
theorem increment_between_reads_lost :
    ∃ (es : List (CqueueEvent Unit)) (s : CqueueState Unit),
      Run CqueueStep exampleSocket es s ∧ s.Quiescent ∧ s.increments = 2
        ∧ s.rounds.length = 1 ∧ ¬ s.Notified := by
  have hs : ([.complete ⟨.tcpBind, .ok, ()⟩, .announce, .wake, .tick,
      .complete ⟨.tcpConnect, .ok, ()⟩, .announce, .tick, .tick,
      .tick].foldlM cqueueStep exampleSocket).map
      (fun s => (s.rounds.length, s.increments, s.pc, s.shadow, s.cqueueFutex))
      = some (1, 2, .outside, 2, 2) := by decide +kernel
  obtain ⟨s, hrun, hmap⟩ := Option.map_eq_some_iff.mp hs
  obtain ⟨hrounds, hincrements, hpc, hshadow, hfutex⟩ := by
    simpa only [Prod.mk.injEq] using hmap
  refine ⟨_, s, Run.of_foldlM hrun, ⟨Or.inl hpc, hshadow.trans hfutex.symm⟩,
    hincrements, hrounds, ?_⟩
  unfold Notified
  rw [hrounds, hincrements]
  decide
