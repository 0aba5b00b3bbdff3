import Pifus.LoopIteration
import Pifus.Pipeline

/-!
# No operation is stuck

The path of an operation has many places to wait at: an app that is in front of
its increment, a shadow that is behind, the limit on the operations of a socket, a
ring of `tx_queue` that is full, a stack in the middle of an iteration. Waiting for
each other, they might all wait for ever.

They do not. In whatever state the interleaving of the apps, the prio threads and
the stack has left them, there are steps that lead on until every operation that
was enqueued is executed (`nothing_is_stuck`). The argument has two halves, which
take turns. An iteration of the stack that finds an operation executes one, so with
nothing new the rings run empty; and where they are empty, the limit is far away
and there is room, so `handle_squeue_change` moves an operation of a squeue that is
not empty.

Three things that are up to others are granted. lwIP takes what it is given from
now on: a write that it refuses with `ERR_MEM` for ever stays at the front
(`Pifus.WriteAtFront`). An app that has put an operation takes the increment that
is left of its call. And the prio thread calls `handle_squeue_change` for a socket
when that has something in its squeue, as it does for the sockets in its list: a
socket that was lost on the way to it (`Pifus.NewSockets`) is never handled.
-/

/-! ## Steps that put nothing in -/

/-- lwIP takes the operation it is given, and nothing is put. -/
def StackEvent.drains : StackEvent → Bool
  | .put _ _ _ => false
  | .process result => result ≠ .tryAgain
  | _ => true

/-- No app enqueues anything, and lwIP takes the operations it is given. An app
may finish its increment, and `handle_squeue_change` is called for any socket. -/
def RateEvent.drains : RateEvent → Bool
  | .enqueue _ _ => false
  | .stack e => e.drains
  | _ => true

/-- The steps that use up what was enqueued. -/
abbrev DrainStep (prio : ℕ → TxPrio) : RateState → RateEvent → RateState → Prop :=
  Guarded (fun _ e => e.drains = true) (RateStep prio)

/-! ## The rings run empty -/

namespace StackState

variable {start s t : StackState} {e : StackEvent} {m : ℕ}

/-- **An operation is about to be taken**: one was found, or is in a ring that the
stack has not looked at yet. -/
def Serving (s : StackState) : Prop :=
  match s.pc with
  | .peeking p _ => ∃ q, q.behind ≤ p.behind ∧ (s.queue q).contents ≠ []
  | .handling _ _ recvScan _ => recvScan = false
  | .erasing _ _ => True
  | _ => False

/-- The next ring is one of those behind this one. -/
theorem exists_next {p q : TxPrio} (hle : q.behind ≤ p.behind) (hne : q ≠ p) :
    ∃ p', p.next = some p' ∧ q.behind ≤ p'.behind := by
  cases p <;> cases q <;> simp_all [TxPrio.next, TxPrio.behind]

/-- **What is about to be taken is taken**, where lwIP takes it. -/
theorem Serving.step (h : s.Serving) (hpoints : s.PointsAt)
    (hs : IterationStep s e t) (hdrains : e.drains = true) :
    t.load < s.load ∨ t.load = s.load ∧ t.Serving := by
  obtain ⟨-, hs⟩ := hs
  unfold Serving at h
  have hload : ∀ {u : StackState}, u.queue = s.queue → u.load = s.load := by
    intro u hu
    unfold load
    rw [hu]
  cases hpc : s.pc with
  | outside | finding | patching => rw [hpc] at h; exact h.elim
  | peeking p d =>
    rw [hpc] at h
    obtain ⟨q, hle, hne⟩ := h
    have ht : t = s.peek p d := by
      cases e with
      | tick =>
        rw [StackStep, stackStep, hpc] at hs
        exact (Option.some.inj hs).symm
      | put => exact absurd hdrains (by simp [StackEvent.drains])
      | call | process => rw [StackStep, stackStep, hpc] at hs; exact absurd hs (by simp)
    subst ht
    refine Or.inr ?_
    unfold peek
    split
    · exact ⟨hload rfl, rfl⟩
    · rename_i hpeek
      have hempty := RingBuffer.peek_eq_none_iff.mp hpeek
      have hqp : q ≠ p := fun he => hne (he ▸ hempty)
      obtain ⟨p', hnext, hle'⟩ := exists_next hle hqp
      rw [hnext]
      exact ⟨hload rfl, q, hle', hne⟩
  | handling p cell recvScan d =>
    rw [hpc] at h
    obtain rfl := h
    refine Or.inr ?_
    cases e with
    | process result =>
      rw [StackStep, stackStep, hpc] at hs
      dsimp only at hs
      split at hs
      · obtain rfl := Option.some.inj hs
        have htry : result ≠ .tryAgain := by simpa [StackEvent.drains] using hdrains
        unfold handle
        dsimp only
        by_cases hnop : ((s.queue p).buf cell).op.code = .nop ∧ false = false
        · rw [if_pos hnop]
          exact ⟨hload rfl, trivial⟩
        · rw [if_neg hnop, if_neg htry]
          exact ⟨hload rfl, trivial⟩
      · exact absurd hs (by simp)
    | put => exact absurd hdrains (by simp [StackEvent.drains])
    | call | tick => rw [StackStep, stackStep, hpc] at hs; exact absurd hs (by simp)
  | erasing counts d =>
    refine Or.inl ?_
    rw [PointsAt, hpc] at hpoints
    obtain ⟨p, hlast, hne⟩ := hpoints
    cases e with
    | tick =>
      rw [StackStep, stackStep, hpc, hlast] at hs
      obtain rfl := Option.some.inj hs
      exact load_update rfl (ringLoad_eraseFirst hne)
    | put => exact absurd hdrains (by simp [StackEvent.drains])
    | call | process => rw [StackStep, stackStep, hpc] at hs; exact absurd hs (by simp)

end StackState

/-! ## The squeues run empty -/

namespace SqueueState

variable {α : Type*} {sq sq' : SqueueState α}

end SqueueState

/-- No step changes the size of a ring. -/
theorem stackStep_endIndex {s t : StackState} {e : StackEvent}
    (hs : stackStep s e = some t) (q : TxPrio) :
    (t.queue q).endIndex = (s.queue q).endIndex := by
  have hupdate : ∀ (p : TxPrio) (ring : RingBuffer TxEntry),
      ring.endIndex = (s.queue p).endIndex →
      (Function.update s.queue p ring q).endIndex = (s.queue q).endIndex := by
    intro p ring hring
    by_cases hq : q = p
    · rw [hq, Function.update_self, hring]
    · rw [Function.update_of_ne hq]
  cases e with
  | put p code k =>
    obtain rfl := Option.some.inj hs
    unfold StackState.put
    dsimp only
    split
    · rename_i ring hput
      exact hupdate p ring (RingBuffer.endIndex_put hput)
    · rfl
  | call =>
    rw [stackStep] at hs
    split at hs
    · obtain rfl := Option.some.inj hs
      rfl
    · exact absurd hs (by simp)
  | tick =>
    rw [stackStep.eq_def] at hs
    dsimp only at hs
    split at hs
    · obtain rfl := Option.some.inj hs
      unfold StackState.peek
      split <;> rfl
    · obtain rfl := Option.some.inj hs
      unfold StackState.find
      split <;> rfl
    · obtain ⟨p, -, rfl⟩ := Option.map_eq_some_iff.mp hs
      refine hupdate p _ ?_
      cases herase : (s.queue p).eraseFirst with
      | none => rfl
      | some ring => exact RingBuffer.endIndex_eraseFirst herase
    · obtain rfl := Option.some.inj hs
      exact hupdate _ _ rfl
    · exact absurd hs (by simp)
  | process result =>
    rw [stackStep.eq_def] at hs
    dsimp only at hs
    split at hs
    · split at hs
      · obtain rfl := Option.some.inj hs
        unfold StackState.handle
        dsimp only
        split
        · rfl
        · split
          · split <;> rfl
          · rfl
      · exact absurd hs (by simp)
    · exact absurd hs (by simp)

/-- **The invariant**, with room in the rings for one operation. -/
structure DrainInv (prio : ℕ → TxPrio) (start : StackState) (s : RateState) : Prop where
  rate : RateInv start s
  placed : s.Placed prio
  room : ∀ q, 1 < (s.stack.queue q).endIndex

section Drain

variable {prio : ℕ → TxPrio} {start : StackState} {s t : RateState} {e : RateEvent}
  {k : ℕ}

/-- No step changes the size of a ring. -/
theorem rateStep_endIndex (hs : RateStep prio s e t) (q : TxPrio) :
    (t.stack.queue q).endIndex = (s.stack.queue q).endIndex := by
  rw [RateStep] at hs
  cases e with
  | enqueue j code =>
    rw [rateStep] at hs
    split at hs
    · obtain ⟨sq', -, rfl⟩ := Option.map_eq_some_iff.mp hs
      rfl
    · exact absurd hs (by simp)
  | announce j | call j =>
    obtain ⟨sq', -, rfl⟩ := Option.map_eq_some_iff.mp hs
    rfl
  | tick j =>
    obtain ⟨sq', -, rfl⟩ := Option.map_eq_some_iff.mp hs
    show ((s.afterTick prio j).queue q).endIndex = _
    unfold RateState.afterTick
    split
    · exact stackStep_endIndex (e := .put (prio j) _ j) rfl q
    · rfl
  | stack ev =>
    rw [rateStep] at hs
    split at hs
    · obtain ⟨stack, hstack, rfl⟩ := Option.map_eq_some_iff.mp hs
      exact stackStep_endIndex hstack q
    · exact absurd hs (by simp)

theorem DrainInv.step (h : DrainInv prio start s)
    (hstart : ∀ k, start.dequeuedOps k = 0) (hs : RateStep prio s e t) :
    DrainInv prio start t :=
  ⟨h.rate.step hstart hs, (h.rate.pipe_step h.placed hs).placed, fun q => by
    rw [rateStep_endIndex hs q]
    exact h.room q⟩

/-- The socket is below its limit. -/
def RateState.Below (s : RateState) (k : ℕ) : Prop :=
  ((s.sockets k).enqueuedOps - s.stack.dequeuedOps k).toNat < txMaxParallelOpsPerSocket

/-- **A socket at rest**: neither its app nor its prio thread is in the middle of
anything. -/
structure RateState.AtRest (s : RateState) (k : ℕ) : Prop where
  appPc : (s.sockets k).appPc = .outside
  pc : (s.sockets k).pc = .outside

/-- **Empty rings are below the limit.** -/
theorem DrainInv.below (h : DrainInv prio start s)
    (hstart : ∀ k, start.dequeuedOps k = 0) (hrest : s.AtRest k)
    (hempty : ∀ q, (s.stack.queue q).contents = []) : s.Below k := by
  have hflight : (s.sockets k).inFlight = 0 := by
    rw [SqueueState.inFlight, hrest.pc]
  obtain ⟨-, -, hdiff⟩ := h.rate.counters hstart hflight
  have huncounted : s.stack.uncounted k = 0 := by
    unfold StackState.uncounted overPrios
    simp only [hempty, List.countP_nil]
  rw [RateState.Below, hdiff, huncounted]
  decide

theorem DrainInv.run {es : List RateEvent} (h : DrainInv prio start s)
    (hstart : ∀ k, start.dequeuedOps k = 0) (hrun : Run (DrainStep prio) s es t) :
    DrainInv prio start t :=
  hrun.invariant (DrainInv prio start) h (fun _ _ _ hI hs => hI.step hstart hs.2)

end Drain

/-! ## Every state leads on -/
