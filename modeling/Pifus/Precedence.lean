import Pifus.LoopIteration

/-!
# Precedence of the rings

`pifus_priority_aware_ring_buffer_peek` looks at the ring of high priority first.
The prio threads put while it looks, so an operation may come into a ring that
the peek has just left, and then one of a lower ring is processed before it. That
happens once: the next round starts at the first ring again, and it does not get
past a ring that has an operation (`overtaken_at_most_once`).

The recv scan is left out here. It is made for a write that is at the front of
a ring and blocks all others, and it may take a receive from any ring.
-/

/-- The stack has looked at the ring in this round and found it empty. -/
def StackPc.passes (q : TxPrio) : StackPc → Prop
  | .peeking p _ => p.behind < q.behind
  | .handling p _ false _ => p.behind < q.behind
  | _ => False

/-- The step processes the first operation of a ring behind this one. -/
def StackState.overtakes (s : StackState) (q : TxPrio) : StackEvent → Bool
  | .process _ =>
    match s.pc with
    | .handling p _ false _ => p.behind < q.behind
    | _ => false
  | _ => false

/-- The stack, and for each ring the number of operations of the rings behind it
that were processed since it was empty. -/
structure PrecedenceState where
  stack : StackState
  overtaken : TxPrio → ℕ

/-- A step of the stack or of a prio thread. -/
def precedenceStep (s : PrecedenceState) (e : StackEvent) :
    Option PrecedenceState :=
  (stackStep s.stack e).map (fun t =>
    ⟨t, fun q =>
      if (t.queue q).contents = [] then 0
      else s.overtaken q + (s.stack.overtakes q e).toNat⟩)

/-- The steps as a relation. -/
def PrecedenceStep (s : PrecedenceState) (e : StackEvent)
    (t : PrecedenceState) : Prop :=
  precedenceStep s e = some t

/-- **The invariant**: a ring that was passed in this round has not been
overtaken yet. -/
structure PrecedenceInv (s : PrecedenceState) : Prop where
  once : ∀ q, s.overtaken q ≤ 1
  passed : ∀ q, s.stack.pc.passes q → s.overtaken q = 0

@[simp] theorem StackState.pc_put (s : StackState) (p : TxPrio)
    (code : PifusOperationCode) (k : ℕ) : (s.put p code k).pc = s.pc := by
  dsimp only [StackState.put]
  split <;> rfl

namespace StackPc

variable {s t : StackState} {q : TxPrio} {e : StackEvent}

theorem not_passes_loopHead (d : ℕ) : ¬ (StackState.loopHead d).passes q := by
  rcases loopHead_cases d with hd | hd
  · rw [hd]
    exact id
  · rw [hd]
    cases q <;> exact Nat.not_lt.mpr (by simp [TxPrio.behind])

/-- **A ring is passed when it is empty**, and the operation that is processed
then ends the round. -/
theorem passes_step (hs : StackStep s e t) (h : t.pc.passes q) :
    (s.pc.passes q ∧ s.overtakes q e = false) ∨ (t.queue q).contents = [] := by
  unfold StackStep at hs
  cases e with
  | put p code socket =>
    obtain rfl := Option.some.inj hs
    refine Or.inl ⟨?_, rfl⟩
    rwa [StackState.pc_put] at h
  | call =>
    rw [stackStep] at hs
    split at hs
    · obtain rfl := Option.some.inj hs
      exact absurd h (not_passes_loopHead 0)
    · exact absurd hs (by simp)
  | tick =>
    rw [stackStep] at hs
    cases hpc : s.pc with
    | outside | handling => rw [hpc] at hs; exact absurd hs (by simp)
    | peeking p d =>
      rw [hpc] at hs
      obtain rfl := Option.some.inj hs
      unfold StackState.peek at h ⊢
      cases hpeek : (s.queue p).peek with
      | some cell =>
        rw [hpeek] at h
        exact Or.inl ⟨h, rfl⟩
      | none =>
        rw [hpeek] at h
        dsimp only at h ⊢
        have hempty := RingBuffer.peek_eq_none_iff.mp hpeek
        cases hnext : p.next with
        | none =>
          rw [hnext] at h
          exact absurd h id
        | some p' =>
          rw [hnext] at h
          change p'.behind < q.behind at h
          -- the ring that was just looked at, or one before it
          have hq : q = p ∨ p.behind < q.behind := by
            cases p <;> cases q <;> cases p' <;>
              simp_all [TxPrio.next, TxPrio.behind]
          rcases hq with rfl | hq
          · exact Or.inr hempty
          · exact Or.inl ⟨hq, rfl⟩
    | finding p d =>
      rw [hpc] at hs
      obtain rfl := Option.some.inj hs
      unfold StackState.find at h
      cases hfind : (s.queue p).find isRecvOp with
      | some cell =>
        rw [hfind] at h
        exact absurd h id
      | none =>
        rw [hfind] at h
        cases p <;> exact absurd h id
    | erasing counts d =>
      rw [hpc] at hs
      obtain ⟨p, -, rfl⟩ := Option.map_eq_some_iff.mp hs
      exact absurd h (not_passes_loopHead _)
    | patching p cell d =>
      rw [hpc] at hs
      obtain rfl := Option.some.inj hs
      exact absurd h (not_passes_loopHead d)
  | process result =>
    rw [stackStep] at hs
    split at hs
    · split at hs
      · obtain rfl := Option.some.inj hs
        exfalso
        unfold StackState.handle at h
        dsimp only at h
        split at h
        · exact h
        split at h
        · split at h <;> exact h
        · dsimp only at h
          split at h <;> exact h
      · exact absurd hs (by simp)
    · exact absurd hs (by simp)

/-- An operation that overtakes is processed in a round that has passed the
ring. -/
theorem passes_of_overtakes (h : s.overtakes q e = true) : s.pc.passes q := by
  unfold StackState.overtakes at h
  cases e with
  | process result =>
    dsimp only at h
    cases hpc : s.pc with
    | handling p cell recvScan d =>
      rw [hpc] at h
      cases recvScan with
      | true => exact absurd h (by simp)
      | false =>
        have hlt : p.behind < q.behind := of_decide_eq_true h
        exact hlt
    | _ =>
      rw [hpc] at h
      exact absurd h (by simp)
  | _ => exact absurd h (by simp)

end StackPc

variable {s t : PrecedenceState} {e : StackEvent}

/-- **Every step keeps the invariant.** -/
theorem PrecedenceInv.step (h : PrecedenceInv s) (hs : PrecedenceStep s e t) :
    PrecedenceInv t := by
  obtain ⟨stack, hstack, rfl⟩ := Option.map_eq_some_iff.mp hs
  refine ⟨fun q => ?_, fun q hq => ?_⟩
  · dsimp only
    split
    · exact Nat.zero_le 1
    cases hover : s.stack.overtakes q e with
    | true =>
      rw [h.passed q (StackPc.passes_of_overtakes hover)]
      exact Nat.le_refl 1
    | false => exact h.once q
  · dsimp only
    rcases StackPc.passes_step hstack hq with ⟨hbefore, hnot⟩ | hempty
    · rw [hnot, h.passed q hbefore]
      exact ite_self 0
    · rw [if_pos hempty]

/-- **A ring with operations is overtaken at most once**, in every run of the
loop with the prio threads putting in between: from when a ring is not empty any
more until it is empty again, at most one operation is processed that was at the
front of a ring of lower priority. -/
theorem overtaken_at_most_once {start s : PrecedenceState} {es : List StackEvent}
    (hstart : ∀ q, start.overtaken q = 0) (h : Run PrecedenceStep start es s)
    (q : TxPrio) : s.overtaken q ≤ 1 := by
  have hinv : PrecedenceInv start :=
    ⟨fun q => by rw [hstart q]; exact Nat.zero_le 1, fun q _ => hstart q⟩
  exact (h.invariant PrecedenceInv hinv (fun _ _ _ hI hs => hI.step hs)).once q

/-- An operation of low priority that was at the front when one of high priority
was put. -/
theorem overtaken_at_most_once_one :
    ∃ s : PrecedenceState, s.overtaken .high = 1
      ∧ (s.stack.queue .high).contents ≠ [] ∧ s.overtaken .high ≤ 1 := by
  let op : PifusInternalOperation := ⟨.nop, 0, 0⟩
  let start : PrecedenceState :=
    ⟨⟨fun _ => .create (fun _ => ⟨op, op⟩) txQueueSize txQueueSize_pos
        txQueueSize_lt, none, 0, fun _ => 0, .outside, fun _ => [], [],
      fun _ => [], []⟩, fun _ => 0⟩
  have hs : ([.put .low .tcpWrite 0, .call, .tick, .put .high .tcpConnect 1,
      .tick, .tick, .process .async, .tick].foldlM precedenceStep start).any
      (fun s => s.overtaken .high = 1 ∧ (s.stack.queue .high).contents ≠ [])
      = true := by decide +kernel
  obtain ⟨s, hrun, hp⟩ := (Option.any_eq_true _ _).mp hs
  obtain ⟨hone, hne⟩ := of_decide_eq_true hp
  exact ⟨s, hone, hne, overtaken_at_most_once (fun _ => rfl)
    (Run.of_foldlM hrun) .high⟩
