import Pifus.StackRuns

/-!
# One iteration of the loop

Nothing is put into `tx_queue` here: one call of `lwip_loop_iteration` runs
until it returns, whatever the rings hold, and `process_tx_op` may return
something else every time it is asked.

`dequeued_operations` counts only some of the rounds. Taking off a `NOP` does
not count, and neither does a receive that the recv scan executes from the
middle of a ring, after which the same blocked write is at the front again.
What every round does use up is the *load*: each entry of a ring counts once,
and a receive twice, since it is executed before it is taken off. A write that
is refused uses up nothing, and then the iteration ends or a receive is
executed.

The recv scan is there to break a deadlock, and it does: an iteration that
ends on a write that has been refused for too long has left no receive in any
of the rings.
-/

/-- The events of an iteration: ring operations of the stack, and results of
`process_tx_op`. -/
def StackEvent.inIteration : StackEvent → Bool
  | .tick => true
  | .process _ => true
  | _ => false

/-- The steps of an iteration. -/
abbrev IterationStep : StackState → StackEvent → StackState → Prop :=
  Guarded (fun _ e => e.inIteration = true) StackStep

/-- The steps that are ring operations. -/
abbrev RingStep : StackState → StackEvent → StackState → Prop :=
  Guarded (fun _ e => e = .tick) StackStep

/-- The load of a ring: its entries, and once more those that are receives. -/
def ringLoad (ring : RingBuffer TxEntry) : ℕ :=
  ring.contents.length + ring.contents.countP isRecvOp

/-- How many rings are still to be looked at behind this one. -/
def TxPrio.behind : TxPrio → ℕ
  | high => 2
  | medium => 1
  | low => 0

/-- How far a round still has to go: the rings are looked at, the operation
at the front is processed, the rings are scanned for a receive, it is
processed, and an entry is erased or overwritten. -/
def StackPc.distance : StackPc → ℕ
  | outside => 0
  | erasing _ _ => 1
  | patching _ _ _ => 1
  | handling _ _ recvScan _ => if recvScan then 2 else 6
  | finding prio _ => 3 + prio.behind
  | peeking prio _ => 7 + prio.behind

namespace StackState

/-- **The load of the queue.** -/
def load (s : StackState) : ℕ :=
  ringLoad (s.queue .high) + ringLoad (s.queue .medium)
    + ringLoad (s.queue .low)

/-- **The measure of an iteration**: a round is at most ten steps long. -/
def measure (s : StackState) : ℕ := 10 * s.load + s.pc.distance

/-- No ring holds a receive. -/
def NoRecv (s : StackState) : Prop :=
  ∀ prio, ∀ e ∈ (s.queue prio).contents, e.op.code ≠ .tcpRecv

/-- **What the program counter points at**: an entry, which is a receive if
the recv scan found it; and `last_peek` is the ring to erase from. -/
def PointsAt (s : StackState) : Prop :=
  match s.pc with
  | .handling prio cell recvScan _ => ∃ l e r,
    (s.queue prio).contents = l ++ e :: r ∧ cell = (s.queue prio).cell l.length
      ∧ if recvScan then isRecvOp e = true else s.lastPeek = some prio
  | .erasing _ _ => ∃ prio, s.lastPeek = some prio
    ∧ (s.queue prio).contents ≠ []
  | .patching prio cell _ => ∃ l e r, (s.queue prio).contents = l ++ e :: r
    ∧ cell = (s.queue prio).cell l.length ∧ isRecvOp e = true
  | _ => True

/-- Where the recv scan stands: the rings it has looked at hold no receive. -/
def Scanned (s : StackState) : Prop :=
  match s.pc with
  | .finding prio _ => ∀ q, prio.behind < q.behind →
      ∀ e ∈ (s.queue q).contents, isRecvOp e = false
  | .handling _ _ recvScan _ => recvScan = true
  | .outside => s.NoRecv
  | _ => False

variable {s t u v : StackState} {prio : TxPrio} {cell d : ℕ} {counts : Bool}
  {result : PifusResultCode} {e : StackEvent}

/-! ## The load -/

theorem load_update {ring : RingBuffer TxEntry}
    (hqueue : t.queue = Function.update s.queue prio ring)
    (hlt : ringLoad ring < ringLoad (s.queue prio)) : t.load < s.load := by
  unfold load
  rw [hqueue]
  cases prio <;> simp only [Function.update_apply, reduceCtorEq, if_false,
    if_true] <;> omega

theorem ringLoad_eraseFirst {ring : RingBuffer TxEntry}
    (hne : ring.contents ≠ []) :
    ringLoad (ring.eraseFirst.getD ring) < ringLoad ring := by
  obtain ⟨ring', herase, hcontents⟩ := RingBuffer.exists_eraseFirst hne
  rw [herase, Option.getD_some, ringLoad, ringLoad, hcontents,
    List.length_cons, List.countP_cons]
  omega

/-- Overwriting a receive lowers the load of its ring. -/
theorem ringLoad_store {ring : RingBuffer TxEntry} {l r : List TxEntry}
    {x y : TxEntry} (hcontents : ring.contents = l ++ x :: r)
    (hx : isRecvOp x = true) (hy : isRecvOp y = false) :
    ringLoad (ring.store (ring.cell l.length) y) < ringLoad ring := by
  have hlt : l.length < ring.contents.length := by
    rw [hcontents]
    simp
  rw [ringLoad, ringLoad, RingBuffer.contents_store hlt, hcontents,
    List.set_append_right _ _ (le_refl _), Nat.sub_self, List.set_cons_zero,
    List.length_append, List.length_append, List.countP_append,
    List.countP_append, List.countP_cons_of_pos hx,
    List.countP_cons_of_neg (by simp [hy])]
  simp only [List.length_cons]
  omega

/-! ## One step -/

theorem measure_lt_of_distance (hqueue : t.queue = s.queue)
    (hlt : t.pc.distance < s.pc.distance) : t.measure < s.measure := by
  have hload : t.load = s.load := by
    unfold load
    rw [hqueue]
  rw [measure, measure, hload]
  omega

theorem measure_lt_of_load (hload : t.load < s.load) (hpc : t.pc = loopHead d) :
    t.measure < s.measure := by
  have hle : t.pc.distance ≤ 9 := by
    rw [hpc]
    rcases loopHead_cases d with h | h <;> rw [h]
    · exact Nat.zero_le 9
    · exact Nat.le_refl 9
  rw [measure, measure]
  omega

theorem pointsAt_loopHead (hpc : s.pc = loopHead d) : s.PointsAt := by
  unfold PointsAt
  rcases loopHead_cases d with h | h <;> rw [hpc, h] <;> trivial

/-- **Looking at the front of a ring.** -/
theorem peek_step (hpc : s.pc = .peeking prio d) :
    (s.peek prio d).PointsAt ∧ (s.peek prio d).measure < s.measure := by
  unfold StackState.peek
  split
  · rename_i cell hpeek
    obtain ⟨hcell, hhead⟩ := RingBuffer.peek_eq_some hpeek
    obtain ⟨r, hr⟩ := List.head?_eq_some_iff.mp hhead
    refine ⟨⟨[], _, r, hr, hcell, rfl⟩, measure_lt_of_distance rfl ?_⟩
    rw [hpc]
    show 6 < 7 + prio.behind
    omega
  · refine ⟨?_, measure_lt_of_distance rfl ?_⟩
    · cases prio <;> exact trivial
    · rw [hpc]
      cases prio <;>
        simp [TxPrio.next, StackPc.distance, TxPrio.behind]

/-- **Scanning a ring for a receive.** -/
theorem find_step (hpc : s.pc = .finding prio d) :
    (s.find prio d).PointsAt ∧ (s.find prio d).measure < s.measure := by
  unfold StackState.find
  split
  · rename_i cell hfind
    obtain ⟨l, e, r, hcontents, hcell, -, he, -⟩ :=
      RingBuffer.find_eq_some hfind
    refine ⟨⟨l, e, r, hcontents, hcell, he⟩, measure_lt_of_distance rfl ?_⟩
    rw [hpc]
    show 2 < 3 + prio.behind
    omega
  · refine ⟨?_, measure_lt_of_distance rfl ?_⟩
    · cases prio <;> exact trivial
    · rw [hpc]
      cases prio <;>
        simp [TxPrio.next, StackPc.distance, TxPrio.behind]

/-- **Erasing the entry at the front** uses it up. -/
theorem erase_step (hne : (s.queue prio).contents ≠ []) :
    (s.erase prio counts d).PointsAt
      ∧ (s.erase prio counts d).measure < s.measure :=
  ⟨pointsAt_loopHead rfl,
    measure_lt_of_load (load_update rfl (ringLoad_eraseFirst hne)) rfl⟩

/-- **Overwriting a receive** uses it up once. -/
theorem patch_step {l r : List TxEntry} {x : TxEntry}
    (hcontents : (s.queue prio).contents = l ++ x :: r)
    (hcell : cell = (s.queue prio).cell l.length) (hx : isRecvOp x = true) :
    (s.patch prio cell d).PointsAt
      ∧ (s.patch prio cell d).measure < s.measure := by
  subst hcell
  exact ⟨pointsAt_loopHead rfl, measure_lt_of_load
    (load_update rfl (ringLoad_store hcontents hx rfl)) rfl⟩

/-- **A result of `process_tx_op`** leads on in the round or out of the
loop. -/
theorem handle_step {recvScan : Bool} (h : s.PointsAt)
    (hpc : s.pc = .handling prio cell recvScan d)
    (hresult : Processes ((s.queue prio).buf cell).op.code result) :
    (s.handle prio cell recvScan d result).PointsAt
      ∧ (s.handle prio cell recvScan d result).measure < s.measure := by
  rw [PointsAt, hpc] at h
  obtain ⟨l, x, r, hcontents, hcell, hscan⟩ := h
  have hbuf := buf_of_contents hcontents
  rw [← hcell] at hbuf
  rw [hbuf] at hresult
  have hne : (s.queue prio).contents ≠ [] := by
    rw [hcontents]
    simp
  unfold handle
  rw [hbuf]
  dsimp only
  cases recvScan with
  | true =>
    have hcode : x.op.code = .tcpRecv := by simpa [isRecvOp] using hscan
    have hdone : result ≠ .tryAgain := fun h => by
      have hwrite := hresult.2 h
      rw [hcode] at hwrite
      exact absurd hwrite (by decide)
    rw [if_neg (by simp), if_neg hdone]
    refine ⟨⟨l, x, r, hcontents, hcell, hscan⟩, measure_lt_of_distance rfl ?_⟩
    rw [hpc]
    exact Nat.lt_succ_self 1
  | false =>
    have hpeek : s.lastPeek = some prio := by simpa using hscan
    split
    · refine ⟨⟨prio, hpeek, hne⟩, measure_lt_of_distance rfl ?_⟩
      rw [hpc]
      show 1 < 6
      omega
    · split
      · split
        · refine ⟨trivial, measure_lt_of_distance rfl ?_⟩
          rw [hpc]
          show 5 < 6
          omega
        · refine ⟨trivial, measure_lt_of_distance rfl ?_⟩
          rw [hpc]
          show 0 < 6
          omega
      · refine ⟨⟨prio, hpeek, hne⟩, measure_lt_of_distance rfl ?_⟩
        rw [hpc]
        show 1 < 6
        omega

/-- **Every step of an iteration gets it closer to its end.** -/
theorem PointsAt.step (h : s.PointsAt) (hs : IterationStep s e t) :
    t.PointsAt ∧ t.measure < s.measure := by
  obtain ⟨hin, hs⟩ := hs
  rw [StackStep, stackStep.eq_def] at hs
  cases e with
  | put prio code socket => exact absurd hin (by simp [StackEvent.inIteration])
  | call => exact absurd hin (by simp [StackEvent.inIteration])
  | tick =>
    dsimp only at hs
    split at hs
    · rename_i prio d hpc
      obtain rfl := Option.some.inj hs
      exact peek_step hpc
    · rename_i prio d hpc
      obtain rfl := Option.some.inj hs
      exact find_step hpc
    · rename_i counts d hpc
      rw [PointsAt, hpc] at h
      obtain ⟨prio, hlast, hne⟩ := h
      rw [hlast] at hs
      obtain rfl := Option.some.inj hs
      exact erase_step hne
    · rename_i prio cell d hpc
      rw [PointsAt, hpc] at h
      obtain ⟨l, x, r, hcontents, hcell, hx⟩ := h
      obtain rfl := Option.some.inj hs
      exact patch_step hcontents hcell hx
    · exact absurd hs (by simp)
  | process result =>
    dsimp only at hs
    split at hs
    · rename_i prio cell recvScan d hpc
      split at hs
      · rename_i hresult
        obtain rfl := Option.some.inj hs
        exact handle_step h hpc hresult
      · exact absurd hs (by simp)
    · exact absurd hs (by simp)

/-- **An iteration is never stuck**: inside the loop there is a next step. -/
theorem PointsAt.exists_step (h : s.PointsAt) (hpc : s.pc ≠ .outside) :
    ∃ e t, IterationStep s e t := by
  cases hcase : s.pc with
  | outside => exact absurd hcase hpc
  | peeking prio d => exact ⟨.tick, _, rfl, by rw [StackStep, stackStep, hcase]⟩
  | finding prio d => exact ⟨.tick, _, rfl, by rw [StackStep, stackStep, hcase]⟩
  | patching prio cell d =>
    exact ⟨.tick, _, rfl, by rw [StackStep, stackStep, hcase]⟩
  | erasing counts d =>
    rw [PointsAt, hcase] at h
    obtain ⟨prio, hlast, -⟩ := h
    exact ⟨.tick, s.erase prio counts d, rfl, by
      rw [StackStep, stackStep, hcase, hlast]
      rfl⟩
  | handling prio cell recvScan d =>
    have hok : Processes ((s.queue prio).buf cell).op.code .ok :=
      ⟨fun _ => rfl, fun h => absurd h (by simp)⟩
    exact ⟨.process .ok, _, rfl, by
      rw [StackStep, stackStep, hcase]
      exact if_pos hok⟩

/-! ## The scan for receives -/

/-- **One more ring is scanned**, or a receive is found. -/
theorem Scanned.find (h : s.Scanned) (hpc : s.pc = .finding prio d) :
    (s.find prio d).Scanned := by
  rw [Scanned, hpc] at h
  unfold StackState.find
  split
  · exact rfl
  · rename_i hfind
    have hnone := RingBuffer.find_eq_none hfind
    have hall : ∀ q, prio.behind ≤ q.behind →
        ∀ e ∈ (s.queue q).contents, isRecvOp e = false := by
      intro q hq
      by_cases heq : q = prio
      · rw [heq]
        exact hnone
      · refine h q (Nat.lt_of_le_of_ne hq (fun hb => heq ?_))
        cases q <;> cases prio <;> simp_all [TxPrio.behind]
    cases prio with
    | high => exact fun q hq => hall q (by
        cases q <;> simp_all [TxPrio.behind])
    | medium => exact fun q hq => hall q (by
        cases q <;> simp_all [TxPrio.behind])
    | low =>
      intro q e he
      simpa [isRecvOp] using hall q (Nat.zero_le _) e he

/-- **Every ring operation of a scan keeps what the scan has seen.** -/
theorem Scanned.step (h : s.Scanned) (hs : RingStep s e t) : t.Scanned := by
  obtain ⟨rfl, hs⟩ := hs
  rw [StackStep, stackStep.eq_def] at hs
  dsimp only at hs
  split at hs
  · rename_i hpc
    rw [Scanned, hpc] at h
    exact h.elim
  · rename_i hpc
    obtain rfl := Option.some.inj hs
    exact h.find hpc
  · rename_i hpc
    rw [Scanned, hpc] at h
    exact h.elim
  · rename_i hpc
    rw [Scanned, hpc] at h
    exact h.elim
  · exact absurd hs (by simp)

/-- **A write refused for too long** starts the scan. -/
theorem scanned_of_tryAgain (hs : IterationStep s (.process .tryAgain) t)
    (hfull : maxFullSndBufIterations ≤ s.fullSndbufIterations) :
    t.Scanned := by
  obtain ⟨-, hs⟩ := hs
  rw [StackStep, stackStep.eq_def] at hs
  dsimp only at hs
  split at hs
  · rename_i prio cell recvScan d hpc
    split at hs
    · rename_i hresult
      obtain rfl := Option.some.inj hs
      have hcode : ((s.queue prio).buf cell).op.code = .tcpWrite :=
        hresult.2 rfl
      unfold handle
      dsimp only
      rw [if_neg (fun h => by rw [hcode] at h; exact absurd h.1 (by decide)),
        if_pos rfl, if_pos hfull]
      intro q hq
      cases q <;> simp [TxPrio.behind] at hq
    · exact absurd hs (by simp)
  · exact absurd hs (by simp)

/-! ## Whole iterations -/

/-- **`lwip_loop_iteration` always ends, and its deadlock breaker is
complete.** With no puts, whatever the rings hold: no run of the iteration is
longer than the load of the queue allows, and one that cannot go on has left
the loop. And where it leaves the loop by a scan after a write was refused,
`full_sndbuf_iterations` having reached its limit before, no ring holds a
receive. -/
theorem loop_iteration_ends (hcall : StackStep s .call t) :
    (∀ es u, Run IterationStep t es u →
      es.length ≤ 10 * s.load + 9
        ∧ ((∀ e v, ¬ IterationStep u e v) → u.pc = .outside))
    ∧ ∀ es u v ts w, Run IterationStep t es u →
        IterationStep u (.process .tryAgain) v →
        maxFullSndBufIterations ≤ u.fullSndbufIterations →
        Run RingStep v ts w → w.pc = .outside → w.NoRecv := by
  constructor
  · intro es u hrun
    rw [StackStep, stackStep.eq_def] at hcall
    dsimp only at hcall
    split at hcall
    · obtain rfl := Option.some.inj hcall
      obtain ⟨hpoints, hlen⟩ := hrun.length_add_le PointsAt measure
        (pointsAt_loopHead (d := 0) rfl) (fun _ _ _ hI hs => hI.step hs)
      refine ⟨?_, fun hstuck => ?_⟩
      · have hstart : (loopHead 0).distance = 9 := rfl
        have hle : es.length ≤ 10 * s.load + (loopHead 0).distance :=
          Nat.le_trans (Nat.le_add_right _ _) hlen
        rwa [hstart] at hle
      · by_contra hpc
        obtain ⟨e, v, hs⟩ := hpoints.exists_step hpc
        exact hstuck e v hs
    · exact absurd hcall (by simp)
  · intro es u v ts w _ hrefused hfull hscan hpc
    have hscanned : w.Scanned := hscan.invariant Scanned
      (scanned_of_tryAgain hrefused hfull) (fun _ _ _ hI hs => hI.step hs)
    rw [Scanned, hpc] at hscanned
    exact hscanned

/-- A write that is refused, a receive behind it that the recv scan takes,
and the same write refused again. -/
theorem loop_iteration_ends_refused :
    ∃ s t u v w es ts, StackStep s .call t ∧ Run IterationStep t es u
      ∧ IterationStep u (.process .tryAgain) v ∧ Run RingStep v ts w
      ∧ es.length ≤ 10 * s.load + 9 ∧ w.NoRecv := by
  let op : PifusInternalOperation := ⟨.nop, 0, 0⟩
  let start : StackState :=
    ⟨fun _ => .create (fun _ => ⟨op, op⟩) txQueueSize txQueueSize_pos
        txQueueSize_lt, none, maxFullSndBufIterations, fun _ => 0, .outside,
      fun _ => [], [], fun _ => [], []⟩
  let es : List StackEvent := [.tick, .tick, .tick, .process .tryAgain, .tick,
    .tick, .tick, .process .async, .tick, .tick, .tick, .tick]
  have hs : (stackRun start [.put .low .tcpWrite 0, .put .low .tcpRecv 0]).any
      (fun s => (stackStep s .call).any (fun t =>
        (es.foldlM (guardedStep (fun _ e => e.inIteration = true) stackStep)
          t).any (fun u => maxFullSndBufIterations ≤ u.fullSndbufIterations
            ∧ (stackStep u (.process .tryAgain)).any (fun v =>
              ([.tick, .tick, .tick].foldlM (guardedStep
                (fun _ e => e = .tick) stackStep) v).any
                (fun w => w.pc = .outside))))) = true := by decide +kernel
  obtain ⟨s, -, hs⟩ := (Option.any_eq_true _ _).mp hs
  obtain ⟨t, hcall, ht⟩ := (Option.any_eq_true _ _).mp hs
  obtain ⟨u, hrun, hu⟩ := (Option.any_eq_true _ _).mp ht
  obtain ⟨hfull, hu⟩ := of_decide_eq_true hu
  obtain ⟨v, hrefused, hv⟩ := (Option.any_eq_true _ _).mp hu
  obtain ⟨w, hscan, hw⟩ := (Option.any_eq_true _ _).mp hv
  have hrun' := Run.guarded_of_foldlM hrun
  have hscan' := Run.guarded_of_foldlM hscan
  have hends := loop_iteration_ends hcall
  exact ⟨s, t, u, v, w, es, _, hcall, hrun', ⟨rfl, hrefused⟩, hscan',
    (hends.1 _ _ hrun').1, hends.2 _ _ _ _ _ hrun' ⟨rfl, hrefused⟩ hfull hscan'
      (of_decide_eq_true hw)⟩

end StackState
