import Pifus.Stack
import Pifus.Util.Transition

/-!
# From an operation to its result

One socket, from the submission of an operation to the result that its app
pops. A step is what one party does at a time: the app submits an operation
or pops a result, the prio thread moves an operation on, the stack processes
one, or a callback of lwIP hands over the result of an operation that was
asynchronous. The queues themselves are those of the source, so a step fails
where they are full or empty.

Three limits meet here. The squeue is short; the prio thread holds back a
socket with `TX_MAX_PARALLEL_OPS_PER_SOCKET` operations on their way through
the stack; and the cqueue takes `CQUEUE_SIZE - 1` results. Only the last one
concerns results, and nothing makes the app pop them: an operation no longer
counts as one on its way once it was processed. So `enqueue_in_cqueue` has a
branch for a full cqueue, in which the result is dropped.
-/

variable {δ : Type*}

/-- One socket, and the history of its results. -/
structure PipelineState (δ : Type*) where
  squeue : RingBuffer PifusOperationCode
  /-- `enqueued_ops`, a `uint64_t`. -/
  enqueuedOps : UInt64
  /-- `dequeued_ops`, a `uint64_t`. -/
  dequeuedOps : UInt64
  /-- The operations of the socket in `tx_queue`, oldest first. -/
  inTx : List PifusOperationCode
  cqueue : RingBuffer (PifusOperationResult δ)
  /-- `cqueue_futex`. -/
  cqueueFutex : UInt32
  /-- The results that were put into the cqueue, oldest first. -/
  appended : List (PifusOperationResult δ)
  /-- The results that found the cqueue full. -/
  dropped : List (PifusOperationResult δ)
  /-- The results the app popped, oldest first. -/
  popped : List (PifusOperationResult δ)

/-- What can happen next. -/
inductive PipelineEvent (δ : Type*)
  /-- The app calls `enqueue_operation`. No function of the API submits a
  `NOP`, which the stack answers with nothing. -/
  | submit (code : PifusOperationCode)
  /-- The prio thread runs a round of `handle_squeue_change`. -/
  | move
  /-- The stack runs `handle_operation` on the oldest operation, or on the
  oldest receive. -/
  | process (recvScan : Bool) (result : PifusResultCode) (data : δ)
  /-- A callback of lwIP hands over a result. -/
  | callback (result : PifusOperationResult δ)
  /-- The app calls `pifus_socket_pop_result`. -/
  | pop

namespace PipelineState

/-- `has_socket_max_parallel_ops`. -/
def hasSocketMaxParallelOps (s : PipelineState δ) : Bool :=
  txMaxParallelOpsPerSocket ≤ (s.enqueuedOps - s.dequeuedOps).toNat

/-- `enqueue_in_cqueue`. -/
def enqueueInCqueue (s : PipelineState δ) (result : PifusOperationResult δ) :
    PipelineState δ :=
  match s.cqueue.put result with
  | some ring => { s with
      cqueue := ring
      cqueueFutex := s.cqueueFutex + 1
      appended := s.appended ++ [result] }
  | none => { s with dropped := s.dropped ++ [result] }

/-- `enqueue_operation`; a full squeue is left as it is. -/
def submit (s : PipelineState δ) (code : PifusOperationCode) :
    PipelineState δ :=
  match s.squeue.put code with
  | some ring => { s with squeue := ring }
  | none => s

/-- A round of `handle_squeue_change`. -/
def move (s : PipelineState δ) : Option (PipelineState δ) :=
  if s.hasSocketMaxParallelOps then none
  else match s.squeue.get with
    | some (code, ring) => some { s with
        squeue := ring
        inTx := s.inTx ++ [code]
        enqueuedOps := s.enqueuedOps + 1 }
    | none => none

/-- `handle_operation` on the operation number `i` of those in `tx_queue`,
when it was processed with this result. -/
def finish (s : PipelineState δ) (i : ℕ) (code : PifusOperationCode)
    (result : PifusResultCode) (data : δ) : PipelineState δ :=
  let s : PipelineState δ := { s with
    inTx := s.inTx.eraseIdx i, dequeuedOps := s.dequeuedOps + 1 }
  -- ASYNC ops are not enqueued into cqueue, only after they have finished
  if result ≠ .async then s.enqueueInCqueue ⟨code, result, data⟩ else s

/-- `handle_operation`. -/
def process (s : PipelineState δ) (recvScan : Bool) (result : PifusResultCode)
    (data : δ) : Option (PipelineState δ) :=
  let i := if recvScan then s.inTx.findIdx (· = .tcpRecv) else 0
  match s.inTx[i]? with
  | some code =>
    if Processes code result then
      if result = .tryAgain then some s
      else some (s.finish i code result data)
    else none
  | none => none

/-- `dequeue_operation`; on an empty cqueue it returns `false`. -/
def pop (s : PipelineState δ) : PipelineState δ :=
  match s.cqueue.get with
  | some (result, ring) => { s with
      cqueue := ring, popped := s.popped ++ [result] }
  | none => s

end PipelineState

/-- **A step of the app, the prio thread or the stack.** -/
def pipelineStep (s : PipelineState δ) :
    PipelineEvent δ → Option (PipelineState δ)
  | .submit code => if code ≠ .nop then some (s.submit code) else none
  | .move => s.move
  | .process recvScan result data => s.process recvScan result data
  | .callback result => some (s.enqueueInCqueue result)
  | .pop => some s.pop

/-- The steps as a relation. -/
def PipelineStep (s : PipelineState δ) (e : PipelineEvent δ)
    (t : PipelineState δ) : Prop :=
  pipelineStep s e = some t

namespace PipelineState

/-- A socket that has just been created. -/
structure Initial (s : PipelineState δ) : Prop where
  squeue : s.squeue.contents = []
  squeueEnd : s.squeue.endIndex = squeueSize
  counters : s.enqueuedOps = s.dequeuedOps
  inTx : s.inTx = []
  cqueue : s.cqueue.contents = []
  cqueueEnd : s.cqueue.endIndex = cqueueSize
  appended : s.appended = []
  dropped : s.dropped = []
  popped : s.popped = []

/-- **The invariant**: the results popped and those still in the cqueue are
the results appended, and the two counters are as far apart as operations are
in `tx_queue`. -/
structure Accounted (s : PipelineState δ) : Prop where
  results : s.appended = s.popped ++ s.cqueue.contents
  cqueueEnd : s.cqueue.endIndex = cqueueSize
  counters : s.enqueuedOps - s.dequeuedOps = UInt64.ofNat s.inTx.length
  inFlight : s.inTx.length ≤ txMaxParallelOpsPerSocket

variable {start s t : PipelineState δ}

section

variable (s) (result : PifusOperationResult δ)

@[simp] theorem squeue_enqueueInCqueue :
    (s.enqueueInCqueue result).squeue = s.squeue := by
  unfold enqueueInCqueue
  split <;> rfl

@[simp] theorem inTx_enqueueInCqueue :
    (s.enqueueInCqueue result).inTx = s.inTx := by
  unfold enqueueInCqueue
  split <;> rfl

@[simp] theorem counters_enqueueInCqueue :
    (s.enqueueInCqueue result).enqueuedOps = s.enqueuedOps
      ∧ (s.enqueueInCqueue result).dequeuedOps = s.dequeuedOps := by
  unfold enqueueInCqueue
  split <;> exact ⟨rfl, rfl⟩

theorem cqueue_enqueueInCqueue :
    (s.enqueueInCqueue result).cqueue
      = (s.cqueue.put result).getD s.cqueue := by
  unfold enqueueInCqueue
  split <;> rename_i h <;> rw [h] <;> rfl

theorem dropped_enqueueInCqueue :
    (s.enqueueInCqueue result).dropped
      = if (s.cqueue.put result).isSome then s.dropped
        else s.dropped ++ [result] := by
  unfold enqueueInCqueue
  split <;> rename_i h <;> rw [h] <;> rfl

end

theorem enqueueInCqueue_of_lt {result : PifusOperationResult δ}
    (hend : s.cqueue.endIndex = cqueueSize)
    (hroom : s.cqueue.contents.length < cqueueSize - 1) :
    ∃ ring, s.cqueue.put result = some ring
      ∧ ring.contents = s.cqueue.contents ++ [result]
      ∧ s.enqueueInCqueue result = { s with
          cqueue := ring
          cqueueFutex := s.cqueueFutex + 1
          appended := s.appended ++ [result] } := by
  obtain ⟨ring, hring⟩ := RingBuffer.exists_put result (by rw [hend]; omega)
  refine ⟨ring, hring, RingBuffer.contents_put hring, ?_⟩
  rw [enqueueInCqueue, hring]

theorem enqueueInCqueue_of_not_lt {result : PifusOperationResult δ}
    (hend : s.cqueue.endIndex = cqueueSize)
    (hfull : ¬ s.cqueue.contents.length < cqueueSize - 1) :
    s.enqueueInCqueue result
      = { s with dropped := s.dropped ++ [result] } := by
  have hlt := s.cqueue.count_lt
  rw [hend, ← RingBuffer.length_contents] at hlt
  have hput : s.cqueue.put result = none :=
    RingBuffer.put_eq_none_iff.mpr (by rw [hend]; omega)
  rw [enqueueInCqueue, hput]

/-! ## The steps -/

theorem Accounted.enqueueInCqueue (h : s.Accounted)
    (result : PifusOperationResult δ) :
    (s.enqueueInCqueue result).Accounted := by
  by_cases hroom : s.cqueue.contents.length < cqueueSize - 1
  · obtain ⟨ring, hring, hcontents, heq⟩ :=
      enqueueInCqueue_of_lt h.cqueueEnd hroom
    rw [heq]
    refine ⟨?_, (RingBuffer.endIndex_put hring).trans h.cqueueEnd, h.counters,
      h.inFlight⟩
    show s.appended ++ [result] = s.popped ++ ring.contents
    rw [hcontents, h.results, List.append_assoc]
  · rw [enqueueInCqueue_of_not_lt h.cqueueEnd hroom]
    exact ⟨h.results, h.cqueueEnd, h.counters, h.inFlight⟩

/-- A socket that may move an operation has fewer than the limit on their
way. -/
theorem Accounted.length_lt (h : s.Accounted)
    (hmax : s.hasSocketMaxParallelOps = false) :
    s.inTx.length < txMaxParallelOpsPerSocket := by
  have hle := h.inFlight
  have hlimit : txMaxParallelOpsPerSocket < 2 ^ 64 := by decide
  rw [hasSocketMaxParallelOps, h.counters, UInt64.toNat_ofNat',
    Nat.mod_eq_of_lt (by omega), decide_eq_false_iff_not] at hmax
  exact Nat.lt_of_not_le hmax

theorem Accounted.move (h : s.Accounted) (hs : s.move = some t) :
    t.Accounted := by
  rw [PipelineState.move] at hs
  split at hs
  · exact absurd hs (by simp)
  · rename_i hmax
    have hlt := h.length_lt (by simpa using hmax)
    split at hs
    · rename_i code ring hget
      obtain rfl := Option.some.inj hs
      refine ⟨h.results, h.cqueueEnd, ?_, ?_⟩
      · show s.enqueuedOps + 1 - s.dequeuedOps
          = UInt64.ofNat (s.inTx ++ [code]).length
        rw [List.length_append, List.length_singleton, UInt64.ofNat_add,
          ← h.counters]
        grind
      · show (s.inTx ++ [code]).length ≤ txMaxParallelOpsPerSocket
        rw [List.length_append, List.length_singleton]
        exact hlt
    · exact absurd hs (by simp)

theorem Accounted.finish {i : ℕ} (h : s.Accounted) (hi : i < s.inTx.length)
    (code : PifusOperationCode) (result : PifusResultCode) (data : δ) :
    (s.finish i code result data).Accounted := by
  have hlength : (s.inTx.eraseIdx i).length + 1 = s.inTx.length := by
    rw [List.length_eraseIdx_of_lt hi, Nat.sub_add_cancel (by omega)]
  have hdone : Accounted { s with
      inTx := s.inTx.eraseIdx i, dequeuedOps := s.dequeuedOps + 1 } := by
    refine ⟨h.results, h.cqueueEnd, ?_, ?_⟩
    · have hcounters := h.counters
      rw [← hlength, UInt64.ofNat_add] at hcounters
      show s.enqueuedOps - (s.dequeuedOps + 1) = _
      grind
    · have hle := h.inFlight
      show (s.inTx.eraseIdx i).length ≤ txMaxParallelOpsPerSocket
      omega
  rw [PipelineState.finish]
  split
  · exact hdone.enqueueInCqueue _
  · exact hdone

theorem Accounted.pop (h : s.Accounted) : s.pop.Accounted := by
  unfold PipelineState.pop
  split
  · rename_i result ring hget
    refine ⟨?_, ?_, h.counters, h.inFlight⟩
    · show s.appended = s.popped ++ [result] ++ ring.contents
      rw [h.results, RingBuffer.contents_get hget, List.append_assoc]
      rfl
    · exact (RingBuffer.endIndex_get hget).trans h.cqueueEnd
  · exact h

/-- **Every step keeps the invariant.** -/
theorem Accounted.step {e : PipelineEvent δ} (h : s.Accounted)
    (hs : PipelineStep s e t) : t.Accounted := by
  unfold PipelineStep at hs
  cases e with
  | submit code =>
    rw [pipelineStep] at hs
    split at hs
    · obtain rfl := Option.some.inj hs
      unfold PipelineState.submit
      split
      · exact ⟨h.results, h.cqueueEnd, h.counters, h.inFlight⟩
      · exact h
    · exact absurd hs (by simp)
  | move => exact h.move hs
  | process recvScan result data =>
    rw [pipelineStep, PipelineState.process] at hs
    split at hs
    · rename_i code hcode
      have hi := (List.getElem?_eq_some_iff.mp hcode).1
      split at hs
      · split at hs
        · obtain rfl := Option.some.inj hs
          exact h
        · obtain rfl := Option.some.inj hs
          exact h.finish hi code result data
      · exact absurd hs (by simp)
    · exact absurd hs (by simp)
  | callback result =>
    obtain rfl := Option.some.inj hs
    exact h.enqueueInCqueue result
  | pop =>
    obtain rfl := Option.some.inj hs
    exact h.pop

theorem accounted_initial (h : start.Initial) : start.Accounted := by
  refine ⟨?_, h.cqueueEnd, ?_, ?_⟩
  · rw [h.appended, h.popped, h.cqueue]
    rfl
  · rw [h.counters, h.inTx, UInt64.sub_self]
    rfl
  · rw [h.inTx]
    exact Nat.zero_le _

end PipelineState

/-! ## Runs -/

open PipelineState

variable {start s : PipelineState δ} {es : List (PipelineEvent δ)}

/-- **A result is appended unless the cqueue is full.** In every run, the
results popped and then those in the cqueue are the results appended, in their
order. With fewer than `CQUEUE_SIZE - 1` of them unpopped the next result is
appended and announced. Otherwise it is dropped, and nothing else changes. The
limit on the operations in `tx_queue` holds throughout. -/
theorem results_appended_unless_full (hstart : start.Initial)
    (h : Run PipelineStep start es s) :
    s.appended = s.popped ++ s.cqueue.contents
    ∧ s.inTx.length ≤ txMaxParallelOpsPerSocket
    ∧ ∀ result,
      (s.cqueue.contents.length < cqueueSize - 1 →
        (s.enqueueInCqueue result).cqueue.contents
            = s.cqueue.contents ++ [result]
          ∧ (s.enqueueInCqueue result).cqueueFutex = s.cqueueFutex + 1
          ∧ (s.enqueueInCqueue result).dropped = s.dropped)
      ∧ (¬ s.cqueue.contents.length < cqueueSize - 1 →
        s.enqueueInCqueue result
          = { s with dropped := s.dropped ++ [result] }) := by
  have hinv : s.Accounted := h.invariant Accounted (accounted_initial hstart)
    (fun _ _ _ hI hs => hI.step hs)
  refine ⟨hinv.results, hinv.inFlight, fun result => ⟨fun hroom => ?_,
    enqueueInCqueue_of_not_lt hinv.cqueueEnd⟩⟩
  obtain ⟨ring, -, hcontents, heq⟩ :=
    enqueueInCqueue_of_lt hinv.cqueueEnd hroom
  rw [heq]
  exact ⟨hcontents, rfl, rfl⟩

/-! ## An app that does not pop -/

/-- Nothing is on its way: the app may submit, the prio thread may move. -/
structure PipelineState.Idle (s : PipelineState δ) : Prop where
  squeue : s.squeue.contents = []
  squeueEnd : s.squeue.endIndex = squeueSize
  counters : s.enqueuedOps = s.dequeuedOps
  inTx : s.inTx = []

/-- A `CLIENT_NOP` from its submission to its result. -/
def nopRound (data : δ) : List (PipelineEvent δ) :=
  [.submit .clientNop, .move, .process false .ok data]

/-- An idle socket takes a `CLIENT_NOP` through, whatever its cqueue holds. -/
theorem exists_nopRound (hidle : s.Idle) (data : δ) :
    ∃ t, Run PipelineStep s (nopRound data) t ∧ t.Idle
      ∧ t.cqueue = (s.enqueueInCqueue ⟨.clientNop, .ok, data⟩).cqueue
      ∧ t.dropped = (s.enqueueInCqueue ⟨.clientNop, .ok, data⟩).dropped := by
  obtain ⟨hsqueue, hend, hcounters, hinTx⟩ := hidle
  -- the squeue takes the operation, and hands it on
  obtain ⟨ring, hring⟩ : ∃ ring, s.squeue.put .clientNop = some ring :=
    RingBuffer.exists_put _ (by rw [hsqueue, hend]; decide)
  have hcontents : ring.contents = [.clientNop] := by
    rw [RingBuffer.contents_put hring, hsqueue]
    rfl
  obtain ⟨⟨code, ring'⟩, hget⟩ : ∃ p, ring.get = some p :=
    Option.ne_none_iff_exists'.mp (fun hnone => by
      rw [RingBuffer.get_eq_none_iff.mp hnone] at hcontents
      exact absurd hcontents (by simp))
  obtain ⟨rfl, hempty⟩ :=
    List.cons.inj ((RingBuffer.contents_get hget).symm.trans hcontents)
  let moved : PipelineState δ := { s with
    squeue := ring', inTx := s.inTx ++ [.clientNop]
    enqueuedOps := s.enqueuedOps + 1 }
  have hsubmit : PipelineStep s (.submit .clientNop) { s with squeue := ring } := by
    rw [PipelineStep, pipelineStep, if_pos (by decide), submit, hring]
  have hmove : PipelineStep { s with squeue := ring } .move moved := by
    have hmax : hasSocketMaxParallelOps { s with squeue := ring } = false := by
      rw [hasSocketMaxParallelOps, hcounters, UInt64.sub_self]
      rfl
    rw [PipelineStep, pipelineStep, move, if_neg (by rw [hmax]; simp), hget]
  have hprocess : PipelineStep moved (.process false .ok data)
      (moved.finish 0 .clientNop .ok data) := by
    have hfirst : moved.inTx[0]? = some .clientNop := by
      show (s.inTx ++ [.clientNop])[0]? = _
      rw [hinTx]
      rfl
    show moved.process false .ok data = _
    rw [PipelineState.process]
    simp only [Bool.false_eq_true, if_false, hfirst]
    rw [if_pos (by decide), if_neg (by simp)]
  refine ⟨moved.finish 0 .clientNop .ok data,
    ((Run.single hsubmit).snoc hmove).snoc hprocess, ?_, ?_, ?_⟩
  · rw [finish, if_pos (by simp)]
    refine ⟨?_, ?_, ?_, ?_⟩
    · rw [squeue_enqueueInCqueue]
      exact hempty
    · rw [squeue_enqueueInCqueue]
      exact (RingBuffer.endIndex_get hget).trans
        ((RingBuffer.endIndex_put hring).trans hend)
    · rw [(counters_enqueueInCqueue ..).1, (counters_enqueueInCqueue ..).2]
      exact congrArg (· + 1) hcounters
    · rw [inTx_enqueueInCqueue]
      show (s.inTx ++ [PifusOperationCode.clientNop]).eraseIdx 0 = []
      rw [hinTx]
      rfl
  · rw [finish, if_pos (by simp), cqueue_enqueueInCqueue,
      cqueue_enqueueInCqueue]
  · rw [finish, if_pos (by simp), dropped_enqueueInCqueue,
      dropped_enqueueInCqueue]

/-- `n` of these rounds, one after the other. -/
def nopRounds (n : ℕ) (data : δ) : List (PipelineEvent δ) :=
  (List.replicate n (nopRound data)).flatten

theorem nopRounds_succ (n : ℕ) (data : δ) :
    nopRounds (n + 1) data = nopRounds n data ++ nopRound data := by
  rw [nopRounds, nopRounds, List.replicate_succ', List.flatten_append,
    List.flatten_singleton]

/-- As many results as the cqueue takes can be left unpopped. -/
theorem exists_unpopped (hidle : s.Idle) (hempty : s.cqueue.contents = [])
    (hend : s.cqueue.endIndex = cqueueSize) (data : δ) (n : ℕ)
    (hn : n ≤ cqueueSize - 1) :
    ∃ t, Run PipelineStep s (nopRounds n data) t ∧ t.Idle
      ∧ t.cqueue.contents.length = n ∧ t.cqueue.endIndex = cqueueSize
      ∧ t.dropped = s.dropped := by
  induction n with
  | zero => exact ⟨s, Run.nil, hidle, by rw [hempty]; rfl, hend, rfl⟩
  | succ n ih =>
    obtain ⟨t, hrun, htidle, hlength, htend, htdropped⟩ := ih (by omega)
    obtain ⟨u, hround, huidle, hucqueue, hudropped⟩ :=
      exists_nopRound htidle data
    obtain ⟨ring, hring, hcontents, heq⟩ :=
      enqueueInCqueue_of_lt htend
        (by omega)
    rw [heq] at hucqueue hudropped
    refine ⟨u, ?_, huidle, ?_, ?_, hudropped.trans htdropped⟩
    · rw [nopRounds_succ]
      exact hrun.trans hround
    · rw [hucqueue]
      show ring.contents.length = n + 1
      rw [hcontents, List.length_append, hlength]
      rfl
    · rw [hucqueue]
      exact (RingBuffer.endIndex_put hring).trans htend

/-- A socket that has just been created. -/
def exampleSocketPipeline : PipelineState Unit :=
  ⟨.create (fun _ => .nop) squeueSize squeueSize_pos squeueSize_lt, 0, 0, [],
    .create (fun _ => ⟨.nop, .ok, ()⟩) cqueueSize cqueueSize_pos cqueueSize_lt, 0,
    [], [], []⟩

theorem exampleSocketPipeline_initial : exampleSocketPipeline.Initial :=
  ⟨rfl, rfl, rfl, rfl, rfl, rfl, rfl, rfl, rfl⟩

/-- A bind and a receive, whose result comes from a callback: the app has
popped the first of the two results. -/
theorem results_appended_unless_full_two :
    ∃ s : PipelineState Unit,
      s.appended = [⟨.tcpBind, .ok, ()⟩, ⟨.tcpRecv, .ok, ()⟩]
      ∧ s.popped = [⟨.tcpBind, .ok, ()⟩]
      ∧ s.appended = s.popped ++ s.cqueue.contents
      ∧ (s.enqueueInCqueue ⟨.clientNop, .ok, ()⟩).cqueue.contents
        = [⟨.tcpRecv, .ok, ()⟩, ⟨.clientNop, .ok, ()⟩] := by
  have hs : ([.submit .tcpBind, .submit .tcpRecv, .move, .move,
      .process false .ok (), .process false .async (),
      .callback ⟨.tcpRecv, .ok, ()⟩, .pop].foldlM pipelineStep
      exampleSocketPipeline).any (fun s =>
        s.appended = [⟨.tcpBind, .ok, ()⟩, ⟨.tcpRecv, .ok, ()⟩]
        ∧ s.popped = [⟨.tcpBind, .ok, ()⟩]
        ∧ s.cqueue.contents = [⟨.tcpRecv, .ok, ()⟩]) = true := by
    decide +kernel
  obtain ⟨s, hrun, hp⟩ := (Option.any_eq_true _ _).mp hs
  obtain ⟨happended, hpopped, hcqueue⟩ := of_decide_eq_true hp
  obtain ⟨hresults, -, hnext⟩ := results_appended_unless_full
    exampleSocketPipeline_initial (Run.of_foldlM hrun)
  refine ⟨s, happended, hpopped, hresults, ?_⟩
  have hroom : s.cqueue.contents.length < cqueueSize - 1 := by
    rw [hcqueue]
    decide
  rw [((hnext ⟨.clientNop, .ok, ()⟩).1 hroom).1, hcqueue]
  rfl

/-- **An app that pops nothing loses a result**: 65534 rounds fill the cqueue,
with one operation at a time in the stack, and the result of the next one is
dropped. -/
theorem unpopped_results_dropped :
    ∃ s : PipelineState Unit,
      Run PipelineStep exampleSocketPipeline (nopRounds cqueueSize ()) s
        ∧ s.dropped = [⟨.clientNop, .ok, ()⟩] := by
  have hidle : exampleSocketPipeline.Idle := ⟨rfl, rfl, rfl, rfl⟩
  obtain ⟨t, hrun, htidle, hlength, htend, htdropped⟩ :=
    exists_unpopped hidle rfl rfl () (cqueueSize - 1) (Nat.le_refl _)
  obtain ⟨u, hround, -, -, hudropped⟩ := exists_nopRound htidle ()
  refine ⟨u, ?_, ?_⟩
  · have hsucc := nopRounds_succ (cqueueSize - 1) ()
    rw [Nat.sub_add_cancel (by decide)] at hsucc
    rw [hsucc]
    exact hrun.trans hround
  · rw [hudropped, enqueueInCqueue_of_not_lt htend (by omega)]
    show t.dropped ++ _ = _
    rw [htdropped]
    rfl
