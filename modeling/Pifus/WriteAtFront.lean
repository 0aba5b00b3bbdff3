import Pifus.HeapRuns
import Pifus.LoopIteration
import Pifus.PcbStates
import Pifus.Write

/-!
# A write at the front of the queue

`handle_operation` leaves a write at the front of `tx_queue` when lwIP's
`tcp_write` returns `ERR_MEM`, and tries it again in the next iteration. That
is meant for a send buffer that is full for the moment. So the question is what
happens to a write that comes to a connection with nothing in it: nothing
unsent, nothing unacknowledged, the send buffer as large as it ever gets.

What decides is a length that nobody looks at before. An app may write any
block its heap can hold; `tcp_write` is given the low half-word of the size, and
compares it with the space in the send buffer, which is never more than
`TCP_SND_BUF`. Behind this test `tcp_write` needs segments and pbufs for the
bytes, which are taken to suffice. (They are limited as well: a connection may
have `TCP_SND_QUEUELEN` pbufs, which is enough for 63488 bytes.)

A call of `handle_operation` is followed from `process_tx_op` to its return,
through the recv scan if there is one, with puts of the prio threads in
between.
-/

/-- `TCP_SND_BUF` of `lwipopts.h`. -/
def tcpSndBuf : ℕ := 64000

/-- `TCP_SND_QUEUELEN` of `lwipopts.h`: twice `TCP_SND_BUF/TCP_MSS`. -/
def tcpSndQueuelen : ℕ := 2 * tcpSndBuf / 1024

/-- The fields of a pcb that `tcp_write_checks` looks at. -/
structure TcpPcb where
  state : TcpPcbState
  /-- `snd_buf`: the space in the send buffer, in bytes. -/
  sndBuf : ℕ
  /-- `snd_queuelen`: the pbufs in the send queues. -/
  sndQueuelen : ℕ

/-- `tcp_write_checks`. -/
def tcpWriteChecks (pcb : TcpPcb) (len : ℕ) : ErrT :=
  if pcb.state ≠ .established ∧ pcb.state ≠ .closeWait
      ∧ pcb.state ≠ .synSent ∧ pcb.state ≠ .synRcvd then
    -- `ERR_CONN`
    .other (-11)
  else if len = 0 then .ok
  else if pcb.sndBuf < len then .mem
  -- the smaller of `TCP_SND_QUEUELEN` and `TCP_SNDQUEUELEN_OVERFLOW + 1`
  else if min tcpSndQueuelen (65532 + 1) ≤ pcb.sndQueuelen then .mem
  else .ok

/-- `tcp_write`. Behind the checks it makes segments of the data; what comes
of that is an input. -/
def tcpWrite (pcb : TcpPcb) (len : ℕ) (segments : ErrT) : ErrT :=
  let err := tcpWriteChecks pcb len
  if err ≠ .ok then err else segments

/-- `tx_tcp_write` for the operation of a block offset. -/
def txTcpWriteBlock (app : Ptr) (m : Memory) (blockOffset : ℕ)
    (writeQueue : RingBuffer PifusWriteQueueEntry) (pcb : TcpPcb)
    (segments : ErrT) : Option TxTcpWrite :=
  let block := shmDataGetBlockPtr app blockOffset
  let blockSize := PifusMemoryBlock.size m block
  txTcpWrite writeQueue blockOffset blockSize
    (tcpWrite pcb (blockSize % 2 ^ 16) segments)

/-- **A connection with nothing in it**: it is established, nothing is unsent
or unacknowledged, and all of the send buffer is free. -/
structure TcpPcb.Idle (pcb : TcpPcb) : Prop where
  state : pcb.state = .established
  sndBuf : pcb.sndBuf = tcpSndBuf
  sndQueuelen : pcb.sndQueuelen = 0

/-- The stack is in `handle_operation`. -/
def StackPc.inHandle : StackPc → Bool
  | handling _ _ _ _ | finding _ _ | erasing _ _ | patching _ _ _ => true
  | outside | peeking _ _ => false

/-- The stack is in front of `process_tx_op` for the operation that
`handle_operation` was called with, and not for one of the recv scan. -/
def StackPc.calls : StackPc → Bool
  | handling _ _ recvScan _ => !recvScan
  | _ => false

namespace StackState

/-- `process_tx_op` has this result for the operation that
`handle_operation` was called with. -/
def Answers (result : PifusResultCode) (s : StackState) : StackEvent → Prop
  | .process r => s.pc.calls = true → r = result
  | _ => True

instance (result : PifusResultCode) (s : StackState) (ev : StackEvent) :
    Decidable (s.Answers result ev) := by
  cases ev <;> unfold Answers <;> infer_instance

/-- **The steps of a call of `handle_operation`**, and the puts of the prio
threads. -/
abbrev HandleStep (result : PifusResultCode) :
    StackState → StackEvent → StackState → Prop :=
  Guarded (fun s ev => s.pc.inHandle = true ∧ s.Answers result ev) StackStep

/-- The operation is at the front of a ring, the one that was peeked. -/
structure Front (s : StackState) (prio : TxPrio) (e : TxEntry) : Prop where
  head : (s.queue prio).contents.head? = some e
  lastPeek : s.lastPeek = some prio

/-- **`handle_operation` is called for a write at the front of `tx_queue`.** -/
structure WriteAtFront (s : StackState) (prio : TxPrio) (e : TxEntry) :
    Prop where
  front : s.Front prio e
  code : e.op.code = .tcpWrite
  pc : ∃ d, s.pc = .handling prio (s.queue prio).tail false d

/-- What a call for the entry `e`, whose result is this, has done so far. It
goes to `erase_first` unless the result is `PIFUS_TRY_AGAIN`; the recv scan
erases nothing. -/
def CallInv (s₀ : StackState) (prio : TxPrio) (e : TxEntry)
    (result : PifusResultCode) (s : StackState) : Prop :=
  match s.pc with
  | .handling p cell false _ => p = prio ∧ cell = (s.queue prio).tail
      ∧ s.Front prio e ∧ s.erased prio = s₀.erased prio
  | .erasing _ _ => result ≠ .tryAgain
      ∧ s.Front prio e ∧ s.erased prio = s₀.erased prio
  | .handling _ _ true _ | .finding _ _ | .patching _ _ _ =>
      result = .tryAgain ∧ s.erased prio = s₀.erased prio
  | .outside | .peeking _ _ => s.erased prio
      = s₀.erased prio ++ if result = .tryAgain then [] else [e]

variable {s₀ s t : StackState} {prio : TxPrio} {e : TxEntry}
  {result : PifusResultCode}

theorem Front.buf (h : s.Front prio e) :
    (s.queue prio).buf (s.queue prio).tail = e := by
  have hne : (s.queue prio).contents ≠ [] := fun hnil => by
    have hhead := h.head
    rw [hnil] at hhead
    exact absurd hhead (by simp)
  exact Option.some.inj ((RingBuffer.head?_contents hne).symm.trans h.head)

theorem Front.congr (h : s.Front prio e) (hqueue : t.queue prio = s.queue prio)
    (hlast : t.lastPeek = s.lastPeek) : t.Front prio e :=
  ⟨by rw [hqueue]; exact h.head, hlast.trans h.lastPeek⟩

/-- A put goes behind the operation at the front. -/
theorem Front.put (h : s.Front prio e) (p : TxPrio) (code : PifusOperationCode)
    (socket : ℕ) : (s.put p code socket).Front prio e
      ∧ ((s.put p code socket).queue prio).tail = (s.queue prio).tail := by
  dsimp only [StackState.put]
  split
  · rename_i ring hput
    by_cases hp : prio = p
    · subst hp
      refine ⟨⟨?_, h.lastPeek⟩, ?_⟩
      · show (Function.update s.queue prio ring prio).contents.head? = some e
        rw [Function.update_self, RingBuffer.contents_put hput,
          List.head?_append, h.head]
        rfl
      · show (Function.update s.queue prio ring prio).tail = _
        rw [Function.update_self, (RingBuffer.put_eq_some hput).2.1]
    · have hq : Function.update s.queue p ring prio = s.queue prio :=
        Function.update_of_ne hp _ _
      exact ⟨h.congr hq rfl, congrArg RingBuffer.tail hq⟩
  · exact ⟨h, rfl⟩

theorem put_frame (s : StackState) (p : TxPrio) (code : PifusOperationCode)
    (socket : ℕ) : (s.put p code socket).pc = s.pc
      ∧ (s.put p code socket).erased = s.erased := by
  dsimp only [StackState.put]
  split <;> exact ⟨rfl, rfl⟩

theorem callInv_done (hpc : s.pc = .outside ∨ ∃ p d, s.pc = .peeking p d)
    (herased : s.erased prio
      = s₀.erased prio ++ if result = .tryAgain then [] else [e]) :
    CallInv s₀ prio e result s := by
  unfold CallInv
  rcases hpc with hpc | ⟨p, d, hpc⟩ <;> rw [hpc] <;> exact herased

/-- The call is over, and the operation is to be tried again. -/
theorem callInv_again (hpc : s.pc = .outside ∨ ∃ p d, s.pc = .peeking p d)
    (hagain : result = .tryAgain) (hsame : s.erased prio = s₀.erased prio) :
    CallInv s₀ prio e result s :=
  callInv_done hpc (by rw [if_pos hagain, List.append_nil, hsame])

theorem loopHead_done {d : ℕ} (hpc : s.pc = loopHead d) :
    s.pc = .outside ∨ ∃ p d, s.pc = .peeking p d := by
  rcases loopHead_cases d with h | h
  · exact Or.inl (hpc.trans h)
  · exact Or.inr ⟨.high, d, hpc.trans h⟩

/-! ## The steps of a call -/

/-- A put of a prio thread. -/
theorem CallInv.put (h : CallInv s₀ prio e result s) (p : TxPrio)
    (code : PifusOperationCode) (socket : ℕ) :
    CallInv s₀ prio e result (s.put p code socket) := by
  obtain ⟨hpc, herased⟩ := put_frame s p code socket
  unfold CallInv at h ⊢
  rw [hpc, herased]
  split at h
  · obtain ⟨rfl, hcell, hfront, hsame⟩ := h
    obtain ⟨hfront', htail⟩ := hfront.put p code socket
    exact ⟨rfl, hcell.trans htail.symm, hfront', hsame⟩
  · exact ⟨h.1, (h.2.1.put p code socket).1, h.2.2⟩
  · exact h
  · exact h
  · exact h
  · exact h
  · exact h

/-- **The result of `process_tx_op`** decides whether the call goes to
`erase_first`. The operation that the recv scan finds does not go there. -/
theorem CallInv.process {p : TxPrio} {cell d : ℕ} {recvScan : Bool}
    {r : PifusResultCode} (h : CallInv s₀ prio e result s)
    (hcode : e.op.code = .tcpWrite) (hpc : s.pc = .handling p cell recvScan d)
    (hanswer : recvScan = false → r = result) :
    CallInv s₀ prio e result (s.handle p cell recvScan d r) := by
  rw [CallInv, hpc] at h
  unfold handle
  cases recvScan with
  | true =>
    obtain ⟨hagain, hsame⟩ : result = .tryAgain ∧ s.erased prio = s₀.erased prio :=
      h
    dsimp only
    rw [if_neg (by simp)]
    split
    · split
      · exact ⟨hagain, hsame⟩
      · exact callInv_again (Or.inl rfl) hagain hsame
    · exact ⟨hagain, hsame⟩
  | false =>
    obtain rfl := hanswer rfl
    obtain ⟨rfl, rfl, hfront, hsame⟩ : p = prio
      ∧ cell = (s.queue prio).tail ∧ s.Front prio e
      ∧ s.erased prio = s₀.erased prio := h
    dsimp only
    rw [hfront.buf, if_neg (by simp [hcode])]
    split
    · rename_i hagain
      split
      · exact ⟨hagain, hsame⟩
      · exact callInv_again (Or.inl rfl) hagain hsame
    · rename_i hagain
      exact ⟨hagain, hfront.congr rfl rfl, hsame⟩

/-- The next ring operation of the call. -/
theorem CallInv.tick (h : CallInv s₀ prio e result s)
    (hin : s.pc.inHandle = true) (hs : stackStep s .tick = some t) :
    CallInv s₀ prio e result t := by
  rw [stackStep.eq_def] at hs
  dsimp only at hs
  split at hs
  · rename_i p d hpc
    rw [hpc] at hin
    exact absurd hin (by simp [StackPc.inHandle])
  · rename_i p d hpc
    obtain rfl := Option.some.inj hs
    rw [CallInv, hpc] at h
    obtain ⟨hagain, hsame⟩ : result = .tryAgain ∧ s.erased prio = s₀.erased prio :=
      h
    unfold StackState.find
    split
    · exact ⟨hagain, hsame⟩
    · cases p with
      | low => exact callInv_again (Or.inl rfl) hagain hsame
      | high | medium => exact ⟨hagain, hsame⟩
  · rename_i counts d hpc
    rw [CallInv, hpc] at h
    obtain ⟨hagain, hfront, hsame⟩ : result ≠ .tryAgain ∧ s.Front prio e
      ∧ s.erased prio = s₀.erased prio := h
    rw [hfront.lastPeek] at hs
    obtain rfl := Option.some.inj hs
    refine callInv_done (loopHead_done rfl) ?_
    show Function.update s.erased prio (s.erased prio
      ++ [(s.queue prio).buf (s.queue prio).tail]) prio = _
    rw [Function.update_self, hfront.buf, if_neg hagain, hsame]
  · rename_i p cell d hpc
    obtain rfl := Option.some.inj hs
    rw [CallInv, hpc] at h
    obtain ⟨hagain, hsame⟩ : result = .tryAgain ∧ s.erased prio = s₀.erased prio :=
      h
    exact callInv_again (loopHead_done rfl) hagain hsame
  · exact absurd hs (by simp)

/-- **Every step of the call keeps the invariant.** -/
theorem CallInv.step {ev : StackEvent} (h : CallInv s₀ prio e result s)
    (hcode : e.op.code = .tcpWrite) (hs : HandleStep result s ev t) :
    CallInv s₀ prio e result t := by
  obtain ⟨⟨hin, hanswer⟩, hs⟩ := hs
  rw [StackStep] at hs
  cases ev with
  | put p code socket =>
    obtain rfl := Option.some.inj hs
    exact h.put p code socket
  | call =>
    rw [stackStep.eq_def] at hs
    dsimp only at hs
    split at hs
    · rename_i hpc
      rw [hpc] at hin
      exact absurd hin (by simp [StackPc.inHandle])
    · exact absurd hs (by simp)
  | tick => exact h.tick hin hs
  | process r =>
    rw [stackStep.eq_def] at hs
    dsimp only at hs
    split at hs
    · rename_i p cell recvScan d hpc
      split at hs
      · obtain rfl := Option.some.inj hs
        refine h.process hcode hpc (fun hscan => hanswer ?_)
        rw [hpc, hscan]
        rfl
      · exact absurd hs (by simp)
    · exact absurd hs (by simp)

theorem CallInv.of_end (h : CallInv s₀ prio e result s)
    (hend : s.pc.inHandle = false) :
    s.erased prio = s₀.erased prio ++ if result = .tryAgain then [] else [e] := by
  rw [CallInv] at h
  cases hpc : s.pc with
  | outside | peeking p d =>
    rw [hpc] at h
    exact h
  | handling p cell recvScan d | finding p d | erasing counts d
  | patching p cell d =>
    rw [hpc] at hend
    exact absurd hend (by simp [StackPc.inHandle])

/-- **What a call for a write at the front comes to**: the operation is taken
off exactly if the result is not `PIFUS_TRY_AGAIN`. -/
theorem WriteAtFront.taken_off_iff {es : List StackEvent}
    (h : s.WriteAtFront prio e) (hcall : Run (HandleStep result) s es t)
    (hend : t.pc.inHandle = false) :
    t.erased prio = s.erased prio ++ [e] ↔ result ≠ .tryAgain := by
  obtain ⟨hfront, hcode, d, hpc⟩ := h
  have hstart : CallInv s prio e result s := by
    rw [CallInv, hpc]
    exact ⟨rfl, rfl, hfront, rfl⟩
  have hdone := hcall.invariant (CallInv s prio e result) hstart
    (fun _ _ _ hI hs => hI.step hcode hs)
  have herased := hdone.of_end hend
  rw [herased]
  by_cases hagain : result = .tryAgain
  · rw [if_pos hagain]
    simp [hagain]
  · rw [if_neg hagain]
    simp [hagain]

end StackState

/-! ## What `tx_tcp_write` returns -/

variable {app : AppRegion} {m : Memory} {bs : List Block} {q n : ℕ}
  {writeQueue : RingBuffer PifusWriteQueueEntry} {pcb : TcpPcb}

/-- On an idle connection the checks of `tcp_write` fail for lengths only that
the send buffer never has room for. -/
theorem tcpWriteChecks_idle (h : pcb.Idle) (len : ℕ) :
    tcpWriteChecks pcb len = if len ≤ tcpSndBuf then .ok else .mem := by
  unfold tcpWriteChecks
  rw [if_neg (fun hstate => hstate.1 h.state), h.sndBuf, h.sndQueuelen]
  have hqueuelen : ¬ min tcpSndQueuelen (65532 + 1) ≤ 0 := by decide
  rw [if_neg hqueuelen]
  by_cases hle : len ≤ tcpSndBuf
  · rw [if_pos hle, if_neg (Nat.not_lt.mpr hle)]
    split <;> rfl
  · rw [if_neg hle, if_pos (Nat.not_le.mp hle), if_neg (by omega)]

/-- The block of an operation has the size the app has asked for. -/
theorem size_of_live (hrep : Represents app m bs)
    (hlive : (q, n) ∈ liveOf (app.addr + 4) bs) :
    PifusMemoryBlock.size m
      (shmDataGetBlockPtr app.addr (offsetOf app q).toNat) = n := by
  have hbounds := liveOf_bounds hlive
  have hfits := hrep.fits
  have hoffset : 0 ≤ offsetOf app q ∧ offsetOf app q < 2 ^ 63 :=
    offsetOf_bounds hbounds.1 (by omega)
  rw [Int.toNat_of_nonneg hoffset.1,
    shmDataGetBlockPtr_offsetOf hbounds.1 (by omega)]
  obtain ⟨l, b, r, rfl, rfl, -, rfl⟩ := exists_append_of_mem_liveOf hlive
  exact (segment_append.mp hrep.segment).2.1.1.size

/-- **The result of a write on an idle connection** is `PIFUS_TRY_AGAIN`
exactly if the low half-word of the size is larger than the send buffer. -/
theorem txTcpWriteBlock_idle (hrep : Represents app m bs)
    (hlive : (q, n) ∈ liveOf (app.addr + 4) bs)
    (hend : writeQueue.endIndex = writeQueueSize)
    (hempty : writeQueue.contents = []) (hidle : pcb.Idle) :
    ∃ r, txTcpWriteBlock app.addr m (offsetOf app q).toNat writeQueue pcb .ok
        = some r
      ∧ (r.resultCode ≠ .tryAgain ↔ n % 2 ^ 16 ≤ tcpSndBuf) := by
  have hroom : writeQueue.contents.length + 1 ≠ writeQueue.endIndex := by
    rw [hempty, hend]
    decide
  have hfull : writeQueue.isFull = false := by
    rw [Bool.eq_false_iff]
    exact mt RingBuffer.isFull_iff.mp hroom
  unfold txTcpWriteBlock txTcpWrite tcpWrite
  simp only [size_of_live hrep hlive, tcpWriteChecks_idle hidle, hfull,
    Bool.false_eq_true, if_false]
  by_cases hle : n % 2 ^ 16 ≤ tcpSndBuf
  · obtain ⟨queue, hput⟩ :=
      RingBuffer.exists_put ⟨n, (offsetOf app q).toNat⟩ hroom
    simp only [if_pos hle, ne_eq, not_true, if_false, hput, Option.map_some]
    exact ⟨_, rfl, iff_of_true (by simp) hle⟩
  · simp only [if_neg hle]
    exact ⟨_, rfl, iff_of_false (by simp) hle⟩

/-- **A write at the front of the queue is taken off if and only if the low
half-word of its size fits the send buffer**: for every block of the heap, and
a connection with nothing in it, where `tcp_write` finds the segments and pbufs
that it needs. Where it does not fit, it is left at the front for the next
iteration, and it will not fit then. -/
theorem write_taken_off_iff (hrep : Represents app m bs)
    (hlive : (q, n) ∈ liveOf (app.addr + 4) bs)
    (hend : writeQueue.endIndex = writeQueueSize)
    (hempty : writeQueue.contents = []) (hidle : pcb.Idle) :
    ∃ r, txTcpWriteBlock app.addr m (offsetOf app q).toNat writeQueue pcb .ok
        = some r
      ∧ ∀ {s t : StackState} {prio : TxPrio} {e : TxEntry}
          {es : List StackEvent}, s.WriteAtFront prio e →
        Run (StackState.HandleStep r.resultCode) s es t →
        t.pc.inHandle = false →
        (t.erased prio = s.erased prio ++ [e] ↔ n % 2 ^ 16 ≤ tcpSndBuf) := by
  obtain ⟨r, hr, hagain⟩ :=
    txTcpWriteBlock_idle hrep hlive hend hempty hidle
  exact ⟨r, hr, fun hfront hcall hdone =>
    (hfront.taken_off_iff hcall hdone).trans hagain⟩

/-- A stack that was called for one write. -/
def exampleWrite : Option StackState :=
  let op : PifusInternalOperation := ⟨.nop, 0, 0⟩
  let start : StackState :=
    ⟨fun _ => .create (fun _ => ⟨op, op⟩) txQueueSize txQueueSize_pos
        txQueueSize_lt, none, 0, fun _ => 0, .outside, fun _ => [], [],
      fun _ => [], []⟩
  stackRun start [.put .high .tcpWrite 0, .call, .tick]

/-- The entry of this write. -/
def exampleEntry : TxEntry := ⟨⟨.tcpWrite, 0, 0⟩, ⟨.tcpWrite, 0, 0⟩⟩

/-- A write queue that is empty. -/
def exampleWriteQueue : RingBuffer PifusWriteQueueEntry :=
  .create (fun _ => ⟨0, 0⟩) writeQueueSize writeQueueSize_pos writeQueueSize_lt

/-- The run of a call for this write. -/
theorem exists_exampleCall {result : PifusResultCode} {es : List StackEvent}
    {takenOff : Bool} (h : exampleWrite.any (fun s => s.lastPeek = some .high
      ∧ (s.queue .high).contents.head? = some exampleEntry
      ∧ s.pc = .handling .high (s.queue .high).tail false 0
      ∧ (es.foldlM (guardedStep (fun s ev => s.pc.inHandle = true
          ∧ s.Answers result ev) stackStep) s).any (fun t =>
        t.pc.inHandle = false
        ∧ decide (t.erased .high = s.erased .high ++ [exampleEntry])
          = takenOff)) = true) :
    ∃ s t : StackState, s.WriteAtFront .high exampleEntry
      ∧ Run (StackState.HandleStep result) s es t ∧ t.pc.inHandle = false
      ∧ decide (t.erased .high = s.erased .high ++ [exampleEntry])
        = takenOff := by
  obtain ⟨s, -, hs⟩ := (Option.any_eq_true _ _).mp h
  obtain ⟨hlast, hhead, hpc, ht⟩ := of_decide_eq_true hs
  obtain ⟨t, hrun, ht⟩ := (Option.any_eq_true _ _).mp ht
  obtain ⟨hend, htaken⟩ := of_decide_eq_true ht
  exact ⟨s, t, ⟨⟨hhead, hlast⟩, rfl, 0, hpc⟩, Run.guarded_of_foldlM hrun, hend,
    htaken⟩

/-- A write of a hundred bytes is taken off. -/
theorem write_taken_off_iff_hundred :
    ∃ s t : StackState, s.WriteAtFront .high exampleEntry
      ∧ t.erased .high = s.erased .high ++ [exampleEntry] := by
  have hheap : (heapStep exampleRegion HeapState.zeroed (.allocate 100)).any
      (fun h => h.live = [(4100, 100)] ∧ (txTcpWriteBlock exampleRegion.addr h.mem
        (offsetOf exampleRegion 4100).toNat exampleWriteQueue
        ⟨.established, tcpSndBuf, 0⟩ .ok).map TxTcpWrite.resultCode
        = some .async) = true := by decide +kernel
  obtain ⟨h, hstep, hh⟩ := (Option.any_eq_true _ _).mp hheap
  obtain ⟨hlive, hresult⟩ := of_decide_eq_true hh
  obtain ⟨bs, hrep, hperm⟩ :=
    @HeapInv.step _ _ h (.allocate 100) heapInv_zeroed True.intro hstep
  obtain ⟨r, hr, htaken⟩ := write_taken_off_iff hrep
    (hperm.mem_iff.mp (by rw [hlive]; exact List.mem_singleton.mpr rfl))
    (rfl : exampleWriteQueue.endIndex = writeQueueSize) rfl
    (⟨rfl, rfl, rfl⟩ : TcpPcb.Idle ⟨.established, tcpSndBuf, 0⟩)
  rw [hr] at hresult
  have hcode : r.resultCode = .async := Option.some.inj hresult
  obtain ⟨s, t, hfront, hrun, hend, -⟩ :=
    @exists_exampleCall .async [.process .async, .tick] true (by decide +kernel)
  rw [← hcode] at hrun
  exact ⟨s, t, hfront, (htaken hfront hrun hend).mpr (by decide)⟩

/-- **A write of 64001 bytes stays where it is**: the heap holds such a block,
the connection has nothing in it, and `handle_operation` returns with the
operation at the front. -/
theorem long_write_stays_at_front :
    ∃ (h : HeapState) (r : TxTcpWrite) (s t : StackState) (es : List StackEvent),
      HeapStep exampleRegion HeapState.zeroed (.allocate 64001) h
      ∧ (4100, 64001) ∈ h.live
      ∧ txTcpWriteBlock exampleRegion.addr h.mem
          (offsetOf exampleRegion 4100).toNat exampleWriteQueue
          ⟨.established, tcpSndBuf, 0⟩ .ok = some r
      ∧ r.resultCode = .tryAgain
      ∧ s.WriteAtFront .high exampleEntry
      ∧ Run (StackState.HandleStep r.resultCode) s es t
      ∧ t.pc.inHandle = false
      ∧ t.erased .high ≠ s.erased .high ++ [exampleEntry] := by
  have hheap : (heapStep exampleRegion HeapState.zeroed (.allocate 64001)).any
      (fun h => h.live = [(4100, 64001)]
        ∧ (txTcpWriteBlock exampleRegion.addr h.mem
          (offsetOf exampleRegion 4100).toNat exampleWriteQueue
          ⟨.established, tcpSndBuf, 0⟩ .ok).any
          (fun r => r.resultCode = .tryAgain)) = true := by decide +kernel
  obtain ⟨h, hstep, hh⟩ := (Option.any_eq_true _ _).mp hheap
  obtain ⟨hlive, hresult⟩ := of_decide_eq_true hh
  obtain ⟨r, hr, hcode⟩ := (Option.any_eq_true _ _).mp hresult
  obtain ⟨s, t, hfront, hrun, hend, hstays⟩ :=
    @exists_exampleCall .tryAgain [.process .tryAgain] false (by decide +kernel)
  have hcode : r.resultCode = .tryAgain := of_decide_eq_true hcode
  refine ⟨h, r, s, t, [.process .tryAgain], hstep, by simp [hlive], hr, hcode,
    hfront, ?_, hend, of_decide_eq_false hstays⟩
  rw [hcode]
  exact hrun
