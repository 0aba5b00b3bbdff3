import Pifus.RecvRuns

/-!
# Recv operations that are rejected

`tx_tcp_recv` pops from the byte buffer before it knows whether the recv queue
has room, and returns `PIFUS_ERR` if it has none. Whatever was popped is then in
the block of an operation that has failed. So a rejected operation is harmless
only where nothing was popped, and this needs that the buffer is empty whenever
the queue is full.

That is what the invariant of `Pifus.RecvRuns` is about: next to bytes in the
buffer, the only operations in the queue are those that need none. An operation
that asks for between one and 65535 bytes leaves the queue as soon as it needs
none. One that asks for zero bytes, or for a multiple of 2^16, does not, and
thirty-one of these fill the queue.
-/

namespace RecvSocket

/-- **A rejected operation takes no data**: where `tx_tcp_recv` returns
`PIFUS_ERR`, the buffer and the queue hold what they held before. -/
def TakesNothing (s : RecvSocket) (recvBlockOffset size : ℕ) : Prop :=
  let r := txTcpRecv s recvBlockOffset size
  r.1.resultCode = .err →
    r.2.1.recvBuffer.contents = s.recvBuffer.contents
      ∧ r.2.1.recvQueue.contents = s.recvQueue.contents

/-- **The states in which an operation of the size takes nothing if it is
rejected**: the queue has room, the buffer is empty, the operation needs no
byte, or the buffer alone fulfils it. -/
def Harmless (s : RecvSocket) (size : ℕ) : Prop :=
  s.recvQueue.isFull = false ∨ s.recvBuffer.isEmpty = true
    ∨ size % 2 ^ 16 = 0 ∨ size < 2 ^ 16 ∧ size ≤ s.recvBuffer.contents.length

instance (s : RecvSocket) (size : ℕ) : Decidable (s.Harmless size) :=
  inferInstanceAs (Decidable (_ ∨ _))

variable {s : RecvSocket}

theorem length_popped {buffer buffer' : PifusByteBuffer} {popped : List UInt8}
    {size : ℕ} (hsplit : buffer.contents = popped ++ buffer'.contents)
    (hfull : buffer'.contents ≠ [] → popped.length = size % 2 ^ 16)
    (hle : popped.length ≤ size % 2 ^ 16) :
    popped.length = min (size % 2 ^ 16) buffer.contents.length := by
  have hlen := congrArg List.length hsplit
  rw [List.length_append] at hlen
  by_cases hnil : buffer'.contents = []
  · rw [hnil, List.length_nil] at hlen
    omega
  · have := hfull hnil
    omega

/-- **When a rejected operation takes nothing.** -/
theorem takesNothing_iff (s : RecvSocket) (recvBlockOffset size : ℕ) :
    s.TakesNothing recvBlockOffset size ↔ s.Harmless size := by
  obtain ⟨popped, buffer', hpop, hsplit, hfull, hle⟩ :=
    poppedNew_spec s.recvBuffer recvBlockOffset size
  have hlength := length_popped hsplit hfull hle
  unfold TakesNothing Harmless txTcpRecv
  simp only [hpop]
  rw [PifusByteBuffer.isEmpty_iff, ← List.length_eq_zero_iff]
  by_cases hfilled : 0 < popped.length ∧ size = popped.length
  · -- the buffer fulfils the operation
    rw [if_pos hfilled]
    refine iff_of_true (fun h => absurd h (by simp)) ?_
    exact Or.inr (Or.inr (Or.inr (by omega)))
  · rw [if_neg hfilled]
    cases hput : s.recvQueue.put
        ⟨size - popped.length, recvBlockOffset, popped.length⟩ with
    | some queue =>
      have hroom : s.recvQueue.isFull = false := by
        rw [Bool.eq_false_iff]
        intro h
        rw [RingBuffer.put_eq_none_iff.mpr (RingBuffer.isFull_iff.mp h)] at hput
        exact absurd hput (by simp)
      exact iff_of_true (fun h => absurd h (by simp)) (Or.inl hroom)
    | none =>
      dsimp only
      have hnoroom : s.recvQueue.isFull = true :=
        RingBuffer.isFull_iff.mpr (RingBuffer.put_eq_none_iff.mp hput)
      rw [hnoroom]
      constructor
      · intro h
        -- the buffer holds as much as before, so nothing was popped
        have hsame := congrArg List.length (h rfl).1
        rw [hsplit, List.length_append] at hsame
        exact Or.inr (by omega)
      · intro h _
        have hzero : popped.length = 0 := by
          rcases h with h | h
          · exact absurd h (by simp)
          · omega
        rw [hsplit, List.length_eq_zero_iff.mp hzero]
        exact ⟨rfl, rfl⟩

end RecvSocket

/-! ## The length of the recv queue -/

theorem endIndex_recvTurn {s : RecvSocket} {c : RecvCursor} {flag : Bool}
    {cell : ℕ} :
    (recvTurn s c flag cell).1.recvQueue.endIndex = s.recvQueue.endIndex := by
  have herase : ∀ rb : RingBuffer PifusRecvQueueEntry,
      (rb.eraseFirst.getD rb).endIndex = rb.endIndex := fun rb => by
    cases hrb : rb.eraseFirst with
    | none => rfl
    | some rb' => exact RingBuffer.endIndex_eraseFirst hrb
  unfold recvTurn
  dsimp only
  generalize (if flag then (([] : List UInt8), s.recvQueue.buf cell, s.recvBuffer)
    else popFromBuffer s.recvBuffer (s.recvQueue.buf cell)
      ((s.recvQueue.buf cell).size % 2 ^ 16)) = popped
  split
  · exact herase _
  · rfl

theorem endIndex_recvLoop {fuel : ℕ} {s s' : RecvSocket} {c c' : RecvCursor}
    {flag : Bool} {events : List RecvEvent}
    (h : recvLoop fuel s c flag = some (s', c', events)) :
    s'.recvQueue.endIndex = s.recvQueue.endIndex := by
  induction fuel generalizing s c c' flag events with
  | zero => exact absurd h (by simp [recvLoop])
  | succ fuel ih =>
    rw [recvLoop] at h
    split at h
    · obtain ⟨rfl, -⟩ := Prod.mk.inj (Option.some.inj h)
      rfl
    · split at h
      · obtain ⟨⟨s₁, c₁, events₁⟩, hrest, heq⟩ := Option.map_eq_some_iff.mp h
        obtain rfl : s₁ = s' := congrArg Prod.fst heq
        exact (ih hrest).trans endIndex_recvTurn
      · obtain ⟨rfl, -⟩ := Prod.mk.inj (Option.some.inj h)
        rfl

/-- **The recv queue keeps its length.** -/
theorem endIndex_recvStep {s t : RecvState} {i : RecvInput}
    (hs : RecvStep s i t) :
    t.socket.recvQueue.endIndex = s.socket.recvQueue.endIndex := by
  rw [RecvStep] at hs
  cases i with
  | recv off size =>
    obtain rfl := Option.some.inj hs
    obtain ⟨popped, buffer', hpop, -⟩ :=
      poppedNew_spec s.socket.recvBuffer off size
    dsimp only [txTcpRecv]
    rw [hpop]
    dsimp only
    by_cases hfilled : 0 < popped.length ∧ size = popped.length
    · rw [if_pos hfilled]
    · rw [if_neg hfilled]
      cases hput : s.socket.recvQueue.put
          ⟨size - popped.length, off, popped.length⟩ with
      | some queue => exact RingBuffer.endIndex_put hput
      | none => rfl
  | deliver p =>
    rw [recvStep, if_pos (refused_of_deliver hs)] at hs
    obtain ⟨⟨err, socket, events⟩, hcallback, hs⟩ := Option.bind_eq_some_iff.mp hs
    obtain ⟨s', hs', rfl⟩ := Option.map_eq_some_iff.mp hs
    rw [tcpRecvCallback] at hcallback
    simp only [if_true] at hcallback
    obtain ⟨⟨err', s'', events'⟩, hchain, heq⟩ :=
      Option.map_eq_some_iff.mp hcallback
    obtain ⟨-, rfl, -⟩ := heq
    obtain rfl := Option.some.inj hs'
    obtain ⟨⟨s₁, c₁, events₁⟩, hloop, heq⟩ := Option.map_eq_some_iff.mp hchain
    rw [← endIndex_recvLoop hloop]
    dsimp only at heq
    split at heq <;> obtain ⟨-, rfl, -⟩ := heq <;> rfl

/-! ## Runs -/

/-- A recv operation asks for at least one byte, and for no more than a
`uint16_t` holds. -/
def RecvInput.Moderate : RecvInput → Prop
  | .recv _ size => 1 ≤ size ∧ size < 2 ^ 16
  | .deliver _ => True

/-- The pending operations still need bytes. -/
def StillNeed (ops : List RecvOp) : Prop :=
  ∀ op ∈ ops, op.pending = true → op.bytes.length < op.size ∧ op.size < 2 ^ 16

theorem StillNeed.needed {ops : List RecvOp} {op : RecvOp} (h : StillNeed ops)
    (hmem : op ∈ ops) (hop : op.pending = true) :
    op.needed = op.size - op.bytes.length ∧ 0 < op.needed := by
  obtain ⟨hlt, hsize⟩ := h op hmem hop
  have hneeded : op.needed = op.size - op.bytes.length :=
    Nat.mod_eq_of_lt (by omega)
  omega

/-- **A turn of the matching loop** leaves no pending operation that needs no
byte. -/
theorem StillNeed.serve {a b : List RecvOp × List ℕ} {available : List UInt8}
    (h : StillNeed a.1) (hs : ServeStep a available b) : StillNeed b.1 := by
  obtain ⟨done, op, later, hsplit, -, hop, rfl⟩ := hs
  rw [hsplit] at h
  obtain ⟨hneeded, -⟩ := h.needed (by simp) hop
  obtain ⟨hlt, hsize⟩ := h op (by simp) hop
  intro o ho hpend
  rcases List.mem_append.mp ho with ho | ho
  · exact h o (by simp [ho]) hpend
  · rcases List.mem_cons.mp ho with rfl | ho
    · have hless : available.length < op.needed := of_decide_eq_true hpend
      refine ⟨?_, hsize⟩
      show (op.bytes ++ available.take op.needed).length < op.size
      rw [List.length_append, List.length_take]
      omega
    · exact h o (by simp [ho]) hpend

/-- **Every step keeps this**, as long as the sizes are moderate. -/
theorem StillNeed.step {s t : RecvState} {i : RecvInput} (h : StillNeed s.ops)
    (hinv : RecvRunInv s) (hi : i.Moderate) (hs : RecvStep s i t) :
    StillNeed t.ops := by
  rw [RecvStep] at hs
  cases i with
  | recv off size =>
    obtain ⟨hpos, hlt⟩ := hi
    obtain ⟨r, s', popped, heq, -, -, -, hle, hresult⟩ :=
      txTcpRecv_spec hinv.inv off size
    rw [recvStep, heq] at hs
    obtain rfl := Option.some.inj hs
    intro o ho hpend
    rcases List.mem_append.mp ho with ho | ho
    · exact h o ho hpend
    · obtain rfl := List.mem_singleton.mp ho
      have hasync : r.resultCode = .async := of_decide_eq_true hpend
      rcases hresult with ⟨hok, -⟩ | ⟨-, hnot⟩
      · rw [hasync] at hok
        exact absurd hok (by simp)
      · refine ⟨?_, hlt⟩
        show popped.length < size
        omega
  | deliver p =>
    obtain ⟨_, _, _, _, _, _, hserved⟩ := hinv.served hs
    exact (hserved []).invariant (fun a => StillNeed a.1) h
      (fun _ _ _ ha hserve => ha.serve hserve)

/-- **No rejected recv takes data, exactly as long as a condition on the state
holds**; and it holds throughout a run in which every operation has asked for
between one and 65535 bytes. -/
theorem rejected_recv_takes_nothing_iff {queue : ℕ → PifusRecvQueueEntry}
    {buffer : Memory} {is : List RecvInput} {s : RecvState}
    (h : Run RecvStep (RecvState.initial queue buffer) is s)
    (recvBlockOffset size : ℕ) :
    (s.socket.TakesNothing recvBlockOffset size ↔ s.socket.Harmless size)
    ∧ ((∀ i ∈ is, i.Moderate) → s.socket.TakesNothing recvBlockOffset size) := by
  refine ⟨s.socket.takesNothing_iff recvBlockOffset size, fun hmoderate => ?_⟩
  have hinv : RecvRunInv s ∧ StillNeed s.ops
      ∧ s.socket.recvQueue.endIndex = recvQueueSize := by
    refine (h.guarded_of_events hmoderate).invariant
      (fun s => RecvRunInv s ∧ StillNeed s.ops
        ∧ s.socket.recvQueue.endIndex = recvQueueSize)
      ⟨recvRunInv_initial queue buffer,
        fun o ho => absurd ho (by simp [RecvState.initial]), rfl⟩ ?_
    rintro s i t ⟨hinv, hneed, hend⟩ ⟨hi, hs⟩
    exact ⟨hinv.step hs, hneed.step hinv hi hs,
      (endIndex_recvStep hs).trans hend⟩
  obtain ⟨hinv, hneed, hend⟩ := hinv
  rw [RecvSocket.takesNothing_iff]
  by_cases hbuffer : s.socket.recvBuffer.contents = []
  · exact Or.inr (Or.inl (PifusByteBuffer.isEmpty_iff.mpr hbuffer))
  · -- next to a buffer that is not empty, the queue is empty
    have hqueue : s.socket.recvQueue.contents = [] := by
      rw [hinv.inv.queue, List.map_eq_nil_iff, List.filter_eq_nil_iff]
      intro o ho hpend
      have hzero := hinv.inv.satisfied hbuffer o ho hpend
      have hpos := (hneed.needed ho hpend).2
      omega
    refine Or.inl (Bool.eq_false_iff.mpr (mt RingBuffer.isFull_iff.mp ?_))
    rw [hqueue, hend]
    decide

/-- A recv of three bytes on a socket that got four. -/
theorem rejected_recv_takes_nothing_iff_three :
    ∃ s : RecvState, s.socket.recvBuffer.contents = [4]
      ∧ s.socket.TakesNothing 7 3 := by
  have ht : ([.recv 0 3, .deliver ⟨[[1, 2], [], [3, 4]], by decide⟩].foldlM
      recvStep (RecvState.initial (fun _ => ⟨0, 0, 0⟩) (fun _ => 0))).any
      (fun s => s.socket.recvBuffer.contents = [4]) = true := by
    decide +kernel
  obtain ⟨s, hs, hcontents⟩ := (Option.any_eq_true _ _).mp ht
  refine ⟨s, of_decide_eq_true hcontents,
    (rejected_recv_takes_nothing_iff (Run.of_foldlM hs) 7 3).2 ?_⟩
  intro i hi
  rcases List.mem_cons.mp hi with rfl | hi
  · exact ⟨by decide, by decide⟩
  · obtain rfl := List.mem_singleton.mp hi
    exact True.intro

/-- **A rejected recv takes data**: behind a recv of five bytes that was
fulfilled with three bytes left over, thirty-one operations for no bytes fill
the queue, and the next one fails with the three bytes in its block. -/
theorem rejected_recv_takes_three :
    ∃ (is : List RecvInput) (s : RecvState),
      Run RecvStep (RecvState.initial (fun _ => ⟨0, 0, 0⟩) (fun _ => 0)) is s
      ∧ s.socket.recvBuffer.contents = [6, 7, 8]
      ∧ (txTcpRecv s.socket 0 10).1.resultCode = .err
      ∧ (txTcpRecv s.socket 0 10).2.1.recvBuffer.contents = []
      ∧ (txTcpRecv s.socket 0 10).2.2 = [6, 7, 8]
      ∧ ¬ s.socket.TakesNothing 0 10 := by
  have ht : ((.recv 0 5 :: .deliver ⟨[[1, 2, 3, 4, 5, 6, 7, 8]], by decide⟩
        :: List.replicate 31 (.recv 0 0)).foldlM recvStep
        (RecvState.initial (fun _ => ⟨0, 0, 0⟩) (fun _ => 0))).any
      (fun s => s.socket.recvBuffer.contents = [6, 7, 8]
        ∧ (txTcpRecv s.socket 0 10).1.resultCode = .err
        ∧ (txTcpRecv s.socket 0 10).2.1.recvBuffer.contents = []
        ∧ (txTcpRecv s.socket 0 10).2.2 = [6, 7, 8]) = true := by
    decide +kernel
  obtain ⟨s, hs, hrest⟩ := (Option.any_eq_true _ _).mp ht
  obtain ⟨hbuffer, herr, hafter, hpopped⟩ := of_decide_eq_true hrest
  refine ⟨_, s, Run.of_foldlM hs, hbuffer, herr, hafter, hpopped, fun h => ?_⟩
  have hsame := (h herr).1
  rw [hbuffer, hafter] at hsame
  exact absurd hsame (by simp)
