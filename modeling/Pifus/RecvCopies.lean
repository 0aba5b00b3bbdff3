import Pifus.Recv
import Pifus.Util.Transition

/-!
# Where the receive path writes

`tcp_recv_callback` copies into blocks of the app, and what it copies where is
decided by the entries of the recv queue. Whatever the chain and the buffer
hold, an event of the callback concerns the first entry: bytes are copied right
behind what this entry has got, no more of them than it has room for, and a
result is that of this entry, which then leaves the queue (`EntryStep`). So a
copy never leaves the block of its operation.
-/

/-- **What an event does to the entries of the recv queue.** -/
inductive EntryStep : List PifusRecvQueueEntry → RecvEvent →
    List PifusRecvQueueEntry → Prop
  | copied {entry : PifusRecvQueueEntry} {entries : List PifusRecvQueueEntry}
      {bytes : List UInt8} (h : bytes.length ≤ entry.size) :
      EntryStep (entry :: entries)
        (.copied entry.recvBlockOffset entry.dataOffset bytes)
        (⟨entry.size - bytes.length, entry.recvBlockOffset,
          entry.dataOffset + bytes.length⟩ :: entries)
  | recved {entries : List PifusRecvQueueEntry} {len : ℕ} :
      EntryStep entries (.recved len) entries
  | completed {entry : PifusRecvQueueEntry} {entries : List PifusRecvQueueEntry} :
      EntryStep (entry :: entries) (.completed entry.recvBlockOffset) entries

/-- The block offsets of the results that the events hand over. -/
def completedOffsets (events : List RecvEvent) : List ℕ :=
  events.filterMap (fun event =>
    match event with
    | .completed recvBlockOffset => some recvBlockOffset
    | _ => none)

variable {entry entry' : PifusRecvQueueEntry}
  {entries entries' : List PifusRecvQueueEntry} {events : List RecvEvent}
  {socket socket' : RecvSocket} {cursor : RecvCursor} {cell : ℕ}

/-- **The results are those of the entries that have left the queue**, in
their order. -/
theorem map_offset_of_entries (h : Run EntryStep entries events entries') :
    entries.map PifusRecvQueueEntry.recvBlockOffset
      = completedOffsets events
        ++ entries'.map PifusRecvQueueEntry.recvBlockOffset := by
  induction h with
  | nil => rfl
  | snoc _ hs ih =>
    rw [ih, completedOffsets, completedOffsets, List.filterMap_append]
    cases hs with
    | copied _ => rw [List.append_assoc]; rfl
    | recved => rw [List.append_assoc]; rfl
    | completed => rw [List.append_assoc]; rfl

/-- **The copy loop** writes for its entry, as long as it is told to copy no
more than the entry has room for. -/
theorem fillFromPbufs_entries {ps : List (List UInt8)} {ackable offset len
    needed : ℕ} (hneeded : needed ≤ entry.size) :
    Run EntryStep (entry :: entries)
      (fillFromPbufs ackable ps offset len needed entry).2.2
      ((fillFromPbufs ackable ps offset len needed entry).2.1 :: entries)
    ∧ (fillFromPbufs ackable ps offset len needed entry).2.1.recvBlockOffset
      = entry.recvBlockOffset := by
  induction ps generalizing ackable offset len needed entry with
  | nil => exact ⟨Run.nil, rfl⟩
  | cons p ps ih =>
    rw [fillFromPbufs]
    by_cases hpos : 0 < needed
    · rw [if_pos hpos]
      dsimp only
      have hdrop : (p.drop offset).length = p.length - offset := List.length_drop
      by_cases hlt : needed < p.length - offset
      · -- the pbuf has more than is needed
        have hlen : ((p.drop offset).take needed).length = needed := by
          rw [List.length_take, hdrop]
          omega
        have hcopied := @EntryStep.copied entry entries
          ((p.drop offset).take needed) (by omega)
        rw [hlen] at hcopied
        rw [if_pos hlt]
        exact ⟨Run.single hcopied, rfl⟩
      · have hcopied := @EntryStep.copied entry entries (p.drop offset)
          (by omega)
        rw [hdrop] at hcopied
        rw [if_neg hlt]
        have hrest := @ih ⟨entry.size - (p.length - offset),
          entry.recvBlockOffset, entry.dataOffset + (p.length - offset)⟩
          (ackable + (p.length - offset)) 0 (len - (p.length - offset))
          (needed - (p.length - offset)) (by dsimp only; omega)
        exact ⟨Run.cons hcopied hrest.1, hrest.2⟩
    · rw [if_neg hpos]
      exact ⟨Run.nil, rfl⟩

/-- What the byte buffer gives for an entry. -/
theorem popFromBuffer_entries (buffer : PifusByteBuffer)
    (entry : PifusRecvQueueEntry) (needed : ℕ) :
    (popFromBuffer buffer entry needed).1.length ≤ needed
    ∧ (popFromBuffer buffer entry needed).2.1
      = ⟨entry.size - (popFromBuffer buffer entry needed).1.length,
        entry.recvBlockOffset,
        entry.dataOffset + (popFromBuffer buffer entry needed).1.length⟩ := by
  obtain ⟨buffer', hpop, -⟩ := buffer.pop_spec needed
  unfold popFromBuffer
  rw [hpop]
  refine ⟨List.length_take_le _ _, ?_⟩
  dsimp only
  split
  · rfl
  · have hzero : (buffer.contents.take needed).length = 0 := by omega
    rw [hzero]
    rfl

/-- **A turn of the matching loop** writes for the first entry. -/
theorem recvTurn_entries {empty : Bool}
    (hcell : socket.recvQueue.peek = some cell) :
    Run EntryStep socket.recvQueue.contents
      (recvTurn socket cursor empty cell).2.2.2
      (recvTurn socket cursor empty cell).1.recvQueue.contents := by
  obtain ⟨hzero, hhead⟩ := RingBuffer.peek_eq_some hcell
  have hne : socket.recvQueue.contents ≠ [] := by
    intro hnil
    rw [hnil] at hhead
    exact absurd hhead (by simp)
  obtain ⟨tail, htail⟩ : ∃ tail, socket.recvQueue.contents
      = socket.recvQueue.buf cell :: tail := by
    cases hcontents : socket.recvQueue.contents with
    | nil => exact absurd hcontents hne
    | cons e tail =>
      rw [hcontents, List.head?_cons] at hhead
      exact ⟨tail, by rw [Option.some.inj hhead]⟩
  have hstore : ∀ e, (socket.recvQueue.store cell e).contents = e :: tail := by
    intro e
    rw [hzero, RingBuffer.contents_store (List.length_pos_iff.mpr hne), htail,
      List.set_cons_zero]
  have hneeded : (socket.recvQueue.buf cell).size % 2 ^ 16
      ≤ (socket.recvQueue.buf cell).size := Nat.mod_le _ _
  unfold recvTurn
  dsimp only
  rw [htail]
  -- what is popped, if anything
  generalize hpopped : (if empty = true
    then (([] : List UInt8), socket.recvQueue.buf cell, socket.recvBuffer)
    else popFromBuffer socket.recvBuffer (socket.recvQueue.buf cell)
      ((socket.recvQueue.buf cell).size % 2 ^ 16)) = popped
  have hspec : popped.1.length ≤ (socket.recvQueue.buf cell).size % 2 ^ 16
      ∧ popped.2.1 = ⟨(socket.recvQueue.buf cell).size - popped.1.length,
        (socket.recvQueue.buf cell).recvBlockOffset,
        (socket.recvQueue.buf cell).dataOffset + popped.1.length⟩ := by
    rw [← hpopped]
    by_cases hempty : empty = true
    · rw [if_pos hempty]
      exact ⟨Nat.zero_le _, rfl⟩
    · rw [if_neg hempty]
      exact popFromBuffer_entries _ _ _
  obtain ⟨hlen, hentry⟩ := hspec
  have hfirst : Run EntryStep (socket.recvQueue.buf cell :: tail)
      (if popped.1.length = 0 then []
        else [.copied (socket.recvQueue.buf cell).recvBlockOffset
          (socket.recvQueue.buf cell).dataOffset popped.1])
      (popped.2.1 :: tail) := by
    rw [hentry]
    by_cases hnone : popped.1.length = 0
    · rw [if_pos hnone, hnone]
      exact Run.nil
    · rw [if_neg hnone]
      exact Run.single (EntryStep.copied (by omega))
  have hroom : (socket.recvQueue.buf cell).size % 2 ^ 16 - popped.1.length
      ≤ popped.2.1.size := by
    rw [hentry]
    dsimp only
    omega
  obtain ⟨hfill, hoffset⟩ := @fillFromPbufs_entries popped.2.1 tail
    cursor.nextPbuf cursor.totalDataAckable cursor.offsetInsideNextPbuf
    cursor.lenDataAvailable _ hroom
  have hcopies := hfirst.trans hfill
  split
  · -- the entry is done
    have hne' : (socket.recvQueue.store cell (fillFromPbufs
        cursor.totalDataAckable cursor.nextPbuf cursor.offsetInsideNextPbuf
        cursor.lenDataAvailable ((socket.recvQueue.buf cell).size % 2 ^ 16
          - popped.1.length) popped.2.1).2.1).contents ≠ [] := by
      rw [hstore]
      simp
    obtain ⟨queue, herase, hcontents⟩ := RingBuffer.exists_eraseFirst hne'
    rw [hstore] at hcontents
    obtain ⟨-, hrest⟩ := List.cons.inj hcontents
    rw [herase, Option.getD_some, ← hrest]
    have hdone := @EntryStep.completed (fillFromPbufs cursor.totalDataAckable
      cursor.nextPbuf cursor.offsetInsideNextPbuf cursor.lenDataAvailable
      ((socket.recvQueue.buf cell).size % 2 ^ 16 - popped.1.length)
      popped.2.1).2.1 tail
    rw [hoffset, hentry] at hdone
    rw [hentry] at hcopies ⊢
    exact hcopies.snoc hdone
  · rw [hstore]
    exact hcopies

/-- **The matching loop** writes for the entries in their order. -/
theorem recvLoop_entries {fuel : ℕ} {empty : Bool}
    {r : RecvSocket × RecvCursor × List RecvEvent}
    (h : recvLoop fuel socket cursor empty = some r) :
    Run EntryStep socket.recvQueue.contents r.2.2 r.1.recvQueue.contents := by
  induction fuel generalizing socket cursor empty r with
  | zero => exact absurd h (by simp [recvLoop])
  | succ fuel ih =>
    rw [recvLoop] at h
    cases hpeek : socket.recvQueue.peek with
    | none =>
      rw [hpeek] at h
      obtain rfl := Option.some.inj h
      exact Run.nil
    | some cell =>
      rw [hpeek] at h
      dsimp only at h
      split at h
      · obtain ⟨r', hr', rfl⟩ := Option.map_eq_some_iff.mp h
        exact (recvTurn_entries hpeek).trans (ih hr')
      · obtain rfl := Option.some.inj h
        exact Run.nil

/-- **`tcp_recv_callback` writes into the blocks of the entries**, in order and
never behind the end of one. -/
theorem recvChain_entries {p : PbufChain} {err : ErrT}
    (h : recvChain socket p = some (err, socket', events)) :
    Run EntryStep socket.recvQueue.contents events
      socket'.recvQueue.contents := by
  unfold recvChain at h
  obtain ⟨r, hr, heq⟩ := Option.map_eq_some_iff.mp h
  have hloop := (recvLoop_entries hr).snoc (@EntryStep.recved _
    (bufferPbufs r.2.1.nextPbuf r.2.1.offsetInsideNextPbuf
      r.2.1.lenDataAvailable r.2.1.totalDataAckable r.1.recvBuffer).2.1)
  dsimp only at heq
  split at heq
  · obtain ⟨-, heq⟩ := Prod.mk.inj heq
    obtain ⟨rfl, rfl⟩ := Prod.mk.inj heq
    exact hloop
  · obtain ⟨-, heq⟩ := Prod.mk.inj heq
    obtain ⟨rfl, rfl⟩ := Prod.mk.inj heq
    exact hloop
