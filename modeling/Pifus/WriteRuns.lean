import Pifus.Write

/-!
# Runs of the send path

Writes of the app, their processing, acknowledgements and popped results, in
any order. The writes that lwIP has accepted are cut in two: those in front
are completed, and the others are those of the write queue, in this order. No
entry of the queue is greater than its block, so the sizes of the completed
blocks are at most the number of bytes acknowledged (`WriteInv.completed_le`).
This holds for blocks of any size; that lwIP is handed less than the queue
records only means that a result comes late.

A block that is not freed yet is held in one place: by an operation that is
not processed, by an entry of the write queue or by a result that was not
popped (`HeldInv`).
-/

namespace WriteState

/-! ## The acknowledged bytes -/

/-- An entry of the write queue, for a write that lwIP has accepted. -/
def Waits (entry : PifusWriteQueueEntry) (a : AcceptedWrite) : Prop :=
  entry.writeBlockOffset = a.blockOffset ∧ entry.size ≤ a.size

variable {s t : WriteState} {queue queue' : RingBuffer PifusWriteQueueEntry}
  {waiting : List AcceptedWrite} {len offset size : ℕ} {err : ErrT}

theorem map_offset_eq {entries : List PifusWriteQueueEntry}
    (h : List.Forall₂ Waits entries waiting) :
    entries.map PifusWriteQueueEntry.writeBlockOffset
      = waiting.map AcceptedWrite.blockOffset := by
  rw [← List.forall₂_eq_eq_eq, List.forall₂_map_left_iff,
    List.forall₂_map_right_iff]
  exact h.imp (fun _ _ => And.left)

/-- **`tcp_sent_callback`**, when no more is acknowledged than what is queued:
it completes writes from the front, takes the acknowledged bytes off the queue
and does not exit. -/
theorem tcpSentCallback_spec {fuel : ℕ} {len : UInt16}
    (hwaits : List.Forall₂ Waits queue.contents waiting) (hlen : 0 < len.toNat)
    (hle : len.toNat ≤ (queue.contents.map PifusWriteQueueEntry.size).sum)
    (hfuel : queue.contents.length < fuel) :
    ∃ r done rest, tcpSentCallback fuel queue len = some r
      ∧ r.exited = false ∧ waiting = done ++ rest
      ∧ r.completed = done.map AcceptedWrite.blockOffset
      ∧ List.Forall₂ Waits r.writeQueue.contents rest
      ∧ (r.writeQueue.contents.map PifusWriteQueueEntry.size).sum + len.toNat
        = (queue.contents.map PifusWriteQueueEntry.size).sum := by
  induction fuel generalizing queue waiting len with
  | zero => exact absurd hfuel (Nat.not_lt_zero _)
  | succ fuel ih =>
    have hne : queue.contents ≠ [] := fun hnil => by
      rw [hnil] at hle
      exact absurd (Nat.lt_of_lt_of_le hlen hle) (Nat.lt_irrefl 0)
    obtain ⟨cell, hpeek⟩ : ∃ cell, queue.peek = some cell :=
      Option.ne_none_iff_exists'.mp (mt RingBuffer.peek_eq_none_iff.mp hne)
    obtain ⟨queue', herase, hcontents⟩ := RingBuffer.exists_eraseFirst hne
    obtain ⟨hcell, hhead⟩ := RingBuffer.peek_eq_some hpeek
    rw [← RingBuffer.cell_zero, ← hcell] at hcontents
    rw [hcontents] at hwaits hle hfuel
    obtain ⟨a, rest, hfirst, hrest, rfl⟩ := List.forall₂_cons_left_iff.mp hwaits
    rw [List.map_cons, List.sum_cons] at hle
    rw [List.length_cons] at hfuel
    rw [tcpSentCallback, hpeek, hcontents, List.map_cons, List.sum_cons]
    dsimp only
    by_cases hdone : (queue.buf cell).size ≤ len.toNat
    · rw [if_pos hdone, herase, Option.getD_some]
      by_cases hmore : (queue.buf cell).size < len.toNat
      · have hleft := toNat_rest len (queue.buf cell).size
        obtain ⟨r, done, rest', hr, hexited, rfl, hcompleted, hwaits', hsum⟩ :=
          @ih _ _ (UInt16.ofNat (len.toNat - (queue.buf cell).size)) hrest
            (by omega) (by omega) (by omega)
        rw [if_pos hmore, hr]
        refine ⟨_, a :: done, rest', rfl, hexited, rfl, ?_, hwaits', ?_⟩
        · rw [List.map_cons, ← hcompleted, ← hfirst.1]
        · show (r.writeQueue.contents.map _).sum + len.toNat = _
          omega
      · rw [if_neg hmore]
        refine ⟨_, [a], rest, rfl, rfl, rfl, ?_, hrest, ?_⟩
        · rw [List.map_singleton, ← hfirst.1]
        · show (queue'.contents.map _).sum + len.toNat = _
          omega
    · have hstore : (queue.store cell { queue.buf cell with
          size := (queue.buf cell).size - len.toNat }).contents
          = { queue.buf cell with size := (queue.buf cell).size - len.toNat }
            :: queue'.contents := by
        rw [hcell, RingBuffer.contents_store (List.length_pos_iff.mpr hne),
          hcontents, ← hcell, List.set_cons_zero]
      rw [if_neg hdone]
      refine ⟨_, [], a :: rest, rfl, rfl, rfl, rfl, ?_, ?_⟩
      · show List.Forall₂ Waits (RingBuffer.contents _) _
        rw [hstore]
        exact List.Forall₂.cons
          ⟨hfirst.1, Nat.le_trans (Nat.sub_le _ _) hfirst.2⟩ hrest
      · show ((RingBuffer.contents _).map _).sum + len.toNat = _
        rw [hstore, List.map_cons, List.sum_cons]
        dsimp only
        omega

/-! ## The blocks -/

/-- The offsets of the blocks that a write is done with only later. -/
def held (s : WriteState) : List ℕ :=
  s.pending ++ s.writeQueue.contents.map PifusWriteQueueEntry.writeBlockOffset
    ++ s.unpopped

/-- **Every block is held once**, and what was freed is not allocated. -/
structure HeldInv (s : WriteState) : Prop where
  nodup : s.held.Nodup
  live : ∀ offset ∈ s.held, s.blockAt offset ≠ none
  fresh : ∀ offset block, s.blockAt offset = some block →
    block < s.blocks ∧ some block ∉ s.freed
  inj : ∀ offset offset' block, s.blockAt offset = some block →
    s.blockAt offset' = some block → offset = offset'
  freedNodup : s.freed.Nodup
  freedLt : ∀ b ∈ s.freed, ∃ block, b = some block ∧ block < s.blocks

/-- A step that hands blocks on. -/
theorem HeldInv.perm (h : HeldInv s) (hheld : t.held.Perm s.held)
    (hblockAt : t.blockAt = s.blockAt) (hblocks : t.blocks = s.blocks)
    (hfreed : t.freed = s.freed) : HeldInv t where
  nodup := hheld.nodup_iff.mpr h.nodup
  live := fun offset hmem => by
    rw [hblockAt]
    exact h.live offset (hheld.mem_iff.mp hmem)
  fresh := by
    rw [hblockAt, hblocks, hfreed]
    exact h.fresh
  inj := by
    rw [hblockAt]
    exact h.inj
  freedNodup := by
    rw [hfreed]
    exact h.freedNodup
  freedLt := by
    rw [hfreed, hblocks]
    exact h.freedLt

/-- A new block. -/
theorem HeldInv.alloc (h : HeldInv s) (hheld : t.held.Perm (offset :: s.held))
    (hnone : s.blockAt offset = none)
    (hblockAt : t.blockAt = Function.update s.blockAt offset (some s.blocks))
    (hblocks : t.blocks = s.blocks + 1) (hfreed : t.freed = s.freed) :
    HeldInv t where
  nodup := by
    rw [hheld.nodup_iff, List.nodup_cons]
    exact ⟨fun hmem => h.live offset hmem hnone, h.nodup⟩
  live := fun o hmem => by
    rw [hblockAt]
    by_cases ho : o = offset
    · rw [ho, Function.update_self]
      simp
    · rw [Function.update_of_ne ho]
      rcases List.mem_cons.mp (hheld.mem_iff.mp hmem) with heq | hold
      · exact absurd heq ho
      · exact h.live o hold
  fresh := fun o block hblock => by
    rw [hblocks, hfreed]
    by_cases ho : o = offset
    · rw [hblockAt, ho, Function.update_self] at hblock
      obtain rfl := Option.some.inj hblock
      refine ⟨Nat.lt_succ_self _, fun hmem => ?_⟩
      obtain ⟨block, heq, hlt⟩ := h.freedLt _ hmem
      obtain rfl := Option.some.inj heq
      exact Nat.lt_irrefl _ hlt
    · rw [hblockAt, Function.update_of_ne ho] at hblock
      exact ⟨Nat.lt_succ_of_lt (h.fresh o block hblock).1,
        (h.fresh o block hblock).2⟩
  inj := fun o o' block hblock hblock' => by
    rw [hblockAt] at hblock hblock'
    by_cases ho : o = offset <;> by_cases ho' : o' = offset
    · rw [ho, ho']
    · rw [ho, Function.update_self] at hblock
      rw [Function.update_of_ne ho'] at hblock'
      obtain rfl := Option.some.inj hblock
      exact absurd (h.fresh o' _ hblock').1 (Nat.lt_irrefl _)
    · rw [ho', Function.update_self] at hblock'
      rw [Function.update_of_ne ho] at hblock
      obtain rfl := Option.some.inj hblock'
      exact absurd (h.fresh o _ hblock).1 (Nat.lt_irrefl _)
    · rw [Function.update_of_ne ho] at hblock
      rw [Function.update_of_ne ho'] at hblock'
      exact h.inj o o' block hblock hblock'
  freedNodup := by
    rw [hfreed]
    exact h.freedNodup
  freedLt := fun b hmem => by
    rw [hfreed] at hmem
    obtain ⟨block, rfl, hlt⟩ := h.freedLt b hmem
    exact ⟨block, rfl, hblocks ▸ Nat.lt_succ_of_lt hlt⟩

/-- A block that is freed. -/
theorem HeldInv.free (h : HeldInv s) (hheld : s.held.Perm (offset :: t.held))
    (hblockAt : t.blockAt = Function.update s.blockAt offset none)
    (hblocks : t.blocks = s.blocks)
    (hfreed : t.freed = s.freed ++ [s.blockAt offset]) : HeldInv t := by
  obtain ⟨hnot, hnodup⟩ := List.nodup_cons.mp (hheld.nodup_iff.mp h.nodup)
  have hmem : offset ∈ s.held := hheld.mem_iff.mpr List.mem_cons_self
  obtain ⟨block, hblock⟩ := Option.ne_none_iff_exists'.mp (h.live offset hmem)
  obtain ⟨hlt, hnew⟩ := h.fresh offset block hblock
  rw [hblock] at hfreed
  have hold : ∀ o n, t.blockAt o = some n → o ≠ offset ∧ s.blockAt o = some n :=
    fun o n hn => by
      rw [hblockAt] at hn
      by_cases ho : o = offset
      · rw [ho, Function.update_self] at hn
        exact absurd hn (by simp)
      · rw [Function.update_of_ne ho] at hn
        exact ⟨ho, hn⟩
  refine ⟨hnodup, fun o ho => ?_, fun o n hn => ?_, fun o o' n hn hn' => ?_,
    ?_, fun b hb => ?_⟩
  · have hne : o ≠ offset := fun heq => hnot (heq ▸ ho)
    rw [hblockAt, Function.update_of_ne hne]
    exact h.live o (hheld.mem_iff.mpr (List.mem_cons_of_mem _ ho))
  · obtain ⟨ho, hn⟩ := hold o n hn
    refine ⟨hblocks ▸ (h.fresh o n hn).1, fun hmem => ?_⟩
    rw [hfreed] at hmem
    rcases List.mem_append.mp hmem with hmem | hmem
    · exact (h.fresh o n hn).2 hmem
    · obtain rfl := Option.some.inj (List.mem_singleton.mp hmem)
      exact ho (h.inj o offset n hn hblock)
  · exact h.inj o o' n (hold o n hn).2 (hold o' n hn').2
  · rw [hfreed, List.nodup_append]
    refine ⟨h.freedNodup, by simp, fun b hb b' hb' heq => ?_⟩
    rw [heq, List.mem_singleton.mp hb'] at hb
    exact hnew hb
  · rw [hfreed] at hb
    rw [hblocks]
    rcases List.mem_append.mp hb with hb | hb
    · exact h.freedLt b hb
    · exact ⟨block, List.mem_singleton.mp hb, hlt⟩

/-! ## The books -/

/-- **The invariant of a run.** -/
structure WriteInv (s : WriteState) : Prop where
  len : ∀ a ∈ s.accepted, a.len = a.size % 2 ^ 16
  books : s.queuedBytes + s.acked = (s.accepted.map AcceptedWrite.size).sum
  order : ∃ done waiting, s.accepted = done ++ waiting
    ∧ s.completions = done.map AcceptedWrite.blockOffset
    ∧ List.Forall₂ Waits s.writeQueue.contents waiting
    ∧ ∀ a ∈ waiting, s.blockAt a.blockOffset = a.block
  popped : s.popped ≤ s.results.length
  held : HeldInv s
  exited : s.exited = false

theorem mem_held_of_waiting (h : List.Forall₂ Waits s.writeQueue.contents waiting)
    {a : AcceptedWrite} (ha : a ∈ waiting) : a.blockOffset ∈ s.held := by
  refine List.mem_append_left _ (List.mem_append_right _ ?_)
  rw [map_offset_eq h]
  exact List.mem_map_of_mem ha

theorem unpopped_append (results : List (PifusOperationResult ℕ))
    (h : s.popped ≤ s.results.length)
    (hresults : t.results = s.results ++ results)
    (hpopped : t.popped = s.popped) :
    t.unpopped = s.unpopped ++ results.map (fun r => r.data) := by
  rw [unpopped, hresults, hpopped, List.drop_append_of_le_length h,
    List.map_append]
  rfl

/-- **`pifus_socket_write` keeps the invariant.** -/
theorem WriteInv.write (h : WriteInv s) (hs : s.write offset size = some t) :
    WriteInv t := by
  rw [WriteState.write] at hs
  split at hs
  · rename_i hcond
    obtain rfl := Option.some.inj hs
    have hnone := hcond.2.2
    obtain ⟨done, waiting, hacc, hcompleted, hwaits, hblocks⟩ := h.order
    refine ⟨h.len, h.books, ⟨done, waiting, hacc, hcompleted, hwaits, ?_⟩,
      h.popped, h.held.alloc ?_ hnone rfl rfl rfl, h.exited⟩
    · intro a ha
      have hne : a.blockOffset ≠ offset := fun heq =>
        h.held.live _ (mem_held_of_waiting hwaits ha) (by rw [heq, hnone])
      dsimp only
      rw [Function.update_of_ne hne]
      exact hblocks a ha
    · unfold WriteState.held
      dsimp only [unpopped]
      rw [List.append_assoc, List.append_assoc, List.append_assoc]
      exact List.perm_middle
  · exact absurd hs (by simp)

theorem held_of_pending {rest : List ℕ} (h : s.pending = offset :: rest) :
    s.held = offset :: (rest
      ++ s.writeQueue.contents.map PifusWriteQueueEntry.writeBlockOffset
      ++ s.unpopped) := by
  unfold held
  rw [h]
  rfl

/-- **An operation that ends with an error**: its block is held by its
result. -/
theorem WriteInv.refuse {rest : List ℕ} (h : WriteInv s)
    (hpending : s.pending = offset :: rest) :
    WriteInv (s.handleOperation offset rest ⟨.err, s.writeQueue, none⟩) := by
  obtain ⟨done, waiting, hacc, hcompleted, hwaits, hblocks⟩ := h.order
  have hsame : (s.handleOperation offset rest
      ⟨.err, s.writeQueue, none⟩).accepted = s.accepted := List.append_nil _
  refine ⟨hsame.symm ▸ h.len, ?_, ⟨done, waiting, hsame.trans hacc, ?_, hwaits,
    hblocks⟩, ?_, h.held.perm ?_ rfl rfl rfl, h.exited⟩
  · rw [hsame]
    exact h.books
  · show ((s.results ++ [_]).filter _).map _ = _
    rw [List.filter_append, List.map_append, ← hcompleted]
    exact List.append_nil _
  · show s.popped ≤ (s.results ++ [_]).length
    rw [List.length_append]
    exact Nat.le_add_right_of_le h.popped
  · have hunpopped : (s.handleOperation offset rest
        ⟨.err, s.writeQueue, none⟩).unpopped = s.unpopped ++ [offset] :=
      unpopped_append [⟨.tcpWrite, .err, offset⟩] h.popped rfl rfl
    rw [held_of_pending hpending, WriteState.held, hunpopped,
      ← List.append_assoc]
    exact List.perm_append_singleton _ _

/-- **An operation that is tried again.** -/
theorem WriteInv.retry {rest : List ℕ} (h : WriteInv s) :
    WriteInv (s.handleOperation offset rest
      ⟨.tryAgain, s.writeQueue, none⟩) := by
  obtain ⟨done, waiting, hacc, hcompleted, hwaits, hblocks⟩ := h.order
  have hsame : (s.handleOperation offset rest
      ⟨.tryAgain, s.writeQueue, none⟩).accepted = s.accepted :=
    List.append_nil _
  refine ⟨hsame.symm ▸ h.len, ?_, ⟨done, waiting, hsame.trans hacc, hcompleted,
    hwaits, hblocks⟩, h.popped, h.held.perm (List.Perm.refl _) rfl rfl rfl,
    h.exited⟩
  rw [hsame]
  exact h.books

/-- **An operation that lwIP accepts**: its block is held by the write queue. -/
theorem WriteInv.accept {rest : List ℕ} (h : WriteInv s)
    (hpending : s.pending = offset :: rest)
    (hput : s.writeQueue.put ⟨s.sizeAt offset, offset⟩ = some queue) :
    WriteInv (s.handleOperation offset rest
      ⟨.async, queue, some (s.sizeAt offset % 2 ^ 16)⟩) := by
  obtain ⟨done, waiting, hacc, hcompleted, hwaits, hblocks⟩ := h.order
  have hcontents := RingBuffer.contents_put hput
  let a : AcceptedWrite := ⟨s.blockAt offset, offset, s.sizeAt offset,
    s.sizeAt offset % 2 ^ 16⟩
  refine ⟨List.forall_mem_append.mpr ⟨h.len, List.forall_mem_singleton.mpr rfl⟩,
    ?_, ⟨done, waiting ++ [a], ?_, hcompleted, ?_, List.forall_mem_append.mpr
      ⟨hblocks, List.forall_mem_singleton.mpr rfl⟩⟩,
    h.popped, h.held.perm ?_ rfl rfl rfl, h.exited⟩
  · have hbooks := h.books
    show (queue.contents.map _).sum + s.acked = ((s.accepted ++ [a]).map _).sum
    rw [hcontents, List.map_append, List.map_append, List.sum_append,
      List.sum_append, ← hbooks, queuedBytes, List.map_singleton,
      List.map_singleton, List.sum_singleton]
    exact Nat.add_right_comm _ _ _
  · show s.accepted ++ [a] = done ++ (waiting ++ [a])
    rw [hacc, List.append_assoc]
  · show List.Forall₂ Waits queue.contents (waiting ++ [a])
    rw [hcontents]
    exact List.rel_append hwaits
      (List.Forall₂.cons ⟨rfl, Nat.le_refl _⟩ List.Forall₂.nil)
  · show (rest ++ queue.contents.map _ ++ s.unpopped).Perm s.held
    rw [held_of_pending hpending, hcontents, List.map_append,
      ← List.append_assoc, List.append_assoc (rest ++ _)]
    exact List.perm_middle

/-- **A processed operation keeps the invariant.** -/
theorem WriteInv.process (h : WriteInv s) (hs : s.process err = some t) :
    WriteInv t := by
  rw [WriteState.process] at hs
  split at hs
  · rename_i offset rest hpending
    unfold txTcpWrite at hs
    by_cases hfull : s.writeQueue.isFull = true
    · rw [if_pos hfull] at hs
      obtain rfl := Option.some.inj hs
      exact h.refuse hpending
    · rw [if_neg hfull] at hs
      cases err with
      | ok =>
        obtain ⟨queue, hput⟩ := RingBuffer.exists_put ⟨s.sizeAt offset, offset⟩
          (mt RingBuffer.isFull_iff.mpr hfull)
        dsimp only at hs
        rw [hput] at hs
        obtain rfl := Option.some.inj hs
        exact h.accept hpending hput
      | mem =>
        obtain rfl := Option.some.inj hs
        exact h.retry
      | other code =>
        obtain rfl := Option.some.inj hs
        exact h.refuse hpending
  · exact absurd hs (by simp)

/-- **An acknowledgement keeps the invariant**, and finds what it needs in the
write queue. -/
theorem WriteInv.sent (h : WriteInv s) (hs : s.sent len = some t) :
    WriteInv t := by
  rw [WriteState.sent] at hs
  split at hs
  · rename_i hcond
    obtain ⟨hpos, hhalf, hacked⟩ := hcond
    have hnat : (UInt16.ofNat len).toNat = len :=
      UInt16.toNat_ofNat_of_lt' hhalf
    obtain ⟨done, waiting, hacc, hcompleted, hwaits, hblocks⟩ := h.order
    have hbooks := h.books
    have hle := Nat.le_trans hacked (handedOver_eq_iff h.len).1
    have hlen : len ≤ s.queuedBytes := by omega
    have hfuel : s.writeQueue.contents.length < s.writeQueue.count + 1 := by
      rw [RingBuffer.length_contents]
      exact Nat.lt_succ_self _
    obtain ⟨r, done', rest, hr, hexited, rfl, hdone', hwaits', hsum⟩ :=
      tcpSentCallback_spec hwaits (by rwa [hnat]) (by rwa [hnat]) hfuel
    rw [hnat] at hsum
    rw [hr] at hs
    obtain rfl := Option.some.inj hs
    refine ⟨h.len, ?_, ⟨done ++ done', rest, ?_, ?_, hwaits', fun a ha =>
      hblocks a (List.mem_append_right _ ha)⟩, ?_, h.held.perm ?_ rfl rfl rfl,
      hexited⟩
    · show (r.writeQueue.contents.map _).sum + (s.acked + len)
        = (s.accepted.map _).sum
      unfold queuedBytes at hbooks
      omega
    · rw [List.append_assoc]
      exact hacc
    · show ((s.results ++ _).filter _).map _ = _
      rw [List.filter_append, List.map_append, List.map_append, ← hcompleted,
        ← hdone']
      congr 1
      rw [List.filter_eq_self.mpr (by simp), List.map_map]
      exact List.map_id _
    · show s.popped ≤ (s.results ++ _).length
      rw [List.length_append]
      exact Nat.le_add_right_of_le h.popped
    · have hunpopped := unpopped_append (t := { s with
          writeQueue := r.writeQueue
          results := s.results
            ++ r.completed.map (fun offset => ⟨.tcpWrite, .ok, offset⟩)
          acked := s.acked + len
          exited := r.exited }) _ h.popped rfl rfl
      rw [List.map_map] at hunpopped
      unfold WriteState.held
      rw [hunpopped, map_offset_eq hwaits, map_offset_eq hwaits']
      have hid : r.completed.map ((fun r : PifusOperationResult ℕ => r.data)
          ∘ fun offset => ⟨.tcpWrite, .ok, offset⟩)
          = done'.map AcceptedWrite.blockOffset := by
        rw [← hdone']
        exact List.map_id _
      rw [hid, List.map_append, List.append_assoc, List.append_assoc]
      refine List.Perm.append_left _ ?_
      rw [← List.append_assoc, List.append_assoc (done'.map _)]
      exact List.perm_append_comm
  · exact absurd hs (by simp)

/-- **A popped result keeps the invariant**: the block that is freed is held
by the result alone. -/
theorem WriteInv.pop (h : WriteInv s) (hs : s.pop = some t) : WriteInv t := by
  obtain ⟨result, hresult, rfl⟩ := Option.map_eq_some_iff.mp hs
  obtain ⟨hlt, hget⟩ := List.getElem?_eq_some_iff.mp hresult
  have hdrop : s.unpopped
      = result.data :: ((s.results.drop (s.popped + 1)).map (fun r => r.data)) := by
    rw [unpopped, List.drop_eq_getElem_cons hlt, hget, List.map_cons]
  obtain ⟨done, waiting, hacc, hcompleted, hwaits, hblocks⟩ := h.order
  have hperm : s.held.Perm (result.data :: (s.pending
      ++ s.writeQueue.contents.map PifusWriteQueueEntry.writeBlockOffset
      ++ (s.results.drop (s.popped + 1)).map (fun r => r.data))) := by
    unfold WriteState.held
    rw [hdrop]
    exact List.perm_middle
  split
  · have hfree := h.held.free (t := { s with
        popped := s.popped + 1
        freed := s.freed ++ [s.blockAt result.data]
        blockAt := Function.update s.blockAt result.data none })
        hperm rfl rfl rfl
    refine ⟨h.len, h.books, ⟨done, waiting, hacc, hcompleted, hwaits,
      fun a ha => ?_⟩, hlt, hfree, h.exited⟩
    have hne : a.blockOffset ≠ result.data := fun heq =>
      (List.nodup_cons.mp (hperm.nodup_iff.mp h.held.nodup)).1
        (heq ▸ List.mem_append_left _ (List.mem_append_right _ (by
          rw [map_offset_eq hwaits]
          exact List.mem_map_of_mem ha)))
    dsimp only
    rw [Function.update_of_ne hne]
    exact hblocks a ha
  · have hsub : (s.pending
        ++ s.writeQueue.contents.map PifusWriteQueueEntry.writeBlockOffset
        ++ (s.results.drop (s.popped + 1)).map (fun r => r.data)).Sublist
        (result.data :: (s.pending
        ++ s.writeQueue.contents.map PifusWriteQueueEntry.writeBlockOffset
        ++ (s.results.drop (s.popped + 1)).map (fun r => r.data))) :=
      List.sublist_cons_self _ _
    exact ⟨h.len, h.books, ⟨done, waiting, hacc, hcompleted, hwaits, hblocks⟩,
      hlt, ⟨(hperm.nodup_iff.mp h.held.nodup).sublist hsub,
        fun o ho => h.held.live o (hperm.mem_iff.mpr (hsub.subset ho)),
        h.held.fresh, h.held.inj, h.held.freedNodup, h.held.freedLt⟩, h.exited⟩

/-- **Every step keeps the invariant.** -/
theorem WriteInv.step {e : WriteEvent} (h : WriteInv s) (hs : WriteStep s e t) :
    WriteInv t := by
  unfold WriteStep at hs
  unfold writeStep at hs
  rw [h.exited, if_neg (by simp)] at hs
  cases e with
  | write offset size => exact h.write hs
  | process err => exact h.process hs
  | sent len => exact h.sent hs
  | pop => exact h.pop hs

theorem writeInv_initial (queue : ℕ → PifusWriteQueueEntry) (sizeAt : ℕ → ℕ) :
    WriteInv (initial queue sizeAt) where
  len := fun _ ha => absurd ha (by simp [initial])
  books := rfl
  order := ⟨[], [], rfl, rfl, List.Forall₂.nil, by simp⟩
  popped := Nat.le_refl _
  held := ⟨List.nodup_nil, fun _ hmem => absurd hmem (by simp [held, initial,
    unpopped]), fun _ _ h => absurd h (by simp [initial]),
    fun _ _ _ h => absurd h (by simp [initial]), List.nodup_nil,
    fun _ hb => absurd hb (by simp [initial])⟩
  exited := rfl

/-! ## Runs -/

theorem WriteInv.of_run {queue : ℕ → PifusWriteQueueEntry} {sizeAt : ℕ → ℕ}
    {es : List WriteEvent} (h : Run WriteStep (initial queue sizeAt) es s) :
    WriteInv s :=
  h.invariant WriteInv (writeInv_initial queue sizeAt)
    (fun _ _ _ hI hs => hI.step hs)

/-- **When the books agree**: if and only if no block that lwIP has accepted
has a size that a `u16_t` does not hold. The calls of `exit` are not reached
in any run, as the write queue records too much rather than too little. -/
theorem send_accounting_exact_iff {queue : ℕ → PifusWriteQueueEntry}
    {sizeAt : ℕ → ℕ} {es : List WriteEvent}
    (h : Run WriteStep (initial queue sizeAt) es s) :
    (s.Exact ↔ ∀ a ∈ s.accepted, a.size < 2 ^ 16) ∧ s.exited = false := by
  have hinv := WriteInv.of_run h
  obtain ⟨-, hsmall, heq⟩ := handedOver_eq_iff hinv.len
  refine ⟨?_, hinv.exited⟩
  rw [← hsmall]
  exact ⟨And.right, fun hall => ⟨hinv.books.trans (heq hall).symm, hall⟩⟩

/-- A write, partly acknowledged. -/
theorem send_accounting_exact_iff_one :
    ∃ s : WriteState, s.queuedBytes = 3
      ∧ (s.Exact ↔ ∀ a ∈ s.accepted, a.size < 2 ^ 16) := by
  have hs : ([.write 0 5, .process .ok, .sent 2].foldlM writeStep
      (initial (fun _ => ⟨0, 0⟩) (fun _ => 0))).map (fun s => s.queuedBytes)
      = some 3 := by decide +kernel
  obtain ⟨s, hrun, hqueued⟩ := Option.map_eq_some_iff.mp hs
  exact ⟨s, hqueued, (send_accounting_exact_iff (Run.of_foldlM hrun)).1⟩

/-- **A block of `2 ^ 16` bytes**: `tcp_write` is handed none of them, and the
write queue waits for all. -/
theorem long_write_hands_nothing_over :
    ∃ (es : List WriteEvent) (s : WriteState),
      Run WriteStep (initial (fun _ => ⟨0, 0⟩) (fun _ => 0)) es s
      ∧ s.accepted = [⟨some 0, 0, 65536, 0⟩] ∧ s.queuedBytes = 65536
      ∧ ¬ s.Exact := by
  have hs : ([.write 0 65536, .process .ok].foldlM writeStep
      (initial (fun _ => ⟨0, 0⟩) (fun _ => 0))).any (fun s =>
        s.accepted = [⟨some 0, 0, 65536, 0⟩] ∧ s.queuedBytes = 65536)
      = true := by decide +kernel
  obtain ⟨s, hrun, hp⟩ := (Option.any_eq_true _ _).mp hs
  obtain ⟨haccepted, hqueued⟩ := of_decide_eq_true hp
  refine ⟨_, s, Run.of_foldlM hrun, haccepted, hqueued, fun hexact => ?_⟩
  exact absurd (hexact.2 _ (haccepted ▸ List.mem_singleton_self _)) (by simp)

end WriteState
