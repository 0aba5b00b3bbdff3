import Mathlib.Data.List.Nodup
import Pifus.BlockOwners

/-!
# Runs of the data path

Every step of an app, of the stack and of lwIP comes to calls of the allocator
and copies into live blocks, so a run of the data path is a run of the heap
(`data_path_uses_heap`). On the way every block stays in one place, and what a
socket's blocks hold is changed by this socket alone.
-/

variable {app : AppRegion} {s t : DataState} {c c' : DataSocket}

/-- **The invariant of the data path.** -/
structure DataInv (app : AppRegion) (s : DataState) : Prop where
  heap : HeapInv app s.heap
  owners : (s.live.map Prod.fst).Perm (s.owned app)
  sockets : ∀ c ∈ s.sockets, BlocksInv app s.heap.store c
  held : ∀ b ∈ s.held, s.heap.store b.1 = some b.2

/-! ## Steps of the heap -/

section Heap

variable {h h' : HeapState} {q n : ℕ}

theorem HeapInv.holds_nil_iff (hI : HeapInv app h) :
    h.store.Holds q n [] ↔ (q, n) ∈ h.live := by
  constructor
  · rintro ⟨l, hl, hlen, -⟩
    obtain ⟨n', hmem, rfl⟩ := hI.store_eq_some_iff.mp hl
    rw [HeapState.data, Memory.length_bytes] at hlen
    exact hlen ▸ hmem
  · intro hmem
    exact ⟨_, hI.store_eq_some_iff.mpr ⟨n, hmem, rfl⟩,
      Memory.length_bytes _ _ _, List.nil_prefix⟩

theorem HeapInv.nodup_ptr (hI : HeapInv app h) :
    (h.live.map Prod.fst).Nodup := by
  refine List.Nodup.map_on (fun x hx y hy he => ?_) hI.nodup
  obtain ⟨q, n⟩ := x
  obtain ⟨q', n'⟩ := y
  obtain rfl : q = q' := he
  rw [hI.size_unique hx hy]

theorem HeapInv.holds_congr (hI : HeapInv app h) (hI' : HeapInv app h')
    (hlive : h'.live = h.live) :
    h'.store.Holds q n [] ↔ h.store.Holds q n [] := by
  rw [hI.holds_nil_iff, hI'.holds_nil_iff, hlive]

theorem eraseP_congr {α : Type*} {p p' : α → Bool} {l : List α}
    (h : ∀ x ∈ l, p x = p' x) : l.eraseP p = l.eraseP p' := by
  induction l with
  | nil => rfl
  | cons a l ih =>
    rw [List.eraseP_cons, List.eraseP_cons, h a List.mem_cons_self,
      ih (fun x hx => h x (List.mem_cons_of_mem _ hx))]

theorem HeapInv.forget_eq (hI : HeapInv app h) (hmem : (q, n) ∈ h.live) :
    forget q h.live = h.live.erase (q, n) := by
  rw [forget, List.erase_eq_eraseP]
  refine eraseP_congr (fun x hx => ?_)
  obtain ⟨q', n'⟩ := x
  rw [Bool.eq_iff_iff, decide_eq_true_iff, beq_iff_eq, Prod.mk.injEq]
  constructor
  · rintro rfl
    exact ⟨rfl, hI.size_unique hmem hx⟩
  · rintro ⟨rfl, -⟩
    rfl

/-- The other blocks, when one is forgotten. -/
theorem HeapInv.perm_forget {rest : List Ptr} (hI : HeapInv app h)
    (hperm : (h.live.map Prod.fst).Perm (q :: rest)) :
    ((forget q h.live).map Prod.fst).Perm rest := by
  obtain ⟨⟨q', n⟩, hblock, hq⟩ := List.mem_map.mp
    (hperm.mem_iff.mpr List.mem_cons_self)
  obtain rfl : q' = q := hq
  rw [hI.forget_eq hblock]
  have hcons := ((List.perm_cons_erase hblock).map Prod.fst).symm.trans hperm
  exact hcons.cons_inv

theorem HeapInv.free_step (hI : HeapInv app h) (hmem : (q, n) ∈ h.live)
    (hok : BackOffsetIntact app h (.free (q, n))) :
    IntactStep app h (.free (q, n))
      ⟨shmDataFree app.addr h.mem q, forget q h.live⟩ := by
  refine ⟨hok, ?_⟩
  rw [HeapStep, heapStep, if_pos hmem, hI.forget_eq hmem]

theorem HeapInv.copy_step (hI : HeapInv app h) (i : ℕ) (bytes : List UInt8)
    (hmem : (q, n) ∈ h.live) (hi : i + bytes.length ≤ n) :
    IntactStep app h (.overwrite (q, n) i bytes)
        ⟨h.mem.copy (shmDataGetDataPtr q + i) bytes, h.live⟩
      ∧ HeapInv app ⟨h.mem.copy (shmDataGetDataPtr q + i) bytes, h.live⟩ := by
  have hs : IntactStep app h (.overwrite (q, n) i bytes)
      ⟨h.mem.copy (shmDataGetDataPtr q + i) bytes, h.live⟩ := by
    refine ⟨True.intro, ?_⟩
    rw [HeapStep, heapStep, if_pos ⟨hmem, hi⟩]
  exact ⟨hs, hI.step hs.1 hs.2⟩

theorem AppRegion.blockPtr_offsetOf (hlo : app.addr + 4 ≤ q)
    (hhi : q ≤ app.addr + shmAppSize) :
    app.blockPtr (ofInt64 (offsetOf app q)) = q := by
  obtain ⟨hpos, hlt⟩ := offsetOf_bounds hlo hhi
  have hcast : ((ofInt64 (offsetOf app q) : ℕ) : ℤ) = offsetOf app q := by
    unfold ofInt64
    omega
  rw [AppRegion.blockPtr, hcast, shmDataGetBlockPtr_offsetOf hlo hhi]

/-- **`shm_data_allocate`**: no room, or a block at the offset it returns. -/
theorem HeapInv.allocate_step (hI : HeapInv app h) (hn : 0 < n)
    (hmax : n ≤ shmAppSize) :
    shmDataAllocate app.addr h.mem n = some (none, h.mem)
    ∨ ∃ z q M, shmDataAllocate app.addr h.mem n = some (some (z, q), M)
      ∧ app.blockPtr (ofInt64 z) = q
      ∧ IntactStep app h (.allocate n) ⟨M, (q, n) :: h.live⟩
      ∧ HeapInv app ⟨M, (q, n) :: h.live⟩ := by
  obtain ⟨bs, hrep, -⟩ := id hI
  have hspec := shmDataAllocate_place hrep hn hmax
  cases hplace : place app n none (app.addr + 4) bs with
  | none =>
    rw [hplace] at hspec
    exact Or.inl hspec
  | some r =>
    rw [hplace] at hspec
    obtain ⟨M, hM, -⟩ := hspec
    have hs : IntactStep app h (.allocate n) ⟨M, (r.1, n) :: h.live⟩ := by
      refine ⟨True.intro, ?_⟩
      rw [HeapStep, heapStep, if_pos ⟨hn, hmax⟩, hM]
      rfl
    have hI' := hI.step hs.1 hs.2
    have hb := hI'.bounds List.mem_cons_self
    exact Or.inr ⟨_, r.1, M, hM,
      AppRegion.blockPtr_offsetOf hb.1 (by omega), hs, hI'⟩

/-- **The copies of a delivery** are into the blocks of the entries they are
for. -/
theorem HeapInv.copies_run {entries entries' : List PifusRecvQueueEntry}
    {events : List RecvEvent} (hI : HeapInv app h)
    (hrun : Run EntryStep entries events entries')
    (hfits : ∀ entry ∈ entries, EntryFits app h.store entry) :
    ∃ ops, Run (IntactStep app) h ops
        ⟨events.foldl (copyEvent app) h.mem, h.live⟩
      ∧ HeapInv app ⟨events.foldl (copyEvent app) h.mem, h.live⟩
      ∧ ∀ op ∈ ops, ∀ p, op.blockOp.target = some p →
          ∃ entry ∈ entries, p = app.blockPtr entry.recvBlockOffset := by
  induction hrun with
  | nil => exact ⟨[], Run.nil, hI, by simp⟩
  | snoc hrun hs ih =>
    obtain ⟨ops, hops, hI', htarget⟩ := ih
    have hfits' := entryFits_of_entries hrun hfits
    have hoffsets := map_offset_of_entries hrun
    rw [List.foldl_append]
    cases hs with
    | @copied entry es bytes hle =>
      have hentry := (hI.holds_nil_iff).mp (hfits' entry List.mem_cons_self)
      obtain ⟨hstep, hI''⟩ := hI'.copy_step entry.dataOffset bytes hentry
        (by omega)
      refine ⟨_, hops.snoc hstep, hI'', fun op hop p hp => ?_⟩
      rcases List.mem_append.mp hop with hold | hnew
      · exact htarget op hold p hp
      · obtain rfl := List.mem_singleton.mp hnew
        obtain rfl := Option.some.inj hp
        have hmem : entry.recvBlockOffset
            ∈ entries.map PifusRecvQueueEntry.recvBlockOffset := by
          rw [hoffsets]
          exact List.mem_append_right _ List.mem_cons_self
        obtain ⟨e, he, heq⟩ := List.mem_map.mp hmem
        exact ⟨e, he, by rw [heq]⟩
    | recved => exact ⟨ops, hops, hI', htarget⟩
    | completed => exact ⟨ops, hops, hI', htarget⟩

end Heap

/-! ## Steps of the data path -/

theorem DataState.touched_eq {k : ℕ} {e : DataEvent} (s : DataState)
    (hk : e.on = some k) (hc : s.sockets[k]? = some c) :
    s.touched app e = c.touched app e := by
  cases e with
  | free block => exact absurd hk (by simp [DataEvent.on])
  | socket => exact absurd hk (by simp [DataEvent.on])
  | _ =>
    simp only [DataState.touched]
    rw [hk, Option.bind_some, hc]
    rfl

theorem DataSocket.touched_owned {p : Ptr} {e : DataEvent}
    (hp : p ∈ c.touched app e) : p ∈ c.owned app := by
  cases e with
  | process k recvScan err =>
    obtain ⟨op, hop, rfl⟩ := Option.map_eq_some_iff.mp (Option.mem_toList.mp hp)
    exact mem_owned_of_op (List.mem_of_getElem? hop)
  | deliver k chain =>
    obtain ⟨off, hoff, rfl⟩ := List.mem_map.mp hp
    obtain ⟨entry, hentry, rfl⟩ := List.mem_map.mp hoff
    exact mem_owned_of_entry hentry
  | pop k =>
    obtain ⟨⟨result, queue⟩, hget, hr⟩ :=
      Option.bind_eq_some_iff.mp (Option.mem_toList.mp hp)
    split at hr
    · rename_i hcode
      obtain rfl := Option.some.inj hr
      refine List.mem_map_of_mem ?_
      rw [DataSocket.offsets_eq]
      refine List.mem_append_right _ (List.mem_append_left _ ?_)
      rw [RingBuffer.contents_get hget]
      exact List.mem_filterMap.mpr
        ⟨result, List.mem_cons_self, if_pos (Or.inl hcode)⟩
    · exact absurd hr (by simp)
  | _ => exact absurd hp (by simp [DataSocket.touched])

theorem DataState.owned_perm {pre post : List DataSocket}
    (hsplit : s.sockets = pre ++ c :: post) :
    (s.owned app).Perm (c.owned app
      ++ ((pre ++ post).flatMap (DataSocket.owned app)
        ++ s.held.map Prod.fst)) := by
  unfold DataState.owned
  rw [hsplit, List.flatMap_append, List.flatMap_append, List.flatMap_cons,
    ← List.append_assoc (c.owned app)]
  exact List.Perm.append_right _ (List.perm_append_comm_assoc _ _ _)

/-- **What a step at one socket leaves alone**: it names blocks of this socket
and new ones, and so the blocks of the others and of the app are as they
were. -/
theorem DataInv.update {pre post : List DataSocket} {ops : List HeapOp}
    (h : DataInv app s) (c' : DataSocket) (new : List (Ptr × List UInt8))
    (hsplit : s.sockets = pre ++ c :: post)
    (hsockets : t.sockets = pre ++ c' :: post) (hheld : t.held = new ++ s.held)
    (hrun : Run (IntactStep app) s.heap ops t.heap)
    (htarget : ∀ op ∈ ops, ∀ p, op.blockOp.target = some p →
      p ∈ c.owned app ∨ p ∉ s.live.map Prod.fst)
    (hperm : ∀ rest, (s.live.map Prod.fst).Perm (c.owned app ++ rest) →
      (t.live.map Prod.fst).Perm (c'.owned app ++ new.map Prod.fst ++ rest))
    (hsocket : BlocksInv app t.heap.store c')
    (hnew : ∀ b ∈ new, t.heap.store b.1 = some b.2) : DataInv app t := by
  obtain ⟨hheap, hstore⟩ := h.heap.refines_run hrun
  have howned := h.owners.trans (DataState.owned_perm hsplit)
  have hnodup := howned.nodup_iff.mp h.heap.nodup_ptr
  have hother : ∀ p, p ∈ (pre ++ post).flatMap (DataSocket.owned app)
      ++ s.held.map Prod.fst → ∀ l, s.heap.store p = some l →
      t.heap.store p = some l := by
    intro p hp l hl
    refine BlockStore.run_other hstore (fun op hop he => ?_) hl
    obtain ⟨op', hop', rfl⟩ := List.mem_map.mp hop
    rcases htarget op' hop' p he with hmem | hnot
    · exact (List.disjoint_of_nodup_append hnodup) hmem hp
    · exact hnot (howned.mem_iff.mpr (List.mem_append_right _ hp))
  have hframe : ∀ c₀ ∈ pre ++ post, BlocksInv app t.heap.store c₀ := by
    intro c₀ hc₀
    have hc₀s : c₀ ∈ s.sockets := by
      rw [hsplit]
      rcases List.mem_append.mp hc₀ with hpre | hpost
      · exact List.mem_append_left _ hpre
      · exact List.mem_append_right _ (List.mem_cons_of_mem _ hpost)
    exact (h.sockets c₀ hc₀s).mono (fun p hp => hother p
      (List.mem_append_left _ (List.mem_flatMap.mpr ⟨c₀, hc₀, hp⟩)))
  refine ⟨hheap, ?_, fun c₀ hc₀ => ?_, fun b hb => ?_⟩
  · refine (hperm _ howned).trans ?_
    refine List.Perm.trans ?_ (DataState.owned_perm hsockets).symm
    rw [hheld, List.map_append, List.append_assoc]
    exact List.Perm.append_left _ (List.perm_append_comm_assoc _ _ _)
  · rw [hsockets] at hc₀
    rcases List.mem_append.mp hc₀ with hpre | hrest
    · exact hframe c₀ (List.mem_append_left _ hpre)
    · rcases List.mem_cons.mp hrest with rfl | hpost
      · exact hsocket
      · exact hframe c₀ (List.mem_append_right _ hpost)
  · rw [hheld] at hb
    rcases List.mem_append.mp hb with hb | hb
    · exact hnew b hb
    · exact hother b.1 (List.mem_append_right _ (List.mem_map_of_mem hb)) b.2
        (h.held b hb)

theorem DataInv.live_of_owned {p : Ptr} (h : DataInv app s) (hc : c ∈ s.sockets)
    (hp : p ∈ c.owned app) : p ∈ s.live.map Prod.fst :=
  h.owners.mem_iff.mpr (List.mem_append_left _
    (List.mem_flatMap.mpr ⟨c, hc, hp⟩))

theorem DataInv.nodup_owned (h : DataInv app s) (hc : c ∈ s.sockets) :
    (c.owned app).Nodup := by
  obtain ⟨pre, post, hsplit⟩ := List.append_of_mem hc
  have hnodup := (h.owners.trans (DataState.owned_perm hsplit)).nodup_iff.mp
    h.heap.nodup_ptr
  exact hnodup.of_append_left

/-- A new block at the end of a socket's operations. -/
theorem DataSocket.owned_submit (app : AppRegion) (c : DataSocket)
    (op : DataOperation) (unprocessed : List (List UInt8)) :
    (DataSocket.owned app { c with
      ops := c.ops ++ [op], unprocessed := unprocessed }).Perm
      (app.blockPtr op.offset :: c.owned app) := by
  unfold DataSocket.owned
  rw [← List.map_cons]
  refine List.Perm.map _ ?_
  rw [DataSocket.offsets_eq, DataSocket.offsets_eq]
  dsimp only
  rw [List.map_append, List.map_singleton, ← List.cons_append,
    ← List.cons_append, ← List.cons_append]
  exact List.Perm.append_right _ (List.Perm.append_right _
    (List.Perm.append_right _ (List.perm_append_singleton _ _)))

/-- **What a step does to the region**: a run of the heap, on blocks that the
step touches and on new ones. -/
def DataState.UsesHeap (app : AppRegion) (s : DataState) (e : DataEvent)
    (t : DataState) : Prop :=
  ∃ ops, Run (IntactStep app) s.heap ops t.heap
    ∧ ∀ op ∈ ops, ∀ p, op.blockOp.target = some p →
      p ∈ s.touched app e ∨ p ∉ s.live.map Prod.fst

theorem DataState.UsesHeap.none {e : DataEvent} (h : t.heap = s.heap) :
    s.UsesHeap app e t :=
  ⟨[], h ▸ Run.nil, by simp⟩

/-- **An operation with a new block is submitted.** -/
theorem DataInv.submit {k q n : ℕ} {M : Memory} {ops : List HeapOp}
    {unprocessed data : List (List UInt8)} {e : DataEvent} (h : DataInv app s)
    (op : DataOperation) (hc : s.sockets[k]? = some c)
    (hrun : Run (IntactStep app) s.heap ops ⟨M, (q, n) :: s.live⟩)
    (htarget : ∀ op ∈ ops, ∀ p, op.blockOp.target = some p → p = q)
    (hptr : app.blockPtr op.offset = q)
    (hop : OperationFits app (HeapState.store ⟨M, (q, n) :: s.live⟩) op)
    (hunprocessed : unprocessed = c.unprocessed ++ data)
    (hdata : List.Forall₂ (WriteFits app
        (HeapState.store ⟨M, (q, n) :: s.live⟩))
      ([op].filterMap DataOperation.writeOffset) data)
    (ht : t = { s with
      mem := M
      live := (q, n) :: s.live
      sockets := s.sockets.set k
        { c with ops := c.ops ++ [op], unprocessed := unprocessed } }) :
    s.UsesHeap app e t ∧ DataInv app t := by
  obtain ⟨pre, post, hsplit, -, -, hset⟩ := exists_split_of_getElem? hc
  obtain ⟨hI, hstore⟩ := h.heap.refines_run hrun
  have hmem : c ∈ s.sockets := List.mem_of_getElem? hc
  have hfresh : q ∉ s.live.map Prod.fst := by
    have hnodup := hI.nodup_ptr
    rw [List.map_cons] at hnodup
    exact (List.nodup_cons.mp hnodup).1
  have hnew : ∀ op ∈ ops, ∀ p, op.blockOp.target = some p →
      p ∉ s.live.map Prod.fst := by
    rintro op hop p hp
    exact htarget op hop p hp ▸ hfresh
  have hinv := (h.sockets c hmem).mono (fun p hp l hl => by
    refine BlockStore.run_other hstore (fun op hop he => ?_) hl
    obtain ⟨op', hop', rfl⟩ := List.mem_map.mp hop
    exact hnew op' hop' p he (h.live_of_owned hmem hp))
  subst ht
  refine ⟨⟨ops, hrun, fun op hop p hp => Or.inr (hnew op hop p hp)⟩,
    h.update _ [] hsplit (hset _) rfl hrun
      (fun op hop p hp => Or.inr (hnew op hop p hp)) ?_ ?_ (by simp)⟩
  · intro rest hperm
    have howned := DataSocket.owned_submit app c op unprocessed
    rw [hptr] at howned
    rw [List.map_nil, List.append_nil, List.map_cons]
    exact (hperm.cons q).trans (List.Perm.append_right rest howned.symm)
  · refine ⟨List.forall_mem_append.mpr ⟨hinv.ops, ?_⟩, ?_, hinv.entries,
      hinv.path, ⟨hinv.sends.order, hinv.sends.books⟩⟩
    · intro op' hop'
      obtain rfl := List.mem_singleton.mp hop'
      exact hop
    · dsimp only
      rw [List.filterMap_append, hunprocessed]
      exact List.rel_append hinv.writes hdata

/-- **A recv operation is submitted.** -/
theorem DataInv.recv {k size : ℕ} (h : DataInv app s)
    (hs : s.recv app k size = some t) :
    s.UsesHeap app (.recv k size) t ∧ DataInv app t := by
  unfold DataState.recv at hs
  split at hs
  · rename_i hcond
    obtain ⟨c, hc, hs⟩ := Option.bind_eq_some_iff.mp hs
    rcases h.heap.allocate_step hcond.1 hcond.2 with
      hnone | ⟨z, q, M, hsome, hptr, hstep, hI⟩
    · have hnone' : shmDataAllocate app.addr s.mem size = some (none, s.mem) :=
        hnone
      rw [hnone'] at hs
      obtain rfl := Option.some.inj hs
      exact ⟨DataState.UsesHeap.none rfl, h⟩
    · have hsome' : shmDataAllocate app.addr s.mem size
          = some (some (z, q), M) := hsome
      rw [hsome'] at hs
      have hnew : OperationFits app
          (HeapState.store ⟨M, (q, size) :: s.live⟩)
          (.recv (ofInt64 z) size) := by
        show BlockStore.Holds _ (app.blockPtr (ofInt64 z)) size []
        rw [hptr]
        exact hI.holds_nil_iff.mpr List.mem_cons_self
      refine h.submit (.recv (ofInt64 z) size) hc (Run.single hstep) ?_ hptr hnew
        (List.append_nil _).symm List.Forall₂.nil (Option.some.inj hs).symm
      intro op hop p hp
      obtain rfl := List.mem_singleton.mp hop
      exact absurd hp (by simp [HeapOp.blockOp, BlockOp.target])
  · exact absurd hs (by simp)

/-- **A write is submitted**, its data in its block. -/
theorem DataInv.write {k : ℕ} {data : List UInt8} (h : DataInv app s)
    (hs : s.write app k data = some t) :
    s.UsesHeap app (.write k data) t ∧ DataInv app t := by
  unfold DataState.write at hs
  split at hs
  · rename_i hcond
    obtain ⟨c, hc, hs⟩ := Option.bind_eq_some_iff.mp hs
    rcases h.heap.allocate_step hcond.1 hcond.2 with
      hnone | ⟨z, q, M, hsome, hptr, hstep, hI⟩
    · have hnone' : shmDataAllocate app.addr s.mem data.length
          = some (none, s.mem) := hnone
      rw [hnone'] at hs
      obtain rfl := Option.some.inj hs
      exact ⟨DataState.UsesHeap.none rfl, h⟩
    · have hsome' : shmDataAllocate app.addr s.mem data.length
          = some (some (z, q), M) := hsome
      rw [hsome'] at hs
      obtain ⟨hcopy, -⟩ := hI.copy_step 0 data List.mem_cons_self (by omega)
      have hnew : BlockStore.Holds (HeapState.store
          ⟨M.copy (shmDataGetDataPtr q) data, (q, data.length) :: s.live⟩)
          (app.blockPtr (ofInt64 z)) data.length data := by
        rw [hptr]
        exact (hI.holds_nil_iff.mpr List.mem_cons_self).extend
          (hI.refines hcopy)
      refine h.submit (.write (ofInt64 z)) hc ((Run.single hstep).snoc hcopy) ?_
        hptr True.intro rfl
        (List.Forall₂.cons ⟨hnew, hcond.1⟩ List.Forall₂.nil)
        (Option.some.inj hs).symm
      intro op hop p hp
      rcases List.mem_append.mp hop with hop | hop
      · obtain rfl := List.mem_singleton.mp hop
        exact absurd hp (by simp [HeapOp.blockOp, BlockOp.target])
      · obtain rfl := List.mem_singleton.mp hop
        exact (Option.some.inj hp).symm
  · exact absurd hs (by simp)

/-- A `TCP_RECV` operation is taken out. -/
theorem BlocksInv.eraseIdx {B : BlockStore Ptr UInt8} {i off size : ℕ}
    (h : BlocksInv app B c) (hop : c.ops[i]? = some (.recv off size)) :
    BlocksInv app B { c with ops := c.ops.eraseIdx i }
    ∧ c.offsets.Perm
      (off :: DataSocket.offsets { c with ops := c.ops.eraseIdx i }) := by
  obtain ⟨pre, post, hops, -, herase, -⟩ := exists_split_of_getElem? hop
  refine ⟨⟨fun op hmem => ?_, ?_, h.entries, h.path,
    ⟨h.sends.order, h.sends.books⟩⟩, ?_⟩
  · refine h.ops op ?_
    dsimp only at hmem
    rw [herase] at hmem
    rw [hops]
    rcases List.mem_append.mp hmem with hmem | hmem
    · exact List.mem_append_left _ hmem
    · exact List.mem_append_right _ (List.mem_cons_of_mem _ hmem)
  · have hwrites := h.writes
    rw [hops, List.filterMap_append] at hwrites
    dsimp only
    rw [herase, List.filterMap_append]
    exact hwrites
  · rw [DataSocket.offsets_eq, DataSocket.offsets_eq]
    dsimp only
    rw [herase, hops, List.map_append, List.map_append, List.map_cons]
    have hmiddle : (pre.map DataOperation.offset
        ++ DataOperation.offset (.recv off size) :: post.map DataOperation.offset
        ).Perm (off :: (pre.map DataOperation.offset
          ++ post.map DataOperation.offset)) := List.perm_middle
    exact ((hmiddle.append_right _).append_right _).append_right _

/-- **A `TCP_RECV` operation is processed**: what the byte buffer has for it is
copied into its block. -/
theorem DataInv.processRecv {k i off size : ℕ} (h : DataInv app s)
    (hc : s.sockets[k]? = some c) (hop : c.ops[i]? = some (.recv off size))
    (hs : c.processRecv i off size = some c') :
    (∃ ops, Run (IntactStep app) s.heap ops
        ⟨s.mem.copy (app.dataPtr off)
          (txTcpRecv c.recv.path.socket off size).2.2, s.live⟩
      ∧ ∀ op ∈ ops, ∀ p, op.blockOp.target = some p → p = app.blockPtr off)
    ∧ DataInv app { s with
        mem := s.mem.copy (app.dataPtr off)
          (txTcpRecv c.recv.path.socket off size).2.2
        sockets := s.sockets.set k c' } := by
  obtain ⟨pre, post, hsplit, -, -, hset⟩ := exists_split_of_getElem? hc
  have hmem : c ∈ s.sockets := List.mem_of_getElem? hc
  have hinv := h.sockets c hmem
  have hfits : s.heap.store.Holds (app.blockPtr off) size [] :=
    hinv.ops _ (List.mem_of_getElem? hop)
  have hlive := h.heap.holds_nil_iff.mp hfits
  have hle : (txTcpRecv c.recv.path.socket off size).2.2.length ≤ size := by
    have hs' := hs
    unfold DataSocket.processRecv at hs'
    obtain ⟨recv, hrecv, -⟩ := Option.map_eq_some_iff.mp hs'
    exact (txTcpRecv_queue hinv.path hrecv).2.1
  obtain ⟨hcopy, hI⟩ := h.heap.copy_step 0
    (txTcpRecv c.recv.path.socket off size).2.2 hlive (by omega)
  obtain ⟨hrest, hperm⟩ := hinv.eraseIdx hop
  have hnodup := (hperm.map app.blockPtr).nodup_iff.mp (h.nodup_owned hmem)
  rw [List.map_cons] at hnodup
  have hstore := h.heap.refines hcopy
  have hrest' := hrest.mono (fun p hp l hl => hstore.other (by
    intro he
    obtain rfl := Option.some.inj he
    exact (List.nodup_cons.mp hnodup).1 hp) hl)
  have hfits' := (h.heap.holds_congr hI rfl).mpr hfits
  obtain ⟨hinv', hperm'⟩ := hrest'.processRecv hop hfits' hs
  have hrun := Run.single hcopy
  have htarget : ∀ op ∈ [HeapOp.overwrite (app.blockPtr off, size) 0
      (txTcpRecv c.recv.path.socket off size).2.2], ∀ p,
      op.blockOp.target = some p → p = app.blockPtr off := by
    intro op hmem' p hp
    obtain rfl := List.mem_singleton.mp hmem'
    exact (Option.some.inj hp).symm
  refine ⟨⟨_, hrun, htarget⟩, h.update _ [] hsplit (hset _) rfl hrun ?_ ?_ hinv'
    (by simp)⟩
  · intro op hmem' p hp
    obtain rfl := htarget op hmem' p hp
    exact Or.inl (mem_owned_of_op (List.mem_of_getElem? hop))
  · intro rest hrest
    rw [List.map_nil, List.append_nil]
    exact hrest.trans ((hperm'.map app.blockPtr).symm.append_right rest)

/-- **A step that only moves blocks** within a socket. -/
theorem DataInv.move_owned {k : ℕ} (h : DataInv app s)
    (hc : s.sockets[k]? = some c) (hinv : BlocksInv app s.heap.store c')
    (hperm : (c'.owned app).Perm (c.owned app)) :
    DataInv app { s with sockets := s.sockets.set k c' } := by
  obtain ⟨pre, post, hsplit, -, -, hset⟩ := exists_split_of_getElem? hc
  have hrun : Run (IntactStep app) s.heap [] s.heap := Run.nil
  refine h.update c' [] hsplit (hset _) rfl hrun (by simp) ?_ hinv (by simp)
  intro rest hrest
  rw [List.map_nil, List.append_nil]
  exact hrest.trans (hperm.symm.append_right rest)

theorem DataInv.move {k : ℕ} (h : DataInv app s) (hc : s.sockets[k]? = some c)
    (hinv : BlocksInv app s.heap.store c') (hperm : c'.offsets.Perm c.offsets) :
    DataInv app { s with sockets := s.sockets.set k c' } :=
  h.move_owned hc hinv (hperm.map app.blockPtr)

/-- **The stack processes an operation.** -/
theorem DataInv.process {k : ℕ} {recvScan : Bool} {err : ErrT}
    (h : DataInv app s) (hs : s.process app k recvScan err = some t) :
    s.UsesHeap app (.process k recvScan err) t ∧ DataInv app t := by
  unfold DataState.process at hs
  obtain ⟨c, hc, hs⟩ := Option.bind_eq_some_iff.mp hs
  have hinv := h.sockets c (List.mem_of_getElem? hc)
  split at hs
  · rename_i off size hop
    obtain ⟨c', hc', rfl⟩ := Option.map_eq_some_iff.mp hs
    obtain ⟨⟨ops, hrun, htarget⟩, hinv'⟩ := h.processRecv hc hop hc'
    refine ⟨⟨ops, hrun, fun op hmem p hp => Or.inl ?_⟩, hinv'⟩
    obtain rfl := htarget op hmem p hp
    rw [s.touched_eq rfl hc, DataSocket.touched, hop]
    exact List.mem_singleton_self _
  · rename_i off hop
    obtain ⟨r, hr, rfl⟩ := Option.map_eq_some_iff.mp hs
    -- a scan finds no write, so this one is at the front
    have hfront : ∃ rest, c.ops = .write off :: rest := by
      unfold DataSocket.next at hop
      cases recvScan with
      | true =>
        rw [if_pos rfl] at hop
        have hfound := List.findIdx_getElem
          (w := (List.getElem?_eq_some_iff.mp hop).1)
        rw [(List.getElem?_eq_some_iff.mp hop).2] at hfound
        exact absurd hfound (by simp [DataOperation.isRecvOp])
      | false =>
        rw [if_neg (by simp)] at hop
        cases hops : c.ops with
        | nil =>
          rw [hops] at hop
          exact absurd hop (by simp)
        | cons op rest =>
          rw [hops] at hop
          exact ⟨rest, by rw [Option.some.inj hop]⟩
    obtain ⟨rest, hops⟩ := hfront
    have hsize : ∀ n, s.heap.store.Holds (app.blockPtr off) n [] →
        PifusMemoryBlock.size s.mem (app.blockPtr off) = n := fun n hn =>
      (h.heap.size_eq (h.heap.holds_nil_iff.mp hn)).1
    obtain ⟨hinv', hperm⟩ := hinv.processWrite hops hsize hr
    exact ⟨DataState.UsesHeap.none rfl, h.move hc hinv' hperm⟩
  · exact absurd hs (by simp)

/-- **lwIP delivers a chain.** -/
theorem DataInv.deliver {k : ℕ} {p' : PbufChain} (h : DataInv app s)
    (hs : s.deliver app k p' = some t) :
    s.UsesHeap app (.deliver k p') t ∧ DataInv app t := by
  unfold DataState.deliver at hs
  obtain ⟨c, hc, hs⟩ := Option.bind_eq_some_iff.mp hs
  obtain ⟨recv, hrecv, rfl⟩ := Option.map_eq_some_iff.mp hs
  obtain ⟨pre, post, hsplit, -, -, hset⟩ := exists_split_of_getElem? hc
  have hmem : c ∈ s.sockets := List.mem_of_getElem? hc
  have hinv := h.sockets c hmem
  obtain ⟨ops, hrun, hI, htarget⟩ :=
    h.heap.copies_run (deliver_entries hrecv) hinv.entries
  -- the blocks of the entries change, and no others do
  have hnodup := h.nodup_owned hmem
  rw [DataSocket.owned, DataSocket.offsets_eq, List.map_append, List.map_append,
    List.map_append, List.append_assoc, List.append_assoc] at hnodup
  have hapart : ∀ p entry, entry ∈ c.recv.path.socket.recvQueue.contents →
      p ∈ (c.ops.map DataOperation.offset).map app.blockPtr
        ∨ p ∈ (c.writeQueue.contents.map
          PifusWriteQueueEntry.writeBlockOffset).map app.blockPtr →
      p ≠ app.blockPtr entry.recvBlockOffset := by
    rintro p entry hentry hp rfl
    have hin : app.blockPtr entry.recvBlockOffset
        ∈ (c.recv.path.socket.recvQueue.contents.map
          PifusRecvQueueEntry.recvBlockOffset).map app.blockPtr :=
      List.mem_map_of_mem (List.mem_map_of_mem hentry)
    rcases hp with hp | hp
    · exact (List.disjoint_of_nodup_append hnodup) hp
        (List.mem_append_left _ hin)
    · exact (List.disjoint_of_nodup_append hnodup.of_append_right) hin
        (List.mem_append_left _ hp)
  have hstore := (h.heap.refines_run hrun).2
  have hkept : ∀ p, p ∈ (c.ops.map DataOperation.offset).map app.blockPtr
        ∨ p ∈ (c.writeQueue.contents.map
          PifusWriteQueueEntry.writeBlockOffset).map app.blockPtr →
      ∀ l, s.heap.store p = some l → HeapState.store
        ⟨(recvEvents c.recv.path.socket p').foldl (copyEvent app) s.mem,
          s.live⟩ p = some l := by
    intro p hp l hl
    refine BlockStore.run_other hstore (fun op hop he => ?_) hl
    obtain ⟨op', hop', rfl⟩ := List.mem_map.mp hop
    obtain ⟨entry, hentry, rfl⟩ := htarget op' hop' p he
    exact hapart _ entry hentry hp rfl
  have hinv' := hinv.change (HeapState.store
      ⟨(recvEvents c.recv.path.socket p').foldl (copyEvent app) s.mem, s.live⟩)
    (fun op hop => hkept _ (Or.inl (List.mem_map_of_mem
      (List.mem_map_of_mem hop))))
    (fun entry hentry => hkept _ (Or.inr (List.mem_map_of_mem
      (List.mem_map_of_mem hentry))))
    (fun entry hentry => (h.heap.holds_congr hI rfl).mpr
      (hinv.entries entry hentry))
  obtain ⟨hinv'', hperm⟩ := hinv'.deliver hrecv
  refine ⟨⟨ops, hrun, fun op hop p hp => Or.inl ?_⟩,
    h.update _ [] hsplit (hset _) rfl hrun ?_ ?_ hinv'' (by simp)⟩
  · obtain ⟨entry, hentry, rfl⟩ := htarget op hop p hp
    rw [s.touched_eq rfl hc]
    exact List.mem_map_of_mem (List.mem_map_of_mem hentry)
  · intro op hop p hp
    obtain ⟨entry, hentry, rfl⟩ := htarget op hop p hp
    exact Or.inl (mem_owned_of_entry hentry)
  · intro rest hrest
    rw [List.map_nil, List.append_nil]
    exact hrest.trans ((hperm.map app.blockPtr).symm.append_right rest)

/-- **Bytes are acknowledged.** -/
theorem DataInv.sent {k len : ℕ} (h : DataInv app s)
    (hc : s.sockets[k]? = some c) (hs : c.sent len = some c') :
    DataInv app { s with sockets := s.sockets.set k c' } := by
  obtain ⟨hinv, hperm⟩ :=
    (h.sockets c (List.mem_of_getElem? hc)).sent hs
  exact h.move hc hinv hperm

/-- **A block is freed**, and nobody else had it. -/
theorem DataInv.free_block {p : Ptr} {rest : List Ptr} (h : DataInv app s)
    (howned : (s.owned app).Perm (p :: rest))
    (hok : ∀ n, BackOffsetIntact app s.heap (.free (p, n)))
    (hmem : t.mem = shmDataFree app.addr s.mem p)
    (hlive : t.live = forget p s.live) :
    ∃ n, Run (IntactStep app) s.heap [.free (p, n)] t.heap
      ∧ (t.live.map Prod.fst).Perm rest
      ∧ ∀ q ∈ rest, ∀ l, s.heap.store q = some l →
        t.heap.store q = some l := by
  have hperm := h.owners.trans howned
  have hnodup := hperm.nodup_iff.mp h.heap.nodup_ptr
  obtain ⟨⟨q, n⟩, hblock, hq⟩ := List.mem_map.mp
    (hperm.mem_iff.mpr List.mem_cons_self)
  obtain rfl : q = p := hq
  have hI : HeapInv app ⟨s.mem, s.live⟩ := h.heap
  have hstep := hI.free_step hblock (hok n)
  have ht : t.heap = ⟨shmDataFree app.addr s.mem q, forget q s.live⟩ := by
    rw [DataState.heap, hmem, hlive]
  rw [ht]
  refine ⟨n, Run.single hstep, ?_, fun x hx l hl => ?_⟩
  · rw [hlive]
    exact hI.perm_forget hperm
  · refine (hI.refines hstep).other (fun he => ?_) hl
    obtain rfl := Option.some.inj he
    exact (List.nodup_cons.mp hnodup).1 hx

theorem DataState.held_split {block : Ptr}
    (hmem : block ∈ s.held.map Prod.fst) :
    ∃ b pre post, b.1 = block ∧ s.held = pre ++ b :: post
      ∧ s.held.eraseP (fun x => x.1 = block) = pre ++ post := by
  obtain ⟨b, hb, rfl⟩ := List.mem_map.mp hmem
  obtain ⟨a, pre, post, -, ha, hsplit, herase⟩ :=
    List.exists_of_eraseP (p := fun x : Ptr × List UInt8 => decide (x.1 = b.1))
      hb (decide_eq_true rfl)
  exact ⟨a, pre, post, of_decide_eq_true ha, hsplit, herase⟩

/-- **The app frees a block** it was given. -/
theorem DataInv.free {block : Ptr} (h : DataInv app s)
    (hok : s.FreesIntact app (.free block)) (hs : s.free app block = some t) :
    s.UsesHeap app (.free block) t ∧ DataInv app t := by
  unfold DataState.free at hs
  split at hs
  · rename_i hheld
    obtain rfl := Option.some.inj hs
    obtain ⟨b, pre, post, rfl, hsplit, herase⟩ := DataState.held_split hheld
    have howned : (s.owned app).Perm (b.1 ::
        (s.sockets.flatMap (DataSocket.owned app)
          ++ (pre ++ post).map Prod.fst)) := by
      unfold DataState.owned
      rw [hsplit, List.map_append, List.map_cons, List.map_append]
      exact (List.Perm.append_left _ List.perm_middle).trans List.perm_middle
    obtain ⟨n, hrun, hlive, hother⟩ := h.free_block howned
      (fun n => hok _ n rfl) (t := { s with
        mem := shmDataFree app.addr s.mem b.1
        live := forget b.1 s.live
        held := s.held.eraseP (fun x => x.1 = b.1) })
      (by dsimp only) (by dsimp only)
    refine ⟨⟨_, hrun, fun op hop p hp => Or.inl ?_⟩,
      (h.heap.refines_run hrun).1, ?_, fun c hc => ?_, fun x hx => ?_⟩
    · obtain rfl := List.mem_singleton.mp hop
      obtain rfl := Option.some.inj hp
      exact List.mem_singleton_self _
    · unfold DataState.owned
      dsimp only
      rw [herase]
      exact hlive
    · exact (h.sockets c hc).mono (fun p hp => hother p
        (List.mem_append_left _ (List.mem_flatMap.mpr ⟨c, hc, hp⟩)))
    · dsimp only at hx
      rw [herase] at hx
      refine hother x.1 (List.mem_append_right _ (List.mem_map_of_mem hx)) x.2
        (h.held x ?_)
      rw [hsplit]
      rcases List.mem_append.mp hx with hx | hx
      · exact List.mem_append_left _ hx
      · exact List.mem_append_right _ (List.mem_cons_of_mem _ hx)
  · exact absurd hs (by simp)

/-- The result that is popped, and the other blocks of the socket. -/
theorem DataSocket.owned_pop (app : AppRegion)
    {result : PifusOperationResult ℕ}
    {queue : RingBuffer (PifusOperationResult ℕ)} (popped : ℕ)
    (read : List UInt8) (hget : c.cqueue.get = some (result, queue)) :
    (c.owned app).Perm ((resultBlock result).toList.map app.blockPtr
      ++ DataSocket.owned app { c with
        cqueue := queue, popped := popped, read := read }) := by
  unfold DataSocket.owned
  rw [← List.map_append]
  refine List.Perm.map _ ?_
  rw [DataSocket.offsets_eq, DataSocket.offsets_eq]
  have hresults : c.resultOffsets = (resultBlock result).toList
      ++ DataSocket.resultOffsets
        { c with cqueue := queue, popped := popped, read := read } := by
    unfold DataSocket.resultOffsets
    rw [RingBuffer.contents_get hget, List.filterMap_cons, ← List.append_assoc]
    cases resultBlock result <;> rfl
  rw [hresults]
  exact List.perm_append_comm_assoc _ _ _

theorem DataSocket.owned_pop_block (app : AppRegion)
    {result : PifusOperationResult ℕ}
    {queue : RingBuffer (PifusOperationResult ℕ)} (popped : ℕ)
    (read : List UInt8) (hget : c.cqueue.get = some (result, queue))
    (hblock : resultBlock result = some result.data) :
    (c.owned app).Perm (app.blockPtr result.data :: DataSocket.owned app { c with
      cqueue := queue, popped := popped, read := read }) := by
  have howned := DataSocket.owned_pop app popped read hget
  rw [hblock] at howned
  exact howned

/-- The app pops the result of a write, and its block is freed. -/
theorem DataInv.popWrite {k : ℕ} {result : PifusOperationResult ℕ}
    {queue : RingBuffer (PifusOperationResult ℕ)} (h : DataInv app s)
    (hok : s.FreesIntact app (.pop k)) (hc : s.sockets[k]? = some c)
    (hget : c.cqueue.get = some (result, queue)) (hwrite : result.code = .tcpWrite)
    (hs : t = { s with
      mem := shmDataFree app.addr s.mem (app.blockPtr result.data)
      live := forget (app.blockPtr result.data) s.live
      sockets := s.sockets.set k { c with cqueue := queue } }) :
    s.UsesHeap app (.pop k) t ∧ DataInv app t := by
  obtain ⟨pre, post, hsplit, -, -, hset⟩ := exists_split_of_getElem? hc
  have hinv := h.sockets c (List.mem_of_getElem? hc)
  have howned := DataSocket.owned_pop_block app c.popped c.read hget
    (if_pos (Or.inl hwrite))
  have hall : (s.owned app).Perm (app.blockPtr result.data
      :: (DataSocket.owned app { c with cqueue := queue }
        ++ ((pre ++ post).flatMap (DataSocket.owned app)
          ++ s.held.map Prod.fst))) :=
    (DataState.owned_perm hsplit).trans (List.Perm.append_right _ howned)
  have hfreed : s.freed app (.pop k) = some (app.blockPtr result.data) := by
    simp only [DataState.freed]
    rw [hc, Option.bind_some, hget, Option.bind_some, if_pos hwrite]
  obtain ⟨n, hrun, -, hother⟩ := h.free_block hall
    (fun n => hok _ n hfreed) (t := t) (by rw [hs]) (by rw [hs])
  refine ⟨⟨_, hrun, fun op hop p hp => Or.inl ?_⟩,
    h.update { c with cqueue := queue } [] hsplit (by rw [hs]; exact hset _)
      (by rw [hs]; rfl) hrun ?_ ?_ ?_ (by simp)⟩
  · obtain rfl := List.mem_singleton.mp hop
    obtain rfl := Option.some.inj hp
    rw [s.touched_eq rfl hc, DataSocket.touched, hget, Option.bind_some,
      if_pos hwrite]
    exact List.mem_singleton_self _
  · intro op hop p hp
    obtain rfl := List.mem_singleton.mp hop
    obtain rfl := Option.some.inj hp
    exact Or.inl (howned.mem_iff.mpr List.mem_cons_self)
  · intro rest hrest
    have hlive : t.live = forget (app.blockPtr result.data) s.heap.live := by
      rw [hs]
      rfl
    rw [hlive, List.map_nil, List.append_nil]
    exact h.heap.perm_forget (hrest.trans (List.Perm.append_right rest howned))
  · exact (hinv.results queue c.dropped).mono (fun p hp => hother p
      (List.mem_append_left _ hp))

/-- The app pops the result of a recv operation, and has its block. -/
theorem DataInv.popRecv {k : ℕ} {result : PifusOperationResult ℕ}
    {queue : RingBuffer (PifusOperationResult ℕ)} (read : List UInt8)
    (h : DataInv app s) (hc : s.sockets[k]? = some c)
    (hget : c.cqueue.get = some (result, queue)) (hrecv : result.code = .tcpRecv) :
    DataInv app { s with
      sockets := s.sockets.set k
        { c with cqueue := queue, popped := c.popped + 1, read := read }
      held := (app.blockPtr result.data, s.mem.bytes
        (shmDataGetDataPtr (app.blockPtr result.data))
        (PifusMemoryBlock.size s.mem (app.blockPtr result.data))) :: s.held } := by
  obtain ⟨pre, post, hsplit, -, -, hset⟩ := exists_split_of_getElem? hc
  have hmem : c ∈ s.sockets := List.mem_of_getElem? hc
  have hinv := (h.sockets c hmem).results queue c.dropped
  have howned := DataSocket.owned_pop_block app (c.popped + 1) read hget
    (if_pos (Or.inr hrecv))
  refine h.update { c with cqueue := queue, popped := c.popped + 1, read := read }
    [(app.blockPtr result.data, s.mem.bytes
      (shmDataGetDataPtr (app.blockPtr result.data))
      (PifusMemoryBlock.size s.mem (app.blockPtr result.data)))]
    hsplit (hset _) rfl Run.nil (by simp) ?_ ?_ ?_
  · intro rest hrest
    rw [List.map_singleton]
    refine hrest.trans (List.Perm.append_right rest ?_)
    exact howned.trans (List.perm_append_singleton _ _).symm
  · exact ⟨hinv.ops, hinv.writes, hinv.entries, hinv.path,
      ⟨hinv.sends.order, hinv.sends.books⟩⟩
  · intro b hb
    obtain rfl := List.mem_singleton.mp hb
    have hblock := h.live_of_owned hmem (howned.mem_iff.mpr List.mem_cons_self)
    obtain ⟨⟨q, n⟩, hlive, hq⟩ := List.mem_map.mp hblock
    obtain rfl : q = app.blockPtr result.data := hq
    have hsize : PifusMemoryBlock.size s.mem (app.blockPtr result.data) = n :=
      (h.heap.size_eq hlive).1
    dsimp only
    rw [hsize]
    exact h.heap.store_eq_some_iff.mpr ⟨n, hlive, rfl⟩

/-- **The app pops a result**: the block is freed, or the app has it. -/
theorem DataInv.pop {k : ℕ} (h : DataInv app s)
    (hok : s.FreesIntact app (.pop k)) (hs : s.pop app k = some t) :
    s.UsesHeap app (.pop k) t ∧ DataInv app t := by
  unfold DataState.pop at hs
  obtain ⟨c, hc, hs⟩ := Option.bind_eq_some_iff.mp hs
  obtain ⟨⟨result, queue⟩, hget, hs⟩ := Option.map_eq_some_iff.mp hs
  dsimp only at hs
  split at hs
  · rename_i hwrite
    exact h.popWrite hok hc hget hwrite hs.symm
  split at hs
  · rename_i hrecv
    subst hs
    exact ⟨DataState.UsesHeap.none rfl, h.popRecv _ hc hget hrecv⟩
  · -- a result without a block
    rename_i hwrite hrecv
    subst hs
    have hinv := h.sockets c (List.mem_of_getElem? hc)
    have howned := DataSocket.owned_pop app c.popped c.read hget
    have hnone : resultBlock result = none :=
      if_neg (fun hcode => hcode.elim hwrite hrecv)
    rw [hnone] at howned
    exact ⟨DataState.UsesHeap.none rfl,
      h.move_owned hc (hinv.results queue c.dropped) howned.symm⟩

theorem blocksInv_initial {B : BlockStore Ptr UInt8} :
    BlocksInv app B .initial where
  ops := by simp [DataSocket.initial]
  writes := List.Forall₂.nil
  entries := fun entry hentry => absurd hentry (by
    simp [DataSocket.initial, RecvHistory.initial, RecvState.initial])
  path := recvRunInv_initial _ _
  sends := ⟨⟨[], [], [], rfl, List.Forall₂.nil, rfl, rfl⟩, rfl⟩

/-- The app opens a socket. -/
theorem DataInv.socket (h : DataInv app s) :
    DataInv app { s with sockets := s.sockets ++ [.initial] } where
  heap := h.heap
  owners := by
    have hnone : DataSocket.owned app .initial = [] := rfl
    unfold DataState.owned
    rw [List.flatMap_append, List.flatMap_singleton, hnone, List.append_nil]
    exact h.owners
  sockets := by
    intro c hc
    rcases List.mem_append.mp hc with hc | hc
    · exact h.sockets c hc
    · obtain rfl := List.mem_singleton.mp hc
      exact blocksInv_initial
  held := h.held

/-- **A step of the data path is a run of the heap**, and keeps the
invariant. -/
theorem DataInv.step {e : DataEvent} (h : DataInv app s)
    (hok : s.FreesIntact app e) (hs : DataStep app s e t) :
    s.UsesHeap app e t ∧ DataInv app t := by
  rw [DataStep] at hs
  cases e with
  | socket =>
    obtain rfl := Option.some.inj hs
    exact ⟨DataState.UsesHeap.none rfl, h.socket⟩
  | recv k size => exact h.recv hs
  | write k data => exact h.write hs
  | process k recvScan err => exact h.process hs
  | deliver k p => exact h.deliver hs
  | sent k len =>
    obtain ⟨c, hc, hs⟩ := Option.bind_eq_some_iff.mp hs
    obtain ⟨c', hc', rfl⟩ := Option.map_eq_some_iff.mp hs
    exact ⟨DataState.UsesHeap.none rfl, h.sent hc hc'⟩
  | result k result =>
    change (if resultBlock result = none then s.sockets[k]?.map (fun c =>
      { s with sockets := s.sockets.set k (c.enqueueInCqueue result) })
      else none) = some t at hs
    split at hs
    · rename_i hnone
      obtain ⟨c, hc, rfl⟩ := Option.map_eq_some_iff.mp hs
      obtain ⟨queue, dropped, heq, hperm⟩ := c.enqueueInCqueue_eq result
      rw [hnone] at hperm
      refine ⟨DataState.UsesHeap.none rfl, h.move hc ?_ ?_⟩
      · rw [heq]
        exact (h.sockets c (List.mem_of_getElem? hc)).results queue dropped
      · rw [DataSocket.offsets_eq, DataSocket.offsets_eq]
        refine (List.Perm.append_left _ hperm).trans ?_
        rw [heq]
        exact List.Perm.refl _
    · exact absurd hs (by simp)
  | pop k => exact h.pop hok hs
  | free block => exact h.free hok hs

theorem dataInv_initial : DataInv app DataState.initial :=
  ⟨heapInv_zeroed, List.Perm.refl _, by simp [DataState.initial],
    by simp [DataState.initial]⟩

/-! ## Runs -/

/-- The steps of which every freed block has its back offset intact. -/
abbrev IntactDataStep (app : AppRegion) : DataState → DataEvent → DataState → Prop :=
  Guarded (DataState.FreesIntact app) (DataStep app)

/-- **Every run of the data path is a run of the heap**, and keeps the
invariant. -/
theorem dataInv_of_run {es : List DataEvent}
    (h : Run (IntactDataStep app) DataState.initial es s) :
    (∃ ops, Run (IntactStep app) HeapState.zeroed ops s.heap)
      ∧ DataInv app s := by
  induction h with
  | nil => exact ⟨⟨[], Run.nil⟩, dataInv_initial⟩
  | snoc _ hs ih =>
    obtain ⟨⟨ops, hrun⟩, hinv⟩ := ih
    obtain ⟨⟨ops', hrun', -⟩, hinv'⟩ := hinv.step hs.1 hs.2
    exact ⟨⟨ops ++ ops', hrun.trans hrun'⟩, hinv'⟩

/-- **The data path uses the heap as it is meant to be used.** In every run in
which each freed block has its back offset intact, what the app and the stack do
to the region is a run of the heap: only live blocks are freed, and every copy
stays inside the data of a live block. The live blocks are those that belong to
a socket or to the app, each to one of them and in one place. -/
theorem data_path_uses_heap {es : List DataEvent}
    (h : Run (IntactDataStep app) DataState.initial es s) :
    (∃ ops, Run (IntactStep app) HeapState.zeroed ops s.heap)
    ∧ (∀ e t, IntactDataStep app s e t →
        ∃ ops, Run (IntactStep app) s.heap ops t.heap)
    ∧ (s.live.map Prod.fst).Perm (s.owned app) ∧ (s.owned app).Nodup := by
  obtain ⟨hheap, hinv⟩ := dataInv_of_run h
  refine ⟨hheap, fun e t hs => ?_, hinv.owners,
    hinv.owners.nodup_iff.mp hinv.heap.nodup_ptr⟩
  obtain ⟨⟨ops, hrun, -⟩, -⟩ := hinv.step hs.1 hs.2
  exact ⟨ops, hrun⟩

/-- A step that frees at most the first block, in front of which there is
none. -/
def DataState.FreesFirst (app : AppRegion) (s : DataState) (e : DataEvent) :
    Prop :=
  ∀ p ∈ s.freed app e,
    p = app.addr + 4 ∧ PifusMemoryBlock.prevBlockOffset s.mem p = -1

instance (s : DataState) (e : DataEvent) : Decidable (s.FreesFirst app e) :=
  inferInstanceAs (Decidable (∀ p ∈ s.freed app e, _))

theorem DataState.FreesFirst.intact {e : DataEvent} (h : s.FreesFirst app e) :
    s.FreesIntact app e := by
  intro p n hp
  obtain ⟨rfl, hprev⟩ := h p hp
  exact backOffsetIntact_first hprev

theorem DataState.run_of_freesFirst {es : List DataEvent}
    (h : es.foldlM (guardedStep (DataState.FreesFirst app) (dataStep app))
      DataState.initial = some s) :
    Run (IntactDataStep app) DataState.initial es s :=
  (Run.guarded_of_foldlM h).mono (fun _ _ _ hs => ⟨hs.1.intact, hs.2⟩)

/-- Two operations of a socket; the write is acknowledged and its block
freed. -/
theorem data_path_uses_heap_two :
    ∃ s : DataState, s.live = [(4127, 2)]
      ∧ (s.live.map Prod.fst).Perm (s.owned exampleRegion)
      ∧ (s.owned exampleRegion).Nodup := by
  have hs : ([.socket, .write 0 [7, 8, 9], .recv 0 2, .process 0 false .ok,
      .process 0 false .ok, .sent 0 3, .pop 0].foldlM
      (guardedStep (DataState.FreesFirst exampleRegion)
        (dataStep exampleRegion)) DataState.initial).any
      (fun s => s.live = [(4127, 2)]) = true := by
    decide +kernel
  obtain ⟨s, hrun, hp⟩ := (Option.any_eq_true _ _).mp hs
  exact ⟨s, of_decide_eq_true hp,
    (data_path_uses_heap (DataState.run_of_freesFirst hrun)).2.2⟩
