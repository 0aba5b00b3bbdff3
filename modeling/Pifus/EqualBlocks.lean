import Pifus.HeapContents

/-!
# Blocks of one size

An app that always asks for the same number of bytes, as one does that reads or
writes records, has nothing to fear from the back offsets that
`shm_data_free` leaves stale, nor from fragmentation. The region is then a row
of cells, each a header and a block. Every block of the chain takes whole cells,
and a live one takes one. A back offset that is stale names the beginning of a
cell; it is one inside the block directly before, so that block takes more than
one cell, is free and has nothing but zeros there. What the free finds there is a
block that is not free, and all that does not happen is a merge – and a cell that
is free is found again whether it was merged or not.

So the heap is a pool of cells (`equal_blocks_are_a_pool`): an allocation fails
only when all cells are live, and whatever is freed and written in between, the
blocks are a store of independent blocks.
-/

open PifusMemoryBlock

/-- The steps of an app that asks for `n` bytes each time. -/
abbrev PoolStep (app : AppRegion) (n : ℕ) : HeapState → HeapOp → HeapState → Prop :=
  Guarded (fun _ op => ∀ k, op = .allocate k → k = n) (HeapStep app)

/-- How many cells the region has. -/
def poolSize (n : ℕ) : ℕ := (shmAppSize - sizeofPifusApp) / (sizeofPifusMemoryBlock + n)

/-- **A block of whole cells**, the back offset of which names the beginning of
one. -/
structure CellBlock (n : ℕ) (b : Block) : Prop where
  whole : ∃ m, 0 < m ∧ 24 + b.size = m * (24 + n)
  live : b.free = false → b.size = n
  prev : b.prev = -1 ∨ ∃ j : ℕ, b.prev = (j * (24 + n) : ℕ)

/-- **The invariant of the pool**: the region represents blocks of whole cells,
and no back offset is worse than stale. -/
structure PoolInv (app : AppRegion) (n : ℕ) (s : HeapState) (bs : List Block) :
    Prop where
  represents : Represents app s.mem bs
  live : s.live.Perm (liveOf (app.addr + 4) bs)
  links : NearLinked app none (app.addr + 4) bs
  cells : ∀ b ∈ bs, CellBlock n b

variable {app : AppRegion} {s t : HeapState} {op : HeapOp} {p q n : ℕ}
  {prev : Option ℕ} {b : Block} {l r bs bs' : List Block}

theorem PoolInv.heap (h : PoolInv app n s bs) : HeapInv app s :=
  ⟨bs, h.represents, h.live⟩

/-! ## Cells -/

/-- Blocks of whole cells take whole cells, one at least for each live block, and
more than that if one of them is free. -/
theorem span_cells (h : ∀ b ∈ bs, CellBlock n b) (p : ℕ) :
    ∃ k, span bs = k * (24 + n) ∧ (liveOf p bs).length ≤ k
      ∧ ((liveOf p bs).length = k ↔ ∀ b ∈ bs, b.free = false) := by
  induction bs generalizing p with
  | nil => exact ⟨0, (Nat.zero_mul _).symm, Nat.le_refl _, by simp⟩
  | cons b bs ih =>
    obtain ⟨k, hspan, hle, hiff⟩ :=
      ih (fun c hc => h c (List.mem_cons_of_mem _ hc)) (p + 24 + b.size)
    obtain ⟨m, hm, hsize⟩ := (h b List.mem_cons_self).whole
    refine ⟨m + k, by rw [span_cons, hspan, hsize, Nat.add_mul], ?_⟩
    rw [List.forall_mem_cons]
    by_cases hb : b.free = true
    · rw [liveOf_cons_free _ _ hb]
      exact ⟨by omega, fun he => by omega, fun hall => absurd (hb.symm.trans hall.1)
        (by simp)⟩
    · have hb' : b.free = false := eq_false_of_ne_true hb
      have hone : m = 1 := by
        have hlive := (h b List.mem_cons_self).live hb'
        rw [hlive] at hsize
        exact Nat.eq_of_mul_eq_mul_right (show 0 < 24 + n by omega) (by omega)
      rw [liveOf_cons_live _ _ hb', List.length_cons, hone, Nat.add_comm 1 k,
        Nat.add_right_cancel_iff]
      exact ⟨by omega, fun he => ⟨hb', hiff.mp he⟩, fun hall => hiff.mpr hall.2⟩

/-- The beginning of a cell. -/
def AtCell (app : AppRegion) (n p : ℕ) : Prop := ∃ i, p = app.addr + 4 + i * (24 + n)

theorem atCell_start (app : AppRegion) (n : ℕ) : AtCell app n (app.addr + 4) :=
  ⟨0, by omega⟩

theorem AtCell.add {m k : ℕ} (h : AtCell app n p) (hm : k = m * (24 + n)) :
    AtCell app n (p + k) := by
  obtain ⟨i, rfl⟩ := h
  exact ⟨i + m, by rw [hm, Nat.add_mul, Nat.add_assoc]⟩

theorem AtCell.offset (h : AtCell app n p) :
    ∃ j : ℕ, offsetOf app p = (j * (24 + n) : ℕ) := by
  obtain ⟨i, rfl⟩ := h
  refine ⟨i, ?_⟩
  unfold offsetOf
  omega

theorem AtCell.behind (h : AtCell app n p) (hb : CellBlock n b) :
    AtCell app n (p + 24 + b.size) := by
  obtain ⟨m, -, hm⟩ := hb.whole
  rw [Nat.add_assoc]
  exact h.add hm

theorem AtCell.span (h : AtCell app n p) (hl : ∀ b ∈ l, CellBlock n b) :
    AtCell app n (p + span l) := by
  obtain ⟨k, hk, -⟩ := span_cells hl p
  exact h.add hk

/-- A relinked list is one of whole cells, if the new back offset names the
beginning of one. -/
theorem cellBlock_relink {z : ℤ} (hz : z = -1 ∨ ∃ j : ℕ, z = (j * (24 + n) : ℕ))
    (h : ∀ b ∈ bs, CellBlock n b) : ∀ b ∈ relink z bs, CellBlock n b := by
  cases bs with
  | nil => exact h
  | cons c bs =>
    obtain ⟨hc, hrest⟩ := List.forall_mem_cons.mp h
    exact List.forall_mem_cons.mpr ⟨⟨hc.whole, hc.live, hz⟩, hrest⟩

/-! ## Allocation -/

/-- **First fit keeps to whole cells.** -/
theorem cellBlock_place (hplace : place app n prev p bs = some (q, bs'))
    (hp : AtCell app n p) (hprev : ∀ a, prev = some a → AtCell app n a)
    (h : ∀ b ∈ bs, CellBlock n b) : ∀ b ∈ bs', CellBlock n b := by
  induction bs generalizing prev p bs' with
  | nil =>
    rw [place] at hplace
    split at hplace
    · obtain ⟨-, rfl⟩ := Prod.mk.inj (Option.some.inj hplace)
      rw [List.forall_mem_singleton]
      refine ⟨⟨1, Nat.one_pos, (Nat.one_mul _).symm⟩, fun _ => rfl, ?_⟩
      cases prev with
      | none => exact Or.inl rfl
      | some a => exact Or.inr (hprev a rfl).offset
    · exact absurd hplace (by simp)
  | cons b bs ih =>
    rw [place] at hplace
    obtain ⟨hb, hrest⟩ := List.forall_mem_cons.mp h
    split at hplace
    · rename_i hexact
      obtain ⟨-, rfl⟩ := Prod.mk.inj (Option.some.inj hplace)
      exact List.forall_mem_cons.mpr ⟨⟨hb.whole, fun _ => hexact.1, hb.prev⟩, hrest⟩
    · split at hplace
      · rename_i hsplit
        obtain ⟨-, rfl⟩ := Prod.mk.inj (Option.some.inj hplace)
        have hone : 24 + n = 1 * (24 + n) := (Nat.one_mul _).symm
        -- what is cut off has one cell less than the block had
        obtain ⟨m, hm, hsize⟩ := hb.whole
        obtain ⟨m, rfl⟩ : ∃ k, m = k + 1 := ⟨m - 1, by omega⟩
        rw [Nat.add_mul, Nat.one_mul] at hsize
        have hpos : 0 < m := by
          refine Nat.pos_of_ne_zero (fun hzero => ?_)
          rw [hzero, Nat.zero_mul] at hsize
          omega
        refine List.forall_mem_cons.mpr ⟨⟨⟨1, Nat.one_pos, hone⟩, fun _ => rfl, hb.prev⟩,
          List.forall_mem_cons.mpr ⟨⟨⟨m, hpos, ?_⟩, by simp, Or.inr hp.offset⟩, ?_⟩⟩
        · dsimp only
          omega
        · refine cellBlock_relink (Or.inr ?_) hrest
          rw [Nat.add_assoc]
          exact (hp.add hone).offset
      · obtain ⟨⟨q', bs''⟩, hrec, heq⟩ := Option.map_eq_some_iff.mp hplace
        obtain ⟨rfl, rfl⟩ := Prod.mk.inj heq
        refine List.forall_mem_cons.mpr ⟨hb, ih hrec (hp.behind hb) ?_ hrest⟩
        intro a ha
        obtain rfl := Option.some.inj ha
        exact hp

/-- **First fit finds every free cell**, and otherwise the next one behind the
chain. -/
theorem place_eq_none_iff (hn : 0 < n) (h : ∀ b ∈ bs, CellBlock n b) :
    place app n prev p bs = none ↔ (∀ b ∈ bs, b.free = false)
      ∧ app.addr + shmAppSize < p + span bs + 24 + n := by
  induction bs generalizing prev p with
  | nil =>
    rw [place, span_nil]
    split
    · simp
      omega
    · simp
      omega
  | cons b bs ih =>
    obtain ⟨hb, hrest⟩ := List.forall_mem_cons.mp h
    rw [place, List.forall_mem_cons, span_cons]
    by_cases hfree : b.free = true
    · refine iff_of_false ?_ (fun hall => absurd (hfree.symm.trans hall.1.1) (by simp))
      obtain ⟨m, hm, hsize⟩ := hb.whole
      by_cases hone : m = 1
      · rw [hone, Nat.one_mul] at hsize
        rw [if_pos ⟨by omega, hfree⟩]
        simp
      · have htwo : 2 * (24 + n) ≤ m * (24 + n) :=
          Nat.mul_le_mul_right _ (by omega)
        rw [if_neg (by omega), if_pos ⟨by omega, hfree⟩]
        simp
    · have hfree' : b.free = false := eq_false_of_ne_true hfree
      rw [if_neg (fun hc => hfree hc.2), if_neg (fun hc => hfree hc.2),
        Option.map_eq_none_iff, ih hrest,
        show p + 24 + b.size + span bs = p + (24 + b.size + span bs) from by omega]
      simp [hfree']

theorem PoolInv.of_allocate (h : PoolInv app n s bs)
    (hs : HeapStep app s (.allocate n) t) : ∃ bs', PoolInv app n t bs' := by
  rcases allocate_cases hs h.represents with ⟨-, rfl⟩ | ⟨q, bs', hplace, hP, htl⟩
  · exact ⟨bs, h⟩
  · refine ⟨bs', ⟨hP.segment, hP.fits, hP.tail⟩, ?_, nearLinked_place hplace h.links,
      cellBlock_place hplace (atCell_start app n) (by simp) h.cells⟩
    rw [htl]
    exact (h.live.cons _).trans hP.live.symm

theorem le_poolSize_iff (n i : ℕ) :
    i ≤ poolSize n ↔ 4 + i * (24 + n) ≤ shmAppSize := by
  rw [poolSize, Nat.le_div_iff_mul_le (by simp [sizeofPifusMemoryBlock])]
  simp only [sizeofPifusMemoryBlock, sizeofPifusApp, shmAppSize]
  omega

theorem PoolInv.exists_span (h : PoolInv app n s bs) :
    ∃ k ≤ poolSize n, span bs = k * (24 + n) ∧ s.live.length ≤ k
      ∧ (s.live.length = k ↔ ∀ b ∈ bs, b.free = false) := by
  obtain ⟨k, hspan, hle, hall⟩ := span_cells h.cells (app.addr + 4)
  have hfits := h.represents.fits
  rw [h.live.length_eq]
  exact ⟨k, (le_poolSize_iff n k).mpr (by rw [← hspan]; omega), hspan, hle, hall⟩

/-- **An allocation fails only when all cells are live.** -/
theorem PoolInv.allocate_iff (h : PoolInv app n s bs) (hn : 0 < n) :
    (∃ q t, HeapStep app s (.allocate n) t ∧ t.live = (q, n) :: s.live)
      ↔ s.live.length < poolSize n := by
  obtain ⟨k, hk, hspan, hle, hall⟩ := h.exists_span
  have hfull : place app n none (app.addr + 4) bs = none
      ↔ ¬ s.live.length < poolSize n := by
    rw [place_eq_none_iff hn h.cells, ← hall, hspan]
    have hnext := le_poolSize_iff n (k + 1)
    rw [Nat.add_mul, Nat.one_mul] at hnext
    omega
  constructor
  · rintro ⟨q, t, hs, htl⟩
    by_contra hlt
    rcases allocate_cases hs h.represents with ⟨-, rfl⟩ | ⟨q', bs', hplace, -, -⟩
    · exact absurd (congrArg List.length htl) (by simp)
    · rw [hfull.mpr hlt] at hplace
      exact absurd hplace (by simp)
  · intro hlt
    have hone := (le_poolSize_iff n 1).mp (by omega)
    obtain ⟨t, hs⟩ := h.heap.allocate_returns hn (by omega)
    rcases allocate_cases hs h.represents with ⟨hnone, -⟩ | ⟨q, bs', -, -, htl⟩
    · exact absurd hlt (hfull.mp hnone)
    · exact ⟨q, t, hs, htl⟩

/-! ## Free -/

/-- A block that takes in the one behind it is one of whole cells. -/
theorem cellBlock_absorbNext (hb : ∃ m, 0 < m ∧ 24 + b.size = m * (24 + n))
    (hprev : b.prev = -1 ∨ ∃ j : ℕ, b.prev = (j * (24 + n) : ℕ))
    (hr : ∀ c ∈ r, CellBlock n c) : ∀ c ∈ absorbNext b r, CellBlock n c := by
  cases r with
  | nil =>
    rw [absorbNext, List.forall_mem_singleton]
    exact ⟨hb, by simp, hprev⟩
  | cons c r =>
    obtain ⟨hc, hr⟩ := List.forall_mem_cons.mp hr
    rw [absorbNext]
    split
    · obtain ⟨m, hm, hsize⟩ := hb
      obtain ⟨k, -, hsize'⟩ := hc.whole
      refine List.forall_mem_cons.mpr ⟨⟨⟨m + k, by omega, ?_⟩, by simp, hprev⟩, hr⟩
      rw [Nat.add_mul, ← hsize, ← hsize']
      dsimp only
      omega
    · exact List.forall_mem_cons.mpr
        ⟨⟨hb, by simp, hprev⟩, List.forall_mem_cons.mpr ⟨hc, hr⟩⟩

/-- A free keeps to whole cells. -/
theorem cellBlock_freed (h : ∀ c ∈ l ++ b :: r, CellBlock n c) :
    ∀ c ∈ freed app l b r, CellBlock n c := by
  obtain ⟨hl, hbr⟩ := List.forall_mem_append.mp h
  obtain ⟨hb, hr⟩ := List.forall_mem_cons.mp hbr
  have habsorb := cellBlock_absorbNext hb.whole hb.prev hr
  rw [freed]
  split
  · rcases List.eq_nil_or_concat l with rfl | ⟨l, a, rfl⟩
    · cases r with
      | nil => exact List.forall_mem_nil _
      | cons c r => exact habsorb
    · rw [List.concat_eq_append] at hl ⊢
      obtain ⟨hl, ha⟩ := List.forall_mem_append.mp hl
      rw [List.forall_mem_singleton] at ha
      rw [release_append, List.forall_mem_append, release]
      refine ⟨hl, ?_⟩
      split
      · refine cellBlock_absorbNext ?_ ha.prev (cellBlock_relink hb.prev hr)
        obtain ⟨m, hm, hsize⟩ := ha.whole
        obtain ⟨k, -, hsize'⟩ := hb.whole
        refine ⟨m + k, by omega, ?_⟩
        rw [Nat.add_mul, ← hsize, ← hsize']
        dsimp only
        omega
      · exact List.forall_mem_cons.mpr ⟨ha, habsorb⟩
  · exact List.forall_mem_append.mpr ⟨hl, habsorb⟩

/-- **A stale back offset reads a clear flag**: where it is inside a block, that
block takes more than one cell, so it is free. -/
theorem PoolInv.stale_flag (h : PoolInv app n s (l ++ b :: r))
    (hstale : b.prev ≠ lastLink app (-1) (app.addr + 4) l) :
    0 ≤ b.prev
      ∧ free s.mem (shmDataGetBlockPtr app.addr b.prev) = false := by
  have hb := (nearLinked_append.mp h.links).2.1
  have hcells := h.cells
  have hseg := h.represents.segment
  have hfits := h.represents.fits
  rcases List.eq_nil_or_concat l with rfl | ⟨l, a, rfl⟩
  · exact absurd hb hstale
  · rw [List.concat_eq_append] at hb hfits hseg hstale hcells
    rw [lastLink_append] at hstale
    rw [lastHeader_append] at hb
    obtain ⟨x, hz, hx⟩ := hb
    have hin := hx.resolve_left (fun hx => hstale (by rw [hz, hx]))
    rw [span_append, span_cons, span_nil] at hin
    rw [span_append, span_append, span_cons, span_cons, span_nil] at hfits
    rw [List.append_assoc] at hseg
    obtain ⟨hl, hrest⟩ := List.forall_mem_append.mp hcells
    obtain ⟨hl, ha⟩ := List.forall_mem_append.mp hl
    rw [List.forall_mem_singleton] at ha
    obtain ⟨i, hi, -⟩ := span_cells hl (app.addr + 4)
    have hafree : a.free = true := by
      by_contra hafree
      -- the back offset would name a cell inside a single one
      have hasize := ha.live (eq_false_of_ne_true hafree)
      rcases (hrest b List.mem_cons_self).prev with hnone | ⟨j, hj⟩
      · rw [hz] at hnone
        unfold offsetOf at hnone
        omega
      · rw [hz] at hj
        unfold offsetOf at hj
        have hlo : i * (24 + n) < j * (24 + n) := by omega
        have hhi : j * (24 + n) < (i + 1) * (24 + n) := by
          rw [Nat.add_mul, Nat.one_mul]
          omega
        have := Nat.lt_of_mul_lt_mul_right hlo
        have := Nat.lt_of_mul_lt_mul_right hhi
        omega
    have hdata := (segment_append.mp hseg).2.1.2.2 hafree
    refine ⟨by rw [hz]; exact (offsetOf_bounds (by omega) (by omega)).1, ?_⟩
    unfold PifusMemoryBlock.free
    rw [hz, shmDataGetBlockPtr_offsetOf (by omega) (by omega),
      hdata x (by omega) (by omega)]
    rfl

/-- **`shm_data_free` in a pool** is `freed` on the list of blocks. -/
theorem PoolInv.shmDataFree_freed (h : PoolInv app n s (l ++ b :: r))
    (hb : b.free = false) (hq : q = app.addr + 4 + span l) :
    Released app s.mem (shmDataFree app.addr s.mem q) (app.addr + 4) q b.size
      (l ++ b :: r) (freed app l b r) := by
  rw [freed]
  split
  · rename_i hlink
    exact shmDataFree_release h.represents hb hq hlink
  · rename_i hstale
    obtain ⟨hprev, hflag⟩ := h.stale_flag hstale
    have hseg := (segment_append.mp h.represents.segment).2
    have hfit := h.represents.fits
    have htail := h.represents.tail
    have hspan : app.addr + 4 + span (l ++ b :: r) = q + span (b :: r) := by
      rw [span_append]
      omega
    rw [← hq] at hseg
    rw [hspan] at hfit htail
    have hh : HeaderAt s.mem q b := hseg.1.1
    have hmerge : ∀ next, mergePrevious app.addr s.mem q next = (q, s.mem) := by
      intro next
      unfold mergePrevious
      rw [hh.prev, if_pos hprev]
      simp only [hflag, Bool.false_eq_true, if_false]
    unfold shmDataFree
    simp only [existingNextBlock_eq hseg hfit htail, hh.prev, hmerge]
    rw [if_neg (by omega)]
    exact freeMerged_self h.represents hb hq

/-- A free keeps the pool and the other blocks. -/
theorem PoolInv.of_free {block : Ptr × ℕ} (h : PoolInv app n s bs)
    (hs : HeapStep app s (.free block) t) :
    (∃ bs', PoolInv app n t bs')
    ∧ BlockStore.Step 0 s.store (.free block.1) t.store := by
  obtain ⟨q, k⟩ := block
  obtain ⟨hmem, htl⟩ := free_live hs
  have htm : t.mem = shmDataFree app.addr s.mem q := by
    rw [HeapStep, heapStep, if_pos hmem] at hs
    rw [← Option.some.inj hs]
  obtain ⟨l, b, r, rfl, hq, hb, rfl⟩ :=
    exists_append_of_mem_liveOf (h.live.mem_iff.mp hmem)
  have hR := h.shmDataFree_freed hb hq
  rw [← htm] at hR
  have ht : PoolInv app n t (freed app l b r) := by
    refine ⟨⟨hR.segment, hR.fits, hR.tail⟩, ?_, nearLinked_freed h.links,
      cellBlock_freed h.cells⟩
    have herase := (h.live.trans hR.live).erase (q, b.size)
    rwa [List.erase_cons_head, ← htl] at herase
  exact ⟨⟨_, ht⟩, h.heap.refines_erase ht.heap hmem htl (fun x k hmem' hx =>
    hR.kept x k (h.live.mem_iff.mp hmem') hx)⟩

/-! ## Steps and runs -/

/-- **Every step of a pool keeps it and is one of the store.** -/
theorem PoolInv.step (h : PoolInv app n s bs) (hs : PoolStep app n s op t) :
    (∃ bs', PoolInv app n t bs')
    ∧ BlockStore.Step 0 s.store op.blockOp t.store := by
  obtain ⟨hsize, hs⟩ := hs
  cases op with
  | allocate k =>
    obtain rfl := hsize k rfl
    exact ⟨h.of_allocate hs, h.heap.refines_allocate hs⟩
  | free block => exact h.of_free hs
  | overwrite block i bytes =>
    obtain ⟨hrep, htl⟩ := overwrite_cases hs h.represents h.live
    exact ⟨⟨bs, hrep, by rw [htl]; exact h.live, h.links, h.cells⟩,
      h.heap.refines_overwrite hs⟩

theorem poolInv_zeroed : PoolInv app n HeapState.zeroed [] :=
  ⟨represents_zeroed, List.Perm.refl _, trivial, List.forall_mem_nil _⟩

/-- **Blocks of one size are a pool.** Whatever an app allocates, frees and
writes, and in whatever order, if it asks for `n` bytes each time its blocks are
a store of independent blocks, and an allocation fails only when all the cells of
the region are live. Nothing is asked of the back offsets. -/
theorem equal_blocks_are_a_pool {es : List HeapOp} (hn : 0 < n)
    (h : Run (PoolStep app n) HeapState.zeroed es s) :
    Run (BlockStore.Step 0) (fun _ => none) (es.map HeapOp.blockOp) s.store
    ∧ s.live.length ≤ poolSize n
    ∧ ((∃ q t, HeapStep app s (.allocate n) t ∧ t.live = (q, n) :: s.live)
      ↔ s.live.length < poolSize n) := by
  have hruns : (∃ bs, PoolInv app n s bs) ∧ Run (BlockStore.Step 0) (fun _ => none)
      (es.map HeapOp.blockOp) s.store := by
    induction h with
    | nil => exact ⟨⟨[], poolInv_zeroed⟩, Run.nil⟩
    | snoc _ hs ih =>
      obtain ⟨⟨bs, hI⟩, hrun⟩ := ih
      obtain ⟨hI', hstep⟩ := hI.step hs
      rw [List.map_append]
      exact ⟨hI', hrun.snoc hstep⟩
  obtain ⟨⟨bs, hI⟩, hrun⟩ := hruns
  obtain ⟨k, hk, -, hle, -⟩ := hI.exists_span
  exact ⟨hrun, hle.trans hk, hI.allocate_iff hn⟩

/-- The third block is freed with a stale back offset, and its cell is taken
again. -/
theorem equal_blocks_are_a_pool_stale :
    ∃ s : HeapState, s.live.length = 2
      ∧ ∃ q t, HeapStep exampleRegion s (.allocate 8) t
        ∧ t.live = (q, 8) :: s.live := by
  have hs : ([.allocate 8, .allocate 8, .allocate 8, .free (4132, 8), .free (4100, 8),
      .free (4164, 8), .allocate 8, .allocate 8].foldlM (heapStep exampleRegion)
      HeapState.zeroed).any (fun s => s.live.length = 2) = true := by decide +kernel
  obtain ⟨s, hrun, hp⟩ := (Option.any_eq_true _ _).mp hs
  have hlen : s.live.length = 2 := of_decide_eq_true hp
  have hpool : Run (PoolStep exampleRegion 8) HeapState.zeroed _ s :=
    (Run.of_foldlM hrun).guarded_of_events (by simp)
  refine ⟨s, hlen, (equal_blocks_are_a_pool (by decide) hpool).2.2.mpr ?_⟩
  rw [hlen]
  decide
