import Pifus.HeapCalls

/-!
# The headers the allocator accesses

Which block headers a call of `shm_data_next_suitable_block` or of
`shm_data_free` reads or writes, listed along the code, and whether they lie
in the region.

The headers of blocks always do. The one that may not is the header of zeros
behind the last block, which is where every chain ends: the bound test of
`shm_data_get_next_block_ptr` lets the start of it be anywhere up to the end
of the region, the end included, and says nothing about the other twenty-three
bytes. So a call stays inside if the whole of that header does or if the call
has no reason to look at it, and `header_accesses_inside_iff` says that this
is exact.
-/

open PifusMemoryBlock

/-! ## Accesses -/

/-- The headers one call of `shm_data_next_suitable_block` accesses: that of
the block itself, and where the block is split that of the rest and that of
the next block. -/
def visitHeaders (app : Ptr) (m : Memory) (currentBlock : Ptr)
    (desiredSize : ℕ) : List Ptr :=
  if size m currentBlock = 0 then [currentBlock]
  else
    let nextBlock := shmDataGetNextBlockPtr m app currentBlock
    if size m currentBlock = desiredSize ∧ free m currentBlock then
      [currentBlock]
    else if desiredSize < size m currentBlock
        ∧ sizeofPifusMemoryBlock < size m currentBlock - desiredSize
        ∧ free m currentBlock then
      [currentBlock,
        (currentBlock + sizeofPifusMemoryBlock + desiredSize) % 2 ^ 64]
        ++ nextBlock.toList
    else [currentBlock]

/-- The headers the whole recursion accesses. -/
def walkHeaders (app : Ptr) :
    ℕ → Memory → Option Ptr → Ptr → ℕ → List Ptr
  | 0, _, _, _, _ => []
  | fuel + 1, m, previousBlock, currentBlock, desiredSize =>
    visitHeaders app m currentBlock desiredSize ++
      match visitBlock app m previousBlock currentBlock desiredSize with
      | .inl _ => []
      | .inr nextBlock =>
        walkHeaders app fuel m (some currentBlock) nextBlock desiredSize

/-- The headers `shm_data_free` accesses: that of the block, that of the next
block wherever its pointer is not out of range, and that of the previous
block wherever there is one. -/
def freeHeaders (app : Ptr) (m : Memory) (block : Ptr) : List Ptr :=
  [block] ++ (shmDataGetNextBlockPtr m app block).toList
    ++ if 0 ≤ prevBlockOffset m block then
        [shmDataGetBlockPtr app (prevBlockOffset m block)]
      else []

/-- The headers a call accesses. -/
def callHeaders (app : Ptr) (m : Memory) : HeapOp → List Ptr
  | .allocate n =>
    walkHeaders app shmAppSize m none (app + sizeofPifusApp) n
  | .free block => freeHeaders app m block.1
  | .overwrite _ _ _ => []

variable (app : AppRegion)

/-- The whole header at an address is in the region. -/
def HeaderInside (p : ℕ) : Prop :=
  app.addr ≤ p ∧ p + sizeofPifusMemoryBlock ≤ app.addr + shmAppSize

/-- **A call stays inside**: every header it accesses is in the region. -/
def HeadersInside (s : HeapState) (op : HeapOp) : Prop :=
  ∀ p ∈ callHeaders app.addr s.mem op, HeaderInside app p

/-- An allocation of `n` bytes looks at the header behind the last block: no
block is suitable, or the first suitable one is the last and is split. -/
def LooksAtEnd (n : ℕ) : List Block → Prop
  | [] => True
  | b :: bs =>
    if b.size = n ∧ b.free = true then False
    else if n + 24 < b.size ∧ b.free = true then bs = []
    else LooksAtEnd n bs

/-- A call looks at the header behind the last of the blocks. A free does if
its block is the last one. -/
def CallLooksAtEnd (bs : List Block) : HeapOp → Prop
  | .allocate n => LooksAtEnd n bs
  | .free block => block.1 + 24 + block.2 = app.addr + 4 + span bs
  | .overwrite _ _ _ => False

/-- **The calls that stay inside**: they do not look at the header behind the
last block, or the whole of it is in the region. -/
def HeadersOk (s : HeapState) (op : HeapOp) : Prop :=
  ∀ bs, Represents app s.mem bs →
    CallLooksAtEnd app bs op → HeaderInside app (app.addr + 4 + span bs)

variable {app} {s t : HeapState} {op : HeapOp} {m m' M : Memory} {p q n : ℕ}
  {fuel : ℕ} {prev : Option ℕ} {bs : List Block}

/-! ## The list is complete -/

/-- One call decides by the headers it accesses. -/
theorem visitBlock_reads {addr : Ptr} {prev : Option Ptr}
    (h : ∀ p ∈ visitHeaders addr m q n, m.Agree m' p (p + 24)) :
    (visitBlock addr m prev q n).map Prod.fst id
      = (visitBlock addr m' prev q n).map Prod.fst id := by
  have hq : m.Agree m' q (q + 24) := by
    refine h q ?_
    unfold visitHeaders
    dsimp only
    split
    · exact List.mem_singleton_self q
    · split
      · exact List.mem_singleton_self q
      · split <;> simp
  have hsize : size m q = size m' q :=
    size_congr (hq.mono (by omega) (by omega))
  have hfree : free m q = free m' q :=
    free_congr (hq.mono (by omega) (by omega))
  have hnext : shmDataGetNextBlockPtr m addr q
      = shmDataGetNextBlockPtr m' addr q := by
    unfold shmDataGetNextBlockPtr
    rw [hsize]
  unfold visitBlock appendBlock
  simp only [hsize, hfree, hnext]
  split
  · split <;> simp only [Sum.map_inl]
  · split
    · simp only [Sum.map_inl]
    · split
      · simp only [Sum.map_inl]
      · split <;> simp only [Sum.map_inl, Sum.map_inr]

/-- A split writes to three headers. -/
theorem agree_splitBlock {addr : Ptr} {next : Option ℕ} {x : ℕ}
    (hq : x + 1 ≤ q ∨ q + 24 ≤ x)
    (hnew : x + 1 ≤ (q + sizeofPifusMemoryBlock + n) % 2 ^ 64
      ∨ (q + sizeofPifusMemoryBlock + n) % 2 ^ 64 + 24 ≤ x)
    (hnext : ∀ p ∈ next, x + 1 ≤ p ∨ p + 24 ≤ x) :
    m.Agree (splitBlock addr m q next n) x (x + 1) := by
  unfold splitBlock
  generalize (q + sizeofPifusMemoryBlock + n) % 2 ^ 64 = new at hnew
  have hheaders : ∀ k z, m.Agree (setPrevBlockOffset (setSize (setFree
      (setSize m q n) new true) new k) new z) x (x + 1) :=
    fun k z => (((agree_setSize (by omega)).trans
      (agree_setFree (by omega))).trans (agree_setSize (by omega))).trans
      (agree_setPrevBlockOffset (by omega))
  cases next with
  | none => exact hheaders _ _
  | some next =>
    have hn := hnext next rfl
    dsimp only
    split
    · exact (hheaders _ _).trans (agree_setPrevBlockOffset (by omega))
    · exact hheaders _ _

/-- One call writes to the headers it accesses and to nothing else. -/
theorem visitBlock_writes {addr : Ptr} {prev r : Option Ptr} {x : ℕ}
    (h : visitBlock addr m prev q n = .inl (r, M))
    (hx : ∀ p : ℕ, p ∈ visitHeaders addr m q n → x + 1 ≤ p ∨ p + 24 ≤ x) :
    m.Agree M x (x + 1) := by
  unfold visitHeaders at hx
  unfold visitBlock at h
  dsimp only at hx h
  by_cases hend : size m q = 0
  · rw [if_pos hend] at h hx
    have hq := hx q (List.mem_singleton_self q)
    unfold appendBlock at h
    split at h
    · obtain ⟨-, rfl⟩ := Prod.mk.inj (Sum.inl.inj h)
      exact Memory.Agree.refl m _ _
    · obtain ⟨-, rfl⟩ := Prod.mk.inj (Sum.inl.inj h)
      exact (agree_setSize (by omega)).trans
        (agree_setPrevBlockOffset (by omega))
  · rw [if_neg hend] at h hx
    split at h
    · obtain ⟨-, rfl⟩ := Prod.mk.inj (Sum.inl.inj h)
      exact Memory.Agree.refl m _ _
    · rename_i hexact
      rw [if_neg hexact] at hx
      split at h
      · rename_i hsplit
        rw [if_pos hsplit] at hx
        obtain ⟨-, rfl⟩ := Prod.mk.inj (Sum.inl.inj h)
        have hq := hx q (by simp)
        have hnew := hx ((q + sizeofPifusMemoryBlock + n) % 2 ^ 64) (by simp)
        exact agree_splitBlock hq hnew (fun next hmem => hx next (by
          simp [Option.mem_toList.mpr hmem]))
      · split at h <;> simp at h
        obtain ⟨-, rfl⟩ := h
        exact Memory.Agree.refl m _ _

/-- **The walk decides by the headers it accesses.** -/
theorem nextSuitableBlock_reads {addr : Ptr} {prev : Option Ptr}
    (h : ∀ p ∈ walkHeaders addr fuel m prev q n, m.Agree m' p (p + 24)) :
    (shmDataNextSuitableBlock addr fuel m prev q n).map Prod.fst
      = (shmDataNextSuitableBlock addr fuel m' prev q n).map Prod.fst := by
  induction fuel generalizing prev q with
  | zero => rfl
  | succ fuel ih =>
    rw [walkHeaders] at h
    have hvisit : (visitBlock addr m prev q n).map Prod.fst id
        = (visitBlock addr m' prev q n).map Prod.fst id :=
      visitBlock_reads (fun p hp => h p (List.mem_append_left _ hp))
    rw [shmDataNextSuitableBlock, shmDataNextSuitableBlock]
    cases hv : visitBlock addr m prev q n with
    | inl r =>
      rw [hv, Sum.map_inl] at hvisit
      cases hv' : visitBlock addr m' prev q n with
      | inl r' =>
        rw [hv', Sum.map_inl, Sum.inl.injEq] at hvisit
        simp only [Option.map_some, hvisit]
      | inr next' => rw [hv'] at hvisit; exact absurd hvisit (by simp)
    | inr next =>
      rw [hv, Sum.map_inr] at hvisit
      rw [hv] at h
      cases hv' : visitBlock addr m' prev q n with
      | inl r' => rw [hv'] at hvisit; exact absurd hvisit (by simp)
      | inr next' =>
        rw [hv', Sum.map_inr, Sum.inr.injEq] at hvisit
        obtain rfl : next = next' := hvisit
        exact ih (fun p hp => h p (List.mem_append_right _ hp))

/-- **The walk writes to the headers it accesses** and to nothing else. -/
theorem nextSuitableBlock_writes {addr : Ptr} {prev r : Option Ptr} {x : ℕ}
    (hwalk : shmDataNextSuitableBlock addr fuel m prev q n = some (r, M))
    (hx : ∀ p : ℕ, p ∈ walkHeaders addr fuel m prev q n →
      x + 1 ≤ p ∨ p + 24 ≤ x) :
    m.Agree M x (x + 1) := by
  induction fuel generalizing prev q with
  | zero => exact absurd hwalk (by simp [shmDataNextSuitableBlock])
  | succ fuel ih =>
    rw [walkHeaders] at hx
    rw [shmDataNextSuitableBlock] at hwalk
    cases hv : visitBlock addr m prev q n with
    | inl r' =>
      rw [hv] at hwalk
      obtain rfl := Option.some.inj hwalk
      exact visitBlock_writes hv (fun p hp => hx p (List.mem_append_left _ hp))
    | inr next =>
      rw [hv] at hwalk hx
      exact ih hwalk (fun p hp => hx p (List.mem_append_right _ hp))

/-! ## Headers inside the region -/

theorem headerInside_of_le (hlo : app.addr ≤ p)
    (hhi : p + 24 + n ≤ app.addr + shmAppSize) : HeaderInside app p :=
  ⟨hlo, by rw [sizeofPifusMemoryBlock]; omega⟩

/-- **What the walk accesses is inside** exactly if the header behind the last
block is, where the walk looks at it. -/
theorem walkHeaders_inside_iff (hseg : Segment m p bs)
    (hlo : app.addr + 4 ≤ p) (hfit : p + span bs ≤ app.addr + shmAppSize)
    (htail : m.Zero (p + span bs) (app.addr + shmAppSize + 24))
    (hfuel : bs.length < fuel) :
    (∀ x ∈ walkHeaders app.addr fuel m prev p n, HeaderInside app x)
      ↔ (LooksAtEnd n bs → HeaderInside app (p + span bs)) := by
  have happ := app.bound
  induction bs generalizing p prev fuel with
  | nil =>
    obtain ⟨fuel, rfl⟩ := Nat.exists_eq_add_one.mpr (Nat.zero_lt_of_lt hfuel)
    rw [span_nil, Nat.add_zero] at hfit htail
    have hzero : size m p = 0 :=
      size_of_zero (htail.mono (le_refl _) (by omega))
    rw [walkHeaders, visitHeaders, visitBlock, if_pos hzero, if_pos hzero]
    simp [LooksAtEnd]
  | cons b bs ih =>
    obtain ⟨fuel, rfl⟩ := Nat.exists_eq_add_one.mpr (Nat.zero_lt_of_lt hfuel)
    obtain ⟨⟨hh, hpos, -⟩, hs⟩ := hseg
    have hspan : p + span (b :: bs) = p + 24 + b.size + span bs := by
      rw [span_cons]; omega
    rw [hspan] at hfit htail ⊢
    have hp : HeaderInside app p :=
      headerInside_of_le (n := b.size) (by omega) (by omega)
    have hnext := @HeaderAt.next app m p b hh (by omega)
    rw [walkHeaders, LooksAtEnd]
    unfold visitHeaders
    simp only [hnext, hh.size, hh.free, sizeofPifusMemoryBlock, split_test_iff]
    rw [if_neg (by omega)]
    by_cases hexact : b.size = n ∧ b.free = true
    · -- taken as it is: no other header is looked at
      obtain ⟨M, hM⟩ := @visitBlock_take app m p n prev b hh hpos
        ⟨hexact.2, Or.inl hexact.1⟩
      rw [if_pos hexact, if_pos hexact, hM]
      simp [hp]
    · rw [if_neg hexact, if_neg hexact]
      by_cases hsplit : n + 24 < b.size ∧ b.free = true
      · -- split: the rest and the next block are looked at
        obtain ⟨M, hM⟩ := @visitBlock_take app m p n prev b hh hpos
          ⟨hsplit.2, Or.inr hsplit.1⟩
        have hmod : (p + 24 + n) % 2 ^ 64 = p + 24 + n :=
          Nat.mod_eq_of_lt (by omega)
        have hrest : HeaderInside app (p + 24 + n) :=
          headerInside_of_le (n := 0) (by omega) (by omega)
        rw [if_pos hsplit, if_pos hsplit, hM, hmod]
        cases bs with
        | nil => simp [hp, hrest]
        | cons c cs =>
          rw [span_cons] at hfit
          have hc : HeaderInside app (p + 24 + b.size) :=
            headerInside_of_le (n := c.size) (by omega) (by omega)
          simp [hp, hrest, hc]
      · -- passed over
        have hno : ¬ Suitable n b := by
          rintro ⟨hfree, hsize | hsize⟩
          · exact hexact ⟨hsize, hfree⟩
          · exact hsplit ⟨hsize, hfree⟩
        rw [if_neg hsplit, if_neg hsplit, visitBlock_pass hh hpos (by omega) hno]
        have hrest := @ih (p + 24 + b.size) fuel (some p) hs (by omega) hfit
          htail (by rw [List.length_cons] at hfuel; omega)
        simp only [List.singleton_append, List.forall_mem_cons]
        exact (and_iff_right hp).trans hrest

/-- **What a free accesses is inside** exactly if the header behind the last
block is, where the block freed is the last one. -/
theorem freeHeaders_inside_iff {l r : List Block} {b : Block}
    (h : HeapCells app s (l ++ b :: r)) :
    (∀ x ∈ freeHeaders app.addr s.mem (app.addr + 4 + span l),
        HeaderInside app x)
      ↔ (r = [] → HeaderInside app (app.addr + 4 + span (l ++ b :: r))) := by
  have happ := app.bound
  obtain ⟨-, ⟨hh, hpos, -⟩, -⟩ := segment_append.mp h.represents.segment
  have hfit := h.represents.fits
  have hspan : app.addr + 4 + span (l ++ b :: r)
      = app.addr + 4 + span l + 24 + b.size + span r := by
    rw [span_append, span_cons]
    omega
  rw [hspan] at hfit ⊢
  have hq : HeaderInside app (app.addr + 4 + span l) :=
    headerInside_of_le (n := b.size) (by omega) (by omega)
  have hprev : 0 ≤ b.prev →
      HeaderInside app (shmDataGetBlockPtr app.addr b.prev) := by
    intro hpos
    rcases h.prev_cases with ⟨-, hb⟩ | ⟨l, a, x, rfl, -, -, hptr, hx⟩
    · omega
    · rw [span_append, span_cons, span_nil] at hfit
      rw [hptr]
      exact headerInside_of_le (n := 0) (by omega) (by omega)
  unfold freeHeaders
  rw [hh.next (by omega), hh.prev]
  have hnext : HeaderInside app (app.addr + 4 + span l + 24 + b.size)
      ↔ (r = [] → HeaderInside app
        (app.addr + 4 + span l + 24 + b.size + span r)) := by
    cases r with
    | nil => simp
    | cons c r =>
      rw [span_cons] at hfit
      exact iff_of_true
        (headerInside_of_le (n := c.size) (by omega) (by omega)) (by simp)
  by_cases hb : 0 ≤ b.prev
  · rw [if_pos hb]
    simp [hq, hprev hb, hnext]
  · rw [if_neg hb]
    simp [hq, hnext]

/-! ## Runs -/

/-- A block is the last one exactly if its data ends where the chain does. -/
theorem span_eq_zero {r : List Block} : span r = 0 ↔ r = [] := by
  cases r with
  | nil => simp
  | cons c r =>
    rw [span_cons]
    exact iff_of_false (by omega) (by simp)

/-- **The step lemma**: a call stays inside if and only if it meets the
condition. -/
theorem HeapCells.headersInside_iff (h : HeapCells app s bs)
    (hs : CallStep app s op t) :
    HeadersInside app s op ↔ HeadersOk app s op := by
  have honly : HeadersOk app s op ↔
      (CallLooksAtEnd app bs op →
        HeaderInside app (app.addr + 4 + span bs)) := by
    refine ⟨fun hall => hall bs h.represents, fun hok bs' hrep => ?_⟩
    rwa [hrep.unique h.represents]
  rw [honly]
  obtain ⟨hcall, hs⟩ := hs
  cases op with
  | allocate n =>
    exact walkHeaders_inside_iff h.represents.segment (le_refl _)
      h.represents.fits h.represents.tail h.represents.length_lt
  | free block =>
    obtain ⟨l, b, r, rfl, rfl, -, -, -⟩ := h.of_free hs
    have hlast : CallLooksAtEnd app (l ++ b :: r)
        (.free (app.addr + 4 + span l, b.size)) ↔ r = [] := by
      rw [← span_eq_zero]
      show app.addr + 4 + span l + 24 + b.size
        = app.addr + 4 + span (l ++ b :: r) ↔ _
      rw [span_append, span_cons]
      omega
    rw [hlast]
    exact freeHeaders_inside_iff h
  | overwrite block i bytes => exact absurd hcall (by simp [HeapOp.isCall])

/-- **The allocator accesses no header outside the region** in the runs of
calls whose steps all meet the condition, and in no other ones. -/
theorem header_accesses_inside_iff {es : List HeapOp} :
    Run (Guarded (HeadersInside app) (CallStep app)) HeapState.zeroed es s
      ↔ Run (Guarded (HeadersOk app) (CallStep app)) HeapState.zeroed es s := by
  refine Run.guarded_iff (fun es u op v hrun hs => ?_)
  obtain ⟨bs, hcells⟩ := heapCells_of_run hrun
  exact hcells.headersInside_iff hs

/-- **A block that fills the region**: the next allocation reads the header
behind it, which starts where the region ends. -/
theorem header_behind_region_read :
    ¬ ∀ app es s op t, Run (CallStep app) HeapState.zeroed es s →
      CallStep app s op t → HeadersInside app s op := by
  intro hall
  have hs : (heapStep exampleRegion HeapState.zeroed
      (.allocate (shmAppSize - 28))).any (fun s =>
        exampleRegion.addr + shmAppSize
            ∈ callHeaders exampleRegion.addr s.mem (.allocate 1)
          ∧ (heapStep exampleRegion s (.allocate 1)).isSome) = true := by
    decide +kernel
  obtain ⟨s, hs, hs'⟩ := (Option.any_eq_true _ _).mp hs
  obtain ⟨hmem, ht⟩ := of_decide_eq_true hs'
  obtain ⟨t, ht⟩ := Option.isSome_iff_exists.mp ht
  have hin := hall exampleRegion _ s (.allocate 1) t
    (Run.single ⟨rfl, hs⟩) ⟨rfl, ht⟩ _ hmem
  exact absurd hin.2 (by decide)
