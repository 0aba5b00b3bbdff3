import Pifus.HeapCalls

/-!
# The capacity of the shared heap

Once an app has given back everything, it should be able to allocate what a
fresh region would give it. `shm_data_free` returns bytes to the unused tail
in one case only, that of a block with no block before it and none behind it.
Every other free leaves a free block in the chain, and a chain of free blocks
never serves the largest sizes again: the header at its end takes twenty-four
bytes more.

So what counts is the last free. If the block it gives back is alone in the
chain, the region is as good as new, and if it is not, capacity is lost.
-/

open PifusMemoryBlock

variable (app : AppRegion)

/-- An allocation of the size succeeds. -/
def Allocates (m : Memory) (n : ℕ) : Prop :=
  ∃ r M, shmDataAllocate app.addr m n = some (some r, M)

/-- **No capacity is lost**: every size that a fresh region serves is
served. -/
def KeepsCapacity (m : Memory) : Prop :=
  ∀ n, n < 2 ^ 64 → Allocates app HeapState.zeroed.mem n → Allocates app m n

/-- The steps that lose no capacity: the last live block is freed only if it
has neither a block before it nor one behind it. -/
def CapacityOk (s : HeapState) : HeapOp → Prop
  | .free block => s.live = [block] → prevBlockOffset s.mem block.1 < 0
      ∧ existingNextBlock s.mem app.addr block.1 = none
  | _ => True

instance (s : HeapState) (op : HeapOp) : Decidable (CapacityOk app s op) :=
  match op with
  | .free _ => inferInstanceAs (Decidable (_ → _ ∧ _))
  | .allocate _ | .overwrite _ _ _ => isTrue trivial

variable {app} {s t : HeapState} {op : HeapOp} {m : Memory} {n : ℕ}
  {bs : List Block}

/-! ## Chains of free blocks -/

/-- A chain takes a header for each block, and the data of any of them. -/
theorem size_add_le_span {b : Block} (hb : b ∈ bs) :
    24 * bs.length + b.size ≤ span bs := by
  induction bs with
  | nil => exact absurd hb (by simp)
  | cons c bs ih =>
    rw [List.length_cons, span_cons]
    rcases List.mem_cons.mp hb with rfl | hb
    · have hlen := length_le_span bs
      omega
    · have hrest := ih hb
      omega

/-- An allocation no block is suitable for succeeds exactly if the new block
fits behind the chain, the sum taken modulo `2 ^ 64`. -/
theorem allocates_pass (h : Represents app m bs)
    (hno : ∀ b ∈ bs, ¬ Suitable n b) :
    Allocates app m n ↔
      (app.addr + 4 + span bs + 24 + n) % 2 ^ 64 ≤ app.addr + shmAppSize := by
  rcases shmDataAllocate_pass h hno with ⟨hout, hcall⟩ | ⟨hin, r, M, hcall⟩
  · refine iff_of_false ?_ (by omega)
    rintro ⟨r, M, hcall'⟩
    rw [hcall] at hcall'
    exact absurd hcall' (by simp)
  · exact iff_of_true ⟨r, M, hcall⟩ hin

/-- A fresh region serves every size up to the whole of it. -/
theorem allocates_zeroed (hn : n + 28 ≤ shmAppSize) :
    Allocates app HeapState.zeroed.mem n := by
  have happ := app.bound
  have hsmall : shmAppSize = 1000000 := rfl
  refine (allocates_pass represents_zeroed (fun b hb => ?_)).mpr ?_
  · exact absurd hb (by simp)
  · rw [span_nil, Nat.mod_eq_of_lt (by omega)]
    omega

/-- **A chain of free blocks serves the two largest sizes never both**: for
one of them no block is suitable, and behind the chain there is no room. -/
theorem exists_not_allocates (h : Represents app m bs) (hne : bs ≠ []) :
    ∃ n, n + 28 ≤ shmAppSize ∧ ¬ Allocates app m n := by
  have happ := app.bound
  have hsmall : shmAppSize = 1000000 := rfl
  have hfits := h.fits
  have hlen : 0 < bs.length := List.length_pos_iff.mpr hne
  have hspan := length_le_span bs
  have hsize : ∀ b ∈ bs, 24 * bs.length + b.size ≤ span bs :=
    fun b hb => size_add_le_span hb
  -- a size that no block has, and that leaves no room for a header either
  obtain ⟨n, hn, hn', hexact⟩ : ∃ n, n + 28 ≤ shmAppSize
      ∧ shmAppSize ≤ n + 29 ∧ ∀ b ∈ bs, b.size ≠ n := by
    by_cases hall : ∀ b ∈ bs, b.size ≠ shmAppSize - 28
    · exact ⟨shmAppSize - 28, by omega, by omega, hall⟩
    · obtain ⟨b, hb, hbsize⟩ : ∃ b ∈ bs, b.size = shmAppSize - 28 := by
        simpa using hall
      refine ⟨shmAppSize - 29, by omega, by omega, fun c hc hcsize => ?_⟩
      have hb' := hsize b hb
      obtain ⟨d, rfl⟩ : ∃ d, bs = [d] :=
        List.length_eq_one_iff.mp (by omega)
      rw [List.mem_singleton] at hb hc
      rw [← hb] at hc
      rw [hc, hbsize] at hcsize
      omega
  refine ⟨n, hn, fun hcall => ?_⟩
  have hno : ∀ b ∈ bs, ¬ Suitable n b := by
    rintro b hb ⟨-, heq | hlt⟩
    · exact hexact b hb heq
    · have hb' := hsize b hb
      omega
  have hend := (allocates_pass h hno).mp hcall
  rw [Nat.mod_eq_of_lt (by omega)] at hend
  omega

/-- **Capacity is whole exactly if the chain is empty**. -/
theorem keepsCapacity_iff (h : Represents app m bs) :
    KeepsCapacity app m ↔ bs = [] := by
  constructor
  · intro hkeep
    by_contra hne
    obtain ⟨n, hn, hnot⟩ := exists_not_allocates h hne
    have hsmall : shmAppSize = 1000000 := rfl
    exact hnot (hkeep n (by omega) (allocates_zeroed hn))
  · rintro rfl n - hcall
    have hno : ∀ b ∈ ([] : List Block), ¬ Suitable n b :=
      fun b hb => absurd hb (by simp)
    exact (allocates_pass h hno).mpr
      ((allocates_pass represents_zeroed hno).mp hcall)

/-! ## The last free -/

theorem absorbNext_ne_nil (b : Block) (r : List Block) :
    absorbNext b r ≠ [] := by
  cases r with
  | nil => simp [absorbNext]
  | cons c r =>
    rw [absorbNext]
    split <;> simp

/-- Freeing a block leaves no block only if it was alone. -/
theorem freed_eq_nil {l r : List Block} {b : Block}
    (h : HeapCells app s (l ++ b :: r)) :
    freed app l b r = [] ↔ l = [] ∧ r = [] := by
  rcases List.eq_nil_or_concat l with rfl | ⟨l, a, rfl⟩
  · have hb : b.prev = lastLink app (-1) (app.addr + 4) [] := h.links.1
    rw [freed, if_pos hb]
    cases r with
    | nil => exact iff_of_true rfl ⟨rfl, rfl⟩
    | cons c r =>
      exact iff_of_false (absorbNext_ne_nil b (c :: r)) (by simp)
  · rw [List.concat_eq_append]
    refine iff_of_false ?_ (by simp)
    rw [freed]
    split
    · rw [release_append, release]
      split <;> simp [absorbNext_ne_nil]
    · simp

/-- **What the code tests before it deletes a block** says that the block is
alone in the chain. -/
theorem alone_iff {l r : List Block} {b : Block}
    (h : HeapCells app s (l ++ b :: r)) :
    (prevBlockOffset s.mem (app.addr + 4 + span l) < 0
      ∧ existingNextBlock s.mem app.addr (app.addr + 4 + span l) = none)
    ↔ l = [] ∧ r = [] := by
  have hseg := (segment_append.mp h.represents.segment).2
  have hfit := h.represents.fits
  have htail := h.represents.tail
  have hspan : app.addr + 4 + span (l ++ b :: r)
      = app.addr + 4 + span l + span (b :: r) := by
    rw [span_append]; omega
  rw [hspan] at hfit htail
  rw [hseg.1.1.prev, existingNextBlock_eq hseg hfit htail]
  have hprev : b.prev < 0 ↔ l = [] := by
    rcases h.prev_cases with ⟨rfl, hb⟩ | ⟨l, a, x, rfl, hpos, -⟩
    · exact iff_of_true (by omega) rfl
    · exact iff_of_false (by omega) (by simp)
  rw [hprev]
  cases r <;> simp

/-- A live list that one free empties has one block. -/
theorem HeapCells.last_free {block : Ptr × ℕ}
    (hs : HeapStep app s (.free block) t) (hlive : t.live = []) :
    s.live = [block] := by
  rw [HeapStep, heapStep] at hs
  split at hs
  · rename_i hmem
    rw [← Option.some.inj hs] at hlive
    dsimp only at hlive
    have hlen := List.length_erase_of_mem hmem
    rw [hlive, List.length_nil] at hlen
    obtain ⟨x, hx⟩ : ∃ x, s.live = [x] := List.length_eq_one_iff.mp (by
      have hpos := List.length_pos_of_mem hmem
      omega)
    rw [hx, List.mem_singleton] at hmem
    rw [hx, hmem]
  · exact absurd hs (by simp)

/-- **The free that gives back the last block** empties the chain exactly if
it meets the condition. -/
theorem HeapCells.capacity_free {block : Ptr × ℕ} (h : HeapCells app s bs)
    (hs : HeapStep app s (.free block) t) (hlive : t.live = []) :
    ∃ bs', HeapCells app t bs'
      ∧ (bs' = [] ↔ CapacityOk app s (.free block)) := by
  obtain ⟨l, b, r, rfl, rfl, -, hcells, -⟩ := h.of_free hs
  refine ⟨_, hcells, ?_⟩
  have hlast := HeapCells.last_free hs hlive
  rw [freed_eq_nil h, ← alone_iff h, CapacityOk]
  exact ⟨fun halone _ => halone, fun hok => hok hlast⟩

/-! ## Runs -/

/-- **The capacity invariant**: with no live block there is no block. -/
def CapacityInv (app : AppRegion) (s : HeapState) : Prop :=
  ∃ bs, HeapCells app s bs ∧ (s.live = [] → bs = [])

/-- **The step lemma**: where nothing is live afterwards, capacity is whole
exactly if the step meets the condition. -/
theorem CapacityInv.step_iff (h : CapacityInv app s)
    (hs : CallStep app s op t) (hlive : t.live = []) :
    KeepsCapacity app t.mem ↔ CapacityOk app s op := by
  obtain ⟨bs, hcells, hnil⟩ := h
  obtain ⟨hcall, hs⟩ := hs
  cases op with
  | allocate n =>
    rcases hcells.of_allocate hs with ⟨-, rfl⟩ | ⟨q, bs', -, -, htl⟩
    · refine iff_of_true ((keepsCapacity_iff hcells.represents).mpr ?_) trivial
      exact hnil hlive
    · rw [htl] at hlive
      exact absurd hlive (by simp)
  | free block =>
    obtain ⟨bs', hcells', hiff⟩ := hcells.capacity_free hs hlive
    rw [keepsCapacity_iff hcells'.represents, hiff]
  | overwrite block i bytes => exact absurd hcall (by simp [HeapOp.isCall])

theorem CapacityInv.step (h : CapacityInv app s) (hok : CapacityOk app s op)
    (hs : CallStep app s op t) : CapacityInv app t := by
  obtain ⟨bs', hcells'⟩ : ∃ bs', HeapCells app t bs' := by
    obtain ⟨bs, hcells, -⟩ := h
    exact hcells.step hs
  refine ⟨bs', hcells', fun hlive => ?_⟩
  exact (keepsCapacity_iff hcells'.represents).mp
    ((h.step_iff hs hlive).mpr hok)

/-- **The shared heap leaks no capacity** in every run of calls in which a last
block is freed only alone in the chain. And of the last free of any run of
calls: with nothing live behind it, capacity is whole if and only if the block
was alone. -/
theorem capacity_kept_iff :
    (∀ es s, Run (Guarded (CapacityOk app) (CallStep app)) HeapState.zeroed es s →
      s.live = [] → KeepsCapacity app s.mem)
    ∧ ∀ es s block t, Run (CallStep app) HeapState.zeroed es s →
        HeapStep app s (.free block) t → t.live = [] →
        (KeepsCapacity app t.mem ↔ CapacityOk app s (.free block)) := by
  constructor
  · intro es s h hlive
    obtain ⟨bs, hcells, hnil⟩ : CapacityInv app s :=
      h.invariant (CapacityInv app) ⟨[], heapCells_zeroed, fun _ => rfl⟩
        (fun _ _ _ hI hs => hI.step hs.1 hs.2)
    exact (keepsCapacity_iff hcells.represents).mpr (hnil hlive)
  · intro es s block t h hs hlive
    obtain ⟨bs, hcells⟩ := heapCells_of_run h
    obtain ⟨bs', hcells', hiff⟩ := hcells.capacity_free hs hlive
    rw [keepsCapacity_iff hcells'.represents, hiff]

/-- Two blocks, one after the other: the whole region is left. And two at the
same time, of which one free block of 224 bytes is left: when this is handed out
and freed again, the whole region is back. -/
theorem capacity_kept_iff_two :
    (∃ s, s.live = []
      ∧ Run (CallStep exampleRegion) HeapState.zeroed [.allocate 100,
        .free (4100, 100), .allocate 8, .free (4100, 8)] s
      ∧ KeepsCapacity exampleRegion s.mem)
    ∧ ∃ t, t.live = []
      ∧ Run (CallStep exampleRegion) HeapState.zeroed [.allocate 100,
        .allocate 100, .free (4224, 100), .free (4100, 100), .allocate 224,
        .free (4100, 224)] t
      ∧ KeepsCapacity exampleRegion t.mem := by
  constructor
  · have hs : (([.allocate 100, .free (4100, 100), .allocate 8,
        .free (4100, 8)] : List HeapOp).foldlM (guardedStep
          (fun s op => CapacityOk exampleRegion s op ∧ op.isCall = true)
          (heapStep exampleRegion)) HeapState.zeroed).any
        (fun s => s.live = []) = true := by decide +kernel
    obtain ⟨s, hrun, hlive⟩ := (Option.any_eq_true _ _).mp hs
    have hlive := of_decide_eq_true hlive
    have hrun : Run (Guarded (CapacityOk exampleRegion)
        (CallStep exampleRegion)) HeapState.zeroed _ s :=
      (Run.guarded_of_foldlM hrun).mono (fun _ _ _ h => ⟨h.1.1, h.1.2, h.2⟩)
    exact ⟨s, hlive, hrun.of_guarded, capacity_kept_iff.1 _ s hrun hlive⟩
  · have hs : (([.allocate 100, .allocate 100, .free (4224, 100),
        .free (4100, 100), .allocate 224] : List HeapOp).foldlM (guardedStep
          (fun _ op => op.isCall = true) (heapStep exampleRegion))
        HeapState.zeroed).any (fun s =>
          CapacityOk exampleRegion s (.free (4100, 224))
          ∧ (heapStep exampleRegion s (.free (4100, 224))).any
            (fun t => t.live = [])) = true := by decide +kernel
    obtain ⟨s, hrun, hp⟩ := (Option.any_eq_true _ _).mp hs
    obtain ⟨hok, ht⟩ := of_decide_eq_true hp
    obtain ⟨t, ht, hlive⟩ := (Option.any_eq_true _ _).mp ht
    have hlive := of_decide_eq_true hlive
    have hrun : Run (CallStep exampleRegion) HeapState.zeroed _ s :=
      Run.guarded_of_foldlM hrun
    exact ⟨t, hlive, hrun.snoc ⟨rfl, ht⟩,
      (capacity_kept_iff.2 _ s _ t hrun ht hlive).mpr hok⟩

/-- **Two blocks, the second freed and then the first**: one free block stays
behind, and the largest size is refused from then on. -/
theorem freed_blocks_stay_in_chain :
    ¬ ∀ app es s, Run (CallStep app) HeapState.zeroed es s → s.live = [] →
      KeepsCapacity app s.mem := by
  intro hall
  have hs : (([.allocate 100, .allocate 100, .free (4224, 100),
      .free (4100, 100)] : List HeapOp).foldlM (guardedStep
        (fun _ op => op.isCall = true) (heapStep exampleRegion))
      HeapState.zeroed).any (fun s => s.live = []
        ∧ (shmDataAllocate exampleRegion.addr s.mem (shmAppSize - 28)).all
          (fun r => r.1 = none)) = true := by decide +kernel
  obtain ⟨s, hrun, hs⟩ := (Option.any_eq_true _ _).mp hs
  obtain ⟨hlive, hnone⟩ := of_decide_eq_true hs
  have hkeep := hall exampleRegion _ s (Run.guarded_of_foldlM hrun) hlive
  obtain ⟨r, M, hcall⟩ := hkeep (shmAppSize - 28) (by decide)
    (allocates_zeroed (by decide))
  rw [hcall] at hnone
  exact absurd hnone (by simp)
