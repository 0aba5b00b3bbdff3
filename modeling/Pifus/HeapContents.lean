import Pifus.HeapCalls
import Pifus.Util.BlockStore

/-!
# The shared heap is a store of blocks

Headers and data share the bytes of the region, blocks are cut and joined, and
`memset` clears whole ranges. What the app is to see of all this is a store:
blocks of cleared bytes that change only where they are written.

That is a refinement. The contents of the live blocks are read off the memory
(`HeapState.store`), and every call of the allocator and every write of the app
is the step of the store that it is meant to be, as long as a freed block has
its back offset intact.
-/

open PifusMemoryBlock

variable {app : AppRegion} {s t : HeapState} {op : HeapOp} {q n : ℕ}

namespace HeapState

/-- The bytes of a block's data. -/
def data (s : HeapState) (block : Ptr × ℕ) : List UInt8 :=
  s.mem.bytes (shmDataGetDataPtr block.1) block.2

/-- **The store that the heap stands for**: the data of the live blocks. -/
def store (s : HeapState) : BlockStore Ptr UInt8 := fun q =>
  (s.live.find? (fun block => block.1 = q)).map s.data

end HeapState

/-- The store operation of a call, or of a write of the app. -/
def HeapOp.blockOp : HeapOp → BlockOp Ptr UInt8
  | .allocate n => .allocate n
  | .free block => .free block.1
  | .overwrite block i bytes => .overwrite block.1 i bytes

/-! ## Bytes of memory -/

namespace Memory

variable {m m' : Memory} {a i : ℕ} {bs : List UInt8}

@[simp] theorem length_bytes (m : Memory) (a n : ℕ) : (m.bytes a n).length = n := by
  rw [bytes, List.length_map, List.length_range]

theorem getElem?_bytes (m : Memory) (a n i : ℕ) :
    (m.bytes a n)[i]? = if i < n then some (m (a + i)) else none := by
  rw [bytes, List.getElem?_map]
  by_cases hi : i < n
  · rw [if_pos hi, List.getElem?_range hi, Option.map_some]
  · rw [if_neg hi, List.getElem?_eq_none (by rw [List.length_range]; omega),
      Option.map_none]

theorem bytes_congr (h : m.Agree m' a (a + n)) :
    m'.bytes a n = m.bytes a n := by
  refine List.map_congr_left (fun i hi => ?_)
  rw [List.mem_range] at hi
  exact (h (a + i) (by omega) (by omega)).symm

theorem bytes_of_zero (h : m.Zero a (a + n)) :
    m.bytes a n = List.replicate n 0 := by
  refine List.eq_replicate_iff.mpr ⟨length_bytes m a n, fun b hb => ?_⟩
  obtain ⟨i, hi, rfl⟩ := List.mem_map.mp hb
  rw [List.mem_range] at hi
  exact h _ (by omega) (by omega)

theorem bytes_copy (h : i + bs.length ≤ n) :
    (m.copy (a + i) bs).bytes a n = splice (m.bytes a n) i bs := by
  refine List.ext_getElem? (fun j => ?_)
  rw [getElem?_splice (by rwa [length_bytes]), getElem?_bytes, getElem?_bytes]
  by_cases hin : i ≤ j ∧ j < i + bs.length
  · have hj : a + j = a + i + (j - i) := by omega
    rw [if_pos hin, if_pos (by omega), hj, copy_apply (by omega),
      List.getElem?_eq_getElem (by omega)]
  · rw [if_neg hin, copy_apply_of_not_mem (by omega)]

end Memory

/-! ## Live blocks -/

theorem HeapInv.bounds (h : HeapInv app s) (hmem : (q, n) ∈ s.live) :
    app.addr + 4 ≤ q ∧ q + 24 + n ≤ app.addr + shmAppSize := by
  obtain ⟨bs, hrep, hlive⟩ := h
  have hb := liveOf_bounds (hlive.mem_iff.mp hmem)
  have hfits := hrep.fits
  omega

theorem HeapInv.dataPtr (h : HeapInv app s) (hmem : (q, n) ∈ s.live) :
    shmDataGetDataPtr q = q + 24 := by
  have hb := h.bounds hmem
  have happ := app.bound
  exact Nat.mod_eq_of_lt (show q + 24 < 2 ^ 64 by omega)

theorem HeapInv.size_unique {n' : ℕ} (h : HeapInv app s) (hmem : (q, n) ∈ s.live)
    (hmem' : (q, n') ∈ s.live) : n = n' := by
  obtain ⟨bs, -, hlive⟩ := h
  exact size_of_mem_liveOf (hlive.mem_iff.mp hmem) (hlive.mem_iff.mp hmem') rfl

theorem HeapInv.size_eq (h : HeapInv app s) (hmem : (q, n) ∈ s.live) :
    size s.mem q = n ∧ 0 < n := by
  obtain ⟨bs, hrep, hlive⟩ := h
  obtain ⟨l, b, r, rfl, rfl, -, rfl⟩ :=
    exists_append_of_mem_liveOf (hlive.mem_iff.mp hmem)
  have hseg := (segment_append.mp hrep.segment).2.1
  exact ⟨hseg.1.size, hseg.2.1⟩

theorem HeapInv.nodup (h : HeapInv app s) : s.live.Nodup := by
  obtain ⟨bs, -, hlive⟩ := h
  exact hlive.nodup_iff.mpr (nodup_liveOf _ _)

/-- Two live blocks are apart. -/
theorem HeapInv.apart {x n' : ℕ} (h : HeapInv app s) (hmem : (x, n') ∈ s.live)
    (hmem' : (q, n) ∈ s.live) (hne : x ≠ q) :
    x + 24 + n' ≤ q ∨ q + 24 + n ≤ x := by
  have hsymm : Std.Symm (fun x y : Ptr × ℕ =>
      x.1 + 24 + x.2 ≤ y.1 ∨ y.1 + 24 + y.2 ≤ x.1) := ⟨fun _ _ h => h.symm⟩
  exact h.disjoint.forall hmem hmem' (fun he => hne (congrArg Prod.fst he))

/-- **The contents of the store** are the data of the live blocks. -/
theorem HeapInv.store_eq_some_iff (h : HeapInv app s) {l : List UInt8} :
    s.store q = some l ↔ ∃ n, (q, n) ∈ s.live ∧ s.data (q, n) = l := by
  unfold HeapState.store
  constructor
  · intro hq
    obtain ⟨⟨q', n⟩, hfind, hl⟩ := Option.map_eq_some_iff.mp hq
    have hq' : q' = q := by simpa using List.find?_some hfind
    subst hq'
    exact ⟨n, List.mem_of_find?_eq_some hfind, hl⟩
  · rintro ⟨n, hmem, rfl⟩
    cases hfind : s.live.find? (fun block => block.1 = q) with
    | none =>
      have hnot := List.find?_eq_none.mp hfind (q, n) hmem
      exact absurd (decide_eq_true rfl) hnot
    | some block =>
      obtain ⟨q', n'⟩ := block
      have hq' : q' = q := by simpa using List.find?_some hfind
      subst hq'
      rw [h.size_unique hmem (List.mem_of_find?_eq_some hfind)]
      rfl

/-- The store of a heap is updated at one block, if the live blocks are. -/
theorem HeapInv.store_eq_update {v : Option (List UInt8)} (hs : HeapInv app s)
    (ht : HeapInv app t) (hself : t.store q = v)
    (hother : ∀ x n, x ≠ q → ((x, n) ∈ t.live ↔ (x, n) ∈ s.live)
      ∧ ((x, n) ∈ s.live → t.data (x, n) = s.data (x, n))) :
    t.store = Function.update s.store q v := by
  funext x
  by_cases hx : x = q
  · rw [hx, Function.update_self, hself]
  · rw [Function.update_of_ne hx]
    ext l
    rw [ht.store_eq_some_iff, hs.store_eq_some_iff]
    constructor
    · rintro ⟨n, hmem, rfl⟩
      have hmem' := (hother x n hx).1.mp hmem
      exact ⟨n, hmem', ((hother x n hx).2 hmem').symm⟩
    · rintro ⟨n, hmem, rfl⟩
      exact ⟨n, (hother x n hx).1.mpr hmem, (hother x n hx).2 hmem⟩

theorem HeapInv.data_eq (h : HeapInv app s) (hmem : (q, n) ∈ s.live)
    (hag : s.mem.Agree t.mem (q + 24) (q + 24 + n)) :
    t.data (q, n) = s.data (q, n) := by
  simp only [HeapState.data, h.dataPtr hmem]
  exact Memory.bytes_congr hag

/-! ## The steps -/

/-- An allocation is one of the store. -/
theorem HeapInv.refines_allocate (h : HeapInv app s)
    (hs : HeapStep app s (.allocate n) t) :
    BlockStore.Step 0 s.store (.allocate n) t.store := by
  have hok : BackOffsetIntact app s (.allocate n) := True.intro
  have ht : HeapInv app t := h.step hok hs
  obtain ⟨bs, hrep, hlive⟩ := id h
  rcases allocate_cases hs hrep with ⟨-, rfl⟩ | ⟨q, bs', -, hP, htl⟩
  · exact BlockStore.Step.full
  · obtain ⟨hmax, z, hcall⟩ := allocate_call hs htl
    have hmem : (q, n) ∈ t.live := by rw [htl]; exact List.mem_cons_self
    have hdis := ht.disjoint
    rw [htl, List.pairwise_cons] at hdis
    have hnew : s.store q = none := by
      refine Option.eq_none_iff_forall_ne_some.mpr (fun l hl => ?_)
      obtain ⟨n', hmem', -⟩ := h.store_eq_some_iff.mp hl
      have hapart : q + 24 + n ≤ q ∨ q + 24 + n' ≤ q := hdis.1 _ hmem'
      omega
    have hdata : t.store q = some (List.replicate n 0) := by
      refine ht.store_eq_some_iff.mpr ⟨n, hmem, ?_⟩
      simp only [HeapState.data, ht.dataPtr hmem]
      exact Memory.bytes_of_zero (shmDataAllocate_clear hrep hmax hcall)
    rw [h.store_eq_update ht hdata (fun x n' hx => ⟨?_, fun hmem' =>
      h.data_eq hmem' (hP.kept _ _ (hlive.mem_iff.mp hmem')).2⟩)]
    · exact BlockStore.Step.fresh hnew
    · rw [htl, List.mem_cons, Prod.mk.injEq]
      exact or_iff_right (fun he => hx he.1)

/-- Taking one block out of the live ones is a free of the store, if the other
blocks are kept. -/
theorem HeapInv.refines_erase (h : HeapInv app s) (ht : HeapInv app t)
    (hmem : (q, n) ∈ s.live) (htl : t.live = s.live.erase (q, n))
    (hkept : ∀ x k, (x, k) ∈ s.live → x ≠ q → Kept s.mem t.mem x k) :
    BlockStore.Step 0 s.store (.free q) t.store := by
  have hmem_iff : ∀ x, x ∈ t.live ↔ x ≠ (q, n) ∧ x ∈ s.live := by
    intro x
    rw [htl]
    exact h.nodup.mem_erase_iff
  have hgone : t.store q = none := by
    refine Option.eq_none_iff_forall_ne_some.mpr (fun l hl => ?_)
    obtain ⟨n', hmem', -⟩ := ht.store_eq_some_iff.mp hl
    obtain ⟨hne, hmem'⟩ := (hmem_iff _).mp hmem'
    exact hne (by rw [h.size_unique hmem' hmem])
  rw [h.store_eq_update ht hgone (fun x n' hx => ⟨?_, fun hmem' =>
    h.data_eq hmem' (hkept x n' hmem' hx).2⟩)]
  · exact BlockStore.Step.free (h.store_eq_some_iff.mpr ⟨n, hmem, rfl⟩)
  · rw [hmem_iff]
    exact and_iff_right (fun he => hx (congrArg Prod.fst he))

theorem free_live {block : Ptr × ℕ} (hs : HeapStep app s (.free block) t) :
    block ∈ s.live ∧ t.live = s.live.erase block := by
  rw [HeapStep, heapStep] at hs
  split at hs
  · rename_i hmem
    obtain rfl := Option.some.inj hs
    exact ⟨hmem, rfl⟩
  · exact absurd hs (by simp)

theorem HeapInv.refines_free {block : Ptr × ℕ} (h : HeapInv app s)
    (hok : BackOffsetIntact app s (.free block))
    (hs : HeapStep app s (.free block) t) :
    BlockStore.Step 0 s.store (.free block.1) t.store := by
  obtain ⟨hmem, htl⟩ := free_live hs
  refine h.refines_erase (h.step hok hs) hmem htl (fun x k hmem' hx => ?_)
  exact (h.isolated hok hs (by simp) hmem' (fun he =>
    hx (congrArg Prod.fst (HeapOp.free.inj he)).symm)).1

/-- A write of the app is one of the store. -/
theorem HeapInv.refines_overwrite {block : Ptr × ℕ} {i : ℕ}
    {bytes : List UInt8} (h : HeapInv app s)
    (hs : HeapStep app s (.overwrite block i bytes) t) :
    BlockStore.Step 0 s.store (.overwrite block.1 i bytes) t.store := by
  have hok : BackOffsetIntact app s (.overwrite block i bytes) := True.intro
  have ht : HeapInv app t := h.step hok hs
  obtain ⟨q, n⟩ := block
  have hwrite : ((q, n) ∈ s.live ∧ i + bytes.length ≤ n)
      ∧ t = ⟨s.mem.copy (shmDataGetDataPtr q + i) bytes, s.live⟩ := by
    rw [HeapStep, heapStep] at hs
    split at hs
    · rename_i hin
      exact ⟨hin, (Option.some.inj hs).symm⟩
    · exact absurd hs (by simp)
  obtain ⟨⟨hmem, hi⟩, rfl⟩ := hwrite
  have hself : HeapState.store ⟨s.mem.copy (shmDataGetDataPtr q + i) bytes,
      s.live⟩ q = some (splice (s.data (q, n)) i bytes) :=
    ht.store_eq_some_iff.mpr ⟨n, hmem, Memory.bytes_copy hi⟩
  rw [h.store_eq_update ht hself (fun x n' hx => ⟨Iff.rfl, fun hmem' => ?_⟩)]
  · refine BlockStore.Step.overwrite
      (h.store_eq_some_iff.mpr ⟨n, hmem, rfl⟩) ?_
    rw [HeapState.data, Memory.length_bytes]
    exact hi
  · refine h.data_eq hmem' ?_
    rw [h.dataPtr hmem]
    refine Memory.agree_copy ?_
    have := h.apart hmem' hmem hx
    omega

/-- **Every step of the heap is the step of the store that it is meant to
be.** -/
theorem HeapInv.refines (h : HeapInv app s) (hs : IntactStep app s op t) :
    BlockStore.Step 0 s.store op.blockOp t.store := by
  obtain ⟨hok, hs⟩ := hs
  cases op with
  | allocate n => exact h.refines_allocate hs
  | free block => exact h.refines_free hok hs
  | overwrite block i bytes => exact h.refines_overwrite hs

theorem HeapInv.refines_run {es : List HeapOp} (h : HeapInv app s)
    (hrun : Run (IntactStep app) s es t) :
    HeapInv app t
    ∧ Run (BlockStore.Step 0) s.store (es.map HeapOp.blockOp) t.store := by
  induction hrun with
  | nil => exact ⟨h, Run.nil⟩
  | snoc _ hs ih =>
    rw [List.map_append]
    exact ⟨ih.1.step hs.1 hs.2, ih.2.snoc (ih.1.refines hs)⟩

/-- **The shared heap refines a store of independent blocks.** In every run in
which each freed block has its back offset intact, a block is handed out with
all its bytes clear, its data changes only when the app writes it, and then to
what the app has written. -/
theorem heap_refines_store {es : List HeapOp}
    (h : Run (IntactStep app) HeapState.zeroed es s) :
    Run (BlockStore.Step 0) (fun _ => none) (es.map HeapOp.blockOp) s.store :=
  (heapInv_zeroed.refines_run h).2

/-- Two blocks; the second is written, and the first freed. -/
theorem heap_refines_store_two :
    ∃ s : HeapState, s.store 4100 = none ∧ s.store 4127 = some [7, 0]
      ∧ Run (BlockStore.Step 0) (fun _ => none) [.allocate 3, .allocate 2,
          .overwrite 4127 0 [7], .free 4100] s.store := by
  have hs : (([.allocate 3, .allocate 2, .overwrite (4127, 2) 0 [7],
      .free (4100, 3)] : List HeapOp).foldlM
      (guardedStep (FreesFirst exampleRegion) (heapStep exampleRegion))
      HeapState.zeroed).any
      (fun s => s.store 4100 = none ∧ s.store 4127 = some [7, 0]) = true := by
    decide +kernel
  obtain ⟨s, hrun, hp⟩ := (Option.any_eq_true _ _).mp hs
  obtain ⟨hfreed, hkept⟩ := of_decide_eq_true hp
  exact ⟨s, hfreed, hkept, heap_refines_store (run_of_freesFirst hrun)⟩
