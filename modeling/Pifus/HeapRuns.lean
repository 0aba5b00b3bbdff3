import Pifus.BlockFree
import Pifus.Util.Transition

/-!
# Runs of the shared heap

An app allocates blocks, frees blocks that are live, and writes what it likes
into the data of live blocks, in any order. This file carries the two
refinements – `shm_data_allocate` is first fit, `shm_data_free` is `release`
– along such runs.

What they need is that the region represents a list of blocks whose live
blocks are the ones the app holds (`HeapInv`). It is kept by every step that
frees no block with a stale back offset, and it is all that the isolation of
live blocks needs (`live_blocks_isolated`).
-/

open PifusMemoryBlock

/-- The bytes of the region and the live blocks an app holds: the header of
each and the size it was asked for. -/
structure HeapState where
  mem : Memory
  live : List (Ptr × ℕ)

/-- A call of the allocator, or a write of the app into its own data. -/
inductive HeapOp
  | allocate (n : ℕ)
  | free (block : Ptr × ℕ)
  | overwrite (block : Ptr × ℕ) (i : ℕ) (bytes : List UInt8)

/-- A region fresh from `shm_open`: all zero, nothing allocated. -/
def HeapState.zeroed : HeapState := ⟨fun _ => 0, []⟩

/-- **A step of the app.** A size is between one and `SHM_APP_SIZE`, a block
that is freed or written is live, and a write stays inside its data. -/
def heapStep (app : AppRegion) (s : HeapState) : HeapOp → Option HeapState
  | .allocate n =>
    if 0 < n ∧ n ≤ shmAppSize then
      (shmDataAllocate app.addr s.mem n).map (fun r =>
        ⟨r.2, (r.1.map (fun b => (b.2, n))).toList ++ s.live⟩)
    else none
  | .free block =>
    if block ∈ s.live then
      some ⟨shmDataFree app.addr s.mem block.1, s.live.erase block⟩
    else none
  | .overwrite block i bytes =>
    if block ∈ s.live ∧ i + bytes.length ≤ block.2 then
      some ⟨s.mem.copy (shmDataGetDataPtr block.1 + i) bytes, s.live⟩
    else none

/-- The steps as a relation. -/
def HeapStep (app : AppRegion) (s : HeapState) (op : HeapOp) (t : HeapState) :
    Prop :=
  heapStep app s op = some t

/-- The state a list of steps leads to, if all of them can be taken. -/
def heapRun (app : AppRegion) (s : HeapState) (ops : List HeapOp) :
    Option HeapState :=
  ops.foldlM (heapStep app) s

variable {app : AppRegion} {s t : HeapState} {op : HeapOp}

theorem run_of_heapRun {ops : List HeapOp} (h : heapRun app s ops = some t) :
    Run (HeapStep app) s ops t :=
  Run.of_foldlM h

/-! ## The invariant of the live blocks -/

/-- **The heap invariant**: the region represents a list of blocks, and its
live blocks are the ones the app holds. -/
def HeapInv (app : AppRegion) (s : HeapState) : Prop :=
  ∃ bs, Represents app s.mem bs ∧ s.live.Perm (liveOf (app.addr + 4) bs)

/-- The back offset of a freed block names the block directly before it. -/
def BackOffsetIntact (app : AppRegion) (s : HeapState) : HeapOp → Prop
  | .free block => ∀ l b r, Represents app s.mem (l ++ b :: r) →
      block.1 = app.addr + 4 + span l →
      prevBlockOffset s.mem block.1 = lastLink app (-1) (app.addr + 4) l
  | _ => True

/-- **What a call leaves of another live block**: its flag, its size and all
of its data, and its back offset too, unless that is set to the block which
is now directly before it. -/
def Isolated (app : AppRegion) (s t : HeapState) (block : Ptr × ℕ) : Prop :=
  Kept s.mem t.mem block.1 block.2 ∧ ∃ bs, Represents app t.mem bs
    ∧ LinkKept app s.mem t.mem (app.addr + 4) bs block.1

theorem represents_zeroed : Represents app HeapState.zeroed.mem [] := by
  have happ := app.bound
  refine ⟨trivial, ?_, fun _ _ _ => rfl⟩
  show app.addr + 4 + 0 ≤ app.addr + shmAppSize
  simp only [shmAppSize]
  omega

theorem heapInv_zeroed : HeapInv app HeapState.zeroed :=
  ⟨[], represents_zeroed, List.Perm.refl _⟩

/-- What an allocation did to the list of blocks. -/
theorem allocate_cases {n : ℕ} {bs : List Block}
    (hs : HeapStep app s (.allocate n) t) (hrep : Represents app s.mem bs) :
    (place app n none (app.addr + 4) bs = none ∧ t = s)
    ∨ ∃ q bs', place app n none (app.addr + 4) bs = some (q, bs')
        ∧ Placed app s.mem t.mem (app.addr + 4) q n bs bs'
        ∧ t.live = (q, n) :: s.live := by
  rw [HeapStep, heapStep] at hs
  by_cases hn : 0 < n ∧ n ≤ shmAppSize
  · rw [if_pos hn] at hs
    have hspec := shmDataAllocate_place hrep hn.1 hn.2
    cases hplace : place app n none (app.addr + 4) bs with
    | none =>
      rw [hplace] at hspec
      simp only [hspec, Option.map_some, Option.map_none, Option.toList_none,
        List.nil_append] at hs
      exact Or.inl ⟨rfl, (Option.some.inj hs).symm⟩
    | some r =>
      obtain ⟨q, bs'⟩ := r
      rw [hplace] at hspec
      obtain ⟨M, hM, hP⟩ := hspec
      simp only [hM, Option.map_some, Option.toList_some, List.cons_append,
        List.nil_append] at hs
      obtain rfl := Option.some.inj hs
      exact Or.inr ⟨q, bs', rfl, hP, rfl⟩
  · rw [if_neg hn] at hs
    exact absurd hs (by simp)

/-- What a free did to the list of blocks. -/
theorem free_cases {block : Ptr × ℕ} {bs : List Block}
    (hs : HeapStep app s (.free block) t) (hrep : Represents app s.mem bs)
    (hlive : s.live.Perm (liveOf (app.addr + 4) bs))
    (hok : BackOffsetIntact app s (.free block)) :
    ∃ l b r, bs = l ++ b :: r ∧ block.1 = app.addr + 4 + span l
      ∧ b.free = false ∧ b.prev = lastLink app (-1) (app.addr + 4) l
      ∧ Released app s.mem t.mem (app.addr + 4) block.1 block.2 bs
          (release l b r)
      ∧ t.live = s.live.erase block := by
  obtain ⟨q, n⟩ := block
  rw [HeapStep, heapStep] at hs
  by_cases hmem : (q, n) ∈ s.live
  · rw [if_pos hmem] at hs
    obtain rfl := Option.some.inj hs
    obtain ⟨l, b, r, rfl, hq, hb, rfl⟩ :=
      exists_append_of_mem_liveOf (hlive.mem_iff.mp hmem)
    have hhead : HeaderAt s.mem q b := by
      rw [hq]
      exact (segment_append.mp hrep.segment).2.1.1
    have hprev : b.prev = lastLink app (-1) (app.addr + 4) l := by
      rw [← hhead.prev]
      exact hok l b r hrep hq
    have hR := shmDataFree_release hrep hb hq hprev
    refine ⟨l, b, r, rfl, hq, hb, hprev, ?_, rfl⟩
    dsimp only
    exact hR
  · rw [if_neg hmem] at hs
    exact absurd hs (by simp)

/-- **Writing the data of a live block** changes no header and no byte of
another block. -/
theorem Represents.copy {m : Memory} {bs : List Block} {q n i : ℕ}
    {bytes : List UInt8} (h : Represents app m bs)
    (hmem : (q, n) ∈ liveOf (app.addr + 4) bs) (hi : i + bytes.length ≤ n) :
    Represents app (m.copy (shmDataGetDataPtr q + i) bytes) bs := by
  have happ := app.bound
  have hb := liveOf_bounds hmem
  have hfits := h.fits
  obtain ⟨l, b, r, rfl, hq, hfree, rfl⟩ := exists_append_of_mem_liveOf hmem
  have hdata : shmDataGetDataPtr q = q + 24 :=
    Nat.mod_eq_of_lt (show q + 24 < 2 ^ 64 by omega)
  have hag : ∀ lo hi, hi ≤ q + 24 ∨ q + 24 + b.size ≤ lo →
      m.Agree (m.copy (q + 24 + i) bytes) lo hi :=
    fun lo hi hout => Memory.agree_copy (by omega)
  rw [hdata]
  obtain ⟨hl, ⟨hh, hpos, -⟩, hr⟩ := segment_append.mp h.segment
  rw [← hq] at hh hr
  refine ⟨segment_append.mpr ⟨hl.congr (hag _ _ (by omega)), ?_⟩, h.fits,
    h.tail.congr (hag _ _ (by omega))⟩
  rw [← hq]
  refine ⟨⟨hh.congr (hag _ _ (by omega)), hpos, fun hf => ?_⟩,
    hr.congr (hag _ _ (by omega))⟩
  rw [hfree] at hf
  exact absurd hf (by simp)

theorem overwrite_cases {block : Ptr × ℕ} {i : ℕ} {bytes : List UInt8}
    {bs : List Block} (hs : HeapStep app s (.overwrite block i bytes) t)
    (hrep : Represents app s.mem bs)
    (hlive : s.live.Perm (liveOf (app.addr + 4) bs)) :
    Represents app t.mem bs ∧ t.live = s.live := by
  rw [HeapStep, heapStep] at hs
  by_cases hmem : block ∈ s.live ∧ i + bytes.length ≤ block.2
  · rw [if_pos hmem] at hs
    obtain rfl := Option.some.inj hs
    exact ⟨hrep.copy (hlive.mem_iff.mp hmem.1) hmem.2, rfl⟩
  · rw [if_neg hmem] at hs
    exact absurd hs (by simp)

/-- **Every step keeps the heap invariant**, if a freed block has its back
offset intact. -/
theorem HeapInv.step (h : HeapInv app s) (hok : BackOffsetIntact app s op)
    (hs : HeapStep app s op t) : HeapInv app t := by
  obtain ⟨bs, hrep, hlive⟩ := h
  cases op with
  | allocate n =>
    rcases allocate_cases hs hrep with ⟨-, rfl⟩ | ⟨q, bs', -, hP, htl⟩
    · exact ⟨bs, hrep, hlive⟩
    · refine ⟨bs', ⟨hP.segment, hP.fits, hP.tail⟩, ?_⟩
      rw [htl]
      exact (hlive.cons _).trans hP.live.symm
  | free block =>
    obtain ⟨l, b, r, rfl, -, -, -, hR, htl⟩ := free_cases hs hrep hlive hok
    refine ⟨release l b r, ⟨hR.segment, hR.fits, hR.tail⟩, ?_⟩
    have herase := (hlive.trans hR.live).erase block
    rwa [List.erase_cons_head, ← htl] at herase
  | overwrite block i bytes =>
    obtain ⟨hrep', htl⟩ := overwrite_cases hs hrep hlive
    exact ⟨bs, hrep', by rwa [htl]⟩

theorem HeapInv.disjoint (h : HeapInv app s) :
    s.live.Pairwise (fun x y =>
      x.1 + 24 + x.2 ≤ y.1 ∨ y.1 + 24 + y.2 ≤ x.1) := by
  obtain ⟨bs, -, hlive⟩ := h
  exact (hlive.symm.pairwise_iff (fun h => h.symm)).mp
    ((pairwise_liveOf _ bs).imp Or.inl)

/-- **The allocator returns**: the walk of the heap ends, whether or not it
finds room. -/
theorem HeapInv.allocate_returns {n : ℕ} (h : HeapInv app s) (hn : 0 < n)
    (hmax : n ≤ shmAppSize) : ∃ t, HeapStep app s (.allocate n) t := by
  obtain ⟨bs, hrep, -⟩ := h
  have hspec := shmDataAllocate_place hrep hn hmax
  simp only [HeapStep, heapStep, if_pos (And.intro hn hmax)]
  cases hplace : place app n none (app.addr + 4) bs with
  | none =>
    rw [hplace] at hspec
    exact ⟨_, by rw [hspec]; rfl⟩
  | some r =>
    rw [hplace] at hspec
    obtain ⟨M, hM, -⟩ := hspec
    exact ⟨_, by rw [hM]; rfl⟩

/-- **A call isolates the other live blocks.** -/
theorem HeapInv.isolated (h : HeapInv app s) (hok : BackOffsetIntact app s op)
    (hs : HeapStep app s op t) (hcall : ∀ block i bytes,
      op ≠ .overwrite block i bytes) {block : Ptr × ℕ}
    (hmem : block ∈ s.live) (hother : op ≠ .free block) :
    Isolated app s t block := by
  obtain ⟨bs, hrep, hlive⟩ := h
  have hblock := hlive.mem_iff.mp hmem
  cases op with
  | allocate n =>
    rcases allocate_cases hs hrep with ⟨-, rfl⟩ | ⟨q, bs', -, hP, -⟩
    · exact ⟨⟨Memory.Agree.refl _ _ _, Memory.Agree.refl _ _ _⟩, bs, hrep,
        Or.inl (Memory.Agree.refl _ _ _)⟩
    · exact ⟨hP.kept _ _ hblock, bs', ⟨hP.segment, hP.fits, hP.tail⟩,
        hP.link _ _ hblock⟩
  | free freed =>
    obtain ⟨l, b, r, rfl, -, -, -, hR, -⟩ := free_cases hs hrep hlive hok
    have hfreed : freed ∈ liveOf (app.addr + 4) (l ++ b :: r) :=
      hR.live.mem_iff.mpr List.mem_cons_self
    have hne : block.1 ≠ freed.1 := by
      intro he
      have hsize : block.2 = freed.2 := size_of_mem_liveOf hblock hfreed he
      exact hother (by rw [Prod.ext he hsize])
    exact ⟨hR.kept _ _ hblock hne, release l b r,
      ⟨hR.segment, hR.fits, hR.tail⟩, hR.link _ _ hblock hne⟩
  | overwrite written i bytes => exact absurd rfl (hcall written i bytes)

/-- The steps of which a freed block has its back offset intact. -/
abbrev IntactStep (app : AppRegion) : HeapState → HeapOp → HeapState → Prop :=
  Guarded (BackOffsetIntact app) (HeapStep app)

/-- **Every run of such steps keeps the heap invariant.** -/
theorem heapInv_of_run {es : List HeapOp}
    (h : Run (IntactStep app) HeapState.zeroed es s) : HeapInv app s :=
  h.invariant (HeapInv app) heapInv_zeroed
    (fun _ _ _ hI hs => hI.step hs.1 hs.2)

/-- A region at an address of the lower half. -/
def exampleRegion : AppRegion := ⟨4096, by decide⟩

/-- The first block of the region has its back offset intact if it names
none. -/
theorem backOffsetIntact_first {n : ℕ}
    (hprev : prevBlockOffset s.mem (app.addr + 4) = -1) :
    BackOffsetIntact app s (.free (app.addr + 4, n)) := by
  intro l b r _ hblock
  have hlen := length_le_span l
  have hspan : app.addr + 4 = app.addr + 4 + span l := hblock
  have hnil : l.length = 0 := by omega
  rw [List.length_eq_zero_iff.mp hnil]
  exact hprev

/-- A step that frees at most the first block, in front of which there is
none. -/
def FreesFirst (app : AppRegion) (s : HeapState) : HeapOp → Prop
  | .free block =>
    block.1 = app.addr + 4 ∧ prevBlockOffset s.mem block.1 = -1
  | _ => True

instance (s : HeapState) (op : HeapOp) : Decidable (FreesFirst app s op) :=
  match op with
  | .free _ => inferInstanceAs (Decidable (_ ∧ _))
  | .allocate _ | .overwrite _ _ _ => isTrue trivial

theorem FreesFirst.intact (h : FreesFirst app s op) :
    BackOffsetIntact app s op := by
  cases op with
  | free block =>
    obtain ⟨q, n⟩ := block
    obtain ⟨rfl, hprev⟩ := h
    exact backOffsetIntact_first hprev
  | allocate n => trivial
  | overwrite block i bytes => trivial

theorem run_of_freesFirst {ops : List HeapOp}
    (h : ops.foldlM (guardedStep (FreesFirst app) (heapStep app)) s = some t) :
    Run (IntactStep app) s ops t :=
  (Run.guarded_of_foldlM h).mono (fun _ _ _ hs => ⟨hs.1.intact, hs.2⟩)

/-- **The live blocks of the shared heap are isolated.** In every run in
which each freed block has its back offset intact, the live blocks are
disjoint, and a call leaves every other live block its flag, its size and its
data; its back offset is left alone or names the block now before it. -/
theorem live_blocks_isolated {es : List HeapOp}
    (h : Run (IntactStep app) HeapState.zeroed es s) :
    s.live.Pairwise (fun x y =>
      x.1 + 24 + x.2 ≤ y.1 ∨ y.1 + 24 + y.2 ≤ x.1)
    ∧ ∀ op t, IntactStep app s op t →
        (∀ block i bytes, op ≠ .overwrite block i bytes) →
        ∀ block ∈ s.live, op ≠ .free block → Isolated app s t block := by
  have hI := heapInv_of_run h
  exact ⟨hI.disjoint, fun op t hs hcall block hmem hother =>
    hI.isolated hs.1 hs.2 hcall hmem hother⟩

/-- A block is split off in front of a live one, out of the free block there. -/
theorem live_blocks_isolated_split :
    ∃ s t, Run (HeapStep exampleRegion) HeapState.zeroed
        [.allocate 100, .allocate 8, .free (4100, 100)] s
      ∧ HeapStep exampleRegion s (.allocate 10) t ∧ (4224, 8) ∈ s.live
      ∧ Isolated exampleRegion s t (4224, 8) := by
  have hs : (([.allocate 100, .allocate 8, .free (4100, 100)] :
      List HeapOp).foldlM (guardedStep (FreesFirst exampleRegion)
        (heapStep exampleRegion)) HeapState.zeroed).any
      (fun s => (4224, 8) ∈ s.live
        ∧ (heapStep exampleRegion s (.allocate 10)).isSome) = true := by
    decide +kernel
  obtain ⟨s, hrun, hp⟩ := (Option.any_eq_true _ _).mp hs
  obtain ⟨hlive, ht⟩ := of_decide_eq_true hp
  obtain ⟨t, ht⟩ := Option.isSome_iff_exists.mp ht
  have hrun := run_of_freesFirst hrun
  exact ⟨s, t, hrun.of_guarded, ht, hlive, (live_blocks_isolated hrun).2
    (.allocate 10) t ⟨True.intro, ht⟩ (by simp) _ hlive (by simp)⟩

/-- The header of a live block does change: a block split off in front of it
becomes the block its back offset names. -/
theorem live_header_changes :
    ¬ ∀ app es s op t, Run (HeapStep app) HeapState.zeroed es s →
      HeapStep app s op t → (∀ block i bytes, op ≠ .overwrite block i bytes) →
      ∀ block ∈ s.live, op ≠ .free block →
        s.mem.Agree t.mem block.1 (block.1 + 24 + block.2) := by
  intro hall
  have hs : (heapRun exampleRegion HeapState.zeroed
      [.allocate 100, .allocate 8, .free (4100, 100)]).map
      (fun s => (s.live, prevBlockOffset s.mem 4224))
      = some ([(4224, 8)], 0) := by decide +kernel
  have ht : ((heapRun exampleRegion HeapState.zeroed
      [.allocate 100, .allocate 8, .free (4100, 100)]).bind
      (fun s => heapStep exampleRegion s (.allocate 10))).map
      (fun t => prevBlockOffset t.mem 4224) = some 34 := by decide +kernel
  obtain ⟨s, hrun, hlive⟩ := Option.map_eq_some_iff.mp hs
  rw [hrun, Option.bind_some] at ht
  obtain ⟨t, hstep, hlink⟩ := Option.map_eq_some_iff.mp ht
  obtain ⟨hlive, hlink'⟩ := Prod.mk.inj hlive
  have hag := hall exampleRegion _ s (.allocate 10) t (run_of_heapRun hrun)
    hstep (by simp) (4224, 8) (by simp [hlive]) (by simp)
  have hlink'' : s.mem.Agree t.mem (4224 + 16) (4224 + 24) :=
    hag.mono (by omega) (by omega)
  have hsame := prevBlockOffset_congr hlink''
  rw [hlink, hlink'] at hsame
  exact absurd hsame (by decide)
