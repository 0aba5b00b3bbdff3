import Pifus.HeapShape

/-!
# Allocations of any size

`shm_data_allocate` takes a `size_t` and tests nothing but whether the end of
the new block lies behind the region. For the sizes an app has a use for that
is enough, and the call does on a well formed heap what first fit does on its
list of blocks. At the two ends of the type it is not.

A size of zero is the mark for the end of the chain, so a block of zero bytes
is no block: handing one out cuts the chain or leaves a header of another
kind behind it. And close to `2 ^ 64` the sum of the pointer and the size
wraps around, falls below the end of the region, and passes the test.

`allocate_correct_iff` says that these are the only sizes that go wrong.
-/

open PifusMemoryBlock

variable (app : AppRegion)

/-- The walk would take the block for `n` bytes: it is free, and has exactly
the size or leaves room for another header. -/
def Suitable (n : ℕ) (b : Block) : Prop :=
  b.free = true ∧ (b.size = n ∨ n + 24 < b.size)

/-- **The block a successful call hands out**: it has the size asked for, it
lies inside the region, it was free or is new at the end of the chain, the
heap after the call is well formed and has it as its one new live block, the
data of every other block is what it was, and the offset leads back to it. -/
structure HandedOut (m M : Memory) (offset : ℤ) (block n : ℕ)
    (bs bs' : List Block) : Prop where
  size : size M block = n
  lower : app.addr + 4 ≤ block
  upper : block + 24 + n ≤ app.addr + shmAppSize
  source : block = app.addr + 4 + span bs ∨ ∃ l b r, bs = l ++ b :: r
    ∧ b.free = true ∧ block = app.addr + 4 + span l
  represents : Represents app M bs'
  linked : Linked app (-1) (app.addr + 4) bs'
  coalesced : Coalesced bs'
  live : (liveOf (app.addr + 4) bs').Perm
    ((block, n) :: liveOf (app.addr + 4) bs)
  others : ∀ l b r, bs = l ++ b :: r → app.addr + 4 + span l ≠ block →
    m.Agree M (app.addr + 4 + span l + 24)
      (app.addr + 4 + span l + 24 + b.size)
  offset : shmDataGetBlockPtr app.addr offset = block

/-- **The call is correct for the size**: it returns, it leaves the region
alone if it fails, and otherwise hands out a block as described. -/
def AllocateCorrect (m : Memory) (n : ℕ) : Prop :=
  ∃ r M, shmDataAllocate app.addr m n = some (r, M) ∧
    match r with
    | none => M = m
    | some (offset, block) => ∃ bs bs', Represents app m bs
        ∧ HandedOut app m M offset block n bs bs'

/-- **The sizes for which the call is correct**, the heap holding the blocks
`bs`: zero only if nothing is handed out for it, and any other if the sum of
the pointer and the size does not wrap around to an address that passes for
one of the region. -/
def SoundSize (bs : List Block) (n : ℕ) : Prop :=
  if n = 0 then
    (∀ b ∈ bs, ¬ Suitable 0 b)
      ∧ app.addr + shmAppSize < app.addr + 4 + span bs + 24
  else
    ¬ (2 ^ 64 ≤ app.addr + 4 + span bs + 24 + n
      ∧ app.addr + 4 + span bs + 24 + n - 2 ^ 64 ≤ app.addr + shmAppSize)

variable {app} {m M : Memory} {p q n fuel : ℕ} {prev : Option ℕ}
  {bs bs' : List Block}

/-! ## Where first fit finds its block -/

/-- First fit takes a free block or the end of the chain. -/
theorem place_source (hplace : place app n prev p bs = some (q, bs')) :
    q = p + span bs
      ∨ ∃ l b r, bs = l ++ b :: r ∧ b.free = true ∧ q = p + span l := by
  induction bs generalizing prev p bs' with
  | nil =>
    rw [place] at hplace
    split at hplace
    · exact Or.inl (Prod.mk.inj (Option.some.inj hplace)).1.symm
    · exact absurd hplace (by simp)
  | cons b bs ih =>
    rw [place] at hplace
    split at hplace
    · rename_i hexact
      exact Or.inr ⟨[], b, bs, rfl, hexact.2,
        (Prod.mk.inj (Option.some.inj hplace)).1.symm⟩
    · split at hplace
      · rename_i hsplit
        exact Or.inr ⟨[], b, bs, rfl, hsplit.2,
          (Prod.mk.inj (Option.some.inj hplace)).1.symm⟩
      · obtain ⟨⟨q', bs''⟩, hplace', heq⟩ := Option.map_eq_some_iff.mp hplace
        obtain ⟨rfl, -⟩ := Prod.mk.inj heq
        rcases ih hplace' with hq | ⟨l, c, r, rfl, hc, hq⟩
        · exact Or.inl (by rw [hq, span_cons]; omega)
        · exact Or.inr ⟨b :: l, c, r, rfl, hc, by rw [hq, span_cons]; omega⟩

theorem relink_append_cons (z : ℤ) (l : List Block) (b : Block)
    (r : List Block) : ∃ l' z', relink z (l ++ b :: r)
      = l' ++ { b with prev := z' } :: r ∧ span l' = span l := by
  cases l with
  | nil => exact ⟨[], z, rfl, rfl⟩
  | cons c l => exact ⟨{ c with prev := z } :: l, b.prev, rfl, rfl⟩

/-- **First fit leaves every other block where it is**, with its flag and its
size. -/
theorem place_others {l r : List Block} {b : Block}
    (hplace : place app n prev p (l ++ b :: r) = some (q, bs'))
    (hne : p + span l ≠ q) :
    ∃ l' z r', bs' = l' ++ { b with prev := z } :: r'
      ∧ span l' = span l := by
  induction l generalizing prev p bs' with
  | nil =>
    rw [List.nil_append, place] at hplace
    split at hplace
    · exact absurd (Prod.mk.inj (Option.some.inj hplace)).1 hne
    · split at hplace
      · exact absurd (Prod.mk.inj (Option.some.inj hplace)).1 hne
      · obtain ⟨⟨q', bs''⟩, -, heq⟩ := Option.map_eq_some_iff.mp hplace
        obtain ⟨-, rfl⟩ := Prod.mk.inj heq
        exact ⟨[], b.prev, bs'', rfl, rfl⟩
  | cons c l ih =>
    rw [List.cons_append, place] at hplace
    split at hplace
    · obtain ⟨-, rfl⟩ := Prod.mk.inj (Option.some.inj hplace)
      exact ⟨{ c with free := false } :: l, b.prev, r, rfl, rfl⟩
    · split at hplace
      · rename_i hsplit
        obtain ⟨-, rfl⟩ := Prod.mk.inj (Option.some.inj hplace)
        obtain ⟨l', z, hl', hspan⟩ :=
          relink_append_cons (offsetOf app (p + 24 + n)) l b r
        refine ⟨{ c with free := false, size := n }
          :: ⟨true, c.size - n - 24, offsetOf app p⟩ :: l', z, r,
          by rw [hl']; rfl, ?_⟩
        rw [span_cons, span_cons, span_cons, hspan]
        dsimp only
        omega
      · obtain ⟨⟨q', bs''⟩, hplace', heq⟩ := Option.map_eq_some_iff.mp hplace
        obtain ⟨rfl, rfl⟩ := Prod.mk.inj heq
        rw [span_cons] at hne
        obtain ⟨l', z, r', rfl, hspan⟩ := ih hplace' (by omega)
        exact ⟨c :: l', z, r', rfl, by rw [span_cons, span_cons, hspan]⟩

theorem mem_liveOf_append {l r : List Block} {b : Block}
    (hb : b.free = false) : (p + span l, b.size) ∈ liveOf p (l ++ b :: r) := by
  rw [liveOf_append, liveOf_cons_live _ _ hb]
  exact List.mem_append_right _ List.mem_cons_self

/-- The data of every other block is left alone: a live block keeps it, and
that of a free block was and is zero. -/
theorem Placed.others {l r : List Block} {b : Block}
    (hplace : place app n prev p (l ++ b :: r) = some (q, bs'))
    (hP : Placed app m M p q n (l ++ b :: r) bs')
    (hseg : Segment m p (l ++ b :: r)) (hne : p + span l ≠ q) :
    m.Agree M (p + span l + 24) (p + span l + 24 + b.size) := by
  by_cases hb : b.free = true
  · have hm := (segment_append.mp hseg).2.1.2.2 hb
    obtain ⟨l', z, r', rfl, hspan⟩ := place_others hplace hne
    have hM := (segment_append.mp hP.segment).2.1.2.2 hb
    rw [hspan] at hM
    intro x h₁ h₂
    rw [hm x h₁ h₂, hM x h₁ h₂]
  · exact (hP.kept _ _ (mem_liveOf_append (by simpa using hb))).2

/-- **A block that first fit places is handed out as described.** -/
theorem handedOut_of_place (hrep : Represents app m bs)
    (hlinked : Linked app (-1) (app.addr + 4) bs) (hco : Coalesced bs)
    (hplace : place app n none (app.addr + 4) bs = some (q, bs'))
    (hP : Placed app m M (app.addr + 4) q n bs bs') :
    HandedOut app m M (offsetOf app q) q n bs bs' := by
  have hmem : (q, n) ∈ liveOf (app.addr + 4) bs' :=
    hP.live.mem_iff.mpr List.mem_cons_self
  have hbounds := liveOf_bounds hmem
  have hfits := hP.fits
  refine ⟨?_, hbounds.1, by omega, place_source hplace,
    ⟨hP.segment, hP.fits, hP.tail⟩, linked_place hplace hlinked,
    (coalesced_place hplace hco).1, hP.live, ?_,
    shmDataGetBlockPtr_offsetOf hbounds.1 (by omega)⟩
  · obtain ⟨l, b, r, rfl, rfl, -, rfl⟩ := exists_append_of_mem_liveOf hmem
    exact (segment_append.mp hP.segment).2.1.1.size
  · rintro l b r rfl hne
    exact hP.others hplace hrep.segment hne

/-! ## The walk for any size -/

theorem visitBlock_pass {b : Block} (hh : HeaderAt m p b) (hpos : 0 < b.size)
    (hfit : p + 24 + b.size ≤ app.addr + shmAppSize) (hno : ¬ Suitable n b) :
    visitBlock app.addr m prev p n = .inr (p + 24 + b.size) := by
  unfold visitBlock
  simp only [hh.next hfit, hh.size, hh.free, sizeofPifusMemoryBlock, split_test_iff]
  rw [if_neg (by omega), if_neg (fun h => hno ⟨h.2, Or.inl h.1⟩),
    if_neg (fun h => hno ⟨h.2, Or.inr h.1⟩)]

theorem visitBlock_take {b : Block} (hh : HeaderAt m p b) (hpos : 0 < b.size)
    (hyes : Suitable n b) :
    ∃ M, visitBlock app.addr m prev p n = .inl (some p, M) := by
  unfold visitBlock
  simp only [hh.size, hh.free, sizeofPifusMemoryBlock, split_test_iff]
  rw [if_neg (by omega)]
  by_cases hexact : b.size = n ∧ b.free = true
  · exact ⟨m, by rw [if_pos hexact]⟩
  · have hsplit : n + 24 < b.size ∧ b.free = true :=
      ⟨hyes.2.resolve_left (fun h => hexact ⟨h, hyes.1⟩), hyes.1⟩
    rw [if_neg hexact, if_pos hsplit]
    exact ⟨_, rfl⟩

/-- **The walk past blocks that are not suitable** ends in the append branch
at the end of the chain. -/
theorem nextSuitableBlock_pass (hseg : Segment m p bs)
    (hfit : p + span bs ≤ app.addr + shmAppSize)
    (htail : m.Zero (p + span bs) (app.addr + shmAppSize + 24))
    (hfuel : bs.length < fuel) (hno : ∀ b ∈ bs, ¬ Suitable n b) :
    ∃ prev', shmDataNextSuitableBlock app.addr fuel m prev p n
      = some (appendBlock app.addr m prev' (p + span bs) n) := by
  induction bs generalizing p prev fuel with
  | nil =>
    obtain ⟨fuel, rfl⟩ := Nat.exists_eq_add_one.mpr (Nat.zero_lt_of_lt hfuel)
    rw [span_nil, Nat.add_zero] at hfit htail
    have hzero : size m p = 0 :=
      size_of_zero (htail.mono (le_refl _) (by omega))
    refine ⟨prev, ?_⟩
    rw [shmDataNextSuitableBlock, visitBlock, if_pos hzero, span_nil,
      Nat.add_zero]
  | cons b bs ih =>
    obtain ⟨fuel, rfl⟩ := Nat.exists_eq_add_one.mpr (Nat.zero_lt_of_lt hfuel)
    obtain ⟨⟨hh, hpos, -⟩, hs⟩ := hseg
    have hspan : p + span (b :: bs) = p + 24 + b.size + span bs := by
      rw [span_cons]; omega
    rw [hspan] at hfit htail ⊢
    rw [shmDataNextSuitableBlock,
      visitBlock_pass hh hpos (by omega) (hno b List.mem_cons_self)]
    exact ih hs hfit htail (by rw [List.length_cons] at hfuel; omega)
      (fun c hc => hno c (List.mem_cons_of_mem b hc))

/-- **The walk takes a block** if one of them is suitable. -/
theorem nextSuitableBlock_take (hseg : Segment m p bs)
    (hfit : p + span bs ≤ app.addr + shmAppSize) (hfuel : bs.length < fuel)
    (hyes : ∃ b ∈ bs, Suitable n b) :
    ∃ q M, shmDataNextSuitableBlock app.addr fuel m prev p n
      = some (some q, M) := by
  induction bs generalizing p prev fuel with
  | nil =>
    obtain ⟨b, hb, -⟩ := hyes
    exact absurd hb (by simp)
  | cons b bs ih =>
    obtain ⟨fuel, rfl⟩ := Nat.exists_eq_add_one.mpr (Nat.zero_lt_of_lt hfuel)
    obtain ⟨⟨hh, hpos, -⟩, hs⟩ := hseg
    rw [span_cons] at hfit
    rw [shmDataNextSuitableBlock]
    by_cases hb : Suitable n b
    · obtain ⟨M, hM⟩ :=
        @visitBlock_take app m p n prev b hh hpos hb
      exact ⟨p, M, by rw [hM]⟩
    · rw [visitBlock_pass hh hpos (by omega) hb]
      refine ih hs (by omega) (by rw [List.length_cons] at hfuel; omega) ?_
      obtain ⟨c, hc, hsuit⟩ := hyes
      rcases List.mem_cons.mp hc with rfl | hc
      · exact absurd hsuit hb
      · exact ⟨c, hc, hsuit⟩

theorem Represents.length_lt (h : Represents app m bs) :
    bs.length < shmAppSize := by
  have hlen := length_le_span bs
  have hfits := h.fits
  omega

/-- **An allocation for which no block is suitable** is decided by the bound
test at the end of the chain, on a sum modulo `2 ^ 64`. -/
theorem shmDataAllocate_pass (h : Represents app m bs)
    (hno : ∀ b ∈ bs, ¬ Suitable n b) :
    (app.addr + shmAppSize < (app.addr + 4 + span bs + 24 + n) % 2 ^ 64 ∧
      shmDataAllocate app.addr m n = some (none, m))
    ∨ ((app.addr + 4 + span bs + 24 + n) % 2 ^ 64 ≤ app.addr + shmAppSize ∧
      ∃ r M, shmDataAllocate app.addr m n = some (some r, M)) := by
  obtain ⟨prev', hwalk⟩ : ∃ prev', shmDataNextSuitableBlock app.addr
      shmAppSize m none (app.addr + 4) n
      = some (appendBlock app.addr m prev' (app.addr + 4 + span bs) n) :=
    nextSuitableBlock_pass h.segment h.fits h.tail h.length_lt hno
  have hdata : (shmDataGetDataPtr (app.addr + 4 + span bs) + n) % 2 ^ 64
      = (app.addr + 4 + span bs + 24 + n) % 2 ^ 64 := by
    rw [shmDataGetDataPtr, Nat.mod_add_mod, sizeofPifusMemoryBlock]
  unfold shmDataAllocate
  simp only [sizeofPifusApp, hwalk, appendBlock, hdata]
  by_cases hout : app.addr + shmAppSize
      < (app.addr + 4 + span bs + 24 + n) % 2 ^ 64
  · refine Or.inl ⟨hout, ?_⟩
    rw [if_pos (by simpa [shmDataIsPtrOutOfRange] using hout)]
  · refine Or.inr ⟨by omega, ?_⟩
    rw [if_neg (by simpa [shmDataIsPtrOutOfRange] using hout)]
    exact ⟨_, _, rfl⟩

theorem shmDataAllocate_take (h : Represents app m bs)
    (hyes : ∃ b ∈ bs, Suitable n b) :
    ∃ r M, shmDataAllocate app.addr m n = some (some r, M) := by
  obtain ⟨q, M, hwalk⟩ : ∃ q M, shmDataNextSuitableBlock app.addr
      shmAppSize m none (app.addr + 4) n = some (some q, M) :=
    nextSuitableBlock_take h.segment h.fits h.length_lt hyes
  unfold shmDataAllocate
  simp only [sizeofPifusApp, hwalk]
  exact ⟨_, _, rfl⟩

/-! ## Which sizes go wrong -/

/-- No block of zero bytes is handed out as described: it is not live in any
well formed heap. -/
theorem HandedOut.pos {offset : ℤ}
    (h : HandedOut app m M offset q n bs bs') : 0 < n := by
  have hmem : (q, n) ∈ liveOf (app.addr + 4) bs' :=
    h.live.mem_iff.mpr List.mem_cons_self
  obtain ⟨l, b, r, rfl, -, -, rfl⟩ := exists_append_of_mem_liveOf hmem
  exact (segment_append.mp h.represents.segment).2.1.2.1

theorem HandedOut.size_le {offset : ℤ}
    (h : HandedOut app m M offset q n bs bs') : n ≤ shmAppSize := by
  have hlo := h.lower
  have hhi := h.upper
  omega

theorem allocateCorrect_of_none
    (h : shmDataAllocate app.addr m n = some (none, m)) :
    AllocateCorrect app m n :=
  ⟨none, m, h, rfl⟩

/-- A call that succeeds for a size no block can have is not correct. -/
theorem not_allocateCorrect_of_some {r : ℤ × Ptr}
    (h : shmDataAllocate app.addr m n = some (some r, M))
    (hn : n = 0 ∨ shmAppSize < n) : ¬ AllocateCorrect app m n := by
  rintro ⟨r', M', hcall, hr⟩
  rw [h] at hcall
  obtain ⟨rfl, rfl⟩ := Prod.mk.inj (Option.some.inj hcall)
  obtain ⟨bs, bs', -, hout⟩ := hr
  have hpos := hout.pos
  have hle := hout.size_le
  omega

/-- **Size zero**: the call is correct only where it fails. -/
theorem allocateCorrect_zero (h : Represents app m bs) :
    AllocateCorrect app m 0 ↔ SoundSize app bs 0 := by
  have happ := app.bound
  have hfits := h.fits
  rw [SoundSize, if_pos rfl]
  by_cases hno : ∀ b ∈ bs, ¬ Suitable 0 b
  · rw [and_iff_right hno]
    have hmod : (app.addr + 4 + span bs + 24 + 0) % 2 ^ 64
        = app.addr + 4 + span bs + 24 := Nat.mod_eq_of_lt (by omega)
    rcases shmDataAllocate_pass h hno with ⟨hout, hcall⟩ | ⟨hin, r, M, hcall⟩
    · exact iff_of_true (allocateCorrect_of_none hcall) (by omega)
    · exact iff_of_false (not_allocateCorrect_of_some hcall (Or.inl rfl))
        (by omega)
  · have hyes : ∃ b ∈ bs, Suitable 0 b := by
      simpa using hno
    obtain ⟨r, M, hcall⟩ := shmDataAllocate_take h hyes
    exact iff_of_false (not_allocateCorrect_of_some hcall (Or.inl rfl))
      (fun hs => hno hs.1)

/-- **Sizes larger than the region**: no block is suitable, so the call is
correct exactly if the bound test refuses it. -/
theorem allocateCorrect_large (h : Represents app m bs)
    (hlarge : shmAppSize < n) (hn : n < 2 ^ 64) :
    AllocateCorrect app m n ↔ SoundSize app bs n := by
  have happ := app.bound
  have hfits := h.fits
  have hno : ∀ b ∈ bs, ¬ Suitable n b := by
    rintro b hb ⟨-, hsize⟩
    obtain ⟨l, r, rfl⟩ := List.append_of_mem hb
    rw [span_append, span_cons] at hfits
    omega
  rw [SoundSize, if_neg (by omega)]
  rcases shmDataAllocate_pass h hno with ⟨hout, hcall⟩ | ⟨hin, r, M, hcall⟩
  · exact iff_of_true (allocateCorrect_of_none hcall) (by omega)
  · exact iff_of_false (not_allocateCorrect_of_some hcall (Or.inr hlarge))
      (by omega)

/-- **Sizes of at most the region** are all served correctly. -/
theorem allocateCorrect_of_le (h : Represents app m bs)
    (hlinked : Linked app (-1) (app.addr + 4) bs) (hco : Coalesced bs)
    (hpos : 0 < n) (hmax : n ≤ shmAppSize) : AllocateCorrect app m n := by
  have hspec := shmDataAllocate_place h hpos hmax
  cases hplace : place app n none (app.addr + 4) bs with
  | none =>
    rw [hplace] at hspec
    exact allocateCorrect_of_none hspec
  | some r =>
    obtain ⟨q, bs'⟩ := r
    rw [hplace] at hspec
    obtain ⟨M, hM, hP⟩ := hspec
    exact ⟨_, M, hM, bs, bs', h, handedOut_of_place h hlinked hco hplace hP⟩

theorem soundSize_of_le (h : Represents app m bs) (hpos : 0 < n)
    (hmax : n ≤ shmAppSize) : SoundSize app bs n := by
  have happ := app.bound
  have hfits := h.fits
  have hsmall : shmAppSize = 1000000 := rfl
  rw [SoundSize, if_neg (by omega)]
  omega

/-- **`shm_data_allocate` is correct exactly for the sound sizes**: on every
well formed heap and for every value of a `size_t`. -/
theorem allocate_correct_iff (h : WellFormedHeap app m) (hn : n < 2 ^ 64) :
    AllocateCorrect app m n ↔
      ∀ bs, Represents app m bs → SoundSize app bs n := by
  obtain ⟨bs, hrep, hlinked, hco⟩ := h
  have honly : (∀ bs', Represents app m bs' → SoundSize app bs' n)
      ↔ SoundSize app bs n := by
    refine ⟨fun hall => hall bs hrep, fun hs bs' hrep' => ?_⟩
    rwa [hrep'.unique hrep]
  rw [honly]
  rcases Nat.eq_zero_or_pos n with rfl | hpos
  · exact allocateCorrect_zero hrep
  · by_cases hmax : n ≤ shmAppSize
    · exact iff_of_true (allocateCorrect_of_le hrep hlinked hco hpos hmax)
        (soundSize_of_le hrep hpos hmax)
    · exact allocateCorrect_large hrep (by omega) hn

/-- Fifty bytes out of a free block of a hundred, with a live one behind it. -/
theorem allocate_correct_iff_fifty :
    ∃ s : HeapState, s.live = [(4224, 8)]
      ∧ PifusMemoryBlock.free s.mem 4100 = true
      ∧ AllocateCorrect exampleRegion s.mem 50 := by
  have hs : (([.allocate 100, .allocate 8, .free (4100, 100)] :
      List HeapOp).foldlM (guardedStep (MergeOk exampleRegion)
        (heapStep exampleRegion)) HeapState.zeroed).any
      (fun s => s.live = [(4224, 8)]
        ∧ PifusMemoryBlock.free s.mem 4100 = true) = true := by decide +kernel
  obtain ⟨s, hrun, hp⟩ := (Option.any_eq_true _ _).mp hs
  obtain ⟨hlive, hfree⟩ := of_decide_eq_true hp
  have hshape := shapeInv_of_run (Run.guarded_of_foldlM hrun)
  exact ⟨s, hlive, hfree, (allocate_correct_iff hshape.2 (by decide)).mpr
    (fun _ hrep => soundSize_of_le hrep (by decide) (by decide))⟩

/-- **Zero bytes of a fresh region**: the call says it has handed out a
block, and there is none. -/
theorem zero_bytes_handed_out :
    ¬ ∀ app es s n, Run (HeapStep app) HeapState.zeroed es s →
      WellFormedHeap app s.mem → n < 2 ^ 64 → AllocateCorrect app s.mem n := by
  intro hall
  have hcall : (shmDataAllocate exampleRegion.addr HeapState.zeroed.mem 0).any
      (fun r => r.1.isSome) = true := by decide +kernel
  obtain ⟨⟨r, M⟩, hcall, hr⟩ := (Option.any_eq_true _ _).mp hcall
  obtain ⟨r, rfl⟩ := Option.isSome_iff_exists.mp hr
  exact not_allocateCorrect_of_some hcall (Or.inl rfl)
    (hall exampleRegion [] HeapState.zeroed 0 Run.nil
      ⟨[], represents_zeroed, trivial, List.isChain_nil⟩ (by decide))
