import Pifus.AllocateSizes

/-!
# Runs of allocator calls

Nothing but calls of `shm_data_allocate` and `shm_data_free`, in any order.
Such a run can leave a back offset stale, so `HeapInv` alone does not say what
the next free does: it follows the back offset to wherever it leads.

A stale back offset does not lead far. It names a header that was merged away
since, so it points into the data of the block directly before, and as long
as nobody writes there that data is zero: the flag the free reads is clear,
and the block before is taken for a live one. The only thing that happens is
that a merge with a free neighbour does not. `HeapCells` is the invariant
which says this, and it holds of every run of calls.
-/

open PifusMemoryBlock

variable (app : AppRegion)

/-- Whether a step is a call of the allocator. -/
def HeapOp.isCall : HeapOp → Bool
  | .overwrite _ _ _ => false
  | _ => true

/-- The steps that are calls. -/
abbrev CallStep : HeapState → HeapOp → HeapState → Prop :=
  Guarded (fun _ op => op.isCall = true) (HeapStep app)

/-- **A back offset that is at most stale**: it names the block directly
before the one at `p`, or points into its data. -/
def NearLink (previous : Option ℕ) (p : ℕ) (z : ℤ) : Prop :=
  match previous with
  | none => z = -1
  | some a => ∃ x, z = offsetOf app x ∧ (x = a ∨ a + 24 ≤ x ∧ x < p)

/-- Every back offset of the blocks is at most stale. -/
def NearLinked : Option ℕ → ℕ → List Block → Prop
  | _, _, [] => True
  | previous, p, b :: bs =>
    NearLink app previous p b.prev ∧ NearLinked (some p) (p + 24 + b.size) bs

/-- The header of the last of the blocks, or the one before them. -/
def lastHeader : Option ℕ → ℕ → List Block → Option ℕ
  | previous, _, [] => previous
  | _, p, b :: bs => lastHeader (some p) (p + 24 + b.size) bs

/-- **The list of blocks after any block is freed**: with a stale back offset
the block before it is not merged. -/
def freed (l : List Block) (b : Block) (r : List Block) : List Block :=
  if b.prev = lastLink app (-1) (app.addr + 4) l then release l b r
  else l ++ absorbNext b r

/-- **The invariant of calls**: the region represents the blocks, the live
ones are those the app holds, their data has never been written, and no back
offset is worse than stale. -/
structure HeapCells (s : HeapState) (bs : List Block) : Prop where
  represents : Represents app s.mem bs
  live : s.live.Perm (liveOf (app.addr + 4) bs)
  clear : ∀ x ∈ s.live, s.mem.Zero (x.1 + 24) (x.1 + 24 + x.2)
  links : NearLinked app none (app.addr + 4) bs

variable {app} {s t : HeapState} {op : HeapOp} {m M : Memory} {p q n : ℕ}
  {z : ℤ} {fuel : ℕ} {prev : Option ℕ} {bs bs' : List Block}

/-! ## Back offsets that are at most stale -/

theorem nearLinked_append {l r : List Block} :
    NearLinked app prev p (l ++ r) ↔ NearLinked app prev p l
      ∧ NearLinked app (lastHeader prev p l) (p + span l) r := by
  induction l generalizing prev p with
  | nil => simp [NearLinked, lastHeader]
  | cons b l ih =>
    rw [List.cons_append, NearLinked, NearLinked, ih, lastHeader, span_cons,
      and_assoc,
      show p + 24 + b.size + span l = p + (24 + b.size + span l) from by omega]

theorem lastHeader_append (l : List Block) (a : Block) :
    lastHeader prev p (l ++ [a]) = some (p + span l) := by
  induction l generalizing prev p with
  | nil => rfl
  | cons b l ih =>
    rw [List.cons_append, lastHeader, ih, span_cons,
      show p + 24 + b.size + span l = p + (24 + b.size + span l) from by omega]

theorem NearLinked.relink {a : ℕ} (h : NearLinked app prev p bs) :
    NearLinked app (some a) p (relink (offsetOf app a) bs) := by
  cases bs with
  | nil => trivial
  | cons b bs => exact ⟨⟨a, rfl, Or.inl rfl⟩, h.2⟩

/-- A block that grows to the left takes in what the back offset behind it
names. -/
theorem NearLinked.widen {a a' : ℕ} (h : NearLinked app (some a) p bs)
    (ha : a' + 24 ≤ a) (hp : a < p) : NearLinked app (some a') p bs := by
  cases bs with
  | nil => trivial
  | cons b bs =>
    obtain ⟨⟨x, hz, hx⟩, hrest⟩ := h
    exact ⟨⟨x, hz, Or.inr (by omega)⟩, hrest⟩

theorem nearLink_backLink : NearLink app prev p (backLink app prev) := by
  cases prev with
  | none => exact rfl
  | some a => exact ⟨a, rfl, Or.inl rfl⟩

/-- **First fit makes no back offset worse than stale.** -/
theorem nearLinked_place
    (hplace : place app n prev p bs = some (q, bs'))
    (h : NearLinked app prev p bs) : NearLinked app prev p bs' := by
  induction bs generalizing prev p bs' with
  | nil =>
    rw [place] at hplace
    split at hplace
    · obtain ⟨-, rfl⟩ := Prod.mk.inj (Option.some.inj hplace)
      exact ⟨nearLink_backLink, trivial⟩
    · exact absurd hplace (by simp)
  | cons b bs ih =>
    rw [place] at hplace
    obtain ⟨hb, hrest⟩ := h
    split at hplace
    · obtain ⟨-, rfl⟩ := Prod.mk.inj (Option.some.inj hplace)
      exact ⟨hb, hrest⟩
    · split at hplace
      · rename_i hsplit
        obtain ⟨-, rfl⟩ := Prod.mk.inj (Option.some.inj hplace)
        refine ⟨hb, ⟨p, rfl, Or.inl rfl⟩, ?_⟩
        show NearLinked app (some (p + 24 + n))
          (p + 24 + n + 24 + (b.size - n - 24)) _
        rw [show p + 24 + n + 24 + (b.size - n - 24) = p + 24 + b.size from by
          omega]
        exact hrest.relink
      · obtain ⟨⟨q', bs''⟩, hplace', heq⟩ := Option.map_eq_some_iff.mp hplace
        obtain ⟨rfl, rfl⟩ := Prod.mk.inj heq
        exact ⟨hb, ih hplace' hrest⟩

/-- **Merging with the block behind** leaves the back offset behind *that*
one stale. -/
theorem nearLinked_absorbNext {b : Block} {r : List Block}
    (hb : NearLink app prev p b.prev)
    (hr : NearLinked app (some p) (p + 24 + b.size) r) :
    NearLinked app prev p (absorbNext b r) := by
  cases r with
  | nil => exact ⟨hb, trivial⟩
  | cons c r =>
    rw [absorbNext]
    split
    · refine ⟨hb, ?_⟩
      show NearLinked app (some p) (p + 24 + (b.size + 24 + c.size)) r
      rw [show p + 24 + (b.size + 24 + c.size) = p + 24 + b.size + 24 + c.size
        from by omega]
      exact hr.2.widen (by omega) (by omega)
    · exact ⟨hb, hr⟩

/-- **Freeing a block makes no back offset worse than stale.** -/
theorem nearLinked_freed {l r : List Block} {b : Block}
    (h : NearLinked app none (app.addr + 4) (l ++ b :: r)) :
    NearLinked app none (app.addr + 4) (freed app l b r) := by
  obtain ⟨hl, hb, hr⟩ := nearLinked_append.mp h
  rw [freed]
  split
  · rename_i hlink
    rcases List.eq_nil_or_concat l with rfl | ⟨l, a, rfl⟩
    · cases r with
      | nil => trivial
      | cons c r => exact nearLinked_absorbNext hb hr
    · rw [List.concat_eq_append] at hl hb hr hlink ⊢
      rw [lastLink_append] at hlink
      rw [lastHeader_append] at hb
      obtain ⟨hl, ha, -⟩ := nearLinked_append.mp hl
      rw [release_append, release]
      refine nearLinked_append.mpr ⟨hl, ?_⟩
      have hspan : app.addr + 4 + span (l ++ [a])
          = app.addr + 4 + span l + 24 + a.size := by
        rw [span_append, span_cons, span_nil]
        omega
      rw [hspan] at hb hr
      split
      · -- the free block before takes over, and the one behind names it
        refine nearLinked_absorbNext ha ?_
        show NearLinked app _
          (app.addr + 4 + span l + 24 + (a.size + 24 + b.size)) _
        rw [hlink, show app.addr + 4 + span l + 24 + (a.size + 24 + b.size)
          = app.addr + 4 + span l + 24 + a.size + 24 + b.size from by omega]
        exact hr.relink
      · exact ⟨ha, nearLinked_absorbNext hb hr⟩
  · exact nearLinked_append.mpr ⟨hl, nearLinked_absorbNext hb hr⟩

/-! ## The data of a block that is handed out -/

/-- A suitable block is handed out with its data clear. -/
theorem visitBlock_clear {b : Block} (hh : HeaderAt m p b) (hpos : 0 < b.size)
    (hz : m.Zero (p + 24) (p + 24 + b.size)) (hlo : app.addr + 4 ≤ p)
    (hfit : p + 24 + b.size ≤ app.addr + shmAppSize) (hyes : Suitable n b)
    (hvisit : visitBlock app.addr m prev p n = .inl (some p, M)) :
    M.Zero (p + 24) (p + 24 + n) := by
  unfold visitBlock at hvisit
  simp only [hh.next hfit, hh.size, hh.free, sizeofPifusMemoryBlock,
    split_test_iff] at hvisit
  rw [if_neg (by omega)] at hvisit
  by_cases hexact : b.size = n ∧ b.free = true
  · rw [if_pos hexact] at hvisit
    simp only [Sum.inl.injEq, Prod.mk.injEq, true_and] at hvisit
    obtain rfl := hvisit
    exact hz.mono (le_refl _) (by omega)
  · have hsplit : n + 24 < b.size ∧ b.free = true :=
      ⟨hyes.2.resolve_left (fun h => hexact ⟨h, hyes.1⟩), hyes.1⟩
    have hag : m.Agree (splitHeaders app m p n (b.size - n - 24)) (p + 24)
        (p + 24 + n) := agree_splitHeaders (by omega) (by omega)
    rw [if_neg hexact, if_pos hsplit,
      splitBlock_eq hh hlo hfit hsplit.1] at hvisit
    simp only [Sum.inl.injEq, Prod.mk.injEq, true_and] at hvisit
    obtain rfl := hvisit
    refine (hz.mono (le_refl _) (by omega)).congr (hag.trans ?_)
    split
    · exact agree_setPrevBlockOffset (by omega)
    · exact Memory.Agree.refl _ _ _

/-- **The walk hands out cleared data**: it comes from a free block or from
the zeros behind the chain, and only headers are written. -/
theorem nextSuitableBlock_clear (hseg : Segment m p bs)
    (hlo : app.addr + 4 ≤ p) (hfit : p + span bs ≤ app.addr + shmAppSize)
    (htail : m.Zero (p + span bs) (app.addr + shmAppSize + 24))
    (hmax : n ≤ shmAppSize)
    (hwalk : shmDataNextSuitableBlock app.addr fuel m prev p n
      = some (some q, M)) : M.Zero (q + 24) (q + 24 + n) := by
  have happ := app.bound
  have hsmall : shmAppSize = 1000000 := rfl
  induction bs generalizing p prev fuel with
  | nil =>
    cases fuel with
    | zero => exact absurd hwalk (by simp [shmDataNextSuitableBlock])
    | succ fuel =>
      rw [span_nil, Nat.add_zero] at hfit htail
      have hzero : size m p = 0 :=
        size_of_zero (htail.mono (le_refl _) (by omega))
      have hdata : (shmDataGetDataPtr p + n) % 2 ^ 64 = p + 24 + n := by
        show ((p + 24) % 2 ^ 64 + n) % 2 ^ 64 = p + 24 + n
        omega
      rw [shmDataNextSuitableBlock, visitBlock, if_pos hzero] at hwalk
      simp only [appendBlock, hdata] at hwalk
      by_cases hout : app.addr + shmAppSize < p + 24 + n
      · rw [if_pos (by simpa [shmDataIsPtrOutOfRange] using hout)] at hwalk
        exact absurd hwalk (by simp)
      · rw [if_neg (by simpa [shmDataIsPtrOutOfRange] using hout)] at hwalk
        simp only [Option.some.injEq, Prod.mk.injEq] at hwalk
        obtain ⟨rfl, rfl⟩ := hwalk
        exact (htail.mono (by omega) (by omega)).congr
          ((agree_setSize (by omega)).trans
            (agree_setPrevBlockOffset (by omega)))
  | cons b bs ih =>
    cases fuel with
    | zero => exact absurd hwalk (by simp [shmDataNextSuitableBlock])
    | succ fuel =>
      obtain ⟨⟨hh, hpos, hz⟩, hs⟩ := hseg
      have hspan : p + span (b :: bs) = p + 24 + b.size + span bs := by
        rw [span_cons]; omega
      rw [hspan] at hfit htail
      rw [shmDataNextSuitableBlock] at hwalk
      by_cases hyes : Suitable n b
      · obtain ⟨M', hvisit⟩ := @visitBlock_take app m p n prev b hh hpos hyes
        rw [hvisit] at hwalk
        simp only [Option.some.injEq, Prod.mk.injEq] at hwalk
        obtain ⟨rfl, rfl⟩ := hwalk
        exact visitBlock_clear hh hpos (hz hyes.1) hlo (by omega) hyes hvisit
      · rw [visitBlock_pass hh hpos (by omega) hyes] at hwalk
        exact ih hs (by omega) hfit htail hwalk

/-- The data of an allocated block is zero. -/
theorem shmDataAllocate_clear {z : ℤ} (h : Represents app m bs)
    (hmax : n ≤ shmAppSize)
    (hcall : shmDataAllocate app.addr m n = some (some (z, q), M)) :
    M.Zero (q + 24) (q + 24 + n) := by
  unfold shmDataAllocate at hcall
  split at hcall
  · exact absurd hcall (by simp)
  · exact absurd hcall (by simp)
  · rename_i block M' hwalk
    simp only [Option.some.injEq, Prod.mk.injEq] at hcall
    obtain ⟨⟨-, rfl⟩, rfl⟩ := hcall
    exact (nextSuitableBlock_clear h.segment (le_refl _) h.fits h.tail hmax
      hwalk).congr (agree_setFree (by omega))

/-- A step that allocated a block is a call that handed it out. -/
theorem allocate_call (hs : HeapStep app s (.allocate n) t)
    (hlive : t.live = (q, n) :: s.live) :
    n ≤ shmAppSize ∧ ∃ z, shmDataAllocate app.addr s.mem n
      = some (some (z, q), t.mem) := by
  rw [HeapStep, heapStep] at hs
  split at hs
  · rename_i hn
    obtain ⟨⟨r, M⟩, hcall, rfl⟩ := Option.map_eq_some_iff.mp hs
    cases r with
    | none =>
      simp only [Option.map_none, Option.toList_none, List.nil_append] at hlive
      exact absurd (congrArg List.length hlive) (by simp)
    | some zq =>
      obtain ⟨z, q'⟩ := zq
      simp only [Option.map_some, Option.toList_some, List.cons_append,
        List.nil_append, List.cons.injEq, Prod.mk.injEq] at hlive
      obtain ⟨⟨rfl, -⟩, -⟩ := hlive
      exact ⟨hn.2, z, hcall⟩
  · exact absurd hs (by simp)

/-! ## What a free does when a back offset may be stale -/

/-- **Where a back offset leads**: to no block, to the block directly before,
or into the data of that block. -/
theorem HeapCells.prev_cases {l r : List Block} {b : Block}
    (h : HeapCells app s (l ++ b :: r)) :
    (l = [] ∧ b.prev = -1)
    ∨ ∃ l' a x, l = l' ++ [a] ∧ 0 ≤ b.prev ∧ b.prev = offsetOf app x
        ∧ shmDataGetBlockPtr app.addr b.prev = x
        ∧ (x = app.addr + 4 + span l' ∨ app.addr + 4 + span l' + 24 ≤ x
          ∧ x < app.addr + 4 + span l' + 24 + a.size) := by
  have hb := (nearLinked_append.mp h.links).2.1
  rcases List.eq_nil_or_concat l with rfl | ⟨l, a, rfl⟩
  · exact Or.inl ⟨rfl, hb⟩
  · have hfits := h.represents.fits
    rw [List.concat_eq_append] at hb hfits ⊢
    rw [lastHeader_append] at hb
    obtain ⟨x, hz, hx⟩ := hb
    rw [span_append, span_cons, span_nil] at hx
    rw [span_append, span_append, span_cons, span_cons, span_nil] at hfits
    refine Or.inr ⟨l, a, x, rfl, ?_, hz, ?_, by omega⟩
    · rw [hz]
      exact (offsetOf_bounds (by omega) (by omega)).1
    · rw [hz, shmDataGetBlockPtr_offsetOf (by omega) (by omega)]

/-- **A stale back offset reads a clear flag**: it points into data that
nobody has written. -/
theorem HeapCells.stale_flag {l r : List Block} {b : Block}
    (h : HeapCells app s (l ++ b :: r))
    (hstale : b.prev ≠ lastLink app (-1) (app.addr + 4) l) :
    0 ≤ b.prev
      ∧ free s.mem (shmDataGetBlockPtr app.addr b.prev) = false := by
  rcases h.prev_cases with ⟨rfl, hb⟩ | ⟨l, a, x, rfl, hpos, hz, hptr, hx⟩
  · exact absurd hb hstale
  · rw [lastLink_append] at hstale
    have hin := hx.resolve_left (fun hx => hstale (by rw [hz, hx]))
    have hdata : s.mem.Zero (app.addr + 4 + span l + 24)
        (app.addr + 4 + span l + 24 + a.size) := by
      have hrep := h.represents.segment
      have hlive := h.live
      rw [List.append_assoc] at hrep hlive
      by_cases ha : a.free = true
      · exact (segment_append.mp hrep).2.1.2.2 ha
      · exact h.clear (app.addr + 4 + span l, a.size) (hlive.mem_iff.mpr
          (mem_liveOf_append (by simpa using ha)))
    refine ⟨hpos, ?_⟩
    unfold PifusMemoryBlock.free
    rw [hptr, hdata x hin.1 hin.2]
    rfl

/-- **`shm_data_free` in any run of calls** is `freed` on the list of
blocks. -/
theorem HeapCells.shmDataFree_freed {l r : List Block} {b : Block}
    (h : HeapCells app s (l ++ b :: r)) (hb : b.free = false)
    (hq : q = app.addr + 4 + span l) :
    Released app s.mem (shmDataFree app.addr s.mem q) (app.addr + 4) q b.size
      (l ++ b :: r) (freed app l b r) := by
  rw [freed]
  split
  · rename_i hlink
    exact shmDataFree_release h.represents hb hq hlink
  · rename_i hstale
    obtain ⟨hprev, hflag⟩ := h.stale_flag hstale
    have hseg := (segment_append.mp h.represents.segment).2
    have hfit := h.represents.fits
    have htail := h.represents.tail
    have hspan : app.addr + 4 + span (l ++ b :: r) = q + span (b :: r) := by
      rw [span_append]; omega
    rw [← hq] at hseg
    rw [hspan] at hfit htail
    have hh : HeaderAt s.mem q b := hseg.1.1
    have hmp : ∀ next, mergePrevious app.addr s.mem q next = (q, s.mem) := by
      intro next
      unfold mergePrevious
      rw [hh.prev, if_pos hprev]
      simp only [hflag, Bool.false_eq_true, if_false]
    unfold shmDataFree
    simp only [existingNextBlock_eq hseg hfit htail, hh.prev, hmp]
    rw [if_neg (by omega)]
    exact freeMerged_self h.represents hb hq

/-! ## Steps and runs -/

theorem nodup_liveOf (p : ℕ) (bs : List Block) : (liveOf p bs).Nodup :=
  (pairwise_liveOf p bs).imp (fun h he => by rw [he] at h; omega)

/-- **What an allocation does to the blocks** in a run of calls. -/
theorem HeapCells.of_allocate (h : HeapCells app s bs)
    (hs : HeapStep app s (.allocate n) t) :
    (place app n none (app.addr + 4) bs = none ∧ t = s)
    ∨ ∃ q bs', place app n none (app.addr + 4) bs = some (q, bs')
        ∧ HeapCells app t bs' ∧ t.live = (q, n) :: s.live := by
  rcases allocate_cases hs h.represents with hnone | ⟨q, bs', hplace, hP, htl⟩
  · exact Or.inl hnone
  · have hnew : t.mem.Zero (q + 24) (q + 24 + n) := by
      obtain ⟨hmax, z, hcall⟩ := allocate_call hs htl
      exact shmDataAllocate_clear h.represents hmax hcall
    refine Or.inr ⟨q, bs', hplace, ⟨⟨hP.segment, hP.fits, hP.tail⟩, ?_, ?_,
      nearLinked_place hplace h.links⟩, htl⟩
    · rw [htl]
      exact (h.live.cons _).trans hP.live.symm
    · intro x hx
      rw [htl] at hx
      rcases List.mem_cons.mp hx with rfl | hx
      · exact hnew
      · exact (h.clear x hx).congr (hP.kept _ _ (h.live.mem_iff.mp hx)).2

/-- **What a free does to the blocks** in a run of calls. -/
theorem HeapCells.of_free {block : Ptr × ℕ} (h : HeapCells app s bs)
    (hs : HeapStep app s (.free block) t) :
    ∃ l b r, bs = l ++ b :: r ∧ block = (app.addr + 4 + span l, b.size)
      ∧ b.free = false ∧ HeapCells app t (freed app l b r)
      ∧ t.live = s.live.erase block := by
  obtain ⟨q, n⟩ := block
  obtain ⟨hmem, htm, htl⟩ : (q, n) ∈ s.live
      ∧ t.mem = shmDataFree app.addr s.mem q
      ∧ t.live = s.live.erase (q, n) := by
    rw [HeapStep, heapStep] at hs
    split at hs
    · rename_i hmem
      rw [← Option.some.inj hs]
      dsimp only
      exact ⟨hmem, rfl, rfl⟩
    · exact absurd hs (by simp)
  obtain ⟨l, b, r, rfl, hq, hb, rfl⟩ :=
    exists_append_of_mem_liveOf (h.live.mem_iff.mp hmem)
  have hR := h.shmDataFree_freed hb hq
  rw [← htm] at hR
  have hlive : t.live.Perm (liveOf (app.addr + 4) (freed app l b r)) := by
    have herase := (h.live.trans hR.live).erase (q, b.size)
    rwa [List.erase_cons_head, ← htl] at herase
  refine ⟨l, b, r, rfl, by rw [hq], hb, ⟨⟨hR.segment, hR.fits, hR.tail⟩,
    hlive, fun x hx => ?_, nearLinked_freed h.links⟩, htl⟩
  have hx' := hlive.mem_iff.mp hx
  have hxl : x ∈ liveOf (app.addr + 4) (l ++ b :: r) :=
    hR.live.mem_iff.mpr (List.mem_cons_of_mem _ hx')
  have hne : x.1 ≠ q := by
    intro he
    have hsize : x.2 = b.size :=
      size_of_mem_liveOf hxl (hR.live.mem_iff.mpr List.mem_cons_self) he
    have hxq : x = (q, b.size) := Prod.ext he hsize
    rw [hxq] at hx'
    have hnodup := hR.live.nodup_iff.mp (nodup_liveOf _ _)
    exact (List.nodup_cons.mp hnodup).1 hx'
  exact (h.clear x (h.live.mem_iff.mpr hxl)).congr (hR.kept _ _ hxl hne).2

/-- **Every call keeps the invariant of calls.** -/
theorem HeapCells.step (h : HeapCells app s bs) (hs : CallStep app s op t) :
    ∃ bs', HeapCells app t bs' := by
  obtain ⟨hcall, hs⟩ := hs
  cases op with
  | allocate n =>
    rcases h.of_allocate hs with ⟨-, rfl⟩ | ⟨q, bs', -, hbs', -⟩
    · exact ⟨bs, h⟩
    · exact ⟨bs', hbs'⟩
  | free block =>
    obtain ⟨l, b, r, -, -, -, hbs', -⟩ := h.of_free hs
    exact ⟨_, hbs'⟩
  | overwrite block i bytes => exact absurd hcall (by simp [HeapOp.isCall])

theorem heapCells_zeroed : HeapCells app HeapState.zeroed [] :=
  ⟨represents_zeroed, List.Perm.refl _, fun x hx => absurd hx (by
    simp [HeapState.zeroed]), trivial⟩

/-- **Every run of calls keeps the invariant of calls.** -/
theorem heapCells_of_run {es : List HeapOp}
    (h : Run (CallStep app) HeapState.zeroed es s) :
    ∃ bs, HeapCells app s bs :=
  h.invariant (fun s => ∃ bs, HeapCells app s bs) ⟨[], heapCells_zeroed⟩
    (fun _ _ _ ⟨_, hI⟩ hs => hI.step hs)
