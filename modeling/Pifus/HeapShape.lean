import Mathlib.Data.List.Chain
import Pifus.HeapRuns

/-!
# The shape of the shared heap

The representation invariant of the heap in full: every back offset names the
block directly before (`Linked`), and no two neighbours are both free
(`Coalesced`). An allocation keeps both, whichever of its three branches it
takes.

A free keeps the second and can break the first. Merging with the free block
behind takes that block's header away, and the block behind *it* keeps naming
the header that is gone; only the merge with the block in front relinks.
`MergeOk` is the condition on the memory before the call, and it is exact: in
every reachable state of a run that meets it, the next step leaves a well
formed heap if and only if it meets the condition as well.
-/

open PifusMemoryBlock

variable (app : AppRegion)

/-- **Every back offset names the block directly before**, `z` being the one
the first block must have. -/
def Linked : ℤ → ℕ → List Block → Prop
  | _, _, [] => True
  | z, p, b :: bs => b.prev = z ∧ Linked (offsetOf app p) (p + 24 + b.size) bs

/-- No two neighbours are both free. -/
def Coalesced (bs : List Block) : Prop :=
  bs.IsChain (fun a b => ¬ (a.free = true ∧ b.free = true))

/-- **The heap is well formed**: the headers lead through blocks of positive
size to the zeros behind the last one, the first back offset is `-1` and the
others name the block directly before, no two neighbours are both free, and
the data of free blocks is zero. -/
def WellFormedHeap (m : Memory) : Prop :=
  ∃ bs, Represents app m bs ∧ Linked app (-1) (app.addr + 4) bs ∧ Coalesced bs

/-- Freeing the block would merge it with a free block that has a block
behind it. -/
def mergesBeforeBlock (m : Memory) (block : Ptr) : Bool :=
  (existingNextBlock m app.addr block).any (fun next =>
    free m next && (existingNextBlock m app.addr next).isSome)

/-- The steps that leave no back offset stale. -/
def MergeOk (s : HeapState) : HeapOp → Prop
  | .free block => mergesBeforeBlock app s.mem block.1 = false
  | _ => True

instance (s : HeapState) (op : HeapOp) : Decidable (MergeOk app s op) :=
  match op with
  | .free _ => inferInstanceAs (Decidable (_ = _))
  | .allocate _ | .overwrite _ _ _ => isTrue trivial

/-- The first of the blocks is free and is not the last one. -/
def FreeBeforeBlock : List Block → Prop
  | c :: _ :: _ => c.free = true
  | _ => False

variable {app} {s t : HeapState} {op : HeapOp} {z z' : ℤ} {p q n : ℕ}

/-! ## Back offsets -/

theorem linked_append {l r : List Block} :
    Linked app z p (l ++ r) ↔
      Linked app z p l ∧ Linked app (lastLink app z p l) (p + span l) r := by
  induction l generalizing z p with
  | nil => simp [Linked, lastLink]
  | cons b l ih =>
    rw [List.cons_append, Linked, Linked, ih, lastLink, span_cons, and_assoc,
      show p + 24 + b.size + span l = p + (24 + b.size + span l) from by omega]

theorem Linked.relink {bs : List Block} (h : Linked app z p bs) :
    Linked app z' p (relink z' bs) := by
  cases bs with
  | nil => trivial
  | cons b bs => exact ⟨rfl, h.2⟩

/-- **First fit keeps the back offsets**, whichever branch places the
block. -/
theorem linked_place {bs bs' : List Block} {prev : Option ℕ}
    (hplace : place app n prev p bs = some (q, bs'))
    (h : Linked app (backLink app prev) p bs) :
    Linked app (backLink app prev) p bs' := by
  induction bs generalizing prev p bs' with
  | nil =>
    rw [place] at hplace
    split at hplace
    · obtain ⟨-, rfl⟩ := Prod.mk.inj (Option.some.inj hplace)
      exact ⟨rfl, trivial⟩
    · exact absurd hplace (by simp)
  | cons b bs ih =>
    rw [place] at hplace
    obtain ⟨hb, hrest⟩ := h
    split at hplace
    · obtain ⟨-, rfl⟩ := Prod.mk.inj (Option.some.inj hplace)
      exact ⟨hb, hrest⟩
    · split at hplace
      · rename_i hsplit
        obtain ⟨-, rfl⟩ := Prod.mk.inj (Option.some.inj hplace)
        refine ⟨hb, rfl, ?_⟩
        show Linked app _ (p + 24 + n + 24 + (b.size - n - 24)) _
        rw [show p + 24 + n + 24 + (b.size - n - 24) = p + 24 + b.size from by
          omega]
        exact hrest.relink
      · obtain ⟨⟨q', bs''⟩, hplace', heq⟩ := Option.map_eq_some_iff.mp hplace
        obtain ⟨rfl, rfl⟩ := Prod.mk.inj heq
        exact ⟨hb, ih hplace' hrest⟩

/-- **Merging with the block behind** keeps the back offsets exactly if
there is no block behind that one. -/
theorem linked_absorbNext {b : Block} {r : List Block} (hb : b.prev = z)
    (hr : Linked app (offsetOf app p) (p + 24 + b.size) r) :
    Linked app z p (absorbNext b r) ↔ ¬ FreeBeforeBlock r := by
  cases r with
  | nil => simp [absorbNext, Linked, FreeBeforeBlock, hb]
  | cons c r =>
    rw [absorbNext]
    by_cases hc : c.free = true
    · rw [if_pos hc]
      cases r with
      | nil => simp [Linked, FreeBeforeBlock, hb]
      | cons d r =>
        -- `d` names the header of `c`, which is no longer one
        have hd : d.prev = offsetOf app (p + 24 + b.size) := hr.2.1
        refine iff_of_false (fun h => ?_) (fun h => h hc)
        have hd' : d.prev = offsetOf app p := h.2.1
        rw [hd] at hd'
        unfold offsetOf at hd'
        omega
    · rw [if_neg hc]
      refine iff_of_true ⟨hb, hr⟩ ?_
      cases r with
      | nil => exact fun h => h
      | cons d r => exact hc

theorem freeBeforeBlock_relink {r : List Block} :
    FreeBeforeBlock (relink z r) ↔ FreeBeforeBlock r := by
  rcases r with - | ⟨c, - | ⟨d, r⟩⟩ <;> exact Iff.rfl

/-- **A free keeps the back offsets** exactly if it does not merge with a
free block that has a block behind it. -/
theorem linked_release {l r : List Block} {b : Block}
    (h : Linked app z p (l ++ b :: r)) :
    Linked app z p (release l b r) ↔ ¬ FreeBeforeBlock r := by
  rcases List.eq_nil_or_concat l with rfl | ⟨l, a, rfl⟩
  · cases r with
    | nil => exact iff_of_true trivial (fun h => h)
    | cons c r => exact linked_absorbNext h.1 h.2
  · rw [List.concat_eq_append] at h ⊢
    rw [List.append_assoc, linked_append] at h
    obtain ⟨hl, ha, hb, hr⟩ := h
    rw [release_append, linked_append, and_iff_right hl, release]
    by_cases hfree : a.free = true
    · rw [if_pos hfree, ← freeBeforeBlock_relink (z := b.prev)]
      refine linked_absorbNext (b := { a with size := _ }) ha ?_
      rw [hb]
      have haddr : p + span l + 24 + (a.size + 24 + b.size)
          = p + span l + 24 + a.size + 24 + b.size := by omega
      show Linked app _ (p + span l + 24 + (a.size + 24 + b.size)) _
      rw [haddr]
      exact hr.relink
    · rw [if_neg hfree, Linked, and_iff_right ha]
      exact linked_absorbNext hb hr

/-! ## Free neighbours -/

theorem coalesced_cons {b : Block} {bs : List Block} :
    Coalesced (b :: bs) ↔
      (∀ c ∈ bs.head?, ¬ (b.free = true ∧ c.free = true)) ∧ Coalesced bs :=
  List.isChain_cons

/-- The flag of the first block is all that a list tells the block before
it. -/
theorem Coalesced.cons_of_head {b : Block} {bs bs' : List Block}
    (h : Coalesced (b :: bs)) (hbs' : Coalesced bs')
    (hhead : ∀ c' ∈ bs'.head?, c'.free = true →
      ∃ c ∈ bs.head?, c.free = true) : Coalesced (b :: bs') := by
  refine coalesced_cons.mpr ⟨fun c' hc' hboth => ?_, hbs'⟩
  obtain ⟨c, hc, hcf⟩ := hhead c' hc' hboth.2
  exact (coalesced_cons.mp h).1 c hc ⟨hboth.1, hcf⟩

theorem coalesced_relink {bs : List Block} (h : Coalesced bs) :
    Coalesced (relink z bs) := by
  cases bs with
  | nil => exact h
  | cons b bs =>
    obtain ⟨hb, hbs⟩ := coalesced_cons.mp h
    exact coalesced_cons.mpr ⟨fun c hc hboth => hb c hc hboth, hbs⟩

theorem free_head_relink {bs : List Block} {c' : Block}
    (h : c' ∈ (relink z bs).head?) (hf : c'.free = true) :
    ∃ c ∈ bs.head?, c.free = true := by
  cases bs with
  | nil => simp [relink] at h
  | cons b bs =>
    simp only [relink, List.head?_cons, Option.mem_def, Option.some.injEq] at h
    subst h
    exact ⟨b, rfl, hf⟩

/-- A live block in front of a list never has a free neighbour. -/
theorem coalesced_cons_live {b : Block} {bs : List Block} (hb : b.free = false)
    (h : Coalesced bs) : Coalesced (b :: bs) :=
  coalesced_cons.mpr ⟨fun _ _ hboth => by simp [hb] at hboth, h⟩

/-- **First fit keeps free blocks apart**: it makes one live, and the rest of
a split has the neighbour that the whole block had. -/
theorem coalesced_place {bs bs' : List Block} {prev : Option ℕ}
    (hplace : place app n prev p bs = some (q, bs')) (h : Coalesced bs) :
    Coalesced bs' ∧ ∀ c' ∈ bs'.head?, c'.free = true →
      ∃ c ∈ bs.head?, c.free = true := by
  induction bs generalizing prev p bs' with
  | nil =>
    rw [place] at hplace
    split at hplace
    · obtain ⟨-, rfl⟩ := Prod.mk.inj (Option.some.inj hplace)
      refine ⟨coalesced_cons_live rfl h, fun c' hc' hf => ?_⟩
      obtain rfl := Option.some.inj hc'
      exact absurd hf (by simp)
    · exact absurd hplace (by simp)
  | cons b bs ih =>
    rw [place] at hplace
    have hbs := (coalesced_cons.mp h).2
    split at hplace
    · obtain ⟨-, rfl⟩ := Prod.mk.inj (Option.some.inj hplace)
      refine ⟨coalesced_cons_live rfl hbs, fun c' hc' hf => ?_⟩
      obtain rfl := Option.some.inj hc'
      exact absurd hf (by simp)
    · split at hplace
      · rename_i hsplit
        obtain ⟨-, rfl⟩ := Prod.mk.inj (Option.some.inj hplace)
        have hrest : Coalesced (⟨true, b.size - n - 24, offsetOf app p⟩
            :: relink (offsetOf app (p + 24 + n)) bs) := by
          refine coalesced_cons.mpr ⟨fun c' hc' hboth => ?_,
            coalesced_relink hbs⟩
          obtain ⟨c, hc, hcf⟩ := free_head_relink hc' hboth.2
          exact (coalesced_cons.mp h).1 c hc ⟨hsplit.2, hcf⟩
        refine ⟨coalesced_cons_live rfl hrest, fun c' hc' hf => ?_⟩
        obtain rfl := Option.some.inj hc'
        exact absurd hf (by simp)
      · obtain ⟨⟨q', bs''⟩, hplace', heq⟩ := Option.map_eq_some_iff.mp hplace
        obtain ⟨rfl, rfl⟩ := Prod.mk.inj heq
        obtain ⟨hco, hhead⟩ := ih hplace' hbs
        exact ⟨h.cons_of_head hco hhead, fun c' hc' hf => ⟨c', hc', hf⟩⟩

/-- The merge with the block behind takes in a free neighbour, so the block
that is left has none. -/
theorem coalesced_absorbNext {b : Block} {r : List Block} (h : Coalesced r) :
    Coalesced (absorbNext b r) := by
  cases r with
  | nil => exact List.isChain_singleton _
  | cons c r =>
    obtain ⟨hc, hr⟩ := coalesced_cons.mp h
    rw [absorbNext]
    split
    · rename_i hcf
      exact coalesced_cons.mpr ⟨fun d hd hboth => hc d hd ⟨hcf, hboth.2⟩, hr⟩
    · rename_i hcf
      refine coalesced_cons.mpr ⟨fun d hd hboth => ?_, h⟩
      obtain rfl := Option.some.inj hd
      exact hcf hboth.2

/-- **A free keeps free blocks apart.** -/
theorem coalesced_release {l r : List Block} {b : Block}
    (h : Coalesced (l ++ b :: r)) : Coalesced (release l b r) := by
  rcases List.eq_nil_or_concat l with rfl | ⟨l, a, rfl⟩
  · cases r with
    | nil => exact List.isChain_nil
    | cons c r => exact coalesced_absorbNext (coalesced_cons.mp h).2
  · rw [List.concat_eq_append] at h ⊢
    rw [List.append_assoc] at h
    obtain ⟨hl, hab, hla⟩ := List.isChain_append.mp h
    have hr : Coalesced r :=
      (coalesced_cons.mp (coalesced_cons.mp hab).2).2
    rw [release_append]
    refine List.isChain_append.mpr ⟨hl, ?_, fun x hx y hy hboth => ?_⟩
    · rw [release]
      split
      · exact coalesced_absorbNext (coalesced_relink hr)
      · rename_i ha
        exact coalesced_cons_live (by simpa using ha) (coalesced_absorbNext hr)
    · -- the block that takes over from `a` is free only if `a` was
      have ha : a.free = true := by
        by_contra hna
        rw [release, if_neg hna] at hy
        obtain rfl := Option.some.inj hy
        exact hna hboth.2
      exact hla x hx a rfl ⟨hboth.1, ha⟩

/-! ## One memory, one list of blocks -/

/-- **Two lists of blocks that a memory holds up to the same end are the
same.** -/
theorem Segment.unique {m : Memory} {bs bs' : List Block} {hi : ℕ}
    (h : Segment m p bs) (h' : Segment m p bs') (hfit : p + span bs ≤ hi)
    (hfit' : p + span bs' ≤ hi) (htail : m.Zero (p + span bs) (hi + 24))
    (htail' : m.Zero (p + span bs') (hi + 24)) : bs = bs' := by
  induction bs generalizing p bs' with
  | nil =>
    cases bs' with
    | nil => rfl
    | cons c bs' =>
      have hzero : size m p = 0 :=
        size_of_zero (htail.mono (le_refl _) (by rw [span_nil] at hfit; omega))
      rw [h'.1.1.size] at hzero
      exact absurd hzero (Nat.pos_iff_ne_zero.mp h'.1.2.1)
  | cons b bs ih =>
    cases bs' with
    | nil =>
      have hzero : size m p = 0 :=
        size_of_zero (htail'.mono (le_refl _)
          (by rw [span_nil] at hfit'; omega))
      rw [h.1.1.size] at hzero
      exact absurd hzero (Nat.pos_iff_ne_zero.mp h.1.2.1)
    | cons c bs' =>
      have hbc : b = c := by
        have hb := h.1.1
        have hc := h'.1.1
        cases b
        cases c
        simp only [Block.mk.injEq]
        exact ⟨hb.free.symm.trans hc.free, hb.size.symm.trans hc.size,
          hb.prev.symm.trans hc.prev⟩
      subst hbc
      have hspan : ∀ l, p + span (b :: l) = p + 24 + b.size + span l := by
        intro l
        rw [span_cons]
        omega
      rw [hspan] at hfit hfit' htail htail'
      rw [ih h.2 h'.2 hfit hfit' htail htail']

theorem Represents.unique {m : Memory} {bs bs' : List Block}
    (h : Represents app m bs) (h' : Represents app m bs') : bs = bs' :=
  h.segment.unique h'.segment h.fits h'.fits h.tail h'.tail

/-! ## The condition on the memory -/

/-- `mergesBeforeBlock` looks two blocks ahead. -/
theorem mergesBeforeBlock_iff {m : Memory} {l r : List Block} {b : Block}
    (h : Represents app m (l ++ b :: r)) (hq : q = app.addr + 4 + span l) :
    mergesBeforeBlock app m q = true ↔ FreeBeforeBlock r := by
  have hseg := (segment_append.mp h.segment).2
  have hspan : app.addr + 4 + span (l ++ b :: r) = q + span (b :: r) := by
    rw [span_append]
    omega
  have hfit := h.fits
  have htail := h.tail
  rw [← hq] at hseg
  rw [hspan] at hfit htail
  unfold mergesBeforeBlock
  rw [existingNextBlock_eq hseg hfit htail]
  cases r with
  | nil => simp [FreeBeforeBlock]
  | cons c r =>
    have hspan' : q + span (b :: c :: r) = q + 24 + b.size + span (c :: r) := by
      rw [span_cons]
      omega
    rw [hspan'] at hfit htail
    rw [if_neg (by simp), Option.any_some,
      existingNextBlock_eq hseg.2 hfit htail, hseg.2.1.1.free]
    cases r with
    | nil => simp [FreeBeforeBlock]
    | cons d r => simp [FreeBeforeBlock]

/-! ## Runs -/

/-- The heap invariant together with the shape of the heap. -/
def ShapeInv (app : AppRegion) (s : HeapState) : Prop :=
  HeapInv app s ∧ WellFormedHeap app s.mem

/-- In a well formed heap no back offset is stale. -/
theorem WellFormedHeap.backOffsetIntact (h : WellFormedHeap app s.mem) :
    BackOffsetIntact app s op := by
  cases op with
  | allocate n => trivial
  | overwrite block i bytes => trivial
  | free block =>
    intro l b r hrep hq
    obtain ⟨bs, hrep', hlinked, -⟩ := h
    obtain rfl := hrep'.unique hrep
    rw [linked_append] at hlinked
    rw [hq, (segment_append.mp hrep.segment).2.1.1.prev]
    exact hlinked.2.1

/-- **The step lemma**: from a well formed heap, a step leads to a well
formed heap if and only if it meets the condition. -/
theorem ShapeInv.step_iff (h : ShapeInv app s) (hs : HeapStep app s op t) :
    WellFormedHeap app t.mem ↔ MergeOk app s op := by
  have hok : BackOffsetIntact app s op := h.2.backOffsetIntact
  obtain ⟨⟨bs, hrep, hlive⟩, bs', hrep', hlinked, hco⟩ := h
  obtain rfl := hrep'.unique hrep
  cases op with
  | allocate n =>
    refine iff_of_true ?_ trivial
    rcases allocate_cases hs hrep with ⟨-, rfl⟩ | ⟨q, bs'', hplace, hP, -⟩
    · exact ⟨bs', hrep, hlinked, hco⟩
    · exact ⟨bs'', ⟨hP.segment, hP.fits, hP.tail⟩,
        linked_place hplace hlinked,
        (coalesced_place hplace hco).1⟩
  | overwrite block i bytes =>
    exact iff_of_true
      ⟨bs', (overwrite_cases hs hrep hlive).1, hlinked, hco⟩ trivial
  | free block =>
    obtain ⟨l, b, r, rfl, hq, -, -, hR, -⟩ := free_cases hs hrep hlive hok
    have hrel : Represents app t.mem (release l b r) :=
      ⟨hR.segment, hR.fits, hR.tail⟩
    have hmerge : MergeOk app s (.free block) ↔ ¬ FreeBeforeBlock r := by
      rw [← mergesBeforeBlock_iff hrep hq, Bool.not_eq_true]
      exact Iff.rfl
    rw [hmerge, ← linked_release hlinked]
    constructor
    · rintro ⟨bs'', hrep'', hlinked'', -⟩
      rwa [hrel.unique hrep'']
    · intro hl
      exact ⟨release l b r, hrel, hl, coalesced_release hco⟩

theorem shapeInv_zeroed : ShapeInv app HeapState.zeroed :=
  ⟨heapInv_zeroed, [], represents_zeroed, trivial, List.isChain_nil⟩

theorem shapeInv_of_run {es : List HeapOp}
    (h : Run (Guarded (MergeOk app) (HeapStep app)) HeapState.zeroed es s) :
    ShapeInv app s :=
  h.invariant (ShapeInv app) shapeInv_zeroed (fun _ _ _ hI hs =>
    ⟨hI.1.step hI.2.backOffsetIntact hs.2, (hI.step_iff hs.2).mpr hs.1⟩)

/-- **The shared heap keeps its shape** in every run that merges no block
with a free block which has a block behind it; and the step that does so is
the one that breaks it. -/
theorem reachable_wellFormedHeap {es : List HeapOp}
    (h : Run (Guarded (MergeOk app) (HeapStep app)) HeapState.zeroed es s) :
    WellFormedHeap app s.mem ∧ ∀ op t, HeapStep app s op t →
      (WellFormedHeap app t.mem ↔ MergeOk app s op) := by
  have hinv := shapeInv_of_run h
  exact ⟨hinv.2, fun op t hs => hinv.step_iff hs⟩

/-- Of two blocks the first is freed, and then the second, which is merged with
it. -/
theorem reachable_wellFormedHeap_two :
    ∃ s, s.live = []
      ∧ Run (HeapStep exampleRegion) HeapState.zeroed [.allocate 8, .allocate 8,
        .free (4100, 8), .free (4132, 8)] s
      ∧ WellFormedHeap exampleRegion s.mem := by
  have hs : (([.allocate 8, .allocate 8, .free (4100, 8), .free (4132, 8)] :
      List HeapOp).foldlM (guardedStep (MergeOk exampleRegion)
        (heapStep exampleRegion)) HeapState.zeroed).any
      (fun s => s.live = []) = true := by decide +kernel
  obtain ⟨s, hrun, hlive⟩ := (Option.any_eq_true _ _).mp hs
  have hrun : Run (Guarded (MergeOk exampleRegion) (HeapStep exampleRegion))
      HeapState.zeroed _ s := Run.guarded_of_foldlM hrun
  exact ⟨s, of_decide_eq_true hlive, hrun.of_guarded,
    (reachable_wellFormedHeap hrun).1⟩

/-- **Three blocks, the middle one freed and then the first**: the last one
is left with the offset of the middle one, which has been merged away. -/
theorem merge_leaves_stale_backOffset :
    ¬ ∀ app es s, Run (HeapStep app) HeapState.zeroed es s →
      WellFormedHeap app s.mem := by
  intro hall
  have hs : (heapRun exampleRegion HeapState.zeroed [.allocate 8, .allocate 8,
      .allocate 8, .free (4132, 8)]).map
      (fun s => mergesBeforeBlock exampleRegion s.mem 4100) = some true := by
    decide +kernel
  have ht : ((heapRun exampleRegion HeapState.zeroed [.allocate 8, .allocate 8,
      .allocate 8, .free (4132, 8)]).bind
      (fun s => heapStep exampleRegion s (.free (4100, 8)))).isSome := by
    decide +kernel
  obtain ⟨s, hrun, hmerge⟩ := Option.map_eq_some_iff.mp hs
  rw [hrun, Option.bind_some] at ht
  obtain ⟨t, hstep⟩ := Option.isSome_iff_exists.mp ht
  have hrun' := run_of_heapRun hrun
  have hinv : HeapInv exampleRegion s ∧ ∃ es,
      Run (HeapStep exampleRegion) HeapState.zeroed es s := by
    refine hrun'.invariant (fun u => HeapInv exampleRegion u ∧ ∃ es,
      Run (HeapStep exampleRegion) HeapState.zeroed es u)
      ⟨heapInv_zeroed, [], Run.nil⟩ ?_
    rintro u op v ⟨hu, es, hes⟩ huv
    exact ⟨hu.step (hall _ es u hes).backOffsetIntact huv, es ++ [op],
      Run.snoc hes huv⟩
  have hok := (ShapeInv.step_iff ⟨hinv.1, hall _ _ s hrun'⟩ hstep).mp
    (hall exampleRegion _ t (Run.snoc hrun' hstep))
  rw [MergeOk, hmerge] at hok
  exact absurd hok (by simp)
