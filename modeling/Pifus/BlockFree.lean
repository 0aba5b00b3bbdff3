import Pifus.BlockAllocate

/-!
# Freeing on the chain of blocks

`release` is what `shm_data_free` does to the list of blocks: a block with no
neighbour is deleted; otherwise it becomes free and is merged with a free
block before it and with a free block behind it. As in the code, a merge to
the left relinks the block behind, and a merge to the right does not.

`shmDataFree_release` is the refinement. It asks that the back offset of the
freed block names the block before it, which is what the code follows to
find its left neighbour.
-/

open PifusMemoryBlock

/-- Make a block free and merge it with the block behind it, if that one is
free. -/
def absorbNext (b : Block) : List Block → List Block
  | [] => [{ b with free := true }]
  | c :: r =>
    if c.free then ⟨true, b.size + 24 + c.size, b.prev⟩ :: r
    else { b with free := true } :: c :: r

/-- **The list of blocks after a block between two others is freed.** -/
def release : List Block → Block → List Block → List Block
  | [], _, [] => []
  | [], b, c :: r => absorbNext b (c :: r)
  | [a], b, r =>
    if a.free then
      absorbNext { a with size := a.size + 24 + b.size } (relink b.prev r)
    else a :: absorbNext b r
  | a :: a' :: l, b, r => a :: release (a' :: l) b r

theorem release_append (l : List Block) (a b : Block) (r : List Block) :
    release (l ++ [a]) b r = l ++ release [a] b r := by
  induction l with
  | nil => rfl
  | cons x l ih =>
    cases l with
    | nil => rfl
    | cons y l =>
      show x :: release (y :: l ++ [a]) b r = x :: (y :: l ++ release [a] b r)
      rw [ih]

variable {app : AppRegion} {m M : Memory} {p q n s S : ℕ} {z z' : ℤ}

/-- What a successful free leaves behind: `M` holds the blocks `bs'` where
`m` held `bs`, the live block at `q` is gone, and every other one is kept. -/
structure Released (app : AppRegion) (m M : Memory) (p q n : ℕ)
    (bs bs' : List Block) : Prop where
  segment : Segment M p bs'
  fits : p + span bs' ≤ app.addr + shmAppSize
  tail : M.Zero (p + span bs') (app.addr + shmAppSize + 24)
  kept : ∀ x k, (x, k) ∈ liveOf p bs → x ≠ q → Kept m M x k
  link : ∀ x k, (x, k) ∈ liveOf p bs → x ≠ q → LinkKept app m M p bs' x
  live : (liveOf p bs).Perm ((q, n) :: liveOf p bs')

/-- One free block of `S` bytes has been made at `s`: its header is there,
its data is zero, and nothing else has changed but the back offset of the
block behind it. -/
structure Merged (m M : Memory) (s S : ℕ) (z : ℤ) : Prop where
  before : m.Agree M 0 s
  header : HeaderAt M s ⟨true, S, z⟩
  data : M.Zero (s + 24) (s + 24 + S)
  head : m.Agree M (s + 24 + S) (s + 24 + S + 16)
  behind : ∀ hi, m.Agree M (s + 24 + S + 24) hi

/-- **Merging neighbours** into one free block, on the list of blocks:
`mid` are the blocks merged, one of them the live block that is freed. -/
theorem Merged.released {l mid r : List Block}
    (hM : Merged m M (p + span l) S z)
    (hseg : Segment m p (l ++ mid ++ r))
    (hfit : p + span (l ++ mid ++ r) ≤ app.addr + shmAppSize)
    (htail : m.Zero (p + span (l ++ mid ++ r)) (app.addr + shmAppSize + 24))
    (hS : 24 + S = span mid) (hpos : 0 < S)
    (hlive : liveOf (p + span l) mid = [(q, n)])
    (hlink : r ≠ [] → prevBlockOffset M (p + span l + 24 + S) = z')
    (hprev : r ≠ [] →
      m.Agree M (p + span l + 24 + S + 16) (p + span l + 24 + S + 24)
        ∨ z' = offsetOf app (p + span l))
    (hend : r = [] →
      m.Agree M (p + span l + 24 + S) (p + span l + 24 + S + 24)) :
    Released app m M p q n (l ++ mid ++ r)
      (l ++ ⟨true, S, z⟩ :: relink z' r) := by
  have hspan : span (l ++ ⟨true, S, z⟩ :: relink z' r)
      = span (l ++ mid ++ r) := by
    simp only [span_append, span_cons, span_relink]
    omega
  have hr : p + span (l ++ mid) = p + span l + 24 + S := by
    rw [span_append]; omega
  obtain ⟨hsegl, hsegr⟩ := segment_append.mp hseg
  obtain ⟨hsegl, -⟩ := segment_append.mp hsegl
  rw [hr] at hsegr
  refine ⟨segment_append.mpr ⟨hsegl.congr (hM.before.mono (by omega) (by omega)),
    ⟨⟨hM.header, hpos, fun _ => hM.data⟩, ?_⟩⟩, ?_, ?_, ?_, ?_, ?_⟩
  · show Segment M (p + span l + 24 + S) (relink z' r)
    cases r with
    | nil => trivial
    | cons c r => exact hsegr.relink hM.head (hlink (by simp)) (hM.behind _)
  · rw [hspan]; exact hfit
  · rw [hspan]
    cases r with
    | nil =>
      rw [List.append_nil, hr] at htail ⊢
      intro x h₁ h₂
      by_cases hx : x < p + span l + 24 + S + 24
      · exact (hend rfl x h₁ hx).symm.trans (htail x h₁ h₂)
      · exact (hM.behind _ x (by omega) h₂).symm.trans (htail x h₁ h₂)
    | cons c r =>
      have hge : p + span l + 24 + S + 24 ≤ p + span (l ++ mid ++ c :: r) := by
        simp only [span_append, span_cons]
        omega
      exact htail.congr ((hM.behind _).mono hge (le_refl _))
  · intro x k hx hne
    rw [liveOf_append, liveOf_append, hlive, hr] at hx
    simp only [List.mem_append, List.mem_singleton] at hx
    rcases hx with (hx | hx) | hx
    · exact kept_liveOf (hM.before.mono (by omega) (by omega)) hx
    · exact absurd (Prod.mk.inj hx).1 hne
    · exact kept_liveOf_relink hM.head (hM.behind _) hx
  · intro x k hx hne
    rw [liveOf_append, liveOf_append, hlive, hr] at hx
    simp only [List.mem_append, List.mem_singleton] at hx
    rcases hx with (hx | hx) | hx
    · exact linkKept_of_agree hM.before (Nat.zero_le _) (le_refl _) hx
    · exact absurd (Prod.mk.inj hx).1 hne
    · refine LinkKept.append l (linkKept_relink hx rfl (hM.behind _)
        (fun hne => (hprev hne).imp id (fun hz => ?_)))
      rw [hlink hne, hz]
  · rw [liveOf_append, liveOf_append, hlive, hr, liveOf_append,
      liveOf_cons_free _ _ rfl, liveOf_relink, List.append_assoc]
    exact List.perm_middle

/-! ## The bytes of `shm_data_free` -/

/-- The next block of a block of the chain: there is one exactly if there is
a block behind it in the list. -/
theorem existingNextBlock_eq {b : Block} {r : List Block}
    (hseg : Segment m q (b :: r))
    (hfit : q + span (b :: r) ≤ app.addr + shmAppSize)
    (htail : m.Zero (q + span (b :: r)) (app.addr + shmAppSize + 24)) :
    existingNextBlock m app.addr q
      = if r = [] then none else some (q + 24 + b.size) := by
  have hh : HeaderAt m q b := hseg.1.1
  rw [span_cons] at hfit htail
  unfold existingNextBlock
  rw [hh.next (by omega)]
  cases r with
  | nil =>
    have hzero : size m (q + 24 + b.size) = 0 := by
      rw [span_nil, Nat.add_zero, ← Nat.add_assoc] at htail
      exact size_of_zero (htail.mono (le_refl _) (by omega))
    simp [hzero]
  | cons c r =>
    have hc : size m (q + 24 + b.size) = c.size := hseg.2.1.1.size
    have hpos : 0 < c.size := hseg.2.1.2.1
    simp only [hc, Option.filter_some, reduceCtorEq, if_false]
    rw [if_pos (by simpa using Nat.pos_iff_ne_zero.mp hpos)]

/-- The last two stores of `shm_data_free` change the data and the flag of
the merged block only. -/
theorem agree_clear {m₂ : Memory} {lo hi : ℕ} (hs : s + 24 < 2 ^ 64)
    (hsize : size m₂ s = S) (h₁ : hi ≤ s ∨ s + 1 ≤ lo)
    (h₂ : hi ≤ s + 24 ∨ s + 24 + S ≤ lo) :
    m₂.Agree
      (setFree (m₂.fill (shmDataGetDataPtr s) (size m₂ s) 0) s true) lo hi := by
  have hdata : shmDataGetDataPtr s = s + 24 := Nat.mod_eq_of_lt hs
  rw [hdata, hsize]
  exact (Memory.agree_fill h₂).trans (agree_setFree h₁)

/-- The last two stores of `shm_data_free` make the merged block, from any
memory in which its size and back offset are already there. -/
theorem merged_fill {m₂ : Memory} (hs : s + 24 < 2 ^ 64)
    (hsize : size m₂ s = S) (hprev : prevBlockOffset m₂ s = z)
    (hag : ∀ lo hi, (hi ≤ s + 8 ∨ s + 16 ≤ lo) →
      (hi ≤ s + 24 + S + 16 ∨ s + 24 + S + 24 ≤ lo) →
      (hi ≤ s + 24 ∨ s + 24 + S ≤ lo) → m.Agree m₂ lo hi) :
    Merged m
      (setFree (m₂.fill (shmDataGetDataPtr s) (size m₂ s) 0) s true) s S z := by
  have hstore : ∀ lo hi, (hi ≤ s ∨ s + 1 ≤ lo) →
      (hi ≤ s + 24 ∨ s + 24 + S ≤ lo) → m₂.Agree _ lo hi :=
    fun lo hi h₁ h₂ => agree_clear hs hsize h₁ h₂
  refine ⟨?_, ⟨?_, ?_, ?_⟩, ?_, ?_, fun hi => ?_⟩
  · exact (hag _ _ (by omega) (by omega) (by omega)).trans
      (hstore _ _ (by omega) (by omega))
  · rw [free_setFree]
  · rw [← size_congr (hstore _ _ (by omega) (by omega)), hsize]
  · rw [← prevBlockOffset_congr (hstore _ _ (by omega) (by omega)), hprev]
  · have hdata : shmDataGetDataPtr s = s + 24 := Nat.mod_eq_of_lt hs
    rw [hdata, hsize]
    exact (Memory.zero_fill m₂ (s + 24) S).congr (agree_setFree (by omega))
  · exact (hag _ _ (by omega) (by omega) (by omega)).trans
      (hstore _ _ (by omega) (by omega))
  · exact (hag _ _ (by omega) (by omega) (by omega)).trans
      (hstore _ _ (by omega) (by omega))

@[simp] theorem relink_self (r : List Block) (c : Block) :
    relink c.prev (c :: r) = c :: r := rfl

theorem freeMerged_of_mergeNext {next : Option Ptr} {m₁ m₂ : Memory}
    (h : mergeNext m₁ s next = m₂) :
    freeMerged m₁ s next
      = setFree (m₂.fill (shmDataGetDataPtr s) (size m₂ s) 0) s true := by
  rw [← h]
  rfl

theorem mergeNext_of_free {m₁ : Memory} {x k : ℕ} (hf : free m₁ x = true)
    (hsize : size m₁ s = S) (hx : size m₁ x = k) (hb : S + 24 + k < 2 ^ 64) :
    mergeNext m₁ s (some x) = setSize m₁ s (S + 24 + k) := by
  unfold mergeNext
  simp only [sizeofPifusMemoryBlock, hf, hsize, hx, Nat.mod_eq_of_lt hb, if_true]

theorem mergeNext_of_live {m₁ : Memory} {x : ℕ} (hf : free m₁ x = false) :
    mergeNext m₁ s (some x) = m₁ := by
  unfold mergeNext
  simp only [hf, Bool.false_eq_true, if_false]

theorem absorbNext_of_free {c : Block} {r : List Block} (hf : c.free = true) :
    absorbNext ⟨true, S, z⟩ (relink z' (c :: r))
      = ⟨true, S + 24 + c.size, z⟩ :: relink (r.head?.elim 0 Block.prev) r := by
  show (if c.free then _ else _) = _
  rw [if_pos hf]
  cases r <;> rfl

theorem absorbNext_of_live {c : Block} {r : List Block} (hf : c.free = false) :
    absorbNext ⟨true, S, z⟩ (relink z' (c :: r))
      = ⟨true, S, z⟩ :: relink z' (c :: r) := by
  show (if c.free then _ else _) = _
  rw [if_neg (by simp [hf])]
  rfl

/-- The end of `shm_data_free` where nothing is taken from behind: there is
no block behind the merged one, or it is live and only its back offset may
have changed. -/
theorem freeMerged_released_of_mergeNext {l mid r : List Block} {m₁ : Memory}
    {next : Option Ptr} (hmerge : mergeNext m₁ (p + span l) next = m₁)
    (hlo : p + span l + 24 + S ≤ app.addr + shmAppSize)
    (hseg : Segment m p (l ++ mid ++ r))
    (hfit : p + span (l ++ mid ++ r) ≤ app.addr + shmAppSize)
    (htail : m.Zero (p + span (l ++ mid ++ r)) (app.addr + shmAppSize + 24))
    (hS : 24 + S = span mid) (hpos : 0 < S)
    (hlive : liveOf (p + span l) mid = [(q, n)])
    (hsize : size m₁ (p + span l) = S)
    (hprev : prevBlockOffset m₁ (p + span l) = z)
    (hag : ∀ lo hi, (hi ≤ p + span l + 8 ∨ p + span l + 16 ≤ lo) →
      (r = [] ∨ hi ≤ p + span l + 24 + S + 16 ∨ p + span l + 24 + S + 24 ≤ lo) →
      m.Agree m₁ lo hi)
    (hlink : r ≠ [] → prevBlockOffset m₁ (p + span l + 24 + S) = z')
    (hprevr : r ≠ [] →
      m.Agree m₁ (p + span l + 24 + S + 16) (p + span l + 24 + S + 24)
        ∨ z' = offsetOf app (p + span l)) :
    Released app m (freeMerged m₁ (p + span l) next) p q n (l ++ mid ++ r)
      (l ++ ⟨true, S, z⟩ :: relink z' r) := by
  have happ := app.bound
  have hM := merged_fill (m := m) (by omega) hsize hprev
    (fun lo hi h₁ h₂ _ => hag lo hi h₁ (Or.inr h₂))
  have hclear : m₁.Agree (setFree _ (p + span l) true) (p + span l + 24 + S)
      (p + span l + 24 + S + 24) :=
    agree_clear (by omega) hsize (by omega) (by omega)
  rw [freeMerged_of_mergeNext hmerge]
  refine hM.released hseg hfit htail hS hpos hlive (fun hr => ?_)
    (fun hr => (hprevr hr).imp
      (fun h => h.trans (hclear.mono (by omega) (le_refl _))) id)
    (fun hr => (hag _ _ (by omega) (Or.inl hr)).trans hclear)
  rw [← prevBlockOffset_congr (hclear.mono (by omega) (le_refl _)), hlink hr]

/-- The end of `shm_data_free` where the block behind the merged one is free:
its header and data become data of the merged block. -/
theorem freeMerged_released_of_free {l mid r : List Block} {c : Block}
    {m₁ : Memory} (hf : c.free = true)
    (hseg : Segment m p (l ++ mid ++ c :: r))
    (hfit : p + span (l ++ mid ++ c :: r) ≤ app.addr + shmAppSize)
    (htail : m.Zero (p + span (l ++ mid ++ c :: r)) (app.addr + shmAppSize + 24))
    (hS : 24 + S = span mid) (hlive : liveOf (p + span l) mid = [(q, n)])
    (hsize : size m₁ (p + span l) = S)
    (hprev : prevBlockOffset m₁ (p + span l) = z)
    (hag : ∀ lo hi, (hi ≤ p + span l + 8 ∨ p + span l + 16 ≤ lo) →
      (hi ≤ p + span l + 24 + S + 16 ∨ p + span l + 24 + S + 24 ≤ lo) →
      m.Agree m₁ lo hi)
    (hmerge : mergeNext m₁ (p + span l) (some (p + span l + 24 + S))
      = setSize m₁ (p + span l) (S + 24 + c.size)) :
    Released app m
      (freeMerged m₁ (p + span l) (some (p + span l + 24 + S))) p q n
      (l ++ mid ++ c :: r)
      (l ++ ⟨true, S + 24 + c.size, z⟩ :: relink (r.head?.elim 0 Block.prev) r) := by
  have happ := app.bound
  have hfit' := hfit
  simp only [span_append, span_cons] at hfit'
  have hsegr := (segment_append.mp hseg).2
  have hsize' : size (setSize m₁ (p + span l) (S + 24 + c.size)) (p + span l)
      = S + 24 + c.size := size_setSize (by omega)
  have hag' : ∀ lo hi, lo < hi → (hi ≤ p + span l + 8 ∨ p + span l + 16 ≤ lo)
      → (hi ≤ p + span l + 24 + S + 16 ∨ p + span l + 24 + S + 24 ≤ lo) →
      m.Agree (setSize m₁ (p + span l) (S + 24 + c.size)) lo hi :=
    fun lo hi _ h₁ h₂ => (hag lo hi h₁ h₂).trans (agree_setSize h₁)
  have hM := merged_fill (m := m) (z := z) (by omega) hsize'
    (by rw [prevBlockOffset_setSize, hprev]) (fun lo hi h₁ h₂ h₃ => by
      by_cases hlt : lo < hi
      · exact hag' lo hi hlt h₁ (by omega)
      · intro x hx₁ hx₂
        omega)
  -- what lies behind the merged blocks is untouched
  have hbehind : m.Agree (setFree _ (p + span l) true)
      (p + span l + 24 + (S + 24 + c.size))
      (p + span l + 24 + (S + 24 + c.size) + 24) :=
    (hag' _ _ (by omega) (by omega) (by omega)).trans
      (agree_clear (by omega) hsize' (by omega) (by omega))
  rw [freeMerged_of_mergeNext hmerge]
  have hlist : l ++ mid ++ c :: r = l ++ (mid ++ [c]) ++ r := by simp
  rw [hlist] at hseg hfit htail ⊢
  refine hM.released hseg hfit htail ?_ (by omega) ?_ ?_
    (fun _ => Or.inl (hbehind.mono (by omega) (le_refl _)))
    (fun _ => hbehind)
  · rw [span_append, ← hS, span_cons, span_nil]
    omega
  · rw [liveOf_append, hlive, liveOf_cons_free _ _ hf]
    rfl
  · intro hr
    cases r with
    | nil => exact absurd rfl hr
    | cons d r =>
      rw [← prevBlockOffset_congr (hbehind.mono (by omega) (le_refl _))]
      have hd := hsegr.2.1.1.prev
      rwa [show p + span (l ++ mid) + 24 + c.size
        = p + span l + 24 + (S + 24 + c.size) from by
          rw [span_append]; omega] at hd

/-- **The end of `shm_data_free` on the list of blocks**, from any memory
`m₁` in which the blocks `mid` have become one block of `S` bytes at `s` as
far as its header and the back offset behind it go. -/
theorem freeMerged_released {l mid r : List Block} {m₁ : Memory}
    (hs : s = p + span l) (hlo : app.addr + 4 ≤ p)
    (hseg : Segment m p (l ++ mid ++ r))
    (hfit : p + span (l ++ mid ++ r) ≤ app.addr + shmAppSize)
    (htail : m.Zero (p + span (l ++ mid ++ r)) (app.addr + shmAppSize + 24))
    (hS : 24 + S = span mid) (hpos : 0 < S) (hlive : liveOf s mid = [(q, n)])
    (hsize : size m₁ s = S) (hprev : prevBlockOffset m₁ s = z)
    (hag : ∀ lo hi, (hi ≤ s + 8 ∨ s + 16 ≤ lo) →
      (r = [] ∨ hi ≤ s + 24 + S + 16 ∨ s + 24 + S + 24 ≤ lo) →
      m.Agree m₁ lo hi)
    (hlink : r ≠ [] → prevBlockOffset m₁ (s + 24 + S) = z')
    (hprevr : r ≠ [] → m.Agree m₁ (s + 24 + S + 16) (s + 24 + S + 24)
      ∨ z' = offsetOf app s) :
    Released app m
      (freeMerged m₁ s (if r = [] then none else some (s + 24 + S))) p q n
      (l ++ mid ++ r) (l ++ absorbNext ⟨true, S, z⟩ (relink z' r)) := by
  have happ := app.bound
  subst hs
  have hfit' := hfit
  simp only [span_append, ← hS] at hfit'
  cases r with
  | nil =>
    rw [if_pos rfl]
    exact freeMerged_released_of_mergeNext (S := S) rfl (by omega) hseg hfit htail
      hS hpos hlive hsize hprev hag hlink hprevr
  | cons c r =>
    have hc : HeaderAt m (p + span l + 24 + S) c := by
      have h := (segment_append.mp hseg).2.1.1
      rwa [show p + span (l ++ mid) = p + span l + 24 + S from by
        rw [span_append]; omega] at h
    rw [span_cons] at hfit'
    have hnext : m.Agree m₁ (p + span l + 24 + S) (p + span l + 24 + S + 16) :=
      hag _ _ (by omega) (by omega)
    have hcfree : free m₁ (p + span l + 24 + S) = c.free :=
      (free_congr (hnext.mono (by omega) (by omega))).symm.trans hc.free
    have hcsize : size m₁ (p + span l + 24 + S) = c.size :=
      (size_congr (hnext.mono (by omega) (by omega))).symm.trans hc.size
    rw [if_neg (by simp)]
    cases hf : c.free with
    | true =>
      rw [absorbNext_of_free hf]
      exact freeMerged_released_of_free hf hseg hfit htail hS hlive hsize hprev
        (fun lo hi h₁ h₂ => hag lo hi h₁ (Or.inr h₂))
        (mergeNext_of_free (hcfree.trans hf) hsize hcsize (by omega))
    | false =>
      rw [absorbNext_of_live hf]
      exact freeMerged_released_of_mergeNext (mergeNext_of_live (hcfree.trans hf))
        (by omega) hseg hfit htail hS hpos hlive hsize hprev hag hlink hprevr

/-! ## `shm_data_free` on the list of blocks -/

theorem shmDataGetBlockPtr_offsetOf (hlo : app.addr + 4 ≤ p)
    (hhi : p ≤ app.addr + shmAppSize) :
    shmDataGetBlockPtr app.addr (offsetOf app p) = p := by
  have happ := app.bound
  show (((app.addr : ℤ) + (4 : ℕ) + ((p : ℤ) - app.addr - 4)) % 2 ^ 64).toNat = p
  omega

/-- The flag of the block that takes over is set whatever it was. -/
theorem absorbNext_eq (b : Block) (r : List Block) :
    absorbNext ⟨true, b.size, b.prev⟩ r = absorbNext b r := by
  cases r <;> rfl

/-- Freeing a block that is not merged with the one before it. -/
theorem freeMerged_self {l r : List Block} {b : Block}
    (h : Represents app m (l ++ b :: r)) (hb : b.free = false)
    (hq : q = app.addr + 4 + span l) :
    Released app m
      (freeMerged m q (if r = [] then none else some (q + 24 + b.size)))
      (app.addr + 4) q b.size (l ++ b :: r) (l ++ absorbNext b r) := by
  obtain ⟨hseg, hfit, htail⟩ := h
  obtain ⟨⟨hh, hpos, -⟩, hsegr⟩ := (segment_append.mp hseg).2
  rw [← hq] at hh hsegr
  have hlist : l ++ b :: r = l ++ [b] ++ r := by simp
  rw [hlist] at hseg hfit htail ⊢
  have hnext : r ≠ [] →
      prevBlockOffset m (q + 24 + b.size) = r.head?.elim 0 Block.prev := by
    intro hr
    cases r with
    | nil => exact absurd rfl hr
    | cons c r => exact hsegr.1.1.prev
  have hrel := freeMerged_released (z := b.prev) (n := b.size) hq (le_refl _)
    hseg hfit htail (by simp) hpos (by rw [liveOf_cons_live _ _ hb]; rfl)
    hh.size hh.prev (fun lo hi _ _ => Memory.Agree.refl m lo hi) hnext
    (fun _ => Or.inl (Memory.Agree.refl m _ _))
  rwa [show relink (r.head?.elim 0 Block.prev) r = r from by cases r <;> rfl,
    absorbNext_eq] at hrel

/-- Freeing a block that is merged with the free block `a` before it. -/
theorem freeMerged_previous {l r : List Block} {a b : Block} {e : ℕ}
    {m₀ : Memory} (h : Represents app m (l ++ a :: b :: r))
    (ha : a.free = true) (hb : b.free = false)
    (hs : s = app.addr + 4 + span l) (hq : q = s + 24 + a.size)
    (he : e = q + 24 + b.size)
    (hag : ∀ lo hi, (r = [] ∨ hi ≤ e + 16 ∨ e + 24 ≤ lo) → m.Agree m₀ lo hi)
    (hlink : r ≠ [] → prevBlockOffset m₀ e = b.prev)
    (hprevb : b.prev = offsetOf app s) :
    Released app m
      (freeMerged (setSize m₀ s (a.size + 24 + b.size)) s
        (if r = [] then none else some e))
      (app.addr + 4) q b.size (l ++ a :: b :: r)
      (l ++ absorbNext { a with size := a.size + 24 + b.size }
        (relink b.prev r)) := by
  have happ := app.bound
  obtain ⟨hseg, hfit, htail⟩ := h
  obtain ⟨⟨hh, hpos, -⟩, hsegb⟩ := (segment_append.mp hseg).2
  have hspan : app.addr + 4 + span (l ++ a :: b :: r) = e + span r := by
    simp only [span_append, span_cons]; omega
  have he' : s + 24 + (a.size + 24 + b.size) = e := by omega
  rw [← hs] at hh
  have hlist : l ++ a :: b :: r = l ++ [a, b] ++ r := by simp
  have hfit' := hfit
  rw [hspan] at hfit'
  have hprev : prevBlockOffset m₀ s = a.prev :=
    (prevBlockOffset_congr (hag _ _ (by omega))).symm.trans hh.prev
  rw [hlist] at hseg hfit htail ⊢
  have hrel := freeMerged_released (q := q) (n := b.size)
    (S := a.size + 24 + b.size) (z := a.prev)
    hs (le_refl _) hseg hfit htail
    (by simp only [span_cons, span_nil]; omega) (by omega)
    (by rw [liveOf_cons_free _ _ ha, liveOf_cons_live _ _ hb, hq]; rfl)
    (size_setSize (by omega)) (by rw [prevBlockOffset_setSize, hprev])
    (fun lo hi h₁ h₂ => (hag lo hi (by rwa [he'] at h₂)).trans
      (agree_setSize h₁))
    (fun hr => by
      rw [he', ← prevBlockOffset_congr (agree_setSize (by omega)), hlink hr])
    (fun _ => Or.inr hprevb)
  rw [he'] at hrel
  rwa [show (⟨true, a.size + 24 + b.size, a.prev⟩ : Block)
    = { a with size := a.size + 24 + b.size } from by rw [← ha]] at hrel

/-- Deleting the only block of a heap. -/
theorem shmDataDeleteBlock_released {b : Block} (h : Represents app m [b])
    (hb : b.free = false) :
    Released app m (shmDataDeleteBlock m (app.addr + 4)) (app.addr + 4)
      (app.addr + 4) b.size [b] [] := by
  have hh : HeaderAt m (app.addr + 4) b := h.segment.1.1
  have hfit := h.fits
  have htail := h.tail
  rw [span_cons, span_nil] at hfit htail
  have happ := app.bound
  have hmod : (24 + b.size) % 2 ^ 64 = 24 + b.size := Nat.mod_eq_of_lt (by omega)
  have hlive : liveOf (app.addr + 4) [b] = [(app.addr + 4, b.size)] := by
    rw [liveOf_cons_live _ _ hb, liveOf_nil]
  have hother : ∀ x k, (x, k) ∈ liveOf (app.addr + 4) [b] → x ≠ app.addr + 4 →
      False := by
    intro x k hx hne
    rw [hlive, List.mem_singleton] at hx
    exact hne (Prod.mk.inj hx).1
  unfold shmDataDeleteBlock
  simp only [sizeofPifusMemoryBlock, hh.size, hmod]
  refine ⟨trivial, show app.addr + 4 + 0 ≤ _ by omega, ?_,
    fun x k hx hne => (hother x k hx hne).elim,
    fun x k hx hne => (hother x k hx hne).elim, ?_⟩
  · show Memory.Zero _ (app.addr + 4) _
    exact (Memory.zero_fill m _ _).append
      ((htail.mono (by omega) (le_refl _)).congr (Memory.agree_fill (by omega)))
  · rw [hlive]
    exact List.Perm.refl _

/-- **`shm_data_free` is `release` on the list of blocks**, wherever the back
offset of the freed block names the block before it. -/
theorem shmDataFree_release {l r : List Block} {b : Block}
    (h : Represents app m (l ++ b :: r)) (hb : b.free = false)
    (hq : q = app.addr + 4 + span l)
    (hlink : b.prev = lastLink app (-1) (app.addr + 4) l) :
    Released app m (shmDataFree app.addr m q) (app.addr + 4) q b.size
      (l ++ b :: r) (release l b r) := by
  have happ := app.bound
  have hsegb := (segment_append.mp h.segment).2
  rw [← hq] at hsegb
  have hfit := h.fits
  have htail := h.tail
  have hspan : app.addr + 4 + span (l ++ b :: r) = q + span (b :: r) := by
    rw [span_append]; omega
  rw [hspan] at hfit htail
  have hh : HeaderAt m q b := hsegb.1.1
  have hnext := existingNextBlock_eq hsegb hfit htail
  rw [span_cons] at hfit
  unfold shmDataFree
  simp only [hnext, hh.prev]
  rcases List.eq_nil_or_concat l with rfl | ⟨l, a, rfl⟩
  · -- no block before it
    have hneg : b.prev = -1 := hlink
    rw [hneg]
    cases r with
    | nil =>
      -- and none behind it: the block is deleted
      rw [if_pos ⟨by decide, if_pos rfl⟩, hq, span_nil, Nat.add_zero]
      exact shmDataDeleteBlock_released h hb
    | cons c r =>
      rw [if_neg (by simp)]
      unfold mergePrevious
      rw [hh.prev, hneg, if_neg (by decide)]
      exact freeMerged_self h hb hq
  · -- a block `a` before it
    rw [List.concat_eq_append, List.append_assoc] at h
    rw [List.concat_eq_append, lastLink_append] at hlink
    rw [List.concat_eq_append, span_append, span_cons, span_nil] at hq
    have hpos : 0 ≤ offsetOf app (app.addr + 4 + span l)
        ∧ offsetOf app (app.addr + 4 + span l) < 2 ^ 63 :=
      offsetOf_bounds (by omega) (by omega)
    have hptr : shmDataGetBlockPtr app.addr
        (offsetOf app (app.addr + 4 + span l)) = app.addr + 4 + span l :=
      shmDataGetBlockPtr_offsetOf (by omega) (by omega)
    have hha : HeaderAt m (app.addr + 4 + span l) a :=
      (segment_append.mp h.segment).2.1.1
    rw [List.concat_eq_append, release_append,
      if_neg (by rw [hlink]; omega)]
    rw [release]
    by_cases ha : a.free = true
    · -- a free one: it takes over, and the block behind is relinked to it
      generalize hm₀ : setNextPrevBlockOffset m
        (if r = [] then none else some (q + 24 + b.size)) b.prev = m₀
      have hag : ∀ lo hi, (r = [] ∨ hi ≤ q + 24 + b.size + 16
          ∨ q + 24 + b.size + 24 ≤ lo) → m.Agree m₀ lo hi := by
        intro lo hi hout
        subst hm₀
        by_cases hr : r = []
        · rw [if_pos hr]
          exact Memory.Agree.refl m lo hi
        · rw [if_neg hr]
          exact agree_setPrevBlockOffset (hout.resolve_left hr)
      have hsizea : size m₀ (app.addr + 4 + span l) = a.size :=
        (size_congr (hag _ _ (by omega))).symm.trans hha.size
      have hsizeb : size m₀ q = b.size :=
        (size_congr (hag _ _ (by omega))).symm.trans hh.size
      have hmod : (a.size + 24 + b.size) % 2 ^ 64 = a.size + 24 + b.size :=
        Nat.mod_eq_of_lt (by omega)
      have hmp : mergePrevious app.addr m q
          (if r = [] then none else some (q + 24 + b.size))
          = (app.addr + 4 + span l,
            setSize m₀ (app.addr + 4 + span l) (a.size + 24 + b.size)) := by
        unfold mergePrevious
        rw [hh.prev, hm₀, hlink, if_pos hpos.1]
        simp only [hptr, hha.free, ha, if_true, sizeofPifusMemoryBlock, hsizea,
          hsizeb, hmod]
      rw [if_pos ha, hmp]
      have hrel := freeMerged_previous h ha hb rfl (by omega) rfl hag
        (fun hr => by
          subst hm₀
          rw [if_neg hr]
          exact prevBlockOffset_setPrevBlockOffset (by omega) (by omega))
        hlink
      simpa using hrel
    · have hmp : mergePrevious app.addr m q
          (if r = [] then none else some (q + 24 + b.size)) = (q, m) := by
        unfold mergePrevious
        rw [hh.prev, hlink, if_pos hpos.1]
        simp only [hptr, hha.free, ha, Bool.false_eq_true, if_false]
      rw [if_neg ha, hmp]
      have hrel := freeMerged_self (l := l ++ [a]) (q := q)
        (by simpa using h) hb (by rw [span_append, span_cons, span_nil]; omega)
      simpa using hrel
