import Pifus.BlockChain

/-!
# Allocation on the chain of blocks

`place` is what `shm_data_next_suitable_block` does to the list of blocks:
the first free block of exactly the size is taken, the first free block that
leaves room for another header is split, and at the end of the chain a block
is appended if it fits. The walk over the bytes does exactly that
(`nextSuitableBlock_place`), and it moves no byte of a live block except the
back offset of the block behind a split.
-/

open PifusMemoryBlock

variable (app : AppRegion)

/-- The back offset of a block behind the given one. -/
def backLink : Option ℕ → ℤ
  | none => -1
  | some q => offsetOf app q

/-- **First fit on a list of blocks** laid out from the address `p` on, the
block before it being `prev`: the address of the block taken and the list
after it. -/
def place (n : ℕ) : Option ℕ → ℕ → List Block → Option (ℕ × List Block)
  | prev, p, [] =>
    if p + 24 + n ≤ app.addr + shmAppSize then
      some (p, [⟨false, n, backLink app prev⟩])
    else none
  | _, p, b :: bs =>
    if b.size = n ∧ b.free = true then some (p, { b with free := false } :: bs)
    else if n + 24 < b.size ∧ b.free = true then
      some (p, { b with free := false, size := n }
        :: ⟨true, b.size - n - 24, offsetOf app p⟩
        :: relink (offsetOf app (p + 24 + n)) bs)
    else
      (place n (some p) (p + 24 + b.size) bs).map (fun r => (r.1, b :: r.2))

/-- What a successful allocation of `n` bytes leaves behind: `M` holds the
blocks `bs'` where `m` held `bs`, the block at `q` is the new one, and every
other live block is kept. -/
structure Placed (m M : Memory) (p q n : ℕ) (bs bs' : List Block) : Prop where
  segment : Segment M p bs'
  fits : p + span bs' ≤ app.addr + shmAppSize
  tail : M.Zero (p + span bs') (app.addr + shmAppSize + 24)
  before : m.Agree M 0 p
  kept : ∀ x k, (x, k) ∈ liveOf p bs → Kept m M x k
  link : ∀ x k, (x, k) ∈ liveOf p bs → LinkKept app m M p bs' x
  live : (liveOf p bs').Perm ((q, n) :: liveOf p bs)

/-! ## Words of one header -/

@[simp] theorem size_setFree (m : Memory) (p : ℕ) (b : Bool) :
    size (setFree m p b) p = size m p :=
  (size_congr (agree_setFree (by omega))).symm

@[simp] theorem prevBlockOffset_setFree (m : Memory) (p : ℕ) (b : Bool) :
    prevBlockOffset (setFree m p b) p = prevBlockOffset m p :=
  (prevBlockOffset_congr (agree_setFree (by omega))).symm

@[simp] theorem prevBlockOffset_setSize (m : Memory) (p n : ℕ) :
    prevBlockOffset (setSize m p n) p = prevBlockOffset m p :=
  (prevBlockOffset_congr (agree_setSize (by omega))).symm

@[simp] theorem free_setSize (m : Memory) (p n : ℕ) :
    free (setSize m p n) p = free m p :=
  (free_congr (agree_setSize (by omega))).symm

@[simp] theorem free_setPrevBlockOffset (m : Memory) (p : ℕ) (z : ℤ) :
    free (setPrevBlockOffset m p z) p = free m p :=
  (free_congr (agree_setPrevBlockOffset (by omega))).symm

@[simp] theorem size_setPrevBlockOffset (m : Memory) (p : ℕ) (z : ℤ) :
    size (setPrevBlockOffset m p z) p = size m p :=
  (size_congr (agree_setPrevBlockOffset (by omega))).symm

/-! ## Pointers inside the region -/

variable {app} {m : Memory} {p n fuel : ℕ} {prev : Option ℕ}

/-- Inside the region, `shm_data_get_offset` is the distance from the first
header: the `- 8` of the source takes back twice `sizeof(struct pifus_app)`. -/
theorem shmDataGetOffset_eq (hlo : app.addr + 4 ≤ p)
    (hhi : p ≤ app.addr + shmAppSize) :
    shmDataGetOffset app.addr p = offsetOf app p := by
  have happ := app.bound
  unfold shmDataGetOffset offsetOf toInt64
  simp only [shmAppSize, sizeofPifusApp] at *
  rw [if_pos (by omega)]
  omega

theorem offsetOf_bounds (hlo : app.addr + 4 ≤ p)
    (hhi : p ≤ app.addr + shmAppSize) :
    0 ≤ offsetOf app p ∧ offsetOf app p < 2 ^ 63 := by
  unfold offsetOf
  simp only [shmAppSize] at *
  omega

theorem shmDataGetNextBlockPtr_eq
    (h : p + 24 + size m p ≤ app.addr + shmAppSize) :
    shmDataGetNextBlockPtr m app.addr p = some (p + 24 + size m p) := by
  have happ := app.bound
  have hmod : (p + 24 + size m p) % 2 ^ 64 = p + 24 + size m p :=
    Nat.mod_eq_of_lt (by omega)
  unfold shmDataGetNextBlockPtr shmDataIsPtrOutOfRange
  simp only [sizeofPifusMemoryBlock, hmod]
  rw [if_neg (by simpa using h)]

theorem HeaderAt.next {b : Block} (h : HeaderAt m p b)
    (hfit : p + 24 + b.size ≤ app.addr + shmAppSize) :
    shmDataGetNextBlockPtr m app.addr p = some (p + 24 + b.size) := by
  rw [shmDataGetNextBlockPtr_eq (by rw [h.size]; exact hfit), h.size]

/-! ## The three ways to place a block -/

/-- The back offset of an appended block, as the code computes it. -/
theorem backLink_eq (hprev : ∀ q, prev = some q →
      app.addr + 4 ≤ q ∧ q ≤ app.addr + shmAppSize) :
    appendedPrevOffset app.addr prev = backLink app prev
      ∧ -2 ^ 63 ≤ backLink app prev ∧ backLink app prev < 2 ^ 63 := by
  cases prev with
  | none => exact ⟨rfl, show -2 ^ 63 ≤ (-1 : ℤ) by decide,
      show (-1 : ℤ) < 2 ^ 63 by decide⟩
  | some q =>
    obtain ⟨hlo, hhi⟩ := hprev q rfl
    obtain ⟨hb₁, hb₂⟩ := offsetOf_bounds hlo hhi
    exact ⟨shmDataGetOffset_eq hlo hhi,
      show -2 ^ 63 ≤ offsetOf app q by omega, hb₂⟩

/-- **Append**: a header is written into the zeros behind the last block. -/
theorem placed_append {z : ℤ} (hz₁ : -2 ^ 63 ≤ z) (hz₂ : z < 2 ^ 63)
    (hn : 0 < n) (hfit : p + 24 + n ≤ app.addr + shmAppSize)
    (htail : m.Zero p (app.addr + shmAppSize + 24)) :
    Placed app m
      (setFree (setPrevBlockOffset (setSize m p n) p z) p false)
      p p n [] [⟨false, n, z⟩] := by
  have happ := app.bound
  have hag : ∀ lo hi, hi ≤ p ∨ p + 24 ≤ lo → m.Agree
      (setFree (setPrevBlockOffset (setSize m p n) p z) p false) lo hi :=
    fun lo hi h => ((agree_setSize (by omega)).trans
      (agree_setPrevBlockOffset (by omega))).trans (agree_setFree (by omega))
  refine ⟨⟨⟨⟨?_, ?_, ?_⟩, hn, ?_⟩, trivial⟩, ?_, ?_, hag 0 p (by omega), ?_,
    ?_, ?_⟩
  · rw [free_setFree]
  · rw [size_setFree, size_setPrevBlockOffset, size_setSize (by omega)]
  · rw [prevBlockOffset_setFree, prevBlockOffset_setPrevBlockOffset hz₁ hz₂]
  · intro h
    exact absurd h (by simp)
  · show p + (24 + n + 0) ≤ _
    omega
  · show Memory.Zero _ (p + (24 + n + 0)) _
    exact (htail.mono (by omega) (by omega)).congr (hag _ _ (by omega))
  · intro x k h
    simp at h
  · intro x k h
    simp at h
  · exact List.Perm.refl _

/-- **Exact reuse**: only the flag of the block changes. -/
theorem placed_exact {b : Block} {bs : List Block}
    (hseg : Segment m p (b :: bs))
    (hfit : p + span (b :: bs) ≤ app.addr + shmAppSize)
    (htail : m.Zero (p + span (b :: bs)) (app.addr + shmAppSize + 24))
    (hsize : b.size = n) (hfree : b.free = true) :
    Placed app m (setFree m p false) p p n (b :: bs)
      ({ b with free := false } :: bs) := by
  obtain ⟨⟨hh, hpos, _⟩, hs⟩ := hseg
  rw [span_cons] at hfit htail
  have hag : ∀ lo hi, hi ≤ p ∨ p + 1 ≤ lo →
      m.Agree (setFree m p false) lo hi := fun lo hi h => agree_setFree h
  refine ⟨⟨⟨⟨?_, ?_, ?_⟩, hpos, ?_⟩, hs.congr (hag _ _ (by omega))⟩, ?_, ?_,
    hag _ _ (by omega), ?_, ?_, ?_⟩
  · rw [free_setFree]
  · rw [size_setFree, hh.size]
  · rw [prevBlockOffset_setFree, hh.prev]
  · intro h
    exact absurd h (by simp)
  · rw [span_cons]
    exact hfit
  · rw [span_cons]
    exact htail.congr (hag _ _ (by omega))
  · intro x k hx
    rw [liveOf_cons_free _ _ hfree] at hx
    exact kept_liveOf (hag _ _ (by omega)) hx
  · intro x k hx
    rw [liveOf_cons_free _ _ hfree] at hx
    exact linkKept_of_agree (hag _ _ (by omega)) (le_refl _) (le_refl _) hx
  · rw [liveOf_cons_free _ _ hfree, liveOf_cons_live _ _ rfl]
    exact List.Perm.of_eq (by rw [hsize])

/-- The bytes that splitting a block into two writes: its flag and size, the
header of the new block behind it, and the back offset of the block behind
that one. -/
structure SplitBytes (m M : Memory) (p n : ℕ) (b : Block) : Prop where
  before : m.Agree M 0 p
  first : HeaderAt M p { b with free := false, size := n }
  second : HeaderAt M (p + 24 + n)
    ⟨true, b.size - n - 24, offsetOf app p⟩
  rest : m.Agree M (p + 24 + n + 24) (p + 24 + b.size)
  head : m.Agree M (p + 24 + b.size) (p + 24 + b.size + 16)
  behind : ∀ hi, m.Agree M (p + 24 + b.size + 24) hi

/-- **Split**: the list of blocks after it, for any memory that holds the
two new headers and a relinked rest. -/
theorem placed_split {M : Memory} {b : Block} {bs : List Block}
    (hseg : Segment m p (b :: bs))
    (hfit : p + span (b :: bs) ≤ app.addr + shmAppSize)
    (htail : m.Zero (p + span (b :: bs)) (app.addr + shmAppSize + 24))
    (hn : 0 < n) (hroom : n + 24 < b.size) (hfree : b.free = true)
    (hM : @SplitBytes app m M p n b)
    (hlink : bs ≠ [] → prevBlockOffset M (p + 24 + b.size)
      = offsetOf app (p + 24 + n))
    (hend : bs = [] → m.Agree M (p + 24 + b.size) (p + 24 + b.size + 24)) :
    Placed app m M p p n (b :: bs)
      ({ b with free := false, size := n }
        :: ⟨true, b.size - n - 24, offsetOf app p⟩
        :: relink (offsetOf app (p + 24 + n)) bs) := by
  obtain ⟨⟨hh, hpos, hz⟩, hs⟩ := hseg
  rw [span_cons] at hfit htail
  have hspan : 24 + n + (24 + (b.size - n - 24) + span bs)
      = 24 + b.size + span bs := by omega
  have hnext : p + 24 + n + 24 + (b.size - n - 24) = p + 24 + b.size := by
    omega
  refine ⟨⟨⟨hM.first, hn, ?_⟩, ⟨hM.second, ?_, ?_⟩, ?_⟩, ?_, ?_, hM.before, ?_,
    ?_, ?_⟩
  · intro h
    exact absurd h (by simp)
  · show 0 < b.size - n - 24
    omega
  · intro _
    show M.Zero (p + 24 + n + 24) (p + 24 + n + 24 + (b.size - n - 24))
    rw [hnext]
    exact ((hz hfree).mono (by omega) (by omega)).congr hM.rest
  · show Segment M (p + 24 + n + 24 + (b.size - n - 24)) (relink _ bs)
    rw [hnext]
    cases bs with
    | nil => trivial
    | cons c cs => exact hs.relink hM.head (hlink (by simp)) (hM.behind _)
  · rw [span_cons, span_cons, span_relink, hspan]
    exact hfit
  · rw [span_cons, span_cons, span_relink, hspan]
    cases bs with
    | nil =>
      rw [span_nil, Nat.add_zero, ← Nat.add_assoc] at htail ⊢
      intro x h₁ h₂
      by_cases hx : x < p + 24 + b.size + 24
      · exact (hend rfl x h₁ hx).symm.trans (htail x h₁ h₂)
      · exact (hM.behind _ x (by omega) h₂).symm.trans (htail x h₁ h₂)
    | cons c cs =>
      rw [span_cons] at htail ⊢
      exact htail.congr ((hM.behind _).mono (by omega) (le_refl _))
  · intro x k hx
    rw [liveOf_cons_free _ _ hfree] at hx
    exact kept_liveOf_relink hM.head (hM.behind _) hx
  · intro x k hx
    rw [liveOf_cons_free _ _ hfree, ← hnext] at hx
    have hlk : LinkKept app m M (p + 24 + n)
        (⟨true, b.size - n - 24, offsetOf app p⟩
          :: relink (offsetOf app (p + 24 + n)) bs) x := by
      refine linkKept_relink hx rfl ?_ (fun hne => Or.inr ?_)
      · rw [hnext]
        exact hM.behind _
      · rw [hnext, hlink hne]
    refine LinkKept.append [{ b with free := false, size := n }] ?_
    rwa [span_cons, span_nil, Nat.add_zero, ← Nat.add_assoc]
  · rw [liveOf_cons_free _ _ hfree, liveOf_cons_live _ _ rfl,
      liveOf_cons_free _ _ rfl]
    show ((p, n) :: liveOf (p + 24 + n + 24 + (b.size - n - 24))
      (relink _ bs)).Perm _
    rw [hnext, liveOf_relink]

/-- The headers a split writes, before the block behind them is relinked. -/
def splitHeaders (app : AppRegion) (m : Memory) (p n rest : ℕ) : Memory :=
  setPrevBlockOffset
    (setSize (setFree (setSize m p n) (p + 24 + n) true) (p + 24 + n) rest)
    (p + 24 + n) (offsetOf app p)

theorem agree_splitHeaders {rest lo hi : ℕ}
    (h₁ : hi ≤ p + 8 ∨ p + 16 ≤ lo)
    (h₂ : hi ≤ p + 24 + n ∨ p + 24 + n + 24 ≤ lo) :
    m.Agree (splitHeaders app m p n rest) lo hi :=
  (((agree_setSize (by omega)).trans (agree_setFree (by omega))).trans
    (agree_setSize (by omega))).trans (agree_setPrevBlockOffset (by omega))

/-- **The bytes of a split**, whatever is done to the back offset of the
block behind it. -/
theorem splitBytes {M : Memory} {b : Block} (hh : HeaderAt m p b)
    (hlo : app.addr + 4 ≤ p) (hhi : p + 24 + b.size ≤ app.addr + shmAppSize)
    (hroom : n + 24 < b.size)
    (hM : ∀ lo hi, hi ≤ p + 24 + b.size + 16 ∨ p + 24 + b.size + 24 ≤ lo →
      (splitHeaders app m p n (b.size - n - 24)).Agree M lo hi) :
    @SplitBytes app m (setFree M p false) p n b := by
  have happ := app.bound
  obtain ⟨hz₁, hz₂⟩ := offsetOf_bounds hlo (by omega)
  have hag : ∀ lo hi, (hi ≤ p ∨ p + 1 ≤ lo) → (hi ≤ p + 8 ∨ p + 16 ≤ lo) →
      (hi ≤ p + 24 + n ∨ p + 24 + n + 24 ≤ lo) →
      (hi ≤ p + 24 + b.size + 16 ∨ p + 24 + b.size + 24 ≤ lo) →
      m.Agree (setFree M p false) lo hi := fun lo hi h₁ h₂ h₃ h₄ =>
    ((agree_splitHeaders h₂ h₃).trans (hM lo hi h₄)).trans (agree_setFree h₁)
  -- the second header is read where the split wrote it
  have hsecond : (splitHeaders app m p n (b.size - n - 24)).Agree
      (setFree M p false) (p + 24 + n) (p + 24 + n + 24) :=
    (hM _ _ (by omega)).trans (agree_setFree (by omega))
  have hwritten : HeaderAt (splitHeaders app m p n (b.size - n - 24))
      (p + 24 + n) ⟨true, b.size - n - 24, offsetOf app p⟩ := by
    refine ⟨?_, ?_, ?_⟩
    · rw [splitHeaders, free_setPrevBlockOffset, free_setSize, free_setFree]
    · rw [splitHeaders, size_setPrevBlockOffset, size_setSize (by omega)]
    · rw [splitHeaders, prevBlockOffset_setPrevBlockOffset (by omega) hz₂]
  refine ⟨hag _ _ (by omega) (by omega) (by omega) (by omega), ⟨?_, ?_, ?_⟩,
    hwritten.congr hsecond,
    hag _ _ (by omega) (by omega) (by omega) (by omega),
    hag _ _ (by omega) (by omega) (by omega) (by omega),
    fun hi => hag _ _ (by omega) (by omega) (by omega) (by omega)⟩
  · rw [free_setFree]
  · have hsize : size (splitHeaders app m p n (b.size - n - 24)) p = n := by
      rw [splitHeaders, ← size_congr (agree_setPrevBlockOffset (by omega)),
        ← size_congr (agree_setSize (by omega)),
        ← size_congr (agree_setFree (by omega)), size_setSize (by omega)]
    rw [size_setFree, ← size_congr (hM _ _ (by omega)), hsize]
  · exact (prevBlockOffset_congr
      (hag _ _ (by omega) (by omega) (by omega) (by omega))).symm.trans hh.prev

/-- `splitBlock` on a block inside the region: the headers, and the back
offset of the block behind, if there is one. -/
theorem splitBlock_eq {b : Block} (hh : HeaderAt m p b)
    (hlo : app.addr + 4 ≤ p) (hhi : p + 24 + b.size ≤ app.addr + shmAppSize)
    (hroom : n + 24 < b.size) :
    splitBlock app.addr m p (some (p + 24 + b.size)) n
      = if 0 < size m (p + 24 + b.size) then
          setPrevBlockOffset (splitHeaders app m p n (b.size - n - 24))
            (p + 24 + b.size) (offsetOf app (p + 24 + n))
        else splitHeaders app m p n (b.size - n - 24) := by
  have happ := app.bound
  have hmod : (p + 24 + n) % 2 ^ 64 = p + 24 + n :=
    Nat.mod_eq_of_lt (by omega)
  have hoff₁ := shmDataGetOffset_eq hlo (by omega)
  have hoff₂ : shmDataGetOffset app.addr (p + 24 + n)
      = offsetOf app (p + 24 + n) := shmDataGetOffset_eq (by omega) (by omega)
  have hsize : size (splitHeaders app m p n (b.size - n - 24))
      (p + 24 + b.size) = size m (p + 24 + b.size) :=
    (size_congr (agree_splitHeaders (by omega) (by omega))).symm
  unfold splitBlock
  simp only [sizeofPifusMemoryBlock, hmod, hh.size, hoff₁, hoff₂]
  rw [← hsize]
  rfl

/-- **`splitBlock` splits the block** in the list of blocks. -/
theorem placed_splitBlock {b : Block} {bs : List Block}
    (hseg : Segment m p (b :: bs)) (hlo : app.addr + 4 ≤ p)
    (hfit : p + span (b :: bs) ≤ app.addr + shmAppSize)
    (htail : m.Zero (p + span (b :: bs)) (app.addr + shmAppSize + 24))
    (hn : 0 < n) (hroom : n + 24 < b.size) (hfree : b.free = true) :
    Placed app m
      (setFree (splitBlock app.addr m p (some (p + 24 + b.size)) n) p false)
      p p n (b :: bs)
      ({ b with free := false, size := n }
        :: ⟨true, b.size - n - 24, offsetOf app p⟩
        :: relink (offsetOf app (p + 24 + n)) bs) := by
  have hspan := hfit
  rw [span_cons] at hspan
  have hh : HeaderAt m p b := hseg.1.1
  rw [splitBlock_eq hh hlo (by omega) hroom]
  cases bs with
  | nil =>
    have hzero : size m (p + 24 + b.size) = 0 := by
      rw [span_cons, span_nil] at htail
      exact size_of_zero (htail.mono (by omega) (by omega))
    rw [if_neg (by omega)]
    have hM := splitBytes (n := n) hh hlo (by omega) hroom
      (fun lo hi _ => Memory.Agree.refl _ lo hi)
    exact placed_split hseg hfit htail hn hroom hfree hM
      (fun h => absurd rfl h)
      (fun _ => (agree_splitHeaders (by omega) (by omega)).trans
        (agree_setFree (by omega)))
  | cons c cs =>
    have hc : size m (p + 24 + b.size) = c.size := hseg.2.1.1.size
    have hcpos : 0 < c.size := hseg.2.1.2.1
    obtain ⟨hz₁, hz₂⟩ : 0 ≤ offsetOf app (p + 24 + n)
        ∧ offsetOf app (p + 24 + n) < 2 ^ 63 :=
      offsetOf_bounds (by omega) (by omega)
    rw [if_pos (by omega)]
    have hM := splitBytes (n := n) hh hlo (by omega) hroom
      (fun lo hi h => agree_setPrevBlockOffset
        (m := splitHeaders app m p n (b.size - n - 24))
        (z := offsetOf app (p + 24 + n)) h)
    refine placed_split hseg hfit htail hn hroom hfree hM (fun _ => ?_)
      (fun h => absurd h (by simp))
    rw [← prevBlockOffset_congr (agree_setFree (by omega)),
      prevBlockOffset_setPrevBlockOffset (by omega) hz₂]

/-! ## The walk -/

/-- A block that is passed over is put back in front of what is placed
behind it. -/
theorem Placed.cons {M : Memory} {q : ℕ} {b : Block} {bs bs' : List Block}
    (hseg : Segment m p (b :: bs))
    (h : Placed app m M (p + 24 + b.size) q n bs bs') :
    Placed app m M p q n (b :: bs) (b :: bs') := by
  have hag : ∀ lo hi, hi ≤ p + 24 + b.size → m.Agree M lo hi :=
    fun lo hi hhi => h.before.mono (by omega) hhi
  have hspan : p + span (b :: bs') = p + 24 + b.size + span bs' := by
    rw [span_cons]; omega
  obtain ⟨⟨hh, hpos, hz⟩, hs⟩ := hseg
  refine ⟨⟨⟨hh.congr (hag _ _ (by omega)), hpos, fun hf => ?_⟩, h.segment⟩,
    ?_, ?_, hag _ _ (by omega), ?_, ?_, ?_⟩
  · exact (hz hf).congr (hag _ _ (le_refl _))
  · rw [hspan]; exact h.fits
  · rw [hspan]; exact h.tail
  · intro x k hx
    by_cases hb : b.free = true
    · rw [liveOf_cons_free _ _ hb] at hx
      exact h.kept x k hx
    · rw [liveOf_cons_live _ _ (by simpa using hb), List.mem_cons] at hx
      rcases hx with hx | hx
      · obtain ⟨rfl, rfl⟩ := Prod.mk.inj hx
        exact kept_of_agree (hag _ _ (le_refl _)) (le_refl _) (le_refl _)
      · exact h.kept x k hx
  · intro x k hx
    have hlift : (x, k) ∈ liveOf (p + 24 + b.size) bs →
        LinkKept app m M p (b :: bs') x := fun hx =>
      LinkKept.append [b] (by
        rw [span_cons, span_nil, Nat.add_zero, ← Nat.add_assoc]
        exact h.link x k hx)
    by_cases hb : b.free = true
    · rw [liveOf_cons_free _ _ hb] at hx
      exact hlift hx
    · rw [liveOf_cons_live _ _ (by simpa using hb), List.mem_cons] at hx
      rcases hx with hx | hx
      · obtain ⟨rfl, rfl⟩ := Prod.mk.inj hx
        exact Or.inl (hag _ _ (by omega))
      · exact hlift hx
  · by_cases hb : b.free = true
    · rw [liveOf_cons_free _ _ hb, liveOf_cons_free _ _ hb]
      exact h.live
    · have hb' : b.free = false := by simpa using hb
      rw [liveOf_cons_live _ _ hb', liveOf_cons_live _ _ hb']
      exact (h.live.cons _).trans (List.Perm.swap _ _ _)

/-- The size test of the split branch, without the truncated subtraction. -/
theorem split_test_iff {s : ℕ} {f : Bool} :
    (n < s ∧ 24 < s - n ∧ f = true) ↔ (n + 24 < s ∧ f = true) := by
  constructor
  · rintro ⟨h₁, h₂, h₃⟩
    exact ⟨by omega, h₃⟩
  · rintro ⟨h₁, h₂⟩
    exact ⟨by omega, by omega, h₂⟩

/-- **The walk over the bytes is first fit on the list of blocks.** -/
theorem nextSuitableBlock_place {bs : List Block} (hseg : Segment m p bs)
    (hlo : app.addr + 4 ≤ p) (hfit : p + span bs ≤ app.addr + shmAppSize)
    (htail : m.Zero (p + span bs) (app.addr + shmAppSize + 24))
    (hfuel : bs.length < fuel) (hn : 0 < n) (hmax : n ≤ shmAppSize)
    (hprev : ∀ q, prev = some q →
      app.addr + 4 ≤ q ∧ q ≤ app.addr + shmAppSize) :
    match place app n prev p bs with
    | some (q, bs') =>
      ∃ M, shmDataNextSuitableBlock app.addr fuel m prev p n = some (some q, M)
        ∧ Placed app m (setFree M q false) p q n bs bs'
    | none => shmDataNextSuitableBlock app.addr fuel m prev p n
        = some (none, m) := by
  have happ := app.bound
  -- along the list: every block passed over is the previous block of the rest
  induction bs generalizing p prev fuel with
  | nil =>
    obtain ⟨fuel, rfl⟩ := Nat.exists_eq_add_one.mpr (Nat.zero_lt_of_lt hfuel)
    rw [span_nil, Nat.add_zero] at hfit htail
    have hzero : size m p = 0 :=
      size_of_zero (htail.mono (le_refl _) (by omega))
    obtain ⟨hlink, hz₁, hz₂⟩ := backLink_eq hprev
    have hdata : (shmDataGetDataPtr p + n) % 2 ^ 64 = p + 24 + n := by
      have hsmall : shmAppSize = 1000000 := rfl
      show ((p + 24) % 2 ^ 64 + n) % 2 ^ 64 = p + 24 + n
      omega
    rw [shmDataNextSuitableBlock, visitBlock, if_pos hzero, place]
    unfold appendBlock
    simp only [hdata, hlink]
    by_cases hroom : p + 24 + n ≤ app.addr + shmAppSize
    · rw [if_pos hroom, if_neg (by simpa [shmDataIsPtrOutOfRange] using hroom)]
      exact ⟨_, rfl, placed_append hz₁ hz₂ hn hroom htail⟩
    · rw [if_neg hroom,
        if_pos (by simpa [shmDataIsPtrOutOfRange] using hroom)]
  | cons b bs ih =>
    obtain ⟨fuel, rfl⟩ := Nat.exists_eq_add_one.mpr (Nat.zero_lt_of_lt hfuel)
    obtain ⟨⟨hh, hpos, hz⟩, hs⟩ := hseg
    have hspan := hfit
    rw [span_cons] at hspan
    have hnext := @HeaderAt.next app m p b hh (by omega)
    rw [shmDataNextSuitableBlock, visitBlock, hh.size, if_neg (by omega), place]
    simp only [hnext, sizeofPifusMemoryBlock, split_test_iff, hh.free]
    by_cases hexact : b.size = n ∧ b.free = true
    · rw [if_pos hexact, if_pos hexact]
      exact ⟨_, rfl, placed_exact ⟨⟨hh, hpos, hz⟩, hs⟩ hfit htail hexact.1
        hexact.2⟩
    · rw [if_neg hexact, if_neg hexact]
      by_cases hsplit : n + 24 < b.size ∧ b.free = true
      · rw [if_pos hsplit, if_pos hsplit]
        exact ⟨_, rfl, placed_splitBlock ⟨⟨hh, hpos, hz⟩, hs⟩ hlo hfit htail hn
          hsplit.1 hsplit.2⟩
      · rw [if_neg hsplit, if_neg hsplit]
        rw [show p + span (b :: bs) = p + 24 + b.size + span bs from by
          rw [span_cons]; omega] at hfit htail
        have hprev' : ∀ q, some p = some q →
            app.addr + 4 ≤ q ∧ q ≤ app.addr + shmAppSize := by
          rintro q ⟨⟩
          omega
        have hrest := ih hs (by omega) hfit htail
          (show bs.length < fuel by simp at hfuel; omega) hprev'
        cases hplace : place app n (some p) (p + 24 + b.size) bs with
        | none => rw [hplace] at hrest; exact hrest
        | some r =>
          obtain ⟨q, bs'⟩ := r
          rw [hplace] at hrest
          obtain ⟨M, hM, hP⟩ := hrest
          exact ⟨M, hM, hP.cons ⟨⟨hh, hpos, hz⟩, hs⟩⟩

/-- **`shm_data_allocate` is first fit on the heap**: it hands out the block
that first fit takes, and changes nothing when there is none. -/
theorem shmDataAllocate_place {bs : List Block} (h : Represents app m bs)
    (hn : 0 < n) (hmax : n ≤ shmAppSize) :
    match place app n none (app.addr + 4) bs with
    | some (q, bs') =>
      ∃ M, shmDataAllocate app.addr m n = some (some (offsetOf app q, q), M)
        ∧ Placed app m M (app.addr + 4) q n bs bs'
    | none => shmDataAllocate app.addr m n = some (none, m) := by
  have hlen := length_le_span bs
  have hfits := h.fits
  have hprev : ∀ q, none = some q →
      app.addr + 4 ≤ q ∧ q ≤ app.addr + shmAppSize :=
    fun q hq => absurd hq (by simp)
  have hwalk := nextSuitableBlock_place h.segment (le_refl _) h.fits h.tail
    (show bs.length < shmAppSize by omega) hn hmax hprev
  cases hplace : place app n none (app.addr + 4) bs with
  | none =>
    rw [hplace] at hwalk
    unfold shmDataAllocate
    simp only [sizeofPifusApp, hwalk]
  | some r =>
    obtain ⟨q, bs'⟩ := r
    rw [hplace] at hwalk
    obtain ⟨M, hM, hP⟩ := hwalk
    have hmem : (q, n) ∈ liveOf (app.addr + 4) bs' :=
      hP.live.mem_iff.mpr List.mem_cons_self
    have hbounds := liveOf_bounds hmem
    have hfits' := hP.fits
    refine ⟨setFree M q false, ?_, hP⟩
    unfold shmDataAllocate
    simp only [sizeofPifusApp, hM]
    rw [shmDataGetOffset_eq (by omega) (by omega)]
