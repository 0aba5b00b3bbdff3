import Pifus.Shmem

/-!
# The chain of blocks

What the bytes of an app's region stand for: a list of blocks, laid out one
behind the other, each with its header and its data. `Segment m p bs` says
that the memory `m` holds exactly the blocks `bs` from the address `p` on,
and `Represents app m bs` that they are the whole heap, with nothing but
zeros behind the last of them.

A segment reads its own bytes and no others (`Segment.congr`), it can be cut
anywhere (`segment_append`), and rewriting the back offset of its first
block changes nothing else (`Segment.relink`). Everything the allocator does
is one of these edits.
-/

/-- Where `mmap` placed the region of an app. User addresses are in the
lower half of the 64-bit address space. The last header a walk reads can
start at the end of the region, so the rest of its page belongs to the
mapping as well. -/
structure AppRegion where
  /-- The address of the region, `struct pifus_app *app`. -/
  addr : ℕ
  /-- The region and a header behind it are user addresses. -/
  lowerHalf : addr + shmAppSize + sizeofPifusMemoryBlock ≤ 2 ^ 63

theorem AppRegion.bound (app : AppRegion) :
    app.addr + shmAppSize + 24 ≤ 2 ^ 63 :=
  app.lowerHalf

/-- A block of the heap, as its header describes it. -/
structure Block where
  /-- Whether the block is free. -/
  free : Bool
  /-- The bytes of its data. -/
  size : ℕ
  /-- The offset of the block before it, or `-1`. -/
  prev : ℤ

/-- The bytes that a list of blocks takes, headers included. -/
def span : List Block → ℕ
  | [] => 0
  | b :: bs => 24 + b.size + span bs

/-- The live blocks of a list of blocks laid out from an address on: the
address of the header and the size of the data. -/
def liveOf : ℕ → List Block → List (ℕ × ℕ)
  | _, [] => []
  | p, b :: bs =>
    if b.free then liveOf (p + 24 + b.size) bs
    else (p, b.size) :: liveOf (p + 24 + b.size) bs

/-- The header at an address describes the block. -/
structure HeaderAt (m : Memory) (p : ℕ) (b : Block) : Prop where
  free : PifusMemoryBlock.free m p = b.free
  size : PifusMemoryBlock.size m p = b.size
  prev : PifusMemoryBlock.prevBlockOffset m p = b.prev

/-- **The memory holds the blocks** from an address on: every header
describes its block, no block is empty, and the data of a free block is
zero. -/
def Segment (m : Memory) : ℕ → List Block → Prop
  | _, [] => True
  | p, b :: bs =>
    (HeaderAt m p b ∧ 0 < b.size
      ∧ (b.free = true → m.Zero (p + 24) (p + 24 + b.size)))
    ∧ Segment m (p + 24 + b.size) bs

/-- **The memory represents the heap**: the region holds the blocks from
behind its `pifus_app` structure on, they end inside the region, and there
are only zeros behind them. -/
structure Represents (app : AppRegion) (m : Memory) (bs : List Block) :
    Prop where
  segment : Segment m (app.addr + 4) bs
  fits : app.addr + 4 + span bs ≤ app.addr + shmAppSize
  tail : m.Zero (app.addr + 4 + span bs) (app.addr + shmAppSize + 24)

@[simp] theorem span_nil : span [] = 0 := rfl

@[simp] theorem span_cons (b : Block) (bs : List Block) :
    span (b :: bs) = 24 + b.size + span bs := rfl

@[simp] theorem span_append (l r : List Block) :
    span (l ++ r) = span l + span r := by
  induction l with
  | nil => simp
  | cons b l ih => rw [List.cons_append, span_cons, span_cons, ih]; omega

/-- A list of blocks takes at least a header for each of them. -/
theorem length_le_span (bs : List Block) : 24 * bs.length ≤ span bs := by
  induction bs with
  | nil => simp
  | cons b bs ih => rw [span_cons, List.length_cons]; omega

/-! ## Words of a header -/

open PifusMemoryBlock

theorem toInt64_ofInt64 {z : ℤ} (h₁ : -2 ^ 63 ≤ z) (h₂ : z < 2 ^ 63) :
    toInt64 (ofInt64 z) = z := by
  unfold toInt64 ofInt64
  split <;> omega

theorem ofInt64_lt (z : ℤ) : ofInt64 z < 256 ^ 8 := by
  unfold ofInt64
  omega

theorem free_congr {m m' : Memory} {p : ℕ} (h : m.Agree m' p (p + 1)) :
    free m p = free m' p := by
  unfold PifusMemoryBlock.free
  rw [h p (by omega) (by omega)]

theorem size_congr {m m' : Memory} {p : ℕ} (h : m.Agree m' (p + 8) (p + 16)) :
    size m p = size m' p :=
  Memory.read_congr h

theorem prevBlockOffset_congr {m m' : Memory} {p : ℕ}
    (h : m.Agree m' (p + 16) (p + 24)) :
    prevBlockOffset m p = prevBlockOffset m' p := by
  unfold prevBlockOffset
  rw [Memory.read_congr h]

@[simp] theorem free_setFree (m : Memory) (p : ℕ) (b : Bool) :
    free (setFree m p b) p = b := by
  unfold PifusMemoryBlock.free setFree Memory.write
  cases b <;> simp

theorem size_setSize {m : Memory} {p n : ℕ} (h : n < 2 ^ 64) :
    size (setSize m p n) p = n :=
  Memory.read_write_self (by omega)

theorem prevBlockOffset_setPrevBlockOffset {m : Memory} {p : ℕ} {z : ℤ}
    (h₁ : -2 ^ 63 ≤ z) (h₂ : z < 2 ^ 63) :
    prevBlockOffset (setPrevBlockOffset m p z) p = z := by
  unfold prevBlockOffset setPrevBlockOffset
  rw [Memory.read_write_self (ofInt64_lt z), toInt64_ofInt64 h₁ h₂]

theorem agree_setFree {m : Memory} {p lo hi : ℕ} {b : Bool}
    (h : hi ≤ p ∨ p + 1 ≤ lo) : m.Agree (setFree m p b) lo hi :=
  Memory.agree_write h

theorem agree_setSize {m : Memory} {p n lo hi : ℕ}
    (h : hi ≤ p + 8 ∨ p + 16 ≤ lo) : m.Agree (setSize m p n) lo hi :=
  Memory.agree_write h

theorem agree_setPrevBlockOffset {m : Memory} {p lo hi : ℕ} {z : ℤ}
    (h : hi ≤ p + 16 ∨ p + 24 ≤ lo) :
    m.Agree (setPrevBlockOffset m p z) lo hi :=
  Memory.agree_write h

theorem size_of_zero {m : Memory} {p : ℕ} (h : m.Zero p (p + 24)) :
    size m p = 0 :=
  Memory.read_of_zero (h.mono (by omega) (by omega))

/-! ## Segments -/

@[simp] theorem segment_nil (m : Memory) (p : ℕ) : Segment m p [] := trivial

theorem segment_cons {m : Memory} {p : ℕ} {b : Block} {bs : List Block} :
    Segment m p (b :: bs) ↔
      (HeaderAt m p b ∧ 0 < b.size
        ∧ (b.free = true → m.Zero (p + 24) (p + 24 + b.size)))
      ∧ Segment m (p + 24 + b.size) bs := Iff.rfl

/-- **A segment can be cut anywhere.** -/
theorem segment_append {m : Memory} {p : ℕ} {l r : List Block} :
    Segment m p (l ++ r) ↔ Segment m p l ∧ Segment m (p + span l) r := by
  induction l generalizing p with
  | nil => simp
  | cons b l ih =>
    rw [List.cons_append, segment_cons, segment_cons, ih, span_cons,
      show p + 24 + b.size + span l = p + (24 + b.size + span l) from by omega]
    exact and_assoc.symm

theorem HeaderAt.congr {m m' : Memory} {p : ℕ} {b : Block}
    (h : HeaderAt m p b) (ha : m.Agree m' p (p + 24)) : HeaderAt m' p b where
  free := (free_congr (ha.mono (by omega) (by omega))).symm.trans h.free
  size := (size_congr (ha.mono (by omega) (by omega))).symm.trans h.size
  prev := (prevBlockOffset_congr (ha.mono (by omega) (by omega))).symm.trans
    h.prev

/-- **A segment reads its own bytes and no others.** -/
theorem Segment.congr {m m' : Memory} {p : ℕ} {bs : List Block}
    (h : Segment m p bs) (ha : m.Agree m' p (p + span bs)) :
    Segment m' p bs := by
  induction bs generalizing p with
  | nil => trivial
  | cons b bs ih =>
    rw [span_cons] at ha
    obtain ⟨⟨hh, hpos, hz⟩, hs⟩ := h
    refine ⟨⟨hh.congr (ha.mono (by omega) (by omega)), hpos, fun hf => ?_⟩,
      ih hs (ha.mono (by omega) (by omega))⟩
    exact (hz hf).congr (ha.mono (by omega) (by omega))

/-- The blocks with the back offset of the first of them rewritten. -/
def relink (z : ℤ) : List Block → List Block
  | [] => []
  | b :: bs => { b with prev := z } :: bs

@[simp] theorem span_relink (z : ℤ) (bs : List Block) :
    span (relink z bs) = span bs := by
  cases bs <;> rfl

@[simp] theorem liveOf_relink (z : ℤ) (p : ℕ) (bs : List Block) :
    liveOf p (relink z bs) = liveOf p bs := by
  cases bs <;> rfl

/-- **Rewriting the back offset of the first block of a segment** gives the
segment with that block relinked. -/
theorem Segment.relink {m m' : Memory} {p : ℕ} {b : Block} {bs : List Block}
    {z : ℤ} (h : Segment m p (b :: bs)) (hhead : m.Agree m' p (p + 16))
    (hz : prevBlockOffset m' p = z)
    (hrest : m.Agree m' (p + 24) (p + 24 + b.size + span bs)) :
    Segment m' p ({ b with prev := z } :: bs) := by
  obtain ⟨⟨hh, hpos, hdata⟩, hs⟩ := h
  refine ⟨⟨⟨?_, ?_, hz⟩, hpos, fun hf => ?_⟩,
    hs.congr (hrest.mono (by omega) (by omega))⟩
  · exact (free_congr (hhead.mono (by omega) (by omega))).symm.trans hh.free
  · exact (size_congr (hhead.mono (by omega) (by omega))).symm.trans hh.size
  · exact (hdata hf).congr (hrest.mono (by omega) (by omega))

/-! ## The live blocks -/

@[simp] theorem liveOf_nil (p : ℕ) : liveOf p [] = [] := rfl

theorem liveOf_cons_free {b : Block} (p : ℕ) (bs : List Block)
    (h : b.free = true) : liveOf p (b :: bs) = liveOf (p + 24 + b.size) bs := by
  rw [liveOf, if_pos h]

theorem liveOf_cons_live {b : Block} (p : ℕ) (bs : List Block)
    (h : b.free = false) :
    liveOf p (b :: bs) = (p, b.size) :: liveOf (p + 24 + b.size) bs := by
  rw [liveOf, if_neg (by simp [h])]

theorem liveOf_append (p : ℕ) (l r : List Block) :
    liveOf p (l ++ r) = liveOf p l ++ liveOf (p + span l) r := by
  induction l generalizing p with
  | nil => simp
  | cons b l ih =>
    have hspan : p + 24 + b.size + span l = p + span (b :: l) := by
      rw [span_cons]; omega
    rw [List.cons_append]
    by_cases hb : b.free = true
    · rw [liveOf_cons_free _ _ hb, liveOf_cons_free _ _ hb, ih, hspan]
    · have hb' : b.free = false := by simpa using hb
      rw [liveOf_cons_live _ _ hb', liveOf_cons_live _ _ hb', ih, hspan,
        List.cons_append]

/-- A live block lies inside the list it is a block of. -/
theorem liveOf_bounds {p q n : ℕ} {bs : List Block} (h : (q, n) ∈ liveOf p bs) :
    p ≤ q ∧ q + 24 + n ≤ p + span bs := by
  induction bs generalizing p with
  | nil => simp at h
  | cons b bs ih =>
    rw [span_cons]
    by_cases hb : b.free = true
    · rw [liveOf_cons_free _ _ hb] at h
      have := ih h
      omega
    · rw [liveOf_cons_live _ _ (by simpa using hb), List.mem_cons] at h
      rcases h with h | h
      · obtain ⟨rfl, rfl⟩ := Prod.mk.inj h
        omega
      · have := ih h
        omega

/-- A live block is where the list can be cut in front of it. -/
theorem exists_append_of_mem_liveOf {p q n : ℕ} {bs : List Block}
    (h : (q, n) ∈ liveOf p bs) :
    ∃ l b r, bs = l ++ b :: r ∧ q = p + span l ∧ b.free = false
      ∧ b.size = n := by
  induction bs generalizing p with
  | nil => simp at h
  | cons c bs ih =>
    by_cases hc : c.free = true
    · rw [liveOf_cons_free _ _ hc] at h
      obtain ⟨l, b, r, rfl, rfl, hb, hn⟩ := ih h
      exact ⟨c :: l, b, r, rfl, by rw [span_cons]; omega, hb, hn⟩
    · have hc' : c.free = false := by simpa using hc
      rw [liveOf_cons_live _ _ hc', List.mem_cons] at h
      rcases h with h | h
      · obtain ⟨rfl, rfl⟩ := Prod.mk.inj h
        exact ⟨[], c, bs, rfl, rfl, hc', rfl⟩
      · obtain ⟨l, b, r, rfl, rfl, hb, hn⟩ := ih h
        exact ⟨c :: l, b, r, rfl, by rw [span_cons]; omega, hb, hn⟩

/-- **The extents of the live blocks are disjoint**: they lie one behind the
other. -/
theorem pairwise_liveOf (p : ℕ) (bs : List Block) :
    (liveOf p bs).Pairwise (fun x y => x.1 + 24 + x.2 ≤ y.1) := by
  induction bs generalizing p with
  | nil => exact List.Pairwise.nil
  | cons b bs ih =>
    by_cases hb : b.free = true
    · rw [liveOf_cons_free _ _ hb]
      exact ih _
    · rw [liveOf_cons_live _ _ (by simpa using hb)]
      exact List.Pairwise.cons (fun y hy => (liveOf_bounds hy).1) (ih _)

/-- A live block is determined by the address of its header. -/
theorem size_of_mem_liveOf {p : ℕ} {x y : ℕ × ℕ} {bs : List Block}
    (hx : x ∈ liveOf p bs) (hy : y ∈ liveOf p bs) (h : x.1 = y.1) :
    x.2 = y.2 := by
  by_contra hne
  have hxy : x ≠ y := fun he => hne (congrArg Prod.snd he)
  obtain ⟨l, r, hl⟩ := List.append_of_mem hx
  have hpw := pairwise_liveOf p bs
  rw [hl, List.pairwise_append, List.pairwise_cons] at hpw
  rw [hl, List.mem_append, List.mem_cons] at hy
  rcases hy with hy | rfl | hy
  · have := hpw.2.2 y hy x List.mem_cons_self
    omega
  · exact hxy rfl
  · have := hpw.2.1.1 y hy
    omega

/-- A header and data that are live keep their flag, their size and their
data from one memory to another. The back offset is left out. -/
def Kept (m m' : Memory) (q n : ℕ) : Prop :=
  m.Agree m' q (q + 16) ∧ m.Agree m' (q + 24) (q + 24 + n)

theorem kept_of_agree {m m' : Memory} {q n lo hi : ℕ}
    (h : m.Agree m' lo hi) (hlo : lo ≤ q) (hhi : q + 24 + n ≤ hi) :
    Kept m m' q n :=
  ⟨h.mono (by omega) (by omega), h.mono (by omega) (by omega)⟩

theorem kept_liveOf {m m' : Memory} {p q n : ℕ} {bs : List Block}
    (h : m.Agree m' p (p + span bs)) (hmem : (q, n) ∈ liveOf p bs) :
    Kept m m' q n :=
  kept_of_agree h (liveOf_bounds hmem).1 (liveOf_bounds hmem).2

/-- A relinked stretch of blocks keeps the live ones. -/
theorem kept_liveOf_relink {m m' : Memory} {p q n : ℕ} {bs : List Block}
    (hhead : m.Agree m' p (p + 16))
    (hrest : m.Agree m' (p + 24) (p + span bs))
    (hmem : (q, n) ∈ liveOf p bs) : Kept m m' q n := by
  cases bs with
  | nil => simp at hmem
  | cons b bs =>
    rw [span_cons] at hrest
    have hin : (q, n) ∈ liveOf (p + 24 + b.size) bs → Kept m m' q n :=
      fun hq => kept_liveOf (hrest.mono (by omega) (by omega)) hq
    by_cases hb : b.free = true
    · rw [liveOf_cons_free _ _ hb] at hmem
      exact hin hmem
    · rw [liveOf_cons_live _ _ (by simpa using hb), List.mem_cons] at hmem
      rcases hmem with h | h
      · obtain ⟨rfl, rfl⟩ := Prod.mk.inj h
        exact ⟨hhead, hrest.mono (by omega) (by omega)⟩
      · exact hin h

/-! ## Back offsets -/

variable (app : AppRegion)

/-- The block offset of an address, as the headers store it. -/
def offsetOf (p : ℕ) : ℤ := (p : ℤ) - app.addr - 4

/-- The back offset a block behind the given ones must have: the offset of
the last of them, or `z` where there is none. -/
def lastLink : ℤ → ℕ → List Block → ℤ
  | z, _, [] => z
  | _, p, b :: bs => lastLink (offsetOf app p) (p + 24 + b.size) bs

theorem lastLink_append (z : ℤ) (p : ℕ) (l : List Block) (a : Block) :
    lastLink app z p (l ++ [a]) = offsetOf app (p + span l) := by
  induction l generalizing z p with
  | nil => rfl
  | cons b l ih =>
    rw [List.cons_append, lastLink, ih, span_cons,
      show p + 24 + b.size + span l = p + (24 + b.size + span l) from by omega]

/-- The back offset of the block at `x` names the block directly before it,
among the blocks laid out from `p` on. -/
def NamesPrevious (M : Memory) (p : ℕ) (bs : List Block) (x : ℕ) : Prop :=
  ∃ l a r, bs = l ++ a :: r ∧ x = p + span l + 24 + a.size
    ∧ prevBlockOffset M x = offsetOf app (p + span l)

/-- What may happen to the back offset of a live block: it is left alone, or
it is set to the block that is now directly before. -/
def LinkKept (m M : Memory) (p : ℕ) (bs : List Block) (x : ℕ) : Prop :=
  m.Agree M (x + 16) (x + 24) ∨ NamesPrevious app M p bs x

variable {app}

theorem linkKept_of_agree {m M : Memory} {p x k lo hi : ℕ} {bs bs' : List Block}
    (h : m.Agree M lo hi) (hlo : lo ≤ p) (hhi : p + span bs ≤ hi)
    (hx : (x, k) ∈ liveOf p bs) {q : ℕ} : LinkKept app m M q bs' x :=
  Or.inl (h.mono (by have := (liveOf_bounds hx).1; omega)
    (by have := (liveOf_bounds hx).2; omega))

theorem LinkKept.append {m M : Memory} {p x : ℕ} {bs : List Block}
    (l : List Block) (h : LinkKept app m M (p + span l) bs x) :
    LinkKept app m M p (l ++ bs) x := by
  rcases h with h | ⟨l', a, r, rfl, hx, hz⟩
  · exact Or.inl h
  · refine Or.inr ⟨l ++ l', a, r, by simp, ?_, ?_⟩
    · rw [span_append]; omega
    · rw [span_append, hz, Nat.add_assoc]

/-- **The live blocks of a relinked stretch** keep their back offsets, but
for the first of them, which names the block before. -/
theorem linkKept_relink {m M : Memory} {s S x k : ℕ} {b : Block}
    {bs bs' : List Block} (hx : (x, k) ∈ liveOf (s + 24 + S) bs)
    (hS : b.size = S)
    (hrest : m.Agree M (s + 24 + S + 24) (s + 24 + S + span bs))
    (hlink : bs ≠ [] →
      m.Agree M (s + 24 + S + 16) (s + 24 + S + 24)
        ∨ prevBlockOffset M (s + 24 + S) = offsetOf app s) :
    LinkKept app m M s (b :: bs') x := by
  cases bs with
  | nil => simp at hx
  | cons c bs =>
    rw [span_cons] at hrest
    have hin : (x, k) ∈ liveOf (s + 24 + S + 24 + c.size) bs →
        LinkKept app m M s (b :: bs') x := fun h =>
      linkKept_of_agree hrest (by omega) (by omega) h
    by_cases hc : c.free = true
    · rw [liveOf_cons_free _ _ hc] at hx
      exact hin hx
    · rw [liveOf_cons_live _ _ (by simpa using hc), List.mem_cons] at hx
      rcases hx with h | h
      · obtain ⟨rfl, rfl⟩ := Prod.mk.inj h
        refine (hlink (by simp)).imp id (fun hz => ?_)
        exact ⟨[], b, bs', rfl, by rw [span_nil, hS], hz⟩
      · exact hin h
