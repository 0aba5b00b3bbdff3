import Pifus.ByteBuffer
import Pifus.Util.Transition

/-!
# The byte buffer as the machine has it

`pifus_byte_buffer.c` once more, with its `uint16_t` fields and locals as they
are, and with the loops as loops. `Pifus.ByteBuffer` has the same functions on
valid cell numbers, where nothing can overflow and the loops are recursions on
what is left to do; that these are the same computations is shown here
(`add_eq`, `pop_eq`).

The machine version lists the accesses to the array as well. What it computes
is a bounded first-in-first-out queue of bytes, which is the abstract `fifo`
below.
-/

/-- A `memcpy` to the array, or from it. -/
structure ArrayAccess where
  isWrite : Bool
  cell : ℕ
  length : ℕ
  deriving DecidableEq

/-- The access touches the cell. -/
def ArrayAccess.Touches (a : ArrayAccess) (cell : ℕ) : Prop :=
  a.cell ≤ cell ∧ cell < a.cell + a.length

/-- A difference of two `uint16_t`, which is an `int`, as a `size_t`. -/
def sizeDifference (a b : UInt16) : ℕ :=
  (a.toNat + 2 ^ 64 - b.toNat) % 2 ^ 64

/-- `struct pifus_byte_buffer` and its array. -/
structure ByteBufferState where
  head : UInt16
  /-- `end`. -/
  endIndex : UInt16
  tail : UInt16
  array : Memory

namespace ByteBufferState

/-- `pifus_byte_buffer_create`. -/
def create (bufferLength : UInt16) (array : Memory) : ByteBufferState :=
  ⟨0, bufferLength, 0, array⟩

/-- The loop of `pifus_byte_buffer_add`: `head`, `overstepped` and
`really_added_length` when it ends. Where the source returns `0` out of the
loop, nothing is done behind it either. `none` says that the loop has not
ended. -/
def addLoop (s : ByteBufferState) (toAddLength : UInt16) :
    ℕ → UInt16 → Bool → UInt16 → Option (UInt16 × Bool × UInt16)
  | 0, _, _, _ => none
  | fuel + 1, head, overstepped, reallyAddedLength =>
    if reallyAddedLength < toAddLength then
      let wraps := head = s.endIndex
      let head := if wraps then 0 else head
      let overstepped := if wraps then true else overstepped
      if head = s.tail then some (head, overstepped, reallyAddedLength)
      else addLoop s toAddLength fuel (head + 1) overstepped
        (reallyAddedLength + 1)
    else some (head, overstepped, reallyAddedLength)

/-- `pifus_byte_buffer_add` behind its loop. -/
def addCopy (s : ByteBufferState) (toAdd : List UInt8) (head : UInt16)
    (overstepped : Bool) (reallyAddedLength : UInt16) :
    ByteBufferState × List ArrayAccess :=
  let back :=
    if head = 0 then (s.endIndex - 1, false) else (head - 1, overstepped)
  if back.2 then
    let endCopyLength := s.endIndex - s.head
    let rest := sizeDifference reallyAddedLength endCopyLength
    let first :=
      if 0 < endCopyLength then
        (s.array.copy s.head.toNat (toAdd.take endCopyLength.toNat),
          [⟨true, s.head.toNat, endCopyLength.toNat⟩])
      else (s.array, [])
    ({ s with
      array := first.1.copy 0 ((toAdd.drop endCopyLength.toNat).take rest)
      head := back.1 },
      first.2 ++ [⟨true, 0, rest⟩])
  else
    ({ s with
      array := s.array.copy s.head.toNat (toAdd.take reallyAddedLength.toNat)
      head := back.1 },
      [⟨true, s.head.toNat, reallyAddedLength.toNat⟩])

/-- `pifus_byte_buffer_add`: the number of bytes stored, the buffer after it
and the accesses to the array. -/
def add (s : ByteBufferState) (toAdd : List UInt8) (toAddLength : UInt16) :
    Option (UInt16 × ByteBufferState × List ArrayAccess) :=
  let s := if s.head = s.endIndex then { s with head := 0 } else s
  (s.addLoop toAddLength (toAddLength.toNat + 1) (s.head + 1) false 0).map
    (fun walk =>
      if 0 < walk.2.2 then
        (walk.2.2, s.addCopy toAdd walk.1 walk.2.1 walk.2.2)
      else (walk.2.2, s, []))

/-- The loop of `pifus_byte_buffer_pop`: `tail`, `overstepped` and
`popped_length` when it ends. -/
def popLoop (s : ByteBufferState) (length : UInt16) :
    ℕ → UInt16 → Bool → UInt16 → Option (UInt16 × Bool × UInt16)
  | 0, _, _, _ => none
  | fuel + 1, tail, overstepped, poppedLength =>
    if poppedLength < length then
      if s.head = tail then some (tail, overstepped, poppedLength)
      else if tail = s.endIndex then
        if s.head = 0 then some (0, overstepped, poppedLength)
        else popLoop s length fuel (0 + 1) true (poppedLength + 1)
      else popLoop s length fuel (tail + 1) overstepped (poppedLength + 1)
    else some (tail, overstepped, poppedLength)

/-- The copies of `pifus_byte_buffer_pop`: what is in the output buffer, and
the accesses to the array. -/
def popCopy (s : ByteBufferState) (overstepped : Bool) (poppedLength : UInt16) :
    List UInt8 × List ArrayAccess :=
  if overstepped then
    let endCopyLength := s.endIndex - s.tail
    let rest := sizeDifference poppedLength endCopyLength
    let first :=
      if 0 < endCopyLength then
        (s.array.bytes s.tail.toNat endCopyLength.toNat,
          [⟨false, s.tail.toNat, endCopyLength.toNat⟩])
      else ([], [])
    (first.1 ++ s.array.bytes 0 rest, first.2 ++ [⟨false, 0, rest⟩])
  else
    (s.array.bytes s.tail.toNat poppedLength.toNat,
      [⟨false, s.tail.toNat, poppedLength.toNat⟩])

/-- `pifus_byte_buffer_pop`: the bytes written to the output buffer, the
number returned, the buffer after it and the accesses to the array. -/
def pop (s : ByteBufferState) (length : UInt16) :
    Option (List UInt8 × UInt16 × ByteBufferState × List ArrayAccess) :=
  (s.popLoop length (length.toNat + 1) s.tail false 0).map (fun walk =>
    if 0 < walk.2.2 then
      let copied := s.popCopy walk.2.1 walk.2.2
      (copied.1, walk.2.2,
        { s with tail := if walk.1 = s.endIndex then 0 else walk.1 }, copied.2)
    else ([], walk.2.2, s, []))

/-- `pifus_byte_buffer_is_empty`. -/
def isEmpty (s : ByteBufferState) : Bool := s.head = s.tail

/-- **The cell numbers are below the length of the array.** -/
structure Valid (s : ByteBufferState) : Prop where
  head_lt : s.head < s.endIndex
  tail_lt : s.tail < s.endIndex

variable {s : ByteBufferState}

/-- The buffer on valid cell numbers. -/
def Valid.ring (h : s.Valid) : PifusByteBuffer :=
  ⟨s.head.toNat, s.endIndex.toNat, s.tail.toNat, s.array,
    UInt16.lt_iff_toNat_lt.mp h.head_lt, UInt16.lt_iff_toNat_lt.mp h.tail_lt,
    s.endIndex.toNat_lt⟩

/-! ## The loops -/

theorem toNat_succ {a b : UInt16} (h : a < b) : (a + 1).toNat = a.toNat + 1 := by
  have hlt := UInt16.lt_iff_toNat_lt.mp h
  have hb := b.toNat_lt
  rw [UInt16.toNat_add]
  exact Nat.mod_eq_of_lt (show a.toNat + 1 < 2 ^ 16 by omega)

/-- **The loop of `pifus_byte_buffer_add`** ends, and no local overflows. -/
theorem addLoop_eq (h : s.Valid) {toAddLength : UInt16} {fuel rest : ℕ}
    {head added : UInt16} {o : Bool} (hfuel : rest < fuel)
    (hrest : added.toNat + rest = toAddLength.toNat)
    (hhead : head ≤ s.endIndex) :
    ∃ head' o' added', s.addLoop toAddLength fuel head o added
        = some (head', o', added')
      ∧ h.ring.addLoop rest head.toNat o added.toNat
        = (head'.toNat, o', added'.toNat) := by
  induction rest generalizing fuel head added o with
  | zero =>
    obtain ⟨fuel, rfl⟩ := Nat.exists_eq_add_one.mpr hfuel
    refine ⟨head, o, added, ?_, rfl⟩
    have hnot : ¬ added < toAddLength := by
      rw [UInt16.lt_iff_toNat_lt]
      omega
    rw [addLoop, if_neg hnot]
  | succ rest ih =>
    obtain ⟨fuel, rfl⟩ := Nat.exists_eq_add_one.mpr
      (show 0 < fuel by omega)
    have hlt : added < toAddLength := by
      rw [UInt16.lt_iff_toNat_lt]
      omega
    have hends : head.toNat = h.ring.endIndex ↔ head = s.endIndex :=
      UInt16.toNat_inj
    -- the cell number after the test for the end of the array
    obtain ⟨next, hnext, hnextNat, hlast⟩ : ∃ next : UInt16,
        (if head = s.endIndex then 0 else head) = next
        ∧ (if head.toNat = h.ring.endIndex then 0 else head.toNat) = next.toNat
        ∧ next < s.endIndex := by
      by_cases hend : head = s.endIndex
      · refine ⟨0, if_pos hend, if_pos (hends.mpr hend), ?_⟩
        have hpos := UInt16.lt_iff_toNat_lt.mp h.head_lt
        rw [UInt16.lt_iff_toNat_lt]
        exact Nat.zero_lt_of_lt hpos
      · exact ⟨head, if_neg hend, if_neg (mt hends.mp hend),
          UInt16.lt_of_le_of_ne hhead hend⟩
    have hover : (if head.toNat = h.ring.endIndex then true else o)
        = if head = s.endIndex then true else o := if_congr hends rfl rfl
    have htail : next.toNat = h.ring.tail ↔ next = s.tail := UInt16.toNat_inj
    rw [addLoop, if_pos hlt, PifusByteBuffer.addLoop]
    dsimp only
    rw [hnext, hnextNat, hover]
    by_cases hfull : next = s.tail
    · rw [if_pos hfull, if_pos (htail.mpr hfull)]
      exact ⟨_, _, _, rfl, rfl⟩
    · rw [if_neg hfull, if_neg (mt htail.mp hfull), ← toNat_succ hlast,
        ← toNat_succ hlt]
      refine ih (by omega) ?_ ?_
      · rw [toNat_succ hlt]
        omega
      · rw [UInt16.le_iff_toNat_le, toNat_succ hlast]
        exact UInt16.lt_iff_toNat_lt.mp hlast

/-- **The loop of `pifus_byte_buffer_pop`** ends, and no local overflows. -/
theorem popLoop_eq (h : s.Valid) {length : UInt16} {fuel rest : ℕ}
    {tail popped : UInt16} {o : Bool} (hfuel : rest < fuel)
    (hrest : popped.toNat + rest = length.toNat) (htail : tail ≤ s.endIndex) :
    ∃ tail' o' popped', s.popLoop length fuel tail o popped
        = some (tail', o', popped')
      ∧ h.ring.popLoop rest tail.toNat o popped.toNat
        = (tail'.toNat, o', popped'.toNat) := by
  induction rest generalizing fuel tail popped o with
  | zero =>
    obtain ⟨fuel, rfl⟩ := Nat.exists_eq_add_one.mpr hfuel
    refine ⟨tail, o, popped, ?_, rfl⟩
    have hnot : ¬ popped < length := by
      rw [UInt16.lt_iff_toNat_lt]
      omega
    rw [popLoop, if_neg hnot]
  | succ rest ih =>
    obtain ⟨fuel, rfl⟩ := Nat.exists_eq_add_one.mpr
      (show 0 < fuel by omega)
    have hlt : popped < length := by
      rw [UInt16.lt_iff_toNat_lt]
      omega
    have hempty : h.ring.head = tail.toNat ↔ s.head = tail := UInt16.toNat_inj
    have hends : tail.toNat = h.ring.endIndex ↔ tail = s.endIndex :=
      UInt16.toNat_inj
    have hzero : h.ring.head = 0 ↔ s.head = 0 :=
      UInt16.toNat_inj (a := s.head) (b := 0)
    have hpos : (0 : UInt16) < s.endIndex := by
      have hpos := UInt16.lt_iff_toNat_lt.mp h.head_lt
      rw [UInt16.lt_iff_toNat_lt]
      exact Nat.zero_lt_of_lt hpos
    have hmore : ∀ {next : UInt16}, next < s.endIndex →
        (popped + 1).toNat + rest = length.toNat
        ∧ next + 1 ≤ s.endIndex := by
      intro next hnext
      refine ⟨by rw [toNat_succ hlt]; omega, ?_⟩
      rw [UInt16.le_iff_toNat_le, toNat_succ hnext]
      exact UInt16.lt_iff_toNat_lt.mp hnext
    rw [popLoop, if_pos hlt, PifusByteBuffer.popLoop]
    by_cases hreached : s.head = tail
    · rw [if_pos hreached, if_pos (hempty.mpr hreached)]
      exact ⟨_, _, _, rfl, rfl⟩
    · rw [if_neg hreached, if_neg (mt hempty.mp hreached)]
      by_cases hend : tail = s.endIndex
      · rw [if_pos hend, if_pos (hends.mpr hend)]
        by_cases hz : s.head = 0
        · rw [if_pos hz, if_pos (hzero.mpr hz)]
          exact ⟨_, _, _, rfl, rfl⟩
        · obtain ⟨hpop, hnext⟩ := hmore hpos
          rw [if_neg hz, if_neg (mt hzero.mp hz), ← toNat_succ hlt]
          exact @ih _ (0 + 1) _ _ (by omega) hpop hnext
      · have hlast := UInt16.lt_of_le_of_ne htail hend
        obtain ⟨hpop, hnext⟩ := hmore hlast
        rw [if_neg hend, if_neg (mt hends.mp hend), ← toNat_succ hlt,
          ← toNat_succ hlast]
        exact ih (by omega) hpop hnext

/-! ## Adding and popping -/

theorem ring_ext {a b : PifusByteBuffer} (hhead : a.head = b.head)
    (hend : a.endIndex = b.endIndex) (htail : a.tail = b.tail)
    (hbuffer : a.buffer = b.buffer) : a = b := by
  cases a
  cases b
  congr

/-- The step back behind the loop of `pifus_byte_buffer_add`. -/
theorem addHead_eq (h : s.Valid) (head : UInt16) (o : Bool) :
    h.ring.addHead head.toNat o
      = ((if head = 0 then (s.endIndex - 1, false) else (head - 1, o)).1.toNat,
        (if head = 0 then (s.endIndex - 1, false) else (head - 1, o)).2) := by
  have hpos := UInt16.lt_iff_toNat_lt.mp h.head_lt
  have hzero : head.toNat = 0 ↔ head = 0 :=
    UInt16.toNat_inj (a := head) (b := 0)
  unfold PifusByteBuffer.addHead
  by_cases hz : head = 0
  · rw [if_pos hz, if_pos (hzero.mpr hz), UInt16.toNat_sub_of_le]
    · rfl
    · rw [UInt16.le_iff_toNat_le]
      exact Nat.one_le_of_lt hpos
  · rw [if_neg hz, if_neg (mt hzero.mp hz), UInt16.toNat_sub_of_le]
    · rfl
    · rw [UInt16.le_iff_toNat_le]
      exact Nat.one_le_iff_ne_zero.mpr (mt hzero.mp hz)

/-- A length of `memcpy` that is not negative. -/
theorem sizeDifference_eq {a b : UInt16} (h : b ≤ a) :
    sizeDifference a b = a.toNat - b.toNat := by
  have ha := a.toNat_lt
  have hle := UInt16.le_iff_toNat_le.mp h
  unfold sizeDifference
  omega

/-- **The copies of `pifus_byte_buffer_add`** write the cells behind the
head. -/
theorem addCopy_eq (h : s.Valid) {toAdd : List UInt8} {head added : UInt16}
    {o : Bool}
    (hhead : h.ring.addHead head.toNat o
      = (Circular.wrap s.endIndex.toNat (s.head.toNat + added.toNat),
        decide (s.endIndex.toNat ≤ s.head.toNat + added.toNat))) :
    ∃ array head' accesses, s.addCopy toAdd head o added
        = ({ s with array := array, head := head' }, accesses)
      ∧ array = h.ring.addCopy toAdd
        (decide (s.endIndex.toNat ≤ s.head.toNat + added.toNat)) added.toNat
      ∧ head'.toNat
        = Circular.wrap s.endIndex.toNat (s.head.toNat + added.toNat)
      ∧ ∀ a ∈ accesses, ∀ cell, a.Touches cell → ∃ j, j < added.toNat
        ∧ cell = Circular.wrap s.endIndex.toNat (s.head.toNat + j) := by
  have hlt := UInt16.lt_iff_toNat_lt.mp h.head_lt
  have hlength : (s.endIndex - s.head).toNat
      = s.endIndex.toNat - s.head.toNat :=
    UInt16.toNat_sub_of_le _ _
      (UInt16.le_iff_toNat_le.mpr (Nat.le_of_lt hlt))
  rw [addHead_eq, Prod.mk.injEq] at hhead
  obtain ⟨hback, hover⟩ := hhead
  unfold addCopy
  dsimp only
  rw [hover]
  by_cases hpast : s.endIndex.toNat ≤ s.head.toNat + added.toNat
  · have hpos : 0 < s.endIndex - s.head := by
      rw [UInt16.lt_iff_toNat_lt, hlength]
      exact Nat.sub_pos_of_lt hlt
    have hrest : sizeDifference added (s.endIndex - s.head)
        = added.toNat - (s.endIndex.toNat - s.head.toNat) := by
      rw [sizeDifference_eq, hlength]
      rw [UInt16.le_iff_toNat_le, hlength]
      omega
    rw [if_pos (decide_eq_true hpast), if_pos hpos, hrest, hlength]
    refine ⟨_, _, _, rfl, ?_, hback, ?_⟩
    · unfold PifusByteBuffer.addCopy
      rw [if_pos (decide_eq_true hpast)]
      rfl
    · intro a ha cell htouch
      rcases List.mem_append.mp ha with ha | ha
      · obtain rfl := List.mem_singleton.mp ha
        obtain ⟨hlow, hhigh⟩ := htouch
        dsimp only at hlow hhigh
        refine ⟨cell - s.head.toNat, by omega, ?_⟩
        rw [Circular.wrap_of_lt (by omega)]
        omega
      · obtain rfl := List.mem_singleton.mp ha
        obtain ⟨hlow, hhigh⟩ := htouch
        dsimp only at hlow hhigh
        refine ⟨cell + (s.endIndex.toNat - s.head.toNat), by omega, ?_⟩
        unfold Circular.wrap
        rw [if_neg (by omega)]
        omega
  · rw [if_neg (by simpa using hpast)]
    refine ⟨_, _, _, rfl, ?_, hback, ?_⟩
    · unfold PifusByteBuffer.addCopy
      rw [if_neg (by simpa using hpast)]
      rfl
    · intro a ha cell htouch
      obtain rfl := List.mem_singleton.mp ha
      obtain ⟨hlow, hhigh⟩ := htouch
      dsimp only at hlow hhigh
      refine ⟨cell - s.head.toNat, by omega, ?_⟩
      rw [Circular.wrap_of_lt (by omega)]
      omega

/-- **`pifus_byte_buffer_add`** computes what it does on valid cell numbers,
and writes the cells of the bytes it stores only. -/
theorem add_eq (h : s.Valid) {toAdd : List UInt8} {toAddLength : UInt16}
    (hlength : toAdd.length = toAddLength.toNat) :
    ∃ added s' accesses, s.add toAdd toAddLength = some (added, s', accesses)
      ∧ s'.endIndex = s.endIndex
      ∧ (∃ h' : s'.Valid, h.ring.add toAdd = (added.toNat, h'.ring))
      ∧ ∀ a ∈ accesses, ∀ cell, a.Touches cell → ∃ j, j < added.toNat
        ∧ cell = Circular.wrap s.endIndex.toNat (s.head.toNat + j) := by
  have hne : s.head ≠ s.endIndex := UInt16.ne_of_lt h.head_lt
  have hhead₁ : s.head + 1 ≤ s.endIndex := by
    rw [UInt16.le_iff_toNat_le, toNat_succ h.head_lt]
    exact UInt16.lt_iff_toNat_lt.mp h.head_lt
  have hrest : (0 : UInt16).toNat + toAdd.length = toAddLength.toNat := by
    rw [hlength]
    exact Nat.zero_add _
  obtain ⟨head', o', added, hloop, hloop'⟩ : ∃ head' o' added,
      s.addLoop toAddLength (toAddLength.toNat + 1) (s.head + 1) false 0
        = some (head', o', added)
      ∧ h.ring.addLoop toAdd.length (s.head + 1).toNat false (0 : UInt16).toNat
        = (head'.toNat, o', added.toNat) :=
    addLoop_eq h (by omega) hrest hhead₁
  rw [toNat_succ h.head_lt] at hloop'
  obtain ⟨hN, oN, a, hstart, ha, hhead⟩ := h.ring.addLoop_start toAdd
  have hsame := hloop'.symm.trans hstart
  rw [Prod.mk.injEq, Prod.mk.injEq] at hsame
  obtain ⟨rfl, rfl, rfl⟩ := hsame
  have hcount := h.ring.count_lt
  have hadded : added.toNat < s.endIndex.toNat := by
    have hend : h.ring.endIndex = s.endIndex.toNat := rfl
    omega
  unfold add
  rw [if_neg hne]
  dsimp only
  rw [hloop, Option.map_some]
  unfold PifusByteBuffer.add
  simp only [hstart, hhead]
  by_cases hpos : 0 < added
  · obtain ⟨array, head, accesses, hcopy, harray, hnew, htouch⟩ :=
      @addCopy_eq _ h toAdd _ _ _ hhead
    have hvalid : ({ s with array := array, head := head }
        : ByteBufferState).Valid := by
      refine ⟨?_, h.tail_lt⟩
      show head < s.endIndex
      rw [UInt16.lt_iff_toNat_lt, hnew]
      have hlt := UInt16.lt_iff_toNat_lt.mp h.head_lt
      exact Circular.wrap_lt (by omega)
    rw [if_pos hpos, hcopy, if_pos (show 0 < _ from
      UInt16.lt_iff_toNat_lt.mp hpos)]
    exact ⟨_, _, _, rfl, rfl, ⟨hvalid, Prod.ext rfl
      (ring_ext hnew.symm rfl rfl harray.symm)⟩, htouch⟩
  · have hnone : ¬ 0 < added.toNat :=
      fun hlt => hpos (UInt16.lt_iff_toNat_lt.mpr hlt)
    rw [if_neg hpos, if_neg hnone]
    refine ⟨_, _, _, rfl, rfl, ⟨h, ?_⟩, by simp⟩
    rw [Nat.eq_zero_of_not_pos hnone]

/-- **The copies of `pifus_byte_buffer_pop`** read the cells from the tail
on. -/
theorem popCopy_eq (h : s.Valid) {popped : UInt16} {o : Bool}
    (hover : o = decide (s.endIndex.toNat < s.tail.toNat + popped.toNat))
    (hpopped : popped.toNat < s.endIndex.toNat) :
    ∃ accesses, s.popCopy o popped = (h.ring.popCopy o popped.toNat, accesses)
      ∧ ∀ a ∈ accesses, a.isWrite = false
        ∧ ∀ cell, a.Touches cell → cell < s.endIndex.toNat := by
  have hlt := UInt16.lt_iff_toNat_lt.mp h.tail_lt
  have hlength : (s.endIndex - s.tail).toNat
      = s.endIndex.toNat - s.tail.toNat :=
    UInt16.toNat_sub_of_le _ _
      (UInt16.le_iff_toNat_le.mpr (Nat.le_of_lt hlt))
  unfold popCopy PifusByteBuffer.popCopy
  subst hover
  by_cases hpast : s.endIndex.toNat < s.tail.toNat + popped.toNat
  · have hpos : 0 < s.endIndex - s.tail := by
      rw [UInt16.lt_iff_toNat_lt, hlength]
      exact Nat.sub_pos_of_lt hlt
    have hrest : sizeDifference popped (s.endIndex - s.tail)
        = popped.toNat - (s.endIndex.toNat - s.tail.toNat) := by
      rw [sizeDifference_eq, hlength]
      rw [UInt16.le_iff_toNat_le, hlength]
      omega
    rw [if_pos (decide_eq_true hpast), if_pos (decide_eq_true hpast)]
    dsimp only
    rw [if_pos hpos, hrest, hlength]
    refine ⟨_, rfl, fun a ha => ?_⟩
    rcases List.mem_append.mp ha with ha | ha <;>
      obtain rfl := List.mem_singleton.mp ha <;>
      refine ⟨rfl, fun cell htouch => ?_⟩ <;>
      have hhigh := htouch.2 <;> dsimp only at hhigh <;> omega
  · rw [if_neg (by simpa using hpast), if_neg (by simpa using hpast)]
    refine ⟨_, rfl, fun a ha => ?_⟩
    obtain rfl := List.mem_singleton.mp ha
    refine ⟨rfl, fun cell htouch => ?_⟩
    have hhigh := htouch.2
    dsimp only at hhigh
    omega

/-- **`pifus_byte_buffer_pop`** computes what it does on valid cell numbers,
and reads the array only. -/
theorem pop_eq (h : s.Valid) (length : UInt16) :
    ∃ bytes popped s' accesses, s.pop length = some (bytes, popped, s', accesses)
      ∧ s'.endIndex = s.endIndex ∧ popped.toNat = bytes.length
      ∧ (∃ h' : s'.Valid, h.ring.pop length.toNat = (bytes, h'.ring))
      ∧ ∀ a ∈ accesses, a.isWrite = false
        ∧ ∀ cell, a.Touches cell → cell < s.endIndex.toNat := by
  have hrest : (0 : UInt16).toNat + length.toNat = length.toNat :=
    Nat.zero_add _
  obtain ⟨tail', o', popped, hloop, hloop'⟩ : ∃ tail' o' popped,
      s.popLoop length (length.toNat + 1) s.tail false 0
        = some (tail', o', popped)
      ∧ h.ring.popLoop length.toNat s.tail.toNat false (0 : UInt16).toNat
        = (tail'.toNat, o', popped.toNat) :=
    popLoop_eq h (by omega) hrest (UInt16.le_of_lt h.tail_lt)
  obtain ⟨tN, oN, a, hstart, ha, htail, hover⟩ := h.ring.popLoop_start length.toNat
  have hsame := hloop'.symm.trans hstart
  rw [Prod.mk.injEq, Prod.mk.injEq] at hsame
  obtain ⟨rfl, rfl, rfl⟩ := hsame
  have hcount := h.ring.count_lt
  have hlt := UInt16.lt_iff_toNat_lt.mp h.tail_lt
  have hpopped : popped.toNat < s.endIndex.toNat := by
    have hend : h.ring.endIndex = s.endIndex.toNat := rfl
    omega
  have hends : tail'.toNat = h.ring.endIndex ↔ tail' = s.endIndex :=
    UInt16.toNat_inj
  have hnew : (if tail' = s.endIndex then 0 else tail').toNat
      = Circular.wrap s.endIndex.toNat (s.tail.toNat + popped.toNat) := by
    refine Eq.trans ?_ htail
    by_cases hend : tail' = s.endIndex
    · rw [if_pos hend, if_pos (hends.mpr hend)]
      rfl
    · rw [if_neg hend, if_neg (mt hends.mp hend)]
  unfold pop
  rw [hloop, Option.map_some]
  unfold PifusByteBuffer.pop
  simp only [hstart]
  by_cases hpos : 0 < popped
  · obtain ⟨accesses, hcopy, htouch⟩ := popCopy_eq h hover hpopped
    have hvalid : ({ s with tail := if tail' = s.endIndex then 0 else tail' }
        : ByteBufferState).Valid := by
      refine ⟨h.head_lt, ?_⟩
      show (if tail' = s.endIndex then 0 else tail') < s.endIndex
      rw [UInt16.lt_iff_toNat_lt, hnew]
      exact Circular.wrap_lt (by omega)
    have hlen : popped.toNat = (h.ring.popCopy o' popped.toNat).length := by
      rw [hover, PifusByteBuffer.popCopy_eq (by omega),
        Circular.length_window]
    rw [if_pos hpos, hcopy, if_pos (show 0 < _ from
      UInt16.lt_iff_toNat_lt.mp hpos)]
    exact ⟨_, _, _, _, rfl, rfl, hlen, ⟨hvalid, Prod.ext rfl
      (ring_ext rfl rfl (htail.trans hnew.symm) rfl)⟩, htouch⟩
  · have hnone : ¬ 0 < popped.toNat :=
      fun hlt => hpos (UInt16.lt_iff_toNat_lt.mpr hlt)
    rw [if_neg hpos, if_neg hnone]
    exact ⟨_, _, _, _, rfl, rfl, Nat.eq_zero_of_not_pos hnone, ⟨h, rfl⟩,
      by simp⟩

end ByteBufferState

/-! ## A bounded queue of bytes -/

/-- A call of one of the two functions. -/
inductive ByteBufferCall
  | add (toAdd : List UInt8) (toAddLength : UInt16)
    (hlength : toAdd.length = toAddLength.toNat)
  | pop (length : UInt16)

/-- What the caller gets: the number returned, and what is in the output
buffer. -/
inductive ByteBufferResult
  | added (n : ℕ)
  | popped (bytes : List UInt8) (n : ℕ)
  deriving DecidableEq

/-- **A first-in-first-out queue of at most `room` bytes**: what a call
returns, and the queue after it. -/
def fifo (room : ℕ) (q : List UInt8) :
    ByteBufferCall → ByteBufferResult × List UInt8
  | .add toAdd _ _ => (.added (min toAdd.length (room - q.length)),
      q ++ toAdd.take (room - q.length))
  | .pop length => (.popped (q.take length.toNat) (min length.toNat q.length),
      q.drop length.toNat)

namespace ByteBufferState

/-- A call, and the accesses to the array that it makes. -/
def call (s : ByteBufferState) : ByteBufferCall →
    Option (ByteBufferResult × ByteBufferState × List ArrayAccess)
  | .add toAdd toAddLength _ => (s.add toAdd toAddLength).map (fun r =>
      (.added r.1.toNat, r.2.1, r.2.2))
  | .pop length => (s.pop length).map (fun r =>
      (.popped r.1 r.2.1.toNat, r.2.2.1, r.2.2.2))

/-- The cell holds a byte of the queue. -/
def HoldsByte (s : ByteBufferState) (q : List UInt8) (cell : ℕ) : Prop :=
  ∃ i, i < q.length
    ∧ cell = Circular.wrap s.endIndex.toNat (s.tail.toNat + i)

/-- The access stays in the array and overwrites no byte of the queue. -/
def Harmless (s : ByteBufferState) (q : List UInt8) (a : ArrayAccess) : Prop :=
  ∀ cell, a.Touches cell → cell < s.endIndex.toNat
    ∧ (a.isWrite = true → ¬ s.HoldsByte q cell)

/-- **The buffer of length `n` holds the bytes of the queue**, oldest first. -/
structure Holds (n : UInt16) (s : ByteBufferState) (q : List UInt8) : Prop where
  endIndex : s.endIndex = n
  head_lt : s.head < n
  tail_lt : s.tail < n
  contents : Circular.window s.array n.toNat s.tail.toNat q.length = q
  head : s.head.toNat = Circular.wrap n.toNat (s.tail.toNat + q.length)
  length_lt : q.length < n.toNat

variable {n : UInt16} {s s' : ByteBufferState} {q q' : List UInt8}

theorem Holds.valid (h : Holds n s q) : s.Valid :=
  ⟨by rw [h.endIndex]; exact h.head_lt, by rw [h.endIndex]; exact h.tail_lt⟩

theorem Holds.count_eq (h : Holds n s q) : h.valid.ring.count = q.length := by
  have hend : h.valid.ring.endIndex = n.toNat :=
    congrArg UInt16.toNat h.endIndex
  refine PifusByteBuffer.count_of_wrap ?_ (by rw [hend]; exact h.length_lt)
  rw [hend]
  exact h.head

theorem Holds.contents_eq (h : Holds n s q) : h.valid.ring.contents = q := by
  have hend : h.valid.ring.endIndex = n.toNat :=
    congrArg UInt16.toNat h.endIndex
  rw [PifusByteBuffer.contents, h.count_eq, hend]
  exact h.contents

theorem holds_of_ring (hend : s.endIndex = n) (h : s.Valid)
    (hcontents : h.ring.contents = q) : Holds n s q := by
  subst hend
  have hlength : h.ring.count = q.length := by
    rw [← hcontents, PifusByteBuffer.length_contents]
  refine ⟨rfl, h.head_lt, h.tail_lt, ?_, ?_, ?_⟩
  · rw [← hlength]
    exact hcontents
  · rw [← hlength]
    exact h.ring.wrap_count.symm
  · rw [← hlength]
    exact h.ring.count_lt

/-- **A call of `pifus_byte_buffer_add`** is that of the queue. -/
theorem Holds.add (h : Holds n s q) {toAdd : List UInt8} {toAddLength : UInt16}
    (hlength : toAdd.length = toAddLength.toNat) :
    ∃ s' accesses, s.call (.add toAdd toAddLength hlength)
        = some ((fifo (n.toNat - 1) q (.add toAdd toAddLength hlength)).1, s',
          accesses)
      ∧ Holds n s' (fifo (n.toNat - 1) q (.add toAdd toAddLength hlength)).2
      ∧ ∀ a ∈ accesses, s.Harmless q a := by
  obtain ⟨added, s', accesses, hadd, hend, ⟨hvalid, hring⟩, htouch⟩ :=
    add_eq h.valid hlength
  obtain ⟨bb, hspec, hcontents, -⟩ := h.valid.ring.add_spec toAdd
  have hn : h.valid.ring.endIndex = n.toNat :=
    congrArg UInt16.toNat h.endIndex
  rw [h.contents_eq, hn] at hspec hcontents
  obtain ⟨hadded, rfl⟩ := Prod.mk.inj (hring.symm.trans hspec)
  refine ⟨s', accesses, ?_, holds_of_ring (hend.trans h.endIndex) hvalid
    hcontents, fun a ha cell hcell => ?_⟩
  · rw [call, hadd, Option.map_some]
    dsimp only
    rw [hadded]
    rfl
  · obtain ⟨j, hj, rfl⟩ := htouch a ha cell hcell
    have hlt := h.length_lt
    have htail := UInt16.lt_iff_toNat_lt.mp h.tail_lt
    have hhead := UInt16.lt_iff_toNat_lt.mp h.head_lt
    rw [h.endIndex]
    refine ⟨Circular.wrap_lt (by omega), fun _ hholds => ?_⟩
    -- what is written lies behind the bytes held
    obtain ⟨i, hi, heq⟩ := hholds
    rw [h.endIndex, h.head, Circular.wrap_wrap_add htail (by omega),
      Nat.add_assoc] at heq
    have hij := Circular.wrap_inj (by omega) (by omega) heq
    omega

/-- **A call of `pifus_byte_buffer_pop`** is that of the queue. -/
theorem Holds.pop (h : Holds n s q) (length : UInt16) :
    ∃ s' accesses, s.call (.pop length)
        = some ((fifo (n.toNat - 1) q (.pop length)).1, s', accesses)
      ∧ Holds n s' (fifo (n.toNat - 1) q (.pop length)).2
      ∧ ∀ a ∈ accesses, s.Harmless q a := by
  obtain ⟨bytes, popped, s', accesses, hpop, hend, hpopped, ⟨hvalid, hring⟩,
    htouch⟩ := pop_eq h.valid length
  obtain ⟨bb, hspec, hcontents, -⟩ := h.valid.ring.pop_spec length.toNat
  rw [h.contents_eq] at hspec hcontents
  obtain ⟨hbytes, rfl⟩ := Prod.mk.inj (hring.symm.trans hspec)
  refine ⟨s', accesses, ?_, holds_of_ring (hend.trans h.endIndex) hvalid
    hcontents, fun a ha cell hcell => ⟨(htouch a ha).2 cell hcell,
      fun hwrite => ?_⟩⟩
  · rw [call, hpop, Option.map_some]
    dsimp only
    rw [hpopped, hbytes, List.length_take]
    rfl
  · exact absurd (hwrite.symm.trans (htouch a ha).1) (by simp)

/-- **Every call** is that of the queue. -/
theorem Holds.call (h : Holds n s q) (c : ByteBufferCall) :
    ∃ s' accesses, s.call c = some ((fifo (n.toNat - 1) q c).1, s', accesses)
      ∧ Holds n s' (fifo (n.toNat - 1) q c).2
      ∧ ∀ a ∈ accesses, s.Harmless q a := by
  cases c with
  | add toAdd toAddLength hlength => exact h.add hlength
  | pop length => exact h.pop length

theorem holds_create (hn : 0 < n) (array : Memory) :
    Holds n (create n array) [] := by
  have hpos := UInt16.lt_iff_toNat_lt.mp hn
  exact ⟨rfl, hn, hn, rfl, (Circular.wrap_of_lt hpos).symm, hpos⟩

theorem Holds.isEmpty_iff (h : Holds n s q) : s.isEmpty = true ↔ q = [] := by
  have hring : h.valid.ring.isEmpty = true ↔ h.valid.ring.contents = [] :=
    PifusByteBuffer.isEmpty_iff
  rw [h.contents_eq] at hring
  rw [← hring]
  unfold isEmpty PifusByteBuffer.isEmpty
  rw [decide_eq_true_iff, decide_eq_true_iff]
  exact UInt16.toNat_inj.symm

/-! ## Runs -/

/-- A call to the buffer, with the queue of the bytes it is to hold. -/
def CallStep (room : ℕ) (a : ByteBufferState × List UInt8) (c : ByteBufferCall)
    (b : ByteBufferState × List UInt8) : Prop :=
  ∃ result accesses, a.1.call c = some (result, b.1, accesses)
    ∧ b.2 = (fifo room a.2 c).2

/-- **The byte buffer is a bounded queue of bytes**, for every length from 1 to
65535 and every sequence of calls. The array holds the bytes of the queue from
the tail on, the cell numbers are below the length, and `is_empty` tells whether
the queue is empty. And every next call ends, returns what the queue returns,
and touches cells of the array only, none of those it writes holding a byte of
the queue. -/
theorem byte_buffer_is_fifo (hn : 0 < n) (array : Memory)
    {calls : List ByteBufferCall}
    (h : Run (CallStep (n.toNat - 1)) (create n array, []) calls (s, q)) :
    s.head < n ∧ s.tail < n ∧ q.length ≤ n.toNat - 1
    ∧ Circular.window s.array n.toNat s.tail.toNat q.length = q
    ∧ (s.isEmpty = true ↔ q = [])
    ∧ ∀ c, ∃ s' accesses,
      s.call c = some ((fifo (n.toNat - 1) q c).1, s', accesses)
      ∧ ∀ a ∈ accesses, s.Harmless q a := by
  have hinv : Holds n s q := by
    refine h.invariant (fun a => Holds n a.1 a.2) (holds_create hn array) ?_
    rintro ⟨s, q⟩ c ⟨s', q'⟩ hholds ⟨result, accesses, hcall, rfl⟩
    obtain ⟨t, accesses', hcall', hholds', -⟩ := hholds.call c
    have hsame := Option.some.inj (hcall.symm.trans hcall')
    rw [Prod.mk.injEq, Prod.mk.injEq] at hsame
    obtain ⟨-, rfl, -⟩ := hsame
    exact hholds'
  have hlt := hinv.length_lt
  refine ⟨hinv.head_lt, hinv.tail_lt, by omega, hinv.contents,
    hinv.isEmpty_iff, fun c => ?_⟩
  obtain ⟨s', accesses, hcall, -, hharmless⟩ := hinv.call c
  exact ⟨s', accesses, hcall, hharmless⟩

/-- A buffer of length 9 that is filled, emptied and filled past its end. -/
theorem byte_buffer_is_fifo_nine :
    ∃ s : ByteBufferState, s.head = 4 ∧ s.tail = 8
      ∧ Circular.window s.array 9 s.tail.toNat 5 = [1, 2, 3, 4, 5] := by
  let filled : List UInt8 := [1, 2, 3, 4, 5, 6, 7, 8]
  let calls : List ByteBufferCall :=
    [.add filled 8 rfl, .pop 8, .add [1, 2, 3, 4, 5] 5 rfl]
  let step (a : ByteBufferState × List UInt8) (c : ByteBufferCall) :
      Option (ByteBufferState × List UInt8) :=
    (a.1.call c).map (fun r => (r.2.1, (fifo 8 a.2 c).2))
  have hs : (calls.foldlM step (create 9 (fun _ => 0), [])).any
      (fun a => a.1.head = 4 ∧ a.1.tail = 8 ∧ a.2 = [1, 2, 3, 4, 5]) = true := by
    decide +kernel
  obtain ⟨⟨s, q⟩, hrun, hp⟩ := (Option.any_eq_true _ _).mp hs
  obtain ⟨hhead, htail, hq⟩ := of_decide_eq_true hp
  have hsteps : Run (CallStep 8) (create 9 (fun _ => 0), []) calls (s, q) := by
    refine (Run.of_foldlM hrun).mono (fun a c b hstep => ?_)
    obtain ⟨r, hcall, rfl⟩ := Option.map_eq_some_iff.mp hstep
    exact ⟨r.1, r.2.2, hcall, rfl⟩
  have hwindow := (byte_buffer_is_fifo (n := 9) (by decide) (fun _ => 0)
    hsteps).2.2.2.1
  dsimp only at hq
  rw [hq] at hwindow
  exact ⟨s, hhead, htail, hwindow⟩

end ByteBufferState
