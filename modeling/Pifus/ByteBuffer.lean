import Pifus.Util.Circular
import Pifus.Util.Memory

/-!
# The byte buffer of a socket

`pifus_byte_buffer.c`: a ring of bytes that is filled and emptied a stretch at
a time. Both functions first walk the ring cell by cell to see how far they
get, remembering in `overstepped` whether the walk passed the end of the
array, and then copy in one piece or in two.

The walks are the recursions `addLoop` and `popLoop`; the number they recurse
on is what the loop still has to do. As in a ring buffer one cell stays free,
so an array of `end` cells holds `end - 1` bytes. With `contents` for the
bytes held, oldest first, `add` appends as many bytes as fit and `pop` takes
off as many as there are.
-/

/-- `struct pifus_byte_buffer` and its array. -/
structure PifusByteBuffer where
  /-- The cell that the next byte is put into. -/
  head : ℕ
  /-- `end`: the length of the array, a `uint16_t`. -/
  endIndex : ℕ
  /-- The cell of the oldest byte. -/
  tail : ℕ
  /-- The array. -/
  buffer : Memory
  head_lt : head < endIndex
  tail_lt : tail < endIndex
  endIndex_lt : endIndex < 2 ^ 16

namespace PifusByteBuffer

/-- The loop of `pifus_byte_buffer_add`: `head`, `overstepped` and
`really_added_length` when it ends. -/
def addLoop (bb : PifusByteBuffer) : ℕ → ℕ → Bool → ℕ → ℕ × Bool × ℕ
  | 0, head, overstepped, reallyAdded => (head, overstepped, reallyAdded)
  | rest + 1, head, overstepped, reallyAdded =>
    let wraps := head = bb.endIndex
    let head := if wraps then 0 else head
    let overstepped := if wraps then true else overstepped
    if head = bb.tail then (head, overstepped, reallyAdded)
    else addLoop bb rest (head + 1) overstepped (reallyAdded + 1)

/-- The step back that follows the loop of `pifus_byte_buffer_add`, so that
`head` is the cell behind the last byte. -/
def addHead (bb : PifusByteBuffer) (head : ℕ) (overstepped : Bool) : ℕ × Bool :=
  if head = 0 then (bb.endIndex - 1, false) else (head - 1, overstepped)

/-- The copies of `pifus_byte_buffer_add`. -/
def addCopy (bb : PifusByteBuffer) (toAdd : List UInt8) (overstepped : Bool)
    (reallyAdded : ℕ) : Memory :=
  if overstepped then
    let endCopyLength := bb.endIndex - bb.head
    (bb.buffer.copy bb.head (toAdd.take endCopyLength)).copy 0
      ((toAdd.drop endCopyLength).take (reallyAdded - endCopyLength))
  else bb.buffer.copy bb.head (toAdd.take reallyAdded)

/-- The loop of `pifus_byte_buffer_pop`: `tail`, `overstepped` and
`popped_length` when it ends. -/
def popLoop (bb : PifusByteBuffer) : ℕ → ℕ → Bool → ℕ → ℕ × Bool × ℕ
  | 0, tail, overstepped, popped => (tail, overstepped, popped)
  | rest + 1, tail, overstepped, popped =>
    if bb.head = tail then (tail, overstepped, popped)
    else if tail = bb.endIndex then
      if bb.head = 0 then (0, overstepped, popped)
      else popLoop bb rest 1 true (popped + 1)
    else popLoop bb rest (tail + 1) overstepped (popped + 1)

/-- The copies of `pifus_byte_buffer_pop`: what is in the output buffer. -/
def popCopy (bb : PifusByteBuffer) (overstepped : Bool) (popped : ℕ) :
    List UInt8 :=
  if overstepped then
    let endCopyLength := bb.endIndex - bb.tail
    bb.buffer.bytes bb.tail endCopyLength
      ++ bb.buffer.bytes 0 (popped - endCopyLength)
  else bb.buffer.bytes bb.tail popped

/-- `pifus_byte_buffer_is_empty`. -/
def isEmpty (bb : PifusByteBuffer) : Bool := bb.head = bb.tail

/-! ## The bytes held -/

/-- The number of bytes. -/
def count (bb : PifusByteBuffer) : ℕ :=
  if bb.tail ≤ bb.head then bb.head - bb.tail
  else bb.head + bb.endIndex - bb.tail

/-- **The bytes held**, oldest first. -/
def contents (bb : PifusByteBuffer) : List UInt8 :=
  Circular.window bb.buffer bb.endIndex bb.tail bb.count

variable {bb : PifusByteBuffer} {toAdd : List UInt8} {rest k n : ℕ}

@[simp] theorem length_contents : bb.contents.length = bb.count :=
  Circular.length_window

theorem count_lt (bb : PifusByteBuffer) : bb.count < bb.endIndex := by
  have hhead := bb.head_lt
  have htail := bb.tail_lt
  unfold count
  split <;> omega

theorem wrap_count (bb : PifusByteBuffer) :
    Circular.wrap bb.endIndex (bb.tail + bb.count) = bb.head := by
  have hhead := bb.head_lt
  have htail := bb.tail_lt
  unfold count Circular.wrap
  by_cases h : bb.tail ≤ bb.head
  · rw [if_pos h, if_pos (by omega)]
    omega
  · rw [if_neg h, if_neg (by omega)]
    omega

theorem count_of_wrap (h : bb.head = Circular.wrap bb.endIndex (bb.tail + k))
    (hk : k < bb.endIndex) : bb.count = k := by
  rw [← wrap_count] at h
  exact Circular.wrap_inj bb.count_lt hk h

theorem isEmpty_iff : bb.isEmpty = true ↔ bb.contents = [] := by
  have htail := bb.tail_lt
  rw [← List.length_eq_zero_iff, length_contents, isEmpty, decide_eq_true_iff]
  constructor
  · intro h
    refine count_of_wrap ?_ (by omega)
    rw [Nat.add_zero, Circular.wrap_of_lt htail, h]
  · intro h
    rw [← wrap_count, h, Nat.add_zero, Circular.wrap_of_lt htail]

/-! ## Walking the ring

Both loops keep a cell number that is reset only when it has reached the end
of the array and one more step is taken. After `k` steps from the cell `s` it
is `walked s k`, and the walk has overstepped if `s + k` is past the end. -/

/-- The cell number of a walk after `k` steps from the cell `s`. -/
def walked (bb : PifusByteBuffer) (s k : ℕ) : ℕ :=
  if bb.endIndex < s + k then s + k - bb.endIndex else s + k

/-- One turn of the test at the start of both loops: a walk that has reached
the end of the array goes on at its start. -/
theorem walked_turn {s : ℕ} (hs : s ≤ bb.endIndex) (hk : k < bb.endIndex) :
    (if bb.walked s k = bb.endIndex then 0 else bb.walked s k)
        = Circular.wrap bb.endIndex (s + k)
      ∧ (if bb.walked s k = bb.endIndex then true
          else decide (bb.endIndex < s + k)) = decide (bb.endIndex ≤ s + k) := by
  unfold walked Circular.wrap
  by_cases h : bb.endIndex < s + k
  · rw [if_pos h, if_neg (by omega), if_neg (by omega), if_neg (by omega),
      decide_eq_true h, decide_eq_true (by omega)]
    exact ⟨rfl, rfl⟩
  · rw [if_neg h]
    by_cases he : s + k = bb.endIndex
    · rw [if_pos he, if_pos he, if_neg (by omega), decide_eq_true (by omega)]
      exact ⟨by omega, rfl⟩
    · rw [if_neg he, if_neg he, if_pos (by omega), decide_eq_false h,
        decide_eq_false (by omega)]
      exact ⟨rfl, rfl⟩

theorem walked_succ {s : ℕ} :
    Circular.wrap bb.endIndex (s + k) + 1 = bb.walked s (k + 1)
      ∧ decide (bb.endIndex ≤ s + k)
          = decide (bb.endIndex < s + (k + 1)) := by
  unfold walked Circular.wrap
  by_cases h : s + k < bb.endIndex
  · rw [if_pos h, if_neg (by omega), decide_eq_false (by omega),
      decide_eq_false (by omega)]
    exact ⟨by omega, rfl⟩
  · rw [if_neg h, if_pos (by omega), decide_eq_true (by omega),
      decide_eq_true (by omega)]
    exact ⟨by omega, rfl⟩

/-- The step back leads from the cell of the next byte to the cell behind the
last one. -/
theorem addHead_wrap {a : ℕ} (ha : a < bb.endIndex) {h : ℕ} {o : Bool}
    (hh : h = bb.walked (bb.head + 1) a
      ∨ h = Circular.wrap bb.endIndex (bb.head + 1 + a))
    (ho : o = decide (bb.endIndex ≤ bb.head + a) ∨ h = 0) :
    bb.addHead h o = (Circular.wrap bb.endIndex (bb.head + a),
      decide (bb.endIndex ≤ bb.head + a)) := by
  have hlt := bb.head_lt
  unfold walked Circular.wrap at hh
  unfold addHead Circular.wrap
  by_cases hz : h = 0
  · have hend : bb.head + 1 + a = bb.endIndex := by
      rcases hh with hh | hh <;> split at hh <;> omega
    rw [if_pos hz, if_pos (by omega), decide_eq_false (by omega)]
    congr 1
    omega
  · rw [if_neg hz, ho.resolve_right hz]
    congr 1
    by_cases hw : bb.head + a < bb.endIndex
    · rw [if_pos hw]
      rcases hh with hh | hh <;> split at hh <;> omega
    · rw [if_neg hw]
      rcases hh with hh | hh <;> split at hh <;> omega

/-- The cell in front of the oldest byte is where the ring is full. -/
theorem wrap_head_eq_tail_iff (hk : bb.count + k < bb.endIndex) :
    Circular.wrap bb.endIndex (bb.head + 1 + k) = bb.tail
      ↔ bb.count + 1 + k = bb.endIndex := by
  have htail := bb.tail_lt
  rw [← wrap_count, Nat.add_assoc,
    Circular.wrap_wrap_add htail (by omega)]
  unfold Circular.wrap
  split <;> omega

/-- **The walk of `pifus_byte_buffer_add`** ends behind the last byte that
fits. -/
theorem addLoop_spec (bb : PifusByteBuffer) (rest : ℕ) {head : ℕ}
    {overstepped : Bool}
    (hk : bb.count + k < bb.endIndex)
    (hhead : head = bb.walked (bb.head + 1) k)
    (hover : overstepped = decide (bb.endIndex < bb.head + 1 + k)) :
    ∃ h o a, bb.addLoop rest head overstepped k = (h, o, a)
      ∧ a = min (k + rest) (bb.endIndex - 1 - bb.count)
      ∧ bb.addHead h o = (Circular.wrap bb.endIndex (bb.head + a),
          decide (bb.endIndex ≤ bb.head + a)) := by
  have hlt := bb.head_lt
  induction rest generalizing k head overstepped with
  | zero =>
    refine ⟨_, _, _, rfl, by omega, addHead_wrap (by omega) (Or.inl hhead)
      (Or.inl ?_)⟩
    rw [hover]
    congr 1
    exact propext (by omega)
  | succ rest ih =>
    obtain ⟨hturn, hturn'⟩ :=
      walked_turn (s := bb.head + 1) (k := k) hlt (by omega)
    rw [addLoop]
    simp only [hhead, hover, hturn, hturn']
    by_cases hfull : bb.count + 1 + k = bb.endIndex
    · -- the ring is full
      rw [if_pos ((wrap_head_eq_tail_iff hk).mpr hfull)]
      refine ⟨_, _, _, rfl, by omega, addHead_wrap (by omega) (Or.inr rfl) ?_⟩
      by_cases hend : bb.head + 1 + k = bb.endIndex
      · right
        rw [hend]
        unfold Circular.wrap
        rw [if_neg (by omega), Nat.sub_self]
      · left
        congr 1
        exact propext (by omega)
    · rw [if_neg (fun h => hfull ((wrap_head_eq_tail_iff hk).mp h))]
      obtain ⟨hstep, hstep'⟩ :=
        walked_succ (s := bb.head + 1) (k := k)
      rw [hstep, hstep']
      obtain ⟨h, o, a, heq, ha, hadd⟩ := ih (k := k + 1) (by omega) rfl rfl
      exact ⟨h, o, a, heq, by omega, hadd⟩

/-- **The walk of `pifus_byte_buffer_pop`** ends behind the last byte that
there is. -/
theorem popLoop_spec (bb : PifusByteBuffer) (rest : ℕ) {tail : ℕ}
    {overstepped : Bool} (hk : k ≤ bb.count)
    (htail : tail = bb.walked bb.tail k)
    (hover : overstepped = decide (bb.endIndex < bb.tail + k)) :
    ∃ t o a, bb.popLoop rest tail overstepped k = (t, o, a)
      ∧ a = min (k + rest) bb.count
      ∧ (if t = bb.endIndex then 0 else t)
          = Circular.wrap bb.endIndex (bb.tail + a)
      ∧ o = decide (bb.endIndex < bb.tail + a) := by
  have hlt := bb.tail_lt
  have hcount := bb.count_lt
  have hhead := bb.head_lt
  induction rest generalizing k tail overstepped with
  | zero =>
    refine ⟨_, _, _, rfl, by omega, ?_, hover⟩
    rw [htail]
    exact (walked_turn (Nat.le_of_lt hlt) (by omega)).1
  | succ rest ih =>
    have hturn : (if bb.walked bb.tail k = bb.endIndex then 0
        else bb.walked bb.tail k) = Circular.wrap bb.endIndex (bb.tail + k) :=
      (walked_turn (by omega) (by omega)).1
    rw [popLoop]
    by_cases hend : tail = bb.endIndex
    · -- the walk is at the end of the array
      rw [if_neg (by omega), if_pos hend]
      rw [← htail, if_pos hend] at hturn
      by_cases hz : bb.head = 0
      · have hcnt := count_of_wrap (hz.trans hturn) (by omega)
        rw [if_pos hz]
        exact ⟨_, _, _, rfl, by omega, by rw [if_neg (by omega), hturn], hover⟩
      · have hne : k ≠ bb.count := fun h => hz (by
          rw [← wrap_count, ← h, ← hturn])
        obtain ⟨hstep, -⟩ := walked_succ (s := bb.tail) (k := k)
        rw [← hturn] at hstep
        rw [if_neg hz]
        have hpast : bb.endIndex < bb.tail + (k + 1) := by
          unfold walked at htail
          split at htail <;> omega
        obtain ⟨t, o, a, heq, ha, ht, ho⟩ := ih (k := k + 1) (by omega)
          hstep (decide_eq_true hpast).symm
        exact ⟨t, o, a, heq, by omega, ht, ho⟩
    · rw [← htail, if_neg hend] at hturn
      by_cases hempty : bb.head = tail
      · have hcnt := count_of_wrap (hempty.trans hturn) (by omega)
        rw [if_pos hempty]
        exact ⟨_, _, _, rfl, by omega, by rw [if_neg hend, hturn], hover⟩
      · have hne : k ≠ bb.count := fun h => hempty (by
          rw [← wrap_count, ← h, ← hturn])
        obtain ⟨hstep, hstep'⟩ := walked_succ (s := bb.tail) (k := k)
        rw [if_neg hempty, if_neg hend]
        rw [← hturn] at hstep
        have hover' : overstepped = decide (bb.endIndex < bb.tail + (k + 1)) := by
          rw [hover, ← hstep']
          unfold walked at htail
          congr 1
          exact propext (by split at htail <;> omega)
        obtain ⟨t, o, a, heq, ha, ht, ho⟩ := ih (k := k + 1) (by omega)
          hstep hover'
        exact ⟨t, o, a, heq, by omega, ht, ho⟩

/-! ## Adding and popping -/

theorem addLoop_start (bb : PifusByteBuffer) (toAdd : List UInt8) :
    ∃ h o a, bb.addLoop toAdd.length (bb.head + 1) false 0 = (h, o, a)
      ∧ a = min toAdd.length (bb.endIndex - 1 - bb.count)
      ∧ bb.addHead h o = (Circular.wrap bb.endIndex (bb.head + a),
          decide (bb.endIndex ≤ bb.head + a)) := by
  have hlt := bb.head_lt
  obtain ⟨h, o, a, heq, ha, hadd⟩ := bb.addLoop_spec toAdd.length (k := 0)
    bb.count_lt
    (by rw [walked, if_neg (by omega), Nat.add_zero])
    (by rw [decide_eq_false (by omega)])
  rw [Nat.zero_add] at ha
  exact ⟨h, o, a, heq, ha, hadd⟩

/-- The whole walk of `pifus_byte_buffer_pop`. -/
theorem popLoop_start (bb : PifusByteBuffer) (n : ℕ) :
    ∃ t o a, bb.popLoop n bb.tail false 0 = (t, o, a)
      ∧ a = min n bb.count
      ∧ (if t = bb.endIndex then 0 else t)
          = Circular.wrap bb.endIndex (bb.tail + a)
      ∧ o = decide (bb.endIndex < bb.tail + a) := by
  have hlt := bb.tail_lt
  obtain ⟨t, o, a, heq, ha, ht, ho⟩ := bb.popLoop_spec n (k := 0)
    (Nat.zero_le _)
    (by rw [walked, if_neg (by omega), Nat.add_zero])
    (by rw [decide_eq_false (by omega)])
  rw [Nat.zero_add] at ha
  exact ⟨t, o, a, heq, ha, ht, ho⟩

theorem addHead_lt (bb : PifusByteBuffer) (toAdd : List UInt8) :
    (bb.addHead (bb.addLoop toAdd.length (bb.head + 1) false 0).1
      (bb.addLoop toAdd.length (bb.head + 1) false 0).2.1).1
      < bb.endIndex := by
  have hlt := bb.head_lt
  obtain ⟨h, o, a, heq, ha, hadd⟩ := bb.addLoop_start toAdd
  rw [heq, hadd]
  exact Circular.wrap_lt (by omega)

theorem popTail_lt (bb : PifusByteBuffer) (n : ℕ) :
    (if (bb.popLoop n bb.tail false 0).1 = bb.endIndex then 0
      else (bb.popLoop n bb.tail false 0).1) < bb.endIndex := by
  have hlt := bb.tail_lt
  have hcount := bb.count_lt
  obtain ⟨t, o, a, heq, ha, ht, -⟩ := bb.popLoop_start n
  rw [heq]
  show (if t = bb.endIndex then 0 else t) < bb.endIndex
  rw [ht]
  exact Circular.wrap_lt (by omega)

/-- `pifus_byte_buffer_add`: the number of bytes stored and the buffer after
it. A head at the end of the array, which the source resets first, is not a
valid index. -/
def add (bb : PifusByteBuffer) (toAdd : List UInt8) : ℕ × PifusByteBuffer :=
  let walk := bb.addLoop toAdd.length (bb.head + 1) false 0
  let newHead := bb.addHead walk.1 walk.2.1
  if 0 < walk.2.2 then
    (walk.2.2, { bb with
      buffer := bb.addCopy toAdd newHead.2 walk.2.2
      head := newHead.1
      head_lt := bb.addHead_lt toAdd })
  else (0, bb)

/-- `pifus_byte_buffer_pop`: the bytes written to the output buffer, as many
as the source returns, and the buffer after it. -/
def pop (bb : PifusByteBuffer) (length : ℕ) : List UInt8 × PifusByteBuffer :=
  let walk := bb.popLoop length bb.tail false 0
  if 0 < walk.2.2 then
    (bb.popCopy walk.2.1 walk.2.2, { bb with
      tail := if walk.1 = bb.endIndex then 0 else walk.1
      tail_lt := bb.popTail_lt length })
  else ([], bb)

/-- The bytes added stand behind the head, in ring order. -/
theorem addCopy_apply {a i : ℕ} (ha : a ≤ toAdd.length) (hend : a < bb.endIndex)
    (hi : i < a) :
    bb.addCopy toAdd (decide (bb.endIndex ≤ bb.head + a)) a
      (Circular.wrap bb.endIndex (bb.head + i)) = toAdd[i] := by
  have hlt := bb.head_lt
  unfold addCopy Circular.wrap
  by_cases hover : bb.endIndex ≤ bb.head + a
  · rw [if_pos (decide_eq_true hover)]
    by_cases hw : bb.head + i < bb.endIndex
    · rw [if_pos hw, Memory.copy_apply_of_not_mem (by simp; omega),
        Memory.copy_apply (by simp; omega), List.getElem_take]
    · have hidx : bb.head + i - bb.endIndex
          = 0 + (i - (bb.endIndex - bb.head)) := by omega
      rw [if_neg hw, hidx, Memory.copy_apply (by simp; omega),
        List.getElem_take, List.getElem_drop]
      congr 1
      omega
  · rw [if_neg (by simpa using hover), if_pos (by omega),
      Memory.copy_apply (by simp; omega), List.getElem_take]

/-- The other bytes of the array are left alone. -/
theorem addCopy_apply_of_ne {a x : ℕ} (ha : a ≤ toAdd.length)
    (hx : x < bb.endIndex)
    (hne : ∀ i, i < a → Circular.wrap bb.endIndex (bb.head + i) ≠ x) :
    bb.addCopy toAdd (decide (bb.endIndex ≤ bb.head + a)) a x
      = bb.buffer x := by
  have hlt := bb.head_lt
  unfold addCopy
  by_cases hover : bb.endIndex ≤ bb.head + a
  · have hlow : x < bb.head := by
      by_contra hge
      refine hne (x - bb.head) (by omega) ?_
      unfold Circular.wrap
      rw [if_pos (by omega)]
      omega
    have hhigh : a - (bb.endIndex - bb.head) ≤ x := by
      by_contra hge
      refine hne (x + (bb.endIndex - bb.head)) (by omega) ?_
      unfold Circular.wrap
      rw [if_neg (by omega)]
      omega
    rw [if_pos (decide_eq_true hover),
      Memory.copy_apply_of_not_mem (by simp; omega),
      Memory.copy_apply_of_not_mem (by simp; omega)]
  · rw [if_neg (by simpa using hover), Memory.copy_apply_of_not_mem]
    by_contra hin
    simp only [List.length_take] at hin
    refine hne (x - bb.head) (by omega) ?_
    unfold Circular.wrap
    rw [if_pos (by omega)]
    omega

/-- **`pifus_byte_buffer_add` appends as many bytes as fit.** -/
theorem add_spec (toAdd : List UInt8) :
    ∃ bb', bb.add toAdd
        = (min toAdd.length (bb.endIndex - 1 - bb.contents.length), bb')
      ∧ bb'.contents = bb.contents
          ++ toAdd.take (bb.endIndex - 1 - bb.contents.length)
      ∧ bb'.endIndex = bb.endIndex := by
  have htail := bb.tail_lt
  have hcount := bb.count_lt
  obtain ⟨h, o, a, heq, ha, hadd⟩ := bb.addLoop_start toAdd
  rw [length_contents, ← ha]
  have htake : toAdd.take (bb.endIndex - 1 - bb.count) = toAdd.take a := by
    rw [ha, List.take_eq_take_iff]
    omega
  rw [htake]
  unfold add
  simp only [heq, hadd]
  by_cases hpos : 0 < a
  · rw [if_pos hpos]
    refine ⟨_, rfl, ?_, rfl⟩
    have hnew : PifusByteBuffer.count { bb with
        buffer := bb.addCopy toAdd (decide (bb.endIndex ≤ bb.head + a)) a
        head := Circular.wrap bb.endIndex (bb.head + a)
        head_lt := Circular.wrap_lt (by have := bb.head_lt; omega) }
        = bb.count + a := by
      refine count_of_wrap ?_ (show bb.count + a < bb.endIndex by omega)
      show Circular.wrap bb.endIndex (bb.head + a)
        = Circular.wrap bb.endIndex (bb.tail + (bb.count + a))
      rw [← wrap_count, Circular.wrap_wrap_add htail (by omega), Nat.add_assoc]
    rw [contents, hnew, Circular.window_add htail (by omega), contents]
    congr 1
    · refine Circular.window_congr (fun i hi => ?_)
      refine addCopy_apply_of_ne (by omega) (Circular.wrap_lt (by omega))
        (fun j hj heq => ?_)
      rw [← wrap_count, Circular.wrap_wrap_add htail (by omega),
        Nat.add_assoc] at heq
      have := Circular.wrap_inj (by omega) (by omega) heq
      omega
    · refine List.ext_getElem (by simp; omega) (fun i hi hi' => ?_)
      rw [Circular.length_window] at hi
      rw [Circular.getElem_window, List.getElem_take]
      show bb.addCopy toAdd _ a
        (Circular.wrap bb.endIndex
          (Circular.wrap bb.endIndex (bb.tail + bb.count) + i)) = _
      rw [wrap_count]
      exact addCopy_apply (by omega) (by omega) hi
  · rw [if_neg hpos]
    have hz : a = 0 := by omega
    exact ⟨bb, by rw [hz], by rw [hz, List.take_zero, List.append_nil], rfl⟩

/-- The bytes copied out are the oldest ones. -/
theorem popCopy_eq {a : ℕ} (ha : a ≤ bb.count) :
    bb.popCopy (decide (bb.endIndex < bb.tail + a)) a
      = Circular.window bb.buffer bb.endIndex bb.tail a := by
  have hlt := bb.tail_lt
  have hcount := bb.count_lt
  unfold popCopy
  by_cases hover : bb.endIndex < bb.tail + a
  · rw [if_pos (decide_eq_true hover)]
    obtain ⟨k, hk⟩ : ∃ k, a = bb.endIndex - bb.tail + k :=
      ⟨a - (bb.endIndex - bb.tail), by omega⟩
    have hz : Circular.wrap bb.endIndex (bb.tail + (bb.endIndex - bb.tail))
        = 0 := by
      unfold Circular.wrap
      rw [if_neg (by omega)]
      omega
    show bb.buffer.bytes bb.tail (bb.endIndex - bb.tail)
      ++ bb.buffer.bytes 0 (a - (bb.endIndex - bb.tail)) = _
    rw [hk, Circular.window_add hlt (by omega), Nat.add_sub_cancel_left, hz]
    congr 1
    · refine List.map_congr_left (fun i hi => ?_)
      have hi := List.mem_range.mp hi
      rw [Circular.wrap_of_lt (by omega)]
    · refine List.map_congr_left (fun i hi => ?_)
      have hi := List.mem_range.mp hi
      rw [Circular.wrap_of_lt (by omega)]
  · rw [if_neg (by simpa using hover)]
    refine List.map_congr_left (fun i hi => ?_)
    have hi := List.mem_range.mp hi
    rw [Circular.wrap_of_lt (by omega)]

/-- **`pifus_byte_buffer_pop` takes off as many bytes as there are.** -/
theorem pop_spec (n : ℕ) :
    ∃ bb', bb.pop n = (bb.contents.take n, bb')
      ∧ bb'.contents = bb.contents.drop n ∧ bb'.endIndex = bb.endIndex := by
  have htail := bb.tail_lt
  have hcount := bb.count_lt
  obtain ⟨t, o, a, heq, ha, ht, ho⟩ := bb.popLoop_start n
  obtain ⟨k, hk⟩ : ∃ k, bb.count = a + k := ⟨bb.count - a, by omega⟩
  have hsplit : bb.contents = Circular.window bb.buffer bb.endIndex bb.tail a
      ++ Circular.window bb.buffer bb.endIndex
        (Circular.wrap bb.endIndex (bb.tail + a)) k := by
    rw [contents, hk, Circular.window_add htail (by omega)]
  have htake : bb.contents.take n
      = Circular.window bb.buffer bb.endIndex bb.tail a := by
    have hcut : bb.contents.take n = bb.contents.take a := by
      rw [List.take_eq_take_iff, length_contents]
      omega
    rw [hcut, hsplit, List.take_left' Circular.length_window]
  have hdrop : bb.contents.drop n = Circular.window bb.buffer bb.endIndex
      (Circular.wrap bb.endIndex (bb.tail + a)) k := by
    have hcut : bb.contents.drop n = bb.contents.drop a := by
      by_cases hn : n ≤ bb.count
      · rw [show n = a from by omega]
      · rw [List.drop_eq_nil_of_le (by rw [length_contents]; omega),
          List.drop_eq_nil_of_le (by rw [length_contents]; omega)]
    rw [hcut, hsplit, List.drop_left' Circular.length_window]
  rw [htake, hdrop]
  unfold pop
  simp only [heq, ht, ho]
  by_cases hpos : 0 < a
  · rw [if_pos hpos, popCopy_eq (by omega)]
    refine ⟨_, rfl, ?_, rfl⟩
    have hnew : PifusByteBuffer.count { bb with
        tail := Circular.wrap bb.endIndex (bb.tail + a)
        tail_lt := Circular.wrap_lt (by omega) } = k := by
      refine count_of_wrap ?_ (show k < bb.endIndex by omega)
      show bb.head = Circular.wrap bb.endIndex
        (Circular.wrap bb.endIndex (bb.tail + a) + k)
      rw [Circular.wrap_wrap_add htail (by omega), Nat.add_assoc, ← hk,
        wrap_count]
    rw [contents, hnew]
  · have hz : a = 0 := by omega
    subst hz
    rw [if_neg hpos]
    refine ⟨bb, rfl, ?_, rfl⟩
    rw [Nat.add_zero, Circular.wrap_of_lt htail, contents, hk, Nat.zero_add]

end PifusByteBuffer
