import Mathlib.Algebra.Group.Nat.Defs
import Pifus.Util.Circular

/-!
# Ring buffers

`RING_BUFFER_SOURCE_DEFS` of `pifus_ring_buffer.c`, once for every element
type. A ring buffer keeps one cell free to tell full from empty, so an array
of `end` cells holds at most `end - 1` elements.

The array is part of the structure here, and so is what every function keeps:
both indices are *valid* ones, as the comments of the source put it. `peek`
and `find` hand out a pointer into the array, which is the number of a cell;
`store` is an assignment through such a pointer.

What a ring buffer holds is the list `contents`, oldest element first, and
each function is one operation on that list.
-/

/-- A ring buffer and its array. -/
structure RingBuffer (α : Type*) where
  /-- `end`: the length of the array, a `uint16_t`. -/
  endIndex : ℕ
  /-- The cell that the next element is put into. -/
  head : ℕ
  /-- The cell of the oldest element. -/
  tail : ℕ
  /-- The array. -/
  buf : ℕ → α
  head_lt : head < endIndex
  tail_lt : tail < endIndex
  endIndex_lt : endIndex < 2 ^ 16

namespace RingBuffer

variable {α : Type*}

/-- The cell behind a cell: `+ 1U` in a `uint16_t`, and from the end of the
array back to its start. -/
def next (rb : RingBuffer α) (i : ℕ) : ℕ :=
  if (i + 1) % 2 ^ 16 = rb.endIndex then 0 else (i + 1) % 2 ^ 16

theorem next_eq (rb : RingBuffer α) {i : ℕ} (h : i < rb.endIndex) :
    rb.next i = Circular.wrap rb.endIndex (i + 1) := by
  have hend := rb.endIndex_lt
  have hmod : (i + 1) % 2 ^ 16 = i + 1 := Nat.mod_eq_of_lt (by omega)
  unfold next Circular.wrap
  rw [hmod]
  by_cases hlast : i + 1 = rb.endIndex
  · rw [if_pos hlast, if_neg (by omega)]
    omega
  · rw [if_neg hlast, if_pos (by omega)]

theorem next_lt (rb : RingBuffer α) {i : ℕ} (h : i < rb.endIndex) :
    rb.next i < rb.endIndex := by
  rw [rb.next_eq h]
  exact Circular.wrap_lt (by omega)

/-- `create`: an empty ring buffer over an array of `bufferLength` cells. -/
def create (buf : ℕ → α) (bufferLength : ℕ) (hpos : 0 < bufferLength)
    (hlt : bufferLength < 2 ^ 16) : RingBuffer α :=
  ⟨bufferLength, 0, 0, buf, hpos, hpos, hlt⟩

/-- `put`; `none` where the source returns `false`. -/
def put (rb : RingBuffer α) (el : α) : Option (RingBuffer α) :=
  if rb.next rb.head ≠ rb.tail then
    some { rb with
      buf := Function.update rb.buf rb.head el
      head := rb.next rb.head
      head_lt := rb.next_lt rb.head_lt }
  else none

/-- `erase_first`; `none` where the source returns `false`. -/
def eraseFirst (rb : RingBuffer α) : Option (RingBuffer α) :=
  if rb.head ≠ rb.tail then
    some { rb with tail := rb.next rb.tail, tail_lt := rb.next_lt rb.tail_lt }
  else none

/-- `get`; `none` where the source returns `false`. -/
def get (rb : RingBuffer α) : Option (α × RingBuffer α) :=
  if rb.head ≠ rb.tail then
    some (rb.buf rb.tail,
      { rb with tail := rb.next rb.tail, tail_lt := rb.next_lt rb.tail_lt })
  else none

/-- `peek`: the cell of the oldest element. -/
def peek (rb : RingBuffer α) : Option ℕ :=
  if rb.head ≠ rb.tail then some rb.tail else none

/-- The loop of `find`, from the cell `tail` on. -/
def findFrom (rb : RingBuffer α) (satisfies : α → Bool) : ℕ → ℕ → Option ℕ
  | 0, _ => none
  | fuel + 1, tail =>
    if rb.head ≠ tail then
      if satisfies (rb.buf tail) then some tail
      else findFrom rb satisfies fuel (rb.next tail)
    else none

/-- `find`: the cell of the oldest element that satisfies the predicate. The
loop visits no cell twice. -/
def find (rb : RingBuffer α) (satisfies : α → Bool) : Option ℕ :=
  rb.findFrom satisfies rb.endIndex rb.tail

/-- `is_full`. -/
def isFull (rb : RingBuffer α) : Bool := rb.next rb.head = rb.tail

/-- An assignment through a pointer into the array. -/
def store (rb : RingBuffer α) (cell : ℕ) (el : α) : RingBuffer α :=
  { rb with buf := Function.update rb.buf cell el }

/-! ## The elements -/

/-- The number of elements. -/
def count (rb : RingBuffer α) : ℕ :=
  if rb.tail ≤ rb.head then rb.head - rb.tail
  else rb.head + rb.endIndex - rb.tail

/-- The cell of the element with the number `k`, the oldest being number
zero. -/
def cell (rb : RingBuffer α) (k : ℕ) : ℕ :=
  Circular.wrap rb.endIndex (rb.tail + k)

/-- **The elements of a ring buffer**, oldest first. -/
def contents (rb : RingBuffer α) : List α :=
  Circular.window rb.buf rb.endIndex rb.tail rb.count

variable {rb rb' : RingBuffer α} {el : α} {satisfies : α → Bool} {c k : ℕ}

@[simp] theorem length_contents : rb.contents.length = rb.count :=
  Circular.length_window

theorem count_lt (rb : RingBuffer α) : rb.count < rb.endIndex := by
  have hhead := rb.head_lt
  have htail := rb.tail_lt
  unfold count
  split <;> omega

theorem cell_count (rb : RingBuffer α) : rb.cell rb.count = rb.head := by
  have hhead := rb.head_lt
  have htail := rb.tail_lt
  unfold cell count Circular.wrap
  by_cases h : rb.tail ≤ rb.head
  · rw [if_pos h, if_pos (by omega)]
    omega
  · rw [if_neg h, if_neg (by omega)]
    omega

theorem cell_zero (rb : RingBuffer α) : rb.cell 0 = rb.tail := by
  unfold cell
  rw [Nat.add_zero, Circular.wrap_of_lt rb.tail_lt]

theorem next_cell (hk : k < rb.endIndex) :
    rb.next (rb.cell k) = rb.cell (k + 1) := by
  have htail := rb.tail_lt
  have hlt : rb.cell k < rb.endIndex := Circular.wrap_lt (by omega)
  rw [rb.next_eq hlt, cell, Circular.wrap_wrap_add htail (by omega), cell,
    Nat.add_assoc]

theorem cell_inj {j : ℕ} (hj : j < rb.endIndex) (hk : k < rb.endIndex) :
    rb.cell j = rb.cell k ↔ j = k :=
  ⟨Circular.wrap_inj hj hk, congrArg _⟩

/-- The test for an empty buffer. -/
theorem head_eq_tail_iff : rb.head = rb.tail ↔ rb.count = 0 := by
  rw [← cell_count, ← cell_zero, cell_inj rb.count_lt]
  exact Nat.lt_of_le_of_lt (Nat.zero_le _) rb.tail_lt

/-- The test for a full buffer. -/
theorem next_head_eq_tail_iff :
    rb.next rb.head = rb.tail ↔ rb.count + 1 = rb.endIndex := by
  have hlt := rb.count_lt
  have htail := rb.tail_lt
  rw [← cell_count, next_cell hlt]
  by_cases hfull : rb.count + 1 = rb.endIndex
  · refine iff_of_true ?_ hfull
    rw [hfull]
    unfold cell Circular.wrap
    rw [if_neg (by omega), Nat.add_sub_cancel]
  · refine iff_of_false (fun h => ?_) hfull
    rw [← cell_zero, cell_inj (by omega) (by omega)] at h
    omega

theorem getElem_contents (h : k < rb.contents.length) :
    rb.contents[k] = rb.buf (rb.cell k) :=
  Circular.getElem_window h

@[simp] theorem contents_create {buf : ℕ → α} {n : ℕ} (hpos : 0 < n)
    (hlt : n < 2 ^ 16) : (create buf n hpos hlt).contents = [] := rfl

/-! ## The functions on the list of elements -/

/-- `put` fails exactly on a full buffer. -/
theorem put_eq_none_iff :
    rb.put el = none ↔ rb.contents.length + 1 = rb.endIndex := by
  rw [length_contents, ← next_head_eq_tail_iff, put]
  by_cases h : rb.next rb.head = rb.tail <;> simp [h]

theorem exists_put (el : α) (h : rb.contents.length + 1 ≠ rb.endIndex) :
    ∃ rb', rb.put el = some rb' :=
  Option.ne_none_iff_exists'.mp (mt put_eq_none_iff.mp h)

theorem count_of_cell (h : rb.head = rb.cell k) (hk : k < rb.endIndex) :
    rb.count = k := by
  rw [← cell_count, cell_inj rb.count_lt hk] at h
  exact h

/-- **`put` appends.** -/
theorem contents_put (h : rb.put el = some rb') :
    rb'.contents = rb.contents ++ [el] := by
  have hlt := rb.count_lt
  have hroom : rb.count + 1 < rb.endIndex := by
    have hne : rb.contents.length + 1 ≠ rb.endIndex := fun hfull => by
      rw [put_eq_none_iff.mpr hfull] at h
      exact absurd h (by simp)
    rw [length_contents] at hne
    omega
  rw [put] at h
  split at h
  · obtain rfl := Option.some.inj h
    -- the new head is the cell behind the new element
    have hcount : RingBuffer.count { rb with
        buf := Function.update rb.buf rb.head el
        head := rb.next rb.head
        head_lt := rb.next_lt rb.head_lt } = rb.count + 1 := by
      refine count_of_cell ?_ hroom
      show rb.next rb.head = rb.cell (rb.count + 1)
      rw [← cell_count, next_cell hlt]
    rw [contents, hcount, Circular.window_succ_last rb.tail_lt (by omega)]
    show Circular.window (Function.update rb.buf rb.head el) _ _ _
      ++ [Function.update rb.buf rb.head el (rb.cell rb.count)] = _
    rw [cell_count, Function.update_self, ← cell_count, cell,
      Circular.window_update_of_le hlt (Nat.le_refl _), contents]
  · exact absurd h (by simp)

theorem put_eq_some (h : rb.put el = some rb') :
    rb'.head = rb.next rb.head ∧ rb'.tail = rb.tail
      ∧ rb'.buf = Function.update rb.buf rb.head el := by
  rw [put] at h
  split at h
  · obtain rfl := Option.some.inj h
    exact ⟨rfl, rfl, rfl⟩
  · exact absurd h (by simp)

theorem endIndex_put (h : rb.put el = some rb') :
    rb'.endIndex = rb.endIndex := by
  rw [put] at h
  split at h
  · obtain rfl := Option.some.inj h
    rfl
  · exact absurd h (by simp)

theorem cell_put (h : rb.put el = some rb') : rb'.cell k = rb.cell k := by
  rw [put] at h
  split at h
  · obtain rfl := Option.some.inj h
    rfl
  · exact absurd h (by simp)

/-- `erase_first` fails exactly on an empty buffer. -/
theorem eraseFirst_eq_none_iff : rb.eraseFirst = none ↔ rb.contents = [] := by
  rw [← List.length_eq_zero_iff, length_contents, ← head_eq_tail_iff,
    eraseFirst]
  by_cases h : rb.head = rb.tail <;> simp [h]

/-- **`erase_first` takes off the oldest element.** -/
theorem contents_eraseFirst (h : rb.eraseFirst = some rb') :
    rb.contents = rb.buf rb.tail :: rb'.contents := by
  have hlt := rb.count_lt
  rw [eraseFirst] at h
  split at h
  · rename_i hne
    have hpos : 0 < rb.count :=
      Nat.pos_of_ne_zero (fun hz => hne (head_eq_tail_iff.mpr hz))
    obtain ⟨n, hn⟩ : ∃ n, rb.count = n + 1 := ⟨rb.count - 1, by omega⟩
    obtain rfl := Option.some.inj h
    have htail : rb.next rb.tail = rb.cell 1 := by
      rw [← cell_zero, next_cell (by omega)]
    have hcount : RingBuffer.count { rb with
        tail := rb.next rb.tail
        tail_lt := rb.next_lt rb.tail_lt } = n := by
      refine count_of_cell ?_ (show n < rb.endIndex by omega)
      show rb.head = Circular.wrap rb.endIndex (rb.next rb.tail + n)
      rw [htail, cell, Circular.wrap_wrap_add rb.tail_lt (by omega),
        ← cell_count, hn, cell]
      congr 1
      omega
    rw [contents, contents, hcount, hn,
      Circular.window_succ rb.tail_lt (by omega)]
    show _ = rb.buf rb.tail
      :: Circular.window rb.buf rb.endIndex (rb.next rb.tail) n
    rw [htail, cell]
  · exact absurd h (by simp)

theorem exists_eraseFirst (h : rb.contents ≠ []) :
    ∃ rb', rb.eraseFirst = some rb'
      ∧ rb.contents = rb.buf rb.tail :: rb'.contents := by
  obtain ⟨rb', herase⟩ :=
    Option.ne_none_iff_exists'.mp (mt eraseFirst_eq_none_iff.mp h)
  exact ⟨rb', herase, contents_eraseFirst herase⟩

theorem eraseFirst_eq_some (h : rb.eraseFirst = some rb') :
    rb'.tail = rb.next rb.tail ∧ rb'.head = rb.head ∧ rb'.buf = rb.buf := by
  rw [eraseFirst] at h
  split at h
  · obtain rfl := Option.some.inj h
    exact ⟨rfl, rfl, rfl⟩
  · exact absurd h (by simp)

theorem endIndex_eraseFirst (h : rb.eraseFirst = some rb') :
    rb'.endIndex = rb.endIndex := by
  rw [eraseFirst] at h
  split at h
  · obtain rfl := Option.some.inj h
    rfl
  · exact absurd h (by simp)

/-- `get` is `erase_first` with the element. -/
theorem get_eq_map :
    rb.get = rb.eraseFirst.map (fun rb' => (rb.buf rb.tail, rb')) := by
  unfold get eraseFirst
  split <;> rfl

/-- **`get` takes off the oldest element.** -/
theorem contents_get (h : rb.get = some (el, rb')) :
    rb.contents = el :: rb'.contents := by
  rw [get_eq_map, Option.map_eq_some_iff] at h
  obtain ⟨rb'', herase, heq⟩ := h
  obtain ⟨rfl, rfl⟩ := Prod.mk.inj heq
  exact contents_eraseFirst herase

theorem endIndex_get (h : rb.get = some (el, rb')) :
    rb'.endIndex = rb.endIndex := by
  rw [get_eq_map, Option.map_eq_some_iff] at h
  obtain ⟨rb'', herase, heq⟩ := h
  obtain ⟨-, rfl⟩ := Prod.mk.inj heq
  exact endIndex_eraseFirst herase

theorem get_eq_none_iff : rb.get = none ↔ rb.contents = [] := by
  rw [get_eq_map, Option.map_eq_none_iff, eraseFirst_eq_none_iff]

/-- `peek` fails exactly on an empty buffer. -/
theorem peek_eq_none_iff : rb.peek = none ↔ rb.contents = [] := by
  rw [← List.length_eq_zero_iff, length_contents, ← head_eq_tail_iff, peek]
  by_cases h : rb.head = rb.tail <;> simp [h]

/-- **`peek` hands out the cell of the oldest element.** -/
theorem peek_eq_some (h : rb.peek = some c) :
    c = rb.cell 0 ∧ rb.contents.head? = some (rb.buf c) := by
  rw [peek] at h
  split at h
  · rename_i hne
    obtain rfl := Option.some.inj h
    have hpos : 0 < rb.contents.length := by
      rw [length_contents]
      exact Nat.pos_of_ne_zero (fun hz => hne (head_eq_tail_iff.mpr hz))
    refine ⟨cell_zero rb |>.symm, ?_⟩
    rw [List.head?_eq_getElem?, List.getElem?_eq_getElem hpos,
      getElem_contents, cell_zero]
  · exact absurd h (by simp)

/-- What the loop of `find` returns, from the element with the number `k`
on. -/
theorem findFrom_spec (satisfies : α → Bool) {fuel : ℕ} (hfuel : rb.count < fuel + k)
    (hk : k ≤ rb.count) :
    match rb.findFrom satisfies fuel (rb.cell k) with
    | some c => ∃ j, k ≤ j ∧ j < rb.count ∧ c = rb.cell j
        ∧ satisfies (rb.buf (rb.cell j)) = true
        ∧ ∀ i, k ≤ i → i < j → satisfies (rb.buf (rb.cell i)) = false
    | none => ∀ i, k ≤ i → i < rb.count →
        satisfies (rb.buf (rb.cell i)) = false := by
  have hlt := rb.count_lt
  induction fuel generalizing k with
  | zero => omega
  | succ fuel ih =>
    rw [findFrom]
    by_cases hend : rb.head = rb.cell k
    · rw [if_neg (by simpa using hend)]
      intro i hki hi
      rw [count_of_cell hend (by omega)] at hi
      omega
    · have hkc : k ≠ rb.count := fun h => hend (by rw [h, cell_count])
      rw [if_pos hend]
      by_cases hs : satisfies (rb.buf (rb.cell k)) = true
      · rw [if_pos hs]
        exact ⟨k, Nat.le_refl _, by omega, rfl, hs, fun i h₁ h₂ => by omega⟩
      · have hs' : satisfies (rb.buf (rb.cell k)) = false := by simpa using hs
        rw [if_neg hs, next_cell (by omega)]
        have hrest := ih (k := k + 1) (by omega) (by omega)
        cases hfind : rb.findFrom satisfies fuel (rb.cell (k + 1)) with
        | none =>
          rw [hfind] at hrest
          intro i hki hi
          rcases Nat.eq_or_lt_of_le hki with rfl | hlt'
          · exact hs'
          · exact hrest i hlt' hi
        | some c =>
          rw [hfind] at hrest
          obtain ⟨j, hkj, hj, hc, hsj, hbefore⟩ := hrest
          refine ⟨j, by omega, hj, hc, hsj, fun i hki hi => ?_⟩
          rcases Nat.eq_or_lt_of_le hki with rfl | hlt'
          · exact hs'
          · exact hbefore i hlt' hi

/-- **`find` hands out the cell of the oldest element that satisfies the
predicate.** -/
theorem find_eq_some (h : rb.find satisfies = some c) :
    ∃ l x r, rb.contents = l ++ x :: r ∧ c = rb.cell l.length
      ∧ rb.buf c = x ∧ satisfies x = true
      ∧ ∀ y ∈ l, satisfies y = false := by
  have hspec := findFrom_spec satisfies (k := 0) rb.count_lt (Nat.zero_le _)
  rw [cell_zero] at hspec
  rw [find] at h
  rw [h] at hspec
  obtain ⟨j, -, hj, rfl, hs, hbefore⟩ := hspec
  have hj' : j < rb.contents.length := by rwa [length_contents]
  refine ⟨rb.contents.take j, rb.buf (rb.cell j), rb.contents.drop (j + 1),
    ?_, ?_, rfl, hs, fun y hy => ?_⟩
  · rw [← getElem_contents hj', ← List.drop_eq_getElem_cons hj',
      List.take_append_drop]
  · rw [List.length_take, Nat.min_eq_left (by omega)]
  · obtain ⟨i, hi, rfl⟩ := List.mem_iff_getElem.mp hy
    rw [List.length_take] at hi
    rw [List.getElem_take, getElem_contents]
    exact hbefore i (Nat.zero_le _) (by omega)

theorem find_eq_none (h : rb.find satisfies = none) :
    ∀ y ∈ rb.contents, satisfies y = false := by
  have hspec := findFrom_spec satisfies (k := 0) rb.count_lt (Nat.zero_le _)
  rw [cell_zero] at hspec
  rw [find] at h
  rw [h] at hspec
  intro y hy
  obtain ⟨i, hi, rfl⟩ := List.mem_iff_getElem.mp hy
  rw [getElem_contents]
  exact hspec i (Nat.zero_le _) (by rwa [length_contents] at hi)

theorem isFull_iff : rb.isFull = true ↔ rb.contents.length + 1 = rb.endIndex := by
  rw [length_contents, ← next_head_eq_tail_iff, isFull, decide_eq_true_iff]

/-- **An assignment through the pointer to an element** replaces that
element. -/
theorem contents_store (hk : k < rb.contents.length) :
    (rb.store (rb.cell k) el).contents = rb.contents.set k el := by
  have hlt := rb.count_lt
  rw [length_contents] at hk
  exact Circular.window_update (Nat.le_of_lt hlt) hk el

@[simp] theorem endIndex_store : (rb.store c el).endIndex = rb.endIndex := rfl

/-- An assignment to the cell that the next element is put into changes no
element. -/
theorem contents_store_head : (rb.store rb.head el).contents = rb.contents := by
  have hlt := rb.count_lt
  rw [← cell_count]
  exact Circular.window_update_of_le hlt (Nat.le_refl _) el

theorem head?_contents (h : rb.contents ≠ []) :
    rb.contents.head? = some (rb.buf rb.tail) := by
  have hpos : 0 < rb.contents.length := List.length_pos_iff.mpr h
  rw [List.head?_eq_getElem?, List.getElem?_eq_getElem hpos,
    getElem_contents, cell_zero]

end RingBuffer
