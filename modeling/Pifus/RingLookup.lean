import Pifus.RingBuffer
import Pifus.Util.Transition

/-!
# Lookups in a ring buffer

`peek_index` and `find` walk from `tail` to `head` with a loop of their own.
What makes them agree with `put` and `get` is that they take the same step from
cell to cell, and that the cells they pass are those of the elements, each once:
so a walk ends, and the element it stops at is the one with the number of steps
it has taken.

The loops take fuel here, and `none` says that a loop has not ended. As many
rounds as the array has cells are enough for both.
-/

namespace RingBuffer

variable {α : Type*}

/-- The loop of `peek_index`, from the cell `tail` on, with its
`current_index`, a `uint16_t`. -/
def peekIndexLoop (rb : RingBuffer α) (index : ℕ) :
    ℕ → ℕ → ℕ → Option (Option ℕ)
  | 0, _, _ => none
  | fuel + 1, tail, currentIndex =>
    if rb.head ≠ tail then
      if currentIndex = index then some (some tail)
      else
        peekIndexLoop rb index fuel (rb.next tail) ((currentIndex + 1) % 2 ^ 16)
    else some none

/-- `peek_index`, with the rounds its loop may take: the cell of an element, or
`none` where the source returns `false`. -/
def peekIndex (rb : RingBuffer α) (index fuel : ℕ) : Option (Option ℕ) :=
  rb.peekIndexLoop index fuel rb.tail 0

/-- The loop of `find`, from the cell `tail` on. -/
def findLoop (rb : RingBuffer α) (satisfies : α → Bool) :
    ℕ → ℕ → Option (Option ℕ)
  | 0, _ => none
  | fuel + 1, tail =>
    if rb.head ≠ tail then
      if satisfies (rb.buf tail) then some (some tail)
      else findLoop rb satisfies fuel (rb.next tail)
    else some none

variable {rb rb' : RingBuffer α} {satisfies : α → Bool} {c k index fuel : ℕ}

/-! ## The walks -/

theorem head_ne_cell (hk : k < rb.count) : rb.head ≠ rb.cell k := by
  have hlt := rb.count_lt
  rw [← cell_count, ne_eq, cell_inj hlt (by omega)]
  exact Nat.ne_of_gt hk

/-- **The walk of `peek_index`**, from the element with the number `k` on. -/
theorem peekIndexLoop_eq (hfuel : rb.count < fuel + k) (hk : k ≤ rb.count)
    (hindex : k ≤ index) :
    rb.peekIndexLoop index fuel (rb.cell k) k
      = some (if index < rb.count then some (rb.cell index) else none) := by
  have hlt := rb.count_lt
  have hend := rb.endIndex_lt
  induction fuel generalizing k with
  | zero => omega
  | succ fuel ih =>
    rw [peekIndexLoop]
    rcases Nat.eq_or_lt_of_le hk with rfl | hk
    · rw [if_neg (by rw [cell_count]; simp), if_neg (by omega)]
    · rw [if_pos (head_ne_cell hk)]
      by_cases heq : k = index
      · rw [if_pos heq, ← heq, if_pos hk]
      · rw [if_neg heq, next_cell (by omega), Nat.mod_eq_of_lt (by omega)]
        exact ih (by omega) hk (by omega)

/-- **The walk of `find`**, from the element with the number `k` on. -/
theorem findLoop_eq (hfuel : rb.count < fuel + k) (hk : k ≤ rb.count) :
    rb.findLoop satisfies fuel (rb.cell k)
      = some (((rb.contents.drop k).findIdx? satisfies).map
          (fun i => rb.cell (k + i))) := by
  have hlt := rb.count_lt
  induction fuel generalizing k with
  | zero => omega
  | succ fuel ih =>
    rw [findLoop]
    rcases Nat.eq_or_lt_of_le hk with rfl | hk
    · rw [if_neg (by rw [cell_count]; simp),
        List.drop_eq_nil_of_le (Nat.le_of_eq length_contents)]
      rfl
    · have hk' : k < rb.contents.length := by rwa [length_contents]
      rw [if_pos (head_ne_cell hk), List.drop_eq_getElem_cons hk',
        getElem_contents, List.findIdx?_cons]
      by_cases hs : satisfies (rb.buf (rb.cell k)) = true
      · rw [if_pos hs, if_pos hs]
        rfl
      · rw [if_neg hs, if_neg hs, next_cell (by omega),
          ih (by omega) hk, Option.map_map]
        congr 2
        funext i
        show rb.cell (k + 1 + i) = rb.cell (k + (i + 1))
        rw [Nat.add_assoc, Nat.add_comm 1 i]

/-- The rounds of `find` that `Pifus.RingBuffer` gives it are enough. -/
theorem findLoop_eq_find (rb : RingBuffer α) (satisfies : α → Bool) :
    rb.findLoop satisfies rb.endIndex rb.tail = some (rb.find satisfies) := by
  have hrounds : ∀ fuel k, rb.count < fuel + k → k ≤ rb.count →
      rb.findLoop satisfies fuel (rb.cell k)
        = some (rb.findFrom satisfies fuel (rb.cell k)) := by
    intro fuel
    induction fuel with
    | zero => exact fun k hfuel hk => absurd hk (by omega)
    | succ fuel ih =>
      intro k hfuel hk
      have hlt := rb.count_lt
      rw [findLoop, findFrom]
      rcases Nat.eq_or_lt_of_le hk with rfl | hk
      · rw [if_neg (by rw [cell_count]; simp),
          if_neg (by rw [cell_count]; simp)]
      · rw [if_pos (head_ne_cell hk), if_pos (head_ne_cell hk)]
        split
        · rfl
        · rw [next_cell (by omega)]
          exact ih (k + 1) (by omega) hk
  rw [find, ← cell_zero]
  exact hrounds _ 0 rb.count_lt (Nat.zero_le _)

/-! ## Pointers to elements -/

/-- **A cell is the slot of an element**: it is one of the array, it holds the
element, and an assignment to it replaces this element and no other. -/
structure SlotOf (rb : RingBuffer α) (c k : ℕ) : Prop where
  lt : c < rb.endIndex
  read : rb.contents[k]? = some (rb.buf c)
  write : ∀ el, (rb.store c el).contents = rb.contents.set k el

theorem slotOf_cell (hk : k < rb.contents.length) : rb.SlotOf (rb.cell k) k := by
  have hlt := rb.count_lt
  have htail := rb.tail_lt
  refine ⟨Circular.wrap_lt ?_, ?_, fun el => contents_store hk⟩
  · rw [length_contents] at hk
    omega
  · rw [List.getElem?_eq_getElem hk, getElem_contents]

end RingBuffer

/-! ## Runs -/

/-- What can happen next. -/
inductive RingBufferEvent (α : Type*)
  | put (el : α)
  | get
  | eraseFirst
  /-- An assignment through the pointer that `peek_index` returns. -/
  | overwrite (index : ℕ) (el : α)

variable {α : Type*}

/-- **A step of a ring buffer.** A function that returns `false` leaves it as it
is. -/
def ringBufferStep (rb : RingBuffer α) : RingBufferEvent α → RingBuffer α
  | .put el => (rb.put el).getD rb
  | .get => (rb.get.map Prod.snd).getD rb
  | .eraseFirst => rb.eraseFirst.getD rb
  | .overwrite index el =>
    match rb.peekIndex index rb.endIndex with
    | some (some cell) => rb.store cell el
    | _ => rb

/-- The steps as a relation. -/
def RingBufferStep (rb : RingBuffer α) (e : RingBufferEvent α)
    (rb' : RingBuffer α) : Prop :=
  ringBufferStep rb e = rb'

namespace RingBuffer

variable {rb rb' : RingBuffer α}

/-- No step changes the length of the array. -/
theorem endIndex_ringBufferStep {e : RingBufferEvent α}
    (hs : RingBufferStep rb e rb') : rb'.endIndex = rb.endIndex := by
  subst hs
  cases e with
  | put el =>
    rw [ringBufferStep]
    cases hput : rb.put el with
    | none => rfl
    | some ring => exact endIndex_put hput
  | get =>
    rw [ringBufferStep]
    cases hget : rb.get with
    | none => rfl
    | some r => exact endIndex_get hget
  | eraseFirst =>
    rw [ringBufferStep]
    cases herase : rb.eraseFirst with
    | none => rfl
    | some ring => exact endIndex_eraseFirst herase
  | overwrite index el =>
    rw [ringBufferStep]
    split <;> rfl

/-- **The lookups agree with the queue**, in every state that is reached: there
are fewer elements than cells; `is_full` says what the next `put` would;
`peek_index` ends, and returns the slot of the element with the number, if there
is one; `find` ends, and returns the slot of the first element that satisfies
the predicate, if there is one; and through a slot one element is read, and
written. -/
theorem lookups_agree {buf : ℕ → α} {n : ℕ} (hpos : 0 < n) (hlt : n < 2 ^ 16)
    {es : List (RingBufferEvent α)}
    (h : Run RingBufferStep (create buf n hpos hlt) es rb) :
    rb.contents.length ≤ n - 1
    ∧ (∀ el, rb.isFull = true ↔ rb.put el = none)
    ∧ (∀ index fuel, n ≤ fuel → rb.peekIndex index fuel
        = some (if index < rb.contents.length then some (rb.cell index)
          else none))
    ∧ (∀ satisfies fuel, n ≤ fuel → rb.findLoop satisfies fuel rb.tail
        = some ((rb.contents.findIdx? satisfies).map rb.cell))
    ∧ ∀ k, k < rb.contents.length → rb.SlotOf (rb.cell k) k := by
  have hend : rb.endIndex = n := h.invariant (fun rb => rb.endIndex = n) rfl
    (fun _ _ _ hI hs => (endIndex_ringBufferStep hs).trans hI)
  have hcount := rb.count_lt
  refine ⟨?_, fun el => ?_, fun index fuel hfuel => ?_,
    fun satisfies fuel hfuel => ?_, fun k hk => slotOf_cell hk⟩
  · rw [length_contents]
    omega
  · rw [isFull_iff, put_eq_none_iff]
  · rw [peekIndex, ← cell_zero, length_contents]
    exact peekIndexLoop_eq (by omega) (Nat.zero_le _) (Nat.zero_le _)
  · rw [← cell_zero, findLoop_eq (by omega) (Nat.zero_le _), List.drop_zero]
    simp only [Nat.zero_add]

/-- Three elements in four cells, one of them overwritten. -/
theorem lookups_agree_four :
    ∃ rb : RingBuffer ℕ, rb.contents = [2, 9, 4]
      ∧ rb.peekIndex 2 4 = some (some (rb.cell 2))
      ∧ rb.findLoop (fun x => x = 9) 4 rb.tail = some (some (rb.cell 1)) := by
  let es : List (RingBufferEvent ℕ) :=
    [.put 1, .put 2, .put 3, .get, .put 4, .overwrite 1 9]
  have hs : (es.foldlM (fun rb e => some (ringBufferStep rb e))
      (create (fun _ => 0) 4 (by decide) (by decide))).any
      (fun rb => rb.contents = [2, 9, 4]) = true := by decide +kernel
  obtain ⟨rb, hrun, hcontents⟩ := (Option.any_eq_true _ _).mp hs
  have hcontents : rb.contents = [2, 9, 4] := of_decide_eq_true hcontents
  obtain ⟨-, -, hpeek, hfind, -⟩ := lookups_agree (by decide) (by decide)
    ((Run.of_foldlM hrun).mono (fun _ _ _ h => Option.some.inj h))
  refine ⟨rb, hcontents, ?_, ?_⟩
  · rw [hpeek 2 4 (by decide), hcontents]
    rfl
  · rw [hfind (fun x => x = 9) 4 (by decide), hcontents]
    rfl

end RingBuffer
