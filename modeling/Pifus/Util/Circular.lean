import Mathlib.Logic.Function.Basic
import Mathlib.Data.List.Basic

/-!
# Circular arrays

An array of `size` cells read as a ring: behind the last cell comes the first
one again. `window buf size s n` are the `n` elements from the cell `s` on, in
ring order. Whatever lives in a circular array – a queue of records, a buffer
of bytes – is a window of it, and its operations are the ones below: take off
the first element, put one behind the last, cut a window in two, overwrite a
cell of it or a cell outside.

A cell of a window is at most one turn away, so wrapping is a comparison and a
subtraction.
-/

namespace Circular

variable {α : Type*}

/-- The cell with the number `i`, counted past the end of the array. -/
def wrap (size i : ℕ) : ℕ := if i < size then i else i - size

/-- **The window of `n` elements from the cell `s` on**, in ring order. -/
def window (buf : ℕ → α) (size s n : ℕ) : List α :=
  (List.range n).map (fun i => buf (wrap size (s + i)))

variable {buf buf' : ℕ → α} {size s i j k n : ℕ}

/-! ## Cells -/

theorem wrap_of_lt (h : i < size) : wrap size i = i := if_pos h

theorem wrap_lt (h : i < size + size) : wrap size i < size := by
  unfold wrap
  split <;> omega

theorem wrap_wrap_add (h : s < size) (hij : i + j ≤ size) :
    wrap size (wrap size (s + i) + j) = wrap size (s + i + j) := by
  unfold wrap
  by_cases hi : s + i < size
  · rw [if_pos hi]
  · rw [if_neg hi, if_pos (by omega), if_neg (by omega)]
    omega

/-- Cells less than one turn apart are different. -/
theorem wrap_inj (hi : i < size) (hj : j < size)
    (heq : wrap size (s + i) = wrap size (s + j)) : i = j := by
  unfold wrap at heq
  split at heq <;> split at heq <;> omega

/-! ## Windows -/

@[simp] theorem length_window : (window buf size s n).length = n := by
  simp [window]

@[simp] theorem window_zero : window buf size s 0 = [] := rfl

theorem getElem_window (h : i < (window buf size s n).length) :
    (window buf size s n)[i] = buf (wrap size (s + i)) := by
  simp [window]

/-- **A window reads its own cells and no others.** -/
theorem window_congr
    (h : ∀ i, i < n → buf (wrap size (s + i)) = buf' (wrap size (s + i))) :
    window buf size s n = window buf' size s n := by
  refine List.map_congr_left (fun i hi => ?_)
  exact h i (List.mem_range.mp hi)

/-- **A window can be cut anywhere.** -/
theorem window_add (h : s < size) (hn : n + k ≤ size) :
    window buf size s (n + k)
      = window buf size s n ++ window buf size (wrap size (s + n)) k := by
  unfold window
  rw [List.range_add, List.map_append, List.map_map]
  refine congrArg _ (List.map_congr_left (fun i hi => ?_))
  have hi := List.mem_range.mp hi
  show buf (wrap size (s + (n + i))) = buf (wrap size (wrap size (s + n) + i))
  rw [wrap_wrap_add h (by omega), Nat.add_assoc]

theorem window_succ (h : s < size) (hn : n + 1 ≤ size) :
    window buf size s (n + 1)
      = buf s :: window buf size (wrap size (s + 1)) n := by
  rw [Nat.add_comm n 1, window_add h (by omega)]
  show buf (wrap size (s + 0)) :: _ = _
  rw [Nat.add_zero, wrap_of_lt h]
  rfl

theorem window_succ_last (h : s < size) (hn : n + 1 ≤ size) :
    window buf size s (n + 1)
      = window buf size s n ++ [buf (wrap size (s + n))] := by
  rw [window_add h hn]
  have hlt : wrap size (s + n) < size := wrap_lt (by omega)
  show _ ++ [buf (wrap size (wrap size (s + n) + 0))] = _
  rw [Nat.add_zero, wrap_of_lt hlt]

theorem window_update (hn : n ≤ size) (hk : k < n) (a : α) :
    window (Function.update buf (wrap size (s + k)) a) size s n
      = (window buf size s n).set k a := by
  refine List.ext_getElem (by simp) (fun i hi hi' => ?_)
  rw [length_window] at hi
  rw [getElem_window, List.getElem_set, getElem_window]
  by_cases hik : k = i
  · subst hik
    rw [if_pos rfl, Function.update_self]
  · rw [if_neg hik, Function.update_of_ne]
    exact fun heq => hik (wrap_inj (by omega) (by omega) heq.symm)

theorem window_update_of_le (hk : k < size) (hnk : n ≤ k)
    (a : α) :
    window (Function.update buf (wrap size (s + k)) a) size s n
      = window buf size s n := by
  refine window_congr (fun i hi => ?_)
  rw [Function.update_of_ne]
  exact fun heq => absurd (wrap_inj (by omega) hk heq) (by omega)

end Circular
