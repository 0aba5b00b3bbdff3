import Mathlib.Data.List.Basic
import Mathlib.Logic.Function.Basic
import Pifus.Util.Transition

/-!
# Stores of independent blocks

What an allocator is for: blocks that have nothing to do with each other. A
store maps the name of every allocated block to its contents. Allocation adds a
block under a name that is not in use, or nothing; a free takes the named block
out; and an overwrite replaces some cells of the named block. No step changes a
block that it does not name (`BlockStore.Step.other`).

A client that fills its blocks from the front needs of this only what a block
holds so far: `Holds B k n xs` says that the block `k` has `n` cells and starts
with `xs`. It is kept with the block (`BlockStore.run_other`), and extended by an
overwrite right behind `xs`.
-/

variable {κ β : Type*}

/-- The list with the elements from position `i` on replaced by the given
ones. -/
def splice (l : List β) (i : ℕ) (xs : List β) : List β :=
  l.take i ++ xs ++ l.drop (i + xs.length)

theorem length_splice {l xs : List β} {i : ℕ} (h : i + xs.length ≤ l.length) :
    (splice l i xs).length = l.length := by
  rw [splice, List.length_append, List.length_append, List.length_take,
    List.length_drop]
  omega

/-- The elements of a splice. -/
theorem getElem?_splice {l xs : List β} {i j : ℕ} (h : i + xs.length ≤ l.length) :
    (splice l i xs)[j]?
      = if i ≤ j ∧ j < i + xs.length then xs[j - i]? else l[j]? := by
  have htake : (l.take i).length = i := by
    rw [List.length_take]
    omega
  rw [splice, List.append_assoc, List.getElem?_append, htake]
  by_cases hlo : j < i
  · rw [if_pos hlo, if_neg (by omega), List.getElem?_take_of_lt hlo]
  · rw [if_neg hlo, List.getElem?_append]
    by_cases hhi : j < i + xs.length
    · rw [if_pos (by omega), if_pos ⟨by omega, hhi⟩]
    · rw [if_neg (by omega), if_neg (by omega), List.getElem?_drop]
      congr 1
      omega

theorem prefix_splice {l pre xs : List β} (h : pre <+: l) :
    pre ++ xs <+: splice l pre.length xs := by
  rw [splice, ← List.prefix_iff_eq_take.mp h]
  exact List.prefix_append _ _

/-- A store: the contents of each allocated block. -/
abbrev BlockStore (κ β : Type*) := κ → Option (List β)

/-- What a client does to a store. -/
inductive BlockOp (κ β : Type*)
  | allocate (n : ℕ)
  | free (k : κ)
  | overwrite (k : κ) (i : ℕ) (xs : List β)

/-- The block that an operation names. -/
def BlockOp.target : BlockOp κ β → Option κ
  | .allocate _ => none
  | .free k => some k
  | .overwrite k _ _ => some k

namespace BlockStore

variable {zero : β} {B B' : BlockStore κ β} {op : BlockOp κ β} {k : κ} {n : ℕ}
  {l xs ys : List β}

/-- **The block has `n` cells and starts with `xs`.** -/
def Holds (B : BlockStore κ β) (k : κ) (n : ℕ) (xs : List β) : Prop :=
  ∃ l, B k = some l ∧ l.length = n ∧ xs <+: l

theorem Holds.length_le (h : Holds B k n xs) : xs.length ≤ n := by
  obtain ⟨l, -, hlen, hpre⟩ := h
  exact hlen ▸ hpre.length_le

theorem Holds.eq_of_length (h : Holds B k n xs) (hfull : xs.length = n) :
    B k = some xs := by
  obtain ⟨l, hl, hlen, hpre⟩ := h
  rw [hl, hpre.eq_of_length (hfull.trans hlen.symm)]

theorem Holds.mono (h : Holds B k n xs) (hB : ∀ l, B k = some l → B' k = some l) :
    Holds B' k n xs := by
  obtain ⟨l, hl, hlen, hpre⟩ := h
  exact ⟨l, hB l hl, hlen, hpre⟩

theorem Holds.of_prefix (h : Holds B k n xs) (hpre : ys <+: xs) :
    Holds B k n ys := by
  obtain ⟨l, hl, hlen, hpre'⟩ := h
  exact ⟨l, hl, hlen, hpre.trans hpre'⟩

/-! ## Steps -/

variable [DecidableEq κ]

/-- **A step of a store.** A new block is cleared, and its name is the
allocator's choice; so is whether there is room for it. -/
inductive Step (zero : β) : BlockStore κ β → BlockOp κ β → BlockStore κ β → Prop
  | fresh {B : BlockStore κ β} {n : ℕ} {k : κ} (h : B k = none) :
      Step zero B (.allocate n)
        (Function.update B k (some (List.replicate n zero)))
  | full {B : BlockStore κ β} {n : ℕ} : Step zero B (.allocate n) B
  | free {B : BlockStore κ β} {k : κ} {l : List β} (h : B k = some l) :
      Step zero B (.free k) (Function.update B k none)
  | overwrite {B : BlockStore κ β} {k : κ} {i : ℕ} {l xs : List β}
      (h : B k = some l) (hi : i + xs.length ≤ l.length) :
      Step zero B (.overwrite k i xs)
        (Function.update B k (some (splice l i xs)))

/-- **A step leaves the blocks alone that it does not name.** -/
theorem Step.other (hs : Step zero B op B') (hk : op.target ≠ some k)
    (h : B k = some l) : B' k = some l := by
  cases hs with
  | fresh hnone =>
    rw [Function.update_of_ne (fun he => ?_), h]
    rw [he, hnone] at h
    exact absurd h (by simp)
  | full => exact h
  | free _ => rw [Function.update_of_ne (fun he => hk (congrArg some he.symm)), h]
  | overwrite _ _ =>
    rw [Function.update_of_ne (fun he => hk (congrArg some he.symm)), h]

/-- **Runs leave the blocks alone that they do not name.** -/
theorem run_other {ops : List (BlockOp κ β)} (hrun : Run (Step zero) B ops B')
    (hk : ∀ op ∈ ops, op.target ≠ some k) (h : B k = some l) : B' k = some l := by
  induction hrun with
  | nil => exact h
  | snoc _ hs ih =>
    exact hs.other (hk _ (List.mem_append_right _ List.mem_cons_self))
      (ih (fun op hop => hk op (List.mem_append_left _ hop)))

/-- **An overwrite right behind what a block holds** extends it. -/
theorem Holds.extend (h : Holds B k n xs)
    (hs : Step zero B (.overwrite k xs.length ys) B') :
    Holds B' k n (xs ++ ys) := by
  obtain ⟨l, hl, hlen, hpre⟩ := h
  cases hs with
  | overwrite hl' hi =>
    obtain rfl := Option.some.inj (hl.symm.trans hl')
    exact ⟨_, Function.update_self _ _ _, (length_splice hi).trans hlen,
      prefix_splice hpre⟩

end BlockStore
