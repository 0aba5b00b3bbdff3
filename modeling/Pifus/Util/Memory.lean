import Mathlib.Data.Nat.ModEq
import Mathlib.Tactic.Ring

/-!
# Byte-addressed memory

A memory maps every address to a byte. Words are stored little-endian, and
the three ways a program changes memory – a word store, `memset`, `memcpy` –
are functions of the address rather than loops over it, so what an update
leaves alone is read off its definition. Every frame statement below is an
instance of one notion: two memories *agree* on an interval of addresses.
-/

/-- A memory: the byte at every address. -/
abbrev Memory := ℕ → UInt8

namespace Memory

/-- The little-endian word of `n` bytes at an address. -/
def read (m : Memory) : ℕ → ℕ → ℕ
  | _, 0 => 0
  | a, n + 1 => (m a).toNat + 256 * read m (a + 1) n

/-- Store the `n` low bytes of `v` at an address, little-endian. -/
def write (m : Memory) (a n v : ℕ) : Memory :=
  fun x => if a ≤ x ∧ x < a + n then UInt8.ofNat (v / 256 ^ (x - a)) else m x

/-- `memset`: store the byte `b` at `n` consecutive addresses. -/
def fill (m : Memory) (a n : ℕ) (b : UInt8) : Memory :=
  fun x => if a ≤ x ∧ x < a + n then b else m x

/-- `memcpy`: store a list of bytes from an address on. -/
def copy (m : Memory) (a : ℕ) (bs : List UInt8) : Memory :=
  fun x => if a ≤ x ∧ x < a + bs.length then bs.getD (x - a) 0 else m x

/-- The `n` bytes from an address on. -/
def bytes (m : Memory) (a n : ℕ) : List UInt8 :=
  (List.range n).map (fun i => m (a + i))

/-- **Two memories agree on the interval `[lo, hi)`.** -/
def Agree (m m' : Memory) (lo hi : ℕ) : Prop :=
  ∀ x, lo ≤ x → x < hi → m x = m' x

/-- Every byte of the interval `[lo, hi)` is zero. -/
def Zero (m : Memory) (lo hi : ℕ) : Prop :=
  ∀ x, lo ≤ x → x < hi → m x = 0

/-! ## Agreement -/

theorem Agree.refl (m : Memory) (lo hi : ℕ) : Agree m m lo hi :=
  fun _ _ _ => rfl

theorem Agree.symm {m m' : Memory} {lo hi : ℕ} (h : Agree m m' lo hi) :
    Agree m' m lo hi :=
  fun x h₁ h₂ => (h x h₁ h₂).symm

theorem Agree.trans {m m' m'' : Memory} {lo hi : ℕ} (h : Agree m m' lo hi)
    (h' : Agree m' m'' lo hi) : Agree m m'' lo hi :=
  fun x h₁ h₂ => (h x h₁ h₂).trans (h' x h₁ h₂)

theorem Agree.mono {m m' : Memory} {lo hi lo' hi' : ℕ} (h : Agree m m' lo hi)
    (hlo : lo ≤ lo') (hhi : hi' ≤ hi) : Agree m m' lo' hi' :=
  fun x h₁ h₂ => h x (by omega) (by omega)

theorem Zero.mono {m : Memory} {lo hi lo' hi' : ℕ} (h : Zero m lo hi)
    (hlo : lo ≤ lo') (hhi : hi' ≤ hi) : Zero m lo' hi' :=
  fun x h₁ h₂ => h x (by omega) (by omega)

theorem Zero.congr {m m' : Memory} {lo hi : ℕ} (h : Zero m lo hi)
    (ha : Agree m m' lo hi) : Zero m' lo hi :=
  fun x h₁ h₂ => (ha x h₁ h₂).symm.trans (h x h₁ h₂)

theorem Zero.append {m : Memory} {lo mid hi : ℕ} (h : Zero m lo mid)
    (h' : Zero m mid hi) : Zero m lo hi := by
  intro x h₁ h₂
  by_cases hx : x < mid
  · exact h x h₁ hx
  · exact h' x (by omega) h₂

theorem agree_write {m : Memory} {a n v lo hi : ℕ}
    (h : hi ≤ a ∨ a + n ≤ lo) : Agree m (m.write a n v) lo hi := by
  intro x h₁ h₂
  rw [write, if_neg (by omega)]

theorem agree_fill {m : Memory} {a n lo hi : ℕ} {b : UInt8}
    (h : hi ≤ a ∨ a + n ≤ lo) : Agree m (m.fill a n b) lo hi := by
  intro x h₁ h₂
  rw [fill, if_neg (by omega)]

theorem agree_copy {m : Memory} {a lo hi : ℕ} {bs : List UInt8}
    (h : hi ≤ a ∨ a + bs.length ≤ lo) : Agree m (m.copy a bs) lo hi := by
  intro x h₁ h₂
  rw [copy, if_neg (by omega)]

theorem zero_fill (m : Memory) (a n : ℕ) : Zero (m.fill a n 0) a (a + n) := by
  intro x h₁ h₂
  rw [fill, if_pos ⟨h₁, h₂⟩]

theorem copy_apply {m : Memory} {a i : ℕ} {bs : List UInt8}
    (h : i < bs.length) : m.copy a bs (a + i) = bs[i] := by
  rw [copy, if_pos (by omega), Nat.add_sub_cancel_left,
    List.getD_eq_getElem?_getD, List.getElem?_eq_getElem h, Option.getD_some]

theorem copy_apply_of_not_mem {m : Memory} {a x : ℕ} {bs : List UInt8}
    (h : x < a ∨ a + bs.length ≤ x) : m.copy a bs x = m x := by
  rw [copy, if_neg (by omega)]

/-! ## Words -/

theorem read_congr {m m' : Memory} {a n : ℕ} (h : Agree m m' a (a + n)) :
    m.read a n = m'.read a n := by
  induction n generalizing a with
  | zero => rfl
  | succ n ih =>
    rw [read, read, h a (by omega) (by omega),
      ih (h.mono (by omega) (by omega))]

theorem read_of_zero {m : Memory} {a n : ℕ} (h : Zero m a (a + n)) :
    m.read a n = 0 := by
  induction n generalizing a with
  | zero => rfl
  | succ n ih =>
    rw [read, h a (by omega) (by omega), ih (h.mono (by omega) (by omega))]
    rfl

/-- Bytes that are the base-256 digits of `v` read back as `v`. -/
theorem read_of_digits {m : Memory} {a n v : ℕ}
    (h : ∀ i, i < n → m (a + i) = UInt8.ofNat (v / 256 ^ i)) :
    m.read a n = v % 256 ^ n := by
  induction n generalizing a v with
  | zero => simp [read, Nat.mod_one]
  | succ n ih =>
    have hhead : (m a).toNat = v % 256 := by
      have h₀ := h 0 (by omega)
      rw [Nat.add_zero, pow_zero, Nat.div_one] at h₀
      rw [h₀, UInt8.toNat_ofNat']
    have htail : m.read (a + 1) n = v / 256 % 256 ^ n := by
      refine ih (fun i hi => ?_)
      rw [show a + 1 + i = a + (i + 1) from by omega, h (i + 1) (by omega),
        Nat.div_div_eq_div_mul, pow_succ, mul_comm]
    rw [read, hhead, htail, pow_succ, mul_comm (256 ^ n) 256, Nat.mod_mul]

/-- **A stored word reads back.** -/
theorem read_write_self {m : Memory} {a n v : ℕ} (hv : v < 256 ^ n) :
    (m.write a n v).read a n = v := by
  rw [read_of_digits (v := v), Nat.mod_eq_of_lt hv]
  intro i hi
  rw [write, if_pos (by omega), Nat.add_sub_cancel_left]

end Memory
