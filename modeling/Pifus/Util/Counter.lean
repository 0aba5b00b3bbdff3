import Mathlib.Data.Nat.Notation

/-!
# Wrapping counters

A counter of 32 bits that one party increments, and a second one that follows
it. What the follower can tell is their difference modulo 2^32: it grows by
one with each increment of the counter, shrinks by one with each increment of
the follower, and never exceeds the true distance.
-/

namespace Counter

variable {c f : UInt32} {k : ℕ}

/-- An increment of the counter. -/
theorem sub_ahead (h : c - f = UInt32.ofNat k) :
    c + 1 - f = UInt32.ofNat (k + 1) := by
  rw [UInt32.ofNat_add, ← h]
  grind

/-- An increment of the follower. -/
theorem sub_behind (h : c - f = UInt32.ofNat (k + 1)) :
    c - (f + 1) = UInt32.ofNat k := by
  rw [UInt32.ofNat_add] at h
  grind

theorem toNat_sub_le (h : c - f = UInt32.ofNat k) : (c - f).toNat ≤ k := by
  rw [h, UInt32.toNat_ofNat']
  exact Nat.mod_le _ _

end Counter
