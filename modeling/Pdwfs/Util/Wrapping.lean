import Mathlib

/-!
# Arithmetic that wraps around

The signed integers of 64 bits, as the integers of their range.  The result of an
operation is reduced into the range.

* `InRange` — the range.
* `wrap` — the reduction.  It leaves the numbers of the range as they are, and it
  may be done once at the end of a sum.

The integers themselves are used and not a type of their own, since most of what is
computed stays in the range and is then plain arithmetic (`wrap_eq_self_iff`).  What
leaves it does so once, at the top: `wrap_of_le` and `nonneg_wrap_iff` are about
such a number, which comes out negative.
-/

namespace Wrapping

/-- A signed integer of 64 bits. -/
def InRange (n : ℤ) : Prop := -2 ^ 63 ≤ n ∧ n < 2 ^ 63

instance (n : ℤ) : Decidable (InRange n) :=
  inferInstanceAs (Decidable (-2 ^ 63 ≤ n ∧ n < 2 ^ 63))

/-- The integer of the range that is congruent to `n`. -/
def wrap (n : ℤ) : ℤ := (n + 2 ^ 63) % 2 ^ 64 - 2 ^ 63

/-- The result of an operation is in the range. -/
theorem inRange_wrap (n : ℤ) : InRange (wrap n) := by
  unfold InRange wrap
  omega

/-- The numbers of the range, and no others, are left as they are. -/
theorem wrap_eq_self_iff {n : ℤ} : wrap n = n ↔ InRange n := by
  unfold InRange wrap
  omega

/-- A result that fits is the exact one. -/
theorem wrap_of_nonneg {n : ℤ} (nonneg : 0 ≤ n) (small : n < 2 ^ 63) : wrap n = n :=
  wrap_eq_self_iff.mpr ⟨by omega, small⟩

/-- Behind the largest number the smallest one follows. -/
theorem wrap_of_le {n : ℤ} (beyond : 2 ^ 63 ≤ n) (once : n < 2 ^ 64) : wrap n = n - 2 ^ 64 := by
  unfold wrap
  omega

/-- A sum may be reduced in between. -/
theorem wrap_wrap_add (m n : ℤ) : wrap (wrap m + n) = wrap (m + n) := by
  unfold wrap
  omega

theorem wrap_add_wrap (m n : ℤ) : wrap (m + wrap n) = wrap (m + n) := by
  rw [add_comm, wrap_wrap_add, add_comm]

/-- A sum of two numbers that are not negative is negative when it has left the range. -/
theorem nonneg_wrap_iff {n : ℤ} (nonneg : 0 ≤ n) (once : n < 2 ^ 64) :
    0 ≤ wrap n ↔ n < 2 ^ 63 := by
  unfold wrap
  omega

end Wrapping
