import Mathlib

/-!
# Results in a 32-bit `int`

* `i32` — a result as an `int` holds it.
* `i32_of_nat`, `i32_sub` — what fits is kept.
* `i32_i32` — storing it again changes nothing.
-/

set_option autoImplicit false

namespace Word

/-- Reduction of a result to the range of a 32-bit `int`. -/
def i32 (n : Int) : Int := Int.bmod n 4294967296

theorem i32_of_nat {n : Nat} (h : n ≤ 2147483647) : i32 n = n := by
  unfold i32
  rw [Int.bmod_def]
  omega

/-- The difference of two numbers that fit. -/
theorem i32_sub {i j : Nat} (hi : i < 2147483648) (hj : j < 2147483648) :
    i32 ((i : Int) - j) = (i : Int) - j :=
  Int.bmod_eq_of_le (by omega) (by omega)

theorem i32_i32 (n : Int) : i32 (i32 n) = i32 n := Int.bmod_bmod

end Word
