import Mathlib.Algebra.Order.Ring.Int

/-!
# Integers of 32 bits

`int32` is the value that an `int` or `long` of 32 bits keeps of an integer. What is in range stays as it
is, and a sum may be cut down at any of its terms. The division of C is that of Lean's `Int.tdiv`.
-/

namespace DiscoBsd.Lib

/-- An `int` of 32 bits. -/
def int32 (x : Int) : Int := x.bmod (2 ^ 32)

theorem int32_eq {x : Int} (hlo : -2 ^ 31 ≤ x) (hhi : x < 2 ^ 31) : int32 x = x := by
  unfold int32
  exact Int.bmod_eq_of_le (by omega) (by omega)

theorem le_int32 (x : Int) : -2 ^ 31 ≤ int32 x := by
  have hle := Int.le_bmod (x := x) (m := 2 ^ 32) (by decide)
  unfold int32
  omega

theorem int32_lt (x : Int) : int32 x < 2 ^ 31 := by
  have hlt := Int.bmod_lt (x := x) (m := 2 ^ 32) (by decide)
  unfold int32
  omega

theorem int32_add (x y : Int) : int32 (int32 x + y) = int32 (x + y) := by
  unfold int32
  exact Int.bmod_add_bmod

theorem int32_sub (x y : Int) : int32 (int32 x - y) = int32 (x - y) := by
  unfold int32
  exact Int.bmod_sub_bmod

theorem int32_int32 (x : Int) : int32 (int32 x) = int32 x := int32_eq (le_int32 x) (int32_lt x)

theorem int32_add_mul (x k : Int) : int32 (x + 2 ^ 32 * k) = int32 x := by
  unfold int32
  exact Int.add_mul_bmod_self_left x (2 ^ 32) k

theorem dvd_int32_sub (x : Int) : (2 ^ 32 : Int) ∣ int32 x - x := by
  unfold int32
  have hdvd := Int.dvd_bmod_sub_self (x := x) (m := 2 ^ 32)
  simpa using hdvd

theorem tdiv_of_neg {x m : Int} (h : x < 0) : x.tdiv m = -(-x / m) := by
  rw [← Int.tdiv_eq_ediv_of_nonneg (by omega : 0 ≤ -x), Int.neg_tdiv, neg_neg]

theorem le_tdiv_iff {c m x : Int} (hm : 0 < m) (hc : 0 < c) : c ≤ x.tdiv m ↔ c * m ≤ x := by
  rcases le_or_gt 0 x with hpos | hneg
  · rw [Int.tdiv_eq_ediv_of_nonneg hpos, Int.le_ediv_iff_mul_le hm]
  · have hquot : 0 ≤ -x / m := Int.ediv_nonneg (by omega) (by omega)
    have hprod : 0 < c * m := mul_pos hc hm
    rw [tdiv_of_neg hneg]
    omega

end DiscoBsd.Lib
