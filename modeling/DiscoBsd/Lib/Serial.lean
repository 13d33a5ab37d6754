import Mathlib.Algebra.Group.Nat.Defs
import Mathlib.Data.Int.Order.Basic

/-!
# Serial number arithmetic

Sequence numbers are 32-bit and wrap around. One comes before another when their difference is
negative as a signed number, so that the comparison is that of the distances travelled as long
as these are less than half the number space apart.
-/

namespace DiscoBsd.Lib

/-- `a` comes before `b`. -/
def serialLt (a b : BitVec 32) : Bool := decide ((a - b).toInt < 0)

/-- `a` comes before `b` or is `b`. -/
def serialLe (a b : BitVec 32) : Bool := decide ((a - b).toInt ≤ 0)

/-- The sequence number at a distance from another. -/
def serialAdd (base : BitVec 32) (n : Nat) : BitVec 32 := base + BitVec.ofNat 32 n

theorem serialAdd_zero (base : BitVec 32) : serialAdd base 0 = base := by
  unfold serialAdd
  bv_omega

theorem serialAdd_add (base : BitVec 32) (m n : Nat) :
    serialAdd (serialAdd base m) n = serialAdd base (m + n) := by
  unfold serialAdd
  bv_omega

theorem serialAdd_inj {base : BitVec 32} {m n : Nat} (hm : m < n + 2 ^ 32) (hn : n < m + 2 ^ 32)
    (heq : serialAdd base m = serialAdd base n) : m = n := by
  unfold serialAdd at heq
  bv_omega

theorem serialAdd_sub_toInt {base : BitVec 32} {m n : Nat} (hm : m < n + 2 ^ 31)
    (hn : n ≤ m + 2 ^ 31) :
    (serialAdd base m - serialAdd base n).toInt = (m : Int) - n := by
  rw [BitVec.toInt_eq_toNat_cond]
  unfold serialAdd
  split <;> bv_omega

theorem serialLt_serialAdd {base : BitVec 32} {m n : Nat} (hm : m < n + 2 ^ 31)
    (hn : n ≤ m + 2 ^ 31) :
    serialLt (serialAdd base m) (serialAdd base n) = decide (m < n) := by
  unfold serialLt
  rw [serialAdd_sub_toInt hm hn]
  congr 1
  simp only [eq_iff_iff]
  omega

theorem exists_serialAdd (base x : BitVec 32) : ∃ n, n < 2 ^ 32 ∧ x = serialAdd base n := by
  refine ⟨(x - base).toNat, (x - base).isLt, ?_⟩
  unfold serialAdd
  bv_omega

/-- What comes after `base` and not after a number a short way from it lies between the two. -/
theorem serial_between {base x : BitVec 32} {n : Nat} (hn : n < 2 ^ 31)
    (hafter : serialLt base x = true) (hbefore : serialLt (serialAdd base n) x = false) :
    ∃ k, 0 < k ∧ k ≤ n ∧ x = serialAdd base k := by
  obtain ⟨k, hk, rfl⟩ := exists_serialAdd base x
  refine ⟨k, ?_, ?_, rfl⟩
  · by_contra hzero
    have : k = 0 := by omega
    subst this
    rw [serialAdd_zero] at hafter
    simp [serialLt] at hafter
  · by_contra hlt
    rw [serialLt, decide_eq_false_iff_not, BitVec.toInt_eq_toNat_cond] at hbefore
    rw [serialLt, decide_eq_true_eq, BitVec.toInt_eq_toNat_cond] at hafter
    unfold serialAdd at hbefore hafter
    split at hbefore <;> split at hafter <;> bv_omega

end DiscoBsd.Lib
