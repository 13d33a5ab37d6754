import Mathlib.Data.Nat.ModEq

/-!
# Sums with end-around carry

Adding with a carry that comes in again at the other end is addition modulo `m`, where `m` is the largest
word, except that a sum is 0 only if all of its terms are: what is left is a number from 1 to
`m`. `endAround m s` is that number for the plain sum `s`. Carries may be taken in at any time
(`endAround_add_left`, `endAround_carry`), and a sum and its complement make `m`
(`endAround_complement`).
-/

namespace DiscoBsd.Lib

variable {m s t : Nat}

/-- What end-around carries make of the sum `s` of words up to `m`. -/
def endAround (m s : Nat) : Nat := if s = 0 then 0 else (s - 1) % m + 1

/-- One addition with its carry. -/
def carryAdd (m a b : Nat) : Nat := if a + b ≤ m then a + b else a + b - m

theorem endAround_le (hm : 0 < m) (s : Nat) : endAround m s ≤ m := by
  unfold endAround
  split
  · exact Nat.zero_le m
  · exact Nat.mod_lt _ hm

theorem endAround_eq_zero : endAround m s = 0 ↔ s = 0 := by
  unfold endAround
  split <;> simp_all

theorem endAround_modEq (m s : Nat) : endAround m s ≡ s [MOD m] := by
  unfold endAround
  split
  next hs => rw [hs]
  next hs =>
    have hsucc : s - 1 + 1 = s := by omega
    have hmod : (s - 1) % m + 1 ≡ s - 1 + 1 [MOD m] := (Nat.mod_modEq (s - 1) m).add_right 1
    rwa [hsucc] at hmod

/-- There is only one such number. -/
theorem endAround_eq (ht : t ≤ m) (hzero : t = 0 ↔ s = 0) (hmod : t ≡ s [MOD m]) :
    endAround m s = t := by
  unfold endAround
  split
  next hs => exact (hzero.mpr hs).symm
  next hs =>
    have htpos : t ≠ 0 := fun h => hs (hzero.mp h)
    have hpred : s - 1 ≡ t - 1 [MOD m] := by
      refine Nat.ModEq.add_right_cancel' 1 ?_
      rw [Nat.sub_add_cancel (by omega), Nat.sub_add_cancel (by omega)]
      exact hmod.symm
    rw [hpred, Nat.mod_eq_of_lt (by omega)]
    omega

theorem endAround_of_le (hs : s ≤ m) : endAround m s = s :=
  endAround_eq hs Iff.rfl rfl

theorem endAround_add_left (hm : 0 < m) (a b : Nat) :
    endAround m (endAround m a + b) = endAround m (a + b) := by
  symm
  refine endAround_eq (endAround_le hm _) ?_ ?_
  · rw [endAround_eq_zero, Nat.add_eq_zero_iff, Nat.add_eq_zero_iff, endAround_eq_zero]
  · exact (endAround_modEq m _).trans ((endAround_modEq m a).add_right b)

theorem carryAdd_eq (ha : s ≤ m) (hb : t ≤ m) : carryAdd m s t = endAround m (s + t) := by
  symm
  unfold carryAdd
  split
  next hle => exact endAround_of_le hle
  next hgt =>
    refine endAround_eq (by omega) (by omega) ?_
    have hsub : s + t - m + m = s + t := by omega
    have hmod : s + t - m ≡ s + t - m + m [MOD m] := Nat.add_modEq_right.symm
    rwa [hsub] at hmod

/-- All carries beyond the words up to `m` are taken in at once. -/
theorem endAround_carry (hm : 0 < m) (s : Nat) :
    endAround m (s % (m + 1) + s / (m + 1)) = endAround m s := by
  have hdiv := Nat.div_add_mod s (m + 1)
  have hmod : s % (m + 1) + s / (m + 1) ≡ s [MOD m] := by
    have hsum : s % (m + 1) + s / (m + 1) + m * (s / (m + 1)) = s := by
      rw [Nat.add_mul, Nat.one_mul] at hdiv
      omega
    have hmore : s % (m + 1) + s / (m + 1) + m * (s / (m + 1)) ≡
        s % (m + 1) + s / (m + 1) [MOD m] := Nat.add_modEq_left_iff.mpr ⟨_, rfl⟩
    rw [hsum] at hmore
    exact hmore.symm
  have hzero : s % (m + 1) + s / (m + 1) = 0 ↔ s = 0 := by
    constructor
    · intro h
      obtain ⟨hrem, hquot⟩ := Nat.add_eq_zero_iff.mp h
      rw [hrem, hquot] at hdiv
      omega
    · rintro rfl
      simp
  symm
  refine endAround_eq (endAround_le hm _) (endAround_eq_zero.trans hzero) ?_
  exact (endAround_modEq m _).trans hmod

theorem endAround_complement (hm : 0 < m) (s : Nat) :
    endAround m (s + (m - endAround m s)) = m := by
  have hle := endAround_le hm s
  rw [← endAround_add_left hm, Nat.add_sub_cancel' hle]
  exact endAround_of_le (le_refl m)

theorem foldl_carryAdd (hm : 0 < m) {words : List Nat} (hwords : ∀ w ∈ words, w ≤ m)
    (hs : s ≤ m) : words.foldl (carryAdd m) s = endAround m (s + words.sum) := by
  induction words generalizing s with
  | nil => exact (endAround_of_le hs).symm
  | cons w words ih =>
      have hw := hwords w List.mem_cons_self
      rw [List.foldl_cons, carryAdd_eq hs hw, ih (fun w' h => hwords w' (List.mem_cons_of_mem w h))
        (endAround_le hm _), endAround_add_left hm, List.sum_cons, Nat.add_assoc]

end DiscoBsd.Lib
