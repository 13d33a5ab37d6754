import DiscoBsd.Clib.Routine

/-!
# Unsigned division

`__aeabi_uidivmod` shifts the denominator up until it reaches the numerator or its top bit, then walks
it back down and subtracts it where it fits. `Up` and `Down` are the invariants of the two loops.
-/

namespace DiscoBsd.Clib

open Asm Lib.Armv4

/-- The division helpers of `clib.s`. -/
def divisionSource : List Line :=
  [ .label "__aeabi_uidivmod", .instr "cmp" "r1, #0", .instr "beq" ".Ludz", .instr "mov" "r2, #0",
    .instr "mov" "r3, #1",
    .label ".Lua", .instr "cmp" "r1, r0", .instr "bhs" ".Lub", .instr "cmp" "r1, #0",
    .instr "blt" ".Lub", .instr "lsl" "r1, r1, #1", .instr "lsl" "r3, r3, #1", .instr "b" ".Lua",
    .label ".Lub", .instr "cmp" "r0, r1", .instr "subhs" "r0, r0, r1",
    .instr "orrhs" "r2, r2, r3", .instr "lsr" "r1, r1, #1", .instr "lsr" "r3, r3, #1",
    .instr "cmp" "r3, #0", .instr "bne" ".Lub", .instr "mov" "r1, r0", .instr "mov" "r0, r2",
    .instr "bx" "lr",
    .label ".Ludz", .instr "mov" "r0, #0", .instr "mov" "r1, #0", .instr "bx" "lr",
    .label "__aeabi_uidiv", .instr "b" "__aeabi_uidivmod",
    .label "__aeabi_idivmod", .instr "push" "\x7br4, lr\x7d", .instr "mov" "r4, #0",
    .instr "cmp" "r0, #0", .instr "bge" ".Lip1", .instr "rsb" "r0, r0, #0",
    .instr "eor" "r4, r4, #3",
    .label ".Lip1", .instr "cmp" "r1, #0", .instr "bge" ".Lip2", .instr "rsb" "r1, r1, #0",
    .instr "eor" "r4, r4, #1",
    .label ".Lip2", .instr "bl" "__aeabi_uidivmod", .instr "and" "r2, r4, #1",
    .instr "cmp" "r2, #0", .instr "rsbne" "r0, r0, #0", .instr "and" "r2, r4, #2",
    .instr "cmp" "r2, #0", .instr "rsbne" "r1, r1, #0", .instr "pop" "\x7br4, lr\x7d",
    .instr "bx" "lr",
    .label "__aeabi_idiv", .instr "b" "__aeabi_idivmod" ]

/-- Their instructions. -/
def division : List Instr :=
  [ .dataProcessing 14 10 true 0 1 (.imm 0), .branch 0 false 72,
    .dataProcessing 14 13 false 2 0 (.imm 0), .dataProcessing 14 13 false 3 0 (.imm 1),
    .dataProcessing 14 10 true 0 1 (.reg 0), .branch 2 false 16,
    .dataProcessing 14 10 true 0 1 (.imm 0), .branch 11 false 8,
    .dataProcessing 14 13 false 1 0 (.shifted 1 .lsl 1),
    .dataProcessing 14 13 false 3 0 (.shifted 3 .lsl 1), .branch 14 false (-32),
    .dataProcessing 14 10 true 0 0 (.reg 1), .dataProcessing 2 2 false 0 0 (.reg 1),
    .dataProcessing 2 12 false 2 2 (.reg 3), .dataProcessing 14 13 false 1 0 (.shifted 1 .lsr 1),
    .dataProcessing 14 13 false 3 0 (.shifted 3 .lsr 1), .dataProcessing 14 10 true 0 3 (.imm 0),
    .branch 1 false (-32), .dataProcessing 14 13 false 1 0 (.reg 0),
    .dataProcessing 14 13 false 0 0 (.reg 2), .branchExchange 14 14,
    .dataProcessing 14 13 false 0 0 (.imm 0), .dataProcessing 14 13 false 1 0 (.imm 0),
    .branchExchange 14 14, .branch 14 false (-104),
    .block 14 false true false false true 13 16400, .dataProcessing 14 13 false 4 0 (.imm 0),
    .dataProcessing 14 10 true 0 0 (.imm 0), .branch 10 false 4,
    .dataProcessing 14 3 false 0 0 (.imm 0), .dataProcessing 14 1 false 4 4 (.imm 3),
    .dataProcessing 14 10 true 0 1 (.imm 0), .branch 10 false 4,
    .dataProcessing 14 3 false 1 1 (.imm 0), .dataProcessing 14 1 false 4 4 (.imm 1),
    .branch 14 true (-148), .dataProcessing 14 0 false 2 4 (.imm 1),
    .dataProcessing 14 10 true 0 2 (.imm 0), .dataProcessing 1 3 false 0 0 (.imm 0),
    .dataProcessing 14 0 false 2 4 (.imm 2), .dataProcessing 14 10 true 0 2 (.imm 0),
    .dataProcessing 1 3 false 1 1 (.imm 0), .block 14 true false true false true 13 16400,
    .branchExchange 14 14, .branch 14 false (-84) ]

theorem codeOf_division : codeOf divisionSource = some division := by decide +kernel

variable {code : Code} {base : Nat} {reg₀ reg : Nat → Word} {flags : Flags} {mem : Mem}

/-! ## Shifting up -/

/-- In front of `.Lua`, with the denominator shifted up by some bits. -/
structure Up (reg₀ reg : Nat → Word) (i : Nat) : Prop where
  num : reg 0 = reg₀ 0
  den : (reg 1).toNat = (reg₀ 1).toNat * 2 ^ i
  quo : reg 2 = 0
  bit : (reg 3).toNat = 2 ^ i
  others : ∀ r, 4 ≤ r → reg r = reg₀ r

/-- In front of `.Lub`: the bits of the quotient from the next one up are known. -/
structure Down (reg₀ reg : Nat → Word) (j : Nat) : Prop where
  den : (reg 1).toNat = (reg₀ 1).toNat * 2 ^ j
  bit : (reg 3).toNat = 2 ^ j
  sum : (reg 2).toNat * (reg₀ 1).toNat + (reg 0).toNat = (reg₀ 0).toNat
  rest : (reg 0).toNat < (reg₀ 1).toNat * 2 ^ (j + 1)
  high : 2 ^ (j + 1) ∣ (reg 2).toNat
  others : ∀ r, 4 ≤ r → reg r = reg₀ r

theorem shl_toNat {v : Word} (h : v.toNat < 2 ^ 31) : (v <<< 1).toNat = v.toNat * 2 := by
  rw [BitVec.toNat_shiftLeft, Nat.shiftLeft_eq]
  omega

theorem shr_toNat (v : Word) : (v >>> 1).toNat = v.toNat / 2 := by
  rw [BitVec.toNat_ushiftRight, Nat.shiftRight_eq_div_pow]

/-- The numerator is smaller than twice what the denominator has become. -/
theorem Up.down {i : Nat} (h : Up reg₀ reg i) (hfits : (reg₀ 0).toNat < (reg₀ 1).toNat * 2 ^ (i + 1)) :
    Down reg₀ reg i := by
  refine ⟨h.den, h.bit, ?_, ?_, ?_, h.others⟩
  · rw [h.quo, h.num]
    show 0 * _ + _ = _
    omega
  · rw [h.num]
    exact hfits
  · rw [h.quo]
    exact Nat.dvd_zero _

/-- One more bit. -/
theorem Up.shift {i : Nat} (h : Up reg₀ reg i) (hsmall : (reg 1).toNat < 2 ^ 31)
    (hbit : (reg 3).toNat < 2 ^ 31) :
    Up reg₀ (Function.update (Function.update reg 1 (reg 1 <<< 1)) 3 (reg 3 <<< 1)) (i + 1) := by
  refine ⟨h.num, ?_, h.quo, ?_, fun r hr => ?_⟩
  · show (reg 1 <<< 1).toNat = _
    rw [shl_toNat hsmall, h.den, pow_succ, Nat.mul_assoc]
  · show (reg 3 <<< 1).toNat = _
    rw [shl_toNat hbit, h.bit, pow_succ]
  · rw [Function.update_of_ne (by omega), Function.update_of_ne (by omega)]
    exact h.others r hr

theorem shift_up (hload : Loaded code base division) (hd : reg₀ 1 ≠ 0) {n i : Nat}
    (hn : i + n = 32) (h : Up reg₀ reg i) :
    Reaches code (fun m => ∃ j reg flags, m = point base 11 reg flags mem ∧ Down reg₀ reg j)
      (point base 4 reg flags mem) := by
  have hpos : 0 < (reg₀ 1).toNat := by
    have hne : (reg₀ 1).toNat ≠ 0 := fun h => hd (BitVec.eq_of_toNat_eq h)
    omega
  induction n generalizing i reg flags with
  | zero =>
      have hden := h.den
      have hlt := (reg 1).isLt
      have hi : i = 32 := by omega
      subst hi
      omega
  | succ n ih =>
      have hcmp := compares_subFlags (reg 1) (reg 0)
      have hsign := compares_subFlags (reg 1) 0
      have hpow : (reg₀ 1).toNat * 2 ^ (i + 1) = (reg 1).toNat * 2 := by
        rw [h.den, pow_succ, Nat.mul_assoc]
      refine hload.next (point base 5 reg (subFlags (reg 1) (reg 0)) mem) rfl rfl ?_
      by_cases hreached : (reg 0).toNat ≤ (reg 1).toNat
      · refine hload.next (point base 11 reg _ mem) rfl
          (exec_branch (hcmp.hs.trans (decide_eq_true hreached)) rfl) (.done ⟨i, _, _, rfl, h.down ?_⟩)
        have hden := h.den
        have hnum := congrArg BitVec.toNat h.num
        have hone : 0 < (reg₀ 1).toNat * 2 ^ i := by positivity
        omega
      · refine hload.next _ rfl (exec_unmet (hcmp.hs.trans (decide_eq_false hreached))) ?_
        refine hload.next (point base 7 reg (subFlags (reg 1) 0) mem) rfl rfl ?_
        by_cases htop : (reg 1).toInt < (0 : Word).toInt
        · refine hload.next (point base 11 reg _ mem) rfl
            (exec_branch (hsign.lt.trans (decide_eq_true htop)) rfl) (.done ⟨i, _, _, rfl, h.down ?_⟩)
          have hnum := (reg₀ 0).isLt
          have hbig : 2 ^ 31 ≤ (reg 1).toNat := by
            have hzero : (0 : Word).toInt = 0 := rfl
            rw [hzero, BitVec.toInt_eq_toNat_cond] at htop
            split at htop <;> omega
          omega
        · have hsmall : (reg 1).toNat < 2 ^ 31 := by
            have hzero : (0 : Word).toInt = 0 := rfl
            rw [hzero, BitVec.toInt_eq_toNat_cond] at htop
            split at htop <;> omega
          have hbit : (reg 3).toNat < 2 ^ 31 := by
            rw [h.bit]
            have hle : 2 ^ i ≤ (reg₀ 1).toNat * 2 ^ i := Nat.le_mul_of_pos_left _ hpos
            have hden := h.den
            omega
          refine hload.next _ rfl (exec_unmet (hsign.lt.trans (decide_eq_false htop))) ?_
          refine hload.next (point base 9 (Function.update reg 1 (reg 1 <<< 1)) _ mem) rfl rfl ?_
          refine hload.next (point base 10 (Function.update (Function.update reg 1 (reg 1 <<< 1)) 3
            (reg 3 <<< 1)) _ mem) rfl rfl ?_
          refine hload.next (point base 4 _ _ mem) rfl (exec_branch rfl rfl) ?_
          exact ih (by omega) (h.shift hsmall hbit)

/-! ## Walking down -/

/-- Behind the subtraction: the rest is smaller than the denominator as it is. -/
structure Subtracted (reg₀ reg : Nat → Word) (j : Nat) : Prop where
  den : (reg 1).toNat = (reg₀ 1).toNat * 2 ^ j
  bit : (reg 3).toNat = 2 ^ j
  sum : (reg 2).toNat * (reg₀ 1).toNat + (reg 0).toNat = (reg₀ 0).toNat
  rest : (reg 0).toNat < (reg₀ 1).toNat * 2 ^ j
  high : 2 ^ j ∣ (reg 2).toNat
  others : ∀ r, 4 ≤ r → reg r = reg₀ r

theorem Down.low_bit {j : Nat} (h : Down reg₀ reg j) :
    (reg 2 ||| reg 3).toNat = (reg 2).toNat + 2 ^ j := by
  obtain ⟨b, hb⟩ := h.high
  have hlt : 2 ^ j < 2 ^ (j + 1) := Nat.pow_lt_pow_right (by omega) (by omega)
  rw [BitVec.toNat_or, h.bit, hb]
  exact (Nat.two_pow_add_eq_or_of_lt hlt b).symm

/-- The denominator fits, and the bit of the quotient is set. -/
theorem Down.fits {j : Nat} (h : Down reg₀ reg j) (hle : (reg 1).toNat ≤ (reg 0).toNat) :
    Subtracted reg₀ (Function.update (Function.update reg 0 (reg 0 - reg 1)) 2 (reg 2 ||| reg 3)) j := by
  have hsub : (reg 0 - reg 1).toNat = (reg 0).toNat - (reg 1).toNat :=
    BitVec.toNat_sub_of_le (BitVec.le_def.mpr hle)
  have hden := h.den
  have hsum := h.sum
  have hrest := h.rest
  rw [pow_succ, ← Nat.mul_assoc] at hrest
  refine ⟨h.den, h.bit, ?_, ?_, ?_, fun r hr => ?_⟩
  · show (reg 2 ||| reg 3).toNat * _ + (reg 0 - reg 1).toNat = _
    rw [h.low_bit, hsub, Nat.add_mul, Nat.mul_comm (2 ^ j)]
    omega
  · show (reg 0 - reg 1).toNat < _
    omega
  · show 2 ^ j ∣ (reg 2 ||| reg 3).toNat
    rw [h.low_bit]
    exact Nat.dvd_add (Nat.dvd_trans (pow_dvd_pow 2 (by omega)) h.high) (Nat.dvd_refl _)
  · rw [Function.update_of_ne (by omega), Function.update_of_ne (by omega)]
    exact h.others r hr

theorem Down.unfit {j : Nat} (h : Down reg₀ reg j) (hlt : ¬ (reg 1).toNat ≤ (reg 0).toNat) :
    Subtracted reg₀ reg j := by
  have hden := h.den
  exact ⟨h.den, h.bit, h.sum, by omega, Nat.dvd_trans (pow_dvd_pow 2 (by omega)) h.high, h.others⟩

theorem subtract (hload : Loaded code base division) {j : Nat} (h : Down reg₀ reg j) :
    Reaches code (fun m => ∃ reg flags, m = point base 14 reg flags mem ∧ Subtracted reg₀ reg j)
      (point base 11 reg flags mem) := by
  have hcmp := compares_subFlags (reg 0) (reg 1)
  refine hload.next (point base 12 reg (subFlags (reg 0) (reg 1)) mem) rfl rfl ?_
  by_cases hle : (reg 1).toNat ≤ (reg 0).toNat
  · have hmet := hcmp.hs.trans (decide_eq_true hle)
    refine hload.next (point base 13 (Function.update reg 0 (reg 0 - reg 1)) _ mem) rfl
      (exec_met hmet) ?_
    refine hload.next (point base 14 (Function.update (Function.update reg 0 (reg 0 - reg 1)) 2
      (reg 2 ||| reg 3)) _ mem) rfl (exec_met hmet) ?_
    exact .done ⟨_, _, rfl, h.fits hle⟩
  · have hunmet := hcmp.hs.trans (decide_eq_false hle)
    refine hload.next _ rfl (exec_unmet hunmet) ?_
    refine hload.next _ rfl (exec_unmet hunmet) ?_
    exact .done ⟨_, _, rfl, h.unfit hle⟩

/-- What division leaves behind its loops. -/
structure Divided (reg₀ reg : Nat → Word) : Prop where
  quo : reg 2 = reg₀ 0 / reg₀ 1
  rem : reg 0 = reg₀ 0 % reg₀ 1
  others : ∀ r, 4 ≤ r → reg r = reg₀ r

theorem Subtracted.divided (h : Subtracted reg₀ reg 0) : Divided reg₀ reg := by
  have hrest := h.rest
  rw [pow_zero, Nat.mul_one] at hrest
  have hsum : (reg 0).toNat + (reg₀ 1).toNat * (reg 2).toNat = (reg₀ 0).toNat := by
    rw [Nat.mul_comm, Nat.add_comm]
    exact h.sum
  have hdiv := (Nat.div_mod_unique (Nat.zero_lt_of_lt hrest)).mpr ⟨hsum, hrest⟩
  refine ⟨BitVec.eq_of_toNat_eq ?_, BitVec.eq_of_toNat_eq ?_, h.others⟩
  · rw [BitVec.toNat_udiv]
    exact hdiv.1.symm
  · rw [BitVec.toNat_umod]
    exact hdiv.2.symm

/-- The denominator goes down by a bit. -/
theorem Subtracted.down {j : Nat} (h : Subtracted reg₀ reg (j + 1)) :
    Down reg₀ (Function.update (Function.update reg 1 (reg 1 >>> 1)) 3 (reg 3 >>> 1)) j := by
  refine ⟨?_, ?_, h.sum, h.rest, h.high, fun r hr => ?_⟩
  · show (reg 1 >>> 1).toNat = _
    rw [shr_toNat, h.den, pow_succ, ← Nat.mul_assoc, Nat.mul_div_cancel _ (by decide)]
  · show (reg 3 >>> 1).toNat = _
    rw [shr_toNat, h.bit, pow_succ, Nat.mul_div_cancel _ (by decide)]
  · rw [Function.update_of_ne (by omega), Function.update_of_ne (by omega)]
    exact h.others r hr

theorem walk_down (hload : Loaded code base division) {j : Nat} (h : Down reg₀ reg j) :
    Reaches code (fun m => ∃ reg flags, m = point base 18 reg flags mem ∧ Divided reg₀ reg)
      (point base 11 reg flags mem) := by
  induction j generalizing reg flags with
  | zero =>
      refine (subtract hload h).trans ?_
      rintro _ ⟨reg, flags, rfl, hsub⟩
      have hlast : reg 3 >>> 1 = 0 := by
        refine BitVec.eq_of_toNat_eq ?_
        rw [shr_toNat, hsub.bit]
        rfl
      refine hload.next (point base 15 (Function.update reg 1 (reg 1 >>> 1)) _ mem) rfl rfl ?_
      refine hload.next (point base 16 (Function.update (Function.update reg 1 (reg 1 >>> 1)) 3
        (reg 3 >>> 1)) _ mem) rfl rfl ?_
      refine hload.next (point base 17 _ (subFlags (reg 3 >>> 1) 0) mem) rfl rfl ?_
      have hunmet := (compares_subFlags (reg 3 >>> 1) 0).ne.trans (decide_eq_false (not_not.mpr hlast))
      refine hload.next _ rfl (exec_unmet hunmet) (.done ⟨_, _, rfl, ?_⟩)
      obtain ⟨hquo, hrem, hothers⟩ := hsub.divided
      refine ⟨hquo, hrem, fun r hr => ?_⟩
      show Function.update (Function.update reg 1 _) 3 _ r = _
      rw [Function.update_of_ne (by omega), Function.update_of_ne (by omega)]
      exact hothers r hr
  | succ j ih =>
      refine (subtract hload h).trans ?_
      rintro _ ⟨reg, flags, rfl, hsub⟩
      have hmore : reg 3 >>> 1 ≠ 0 := by
        intro hzero
        have hbit := hsub.down.bit
        have hnat := congrArg BitVec.toNat hzero
        have hpow : 0 < 2 ^ j := by positivity
        exact absurd (hbit.symm.trans hnat) (by show 2 ^ j ≠ 0; omega)
      refine hload.next (point base 15 (Function.update reg 1 (reg 1 >>> 1)) _ mem) rfl rfl ?_
      refine hload.next (point base 16 (Function.update (Function.update reg 1 (reg 1 >>> 1)) 3
        (reg 3 >>> 1)) _ mem) rfl rfl ?_
      refine hload.next (point base 17 _ (subFlags (reg 3 >>> 1) 0) mem) rfl rfl ?_
      have hmet := (compares_subFlags (reg 3 >>> 1) 0).ne.trans (decide_eq_true hmore)
      refine hload.next (point base 11 _ _ mem) rfl (exec_branch hmet rfl) ?_
      exact ih hsub.down

/-! ## The routine -/

/-- `__aeabi_uidivmod` leaves the quotient and the remainder, and changes no register from `r4` on. -/
theorem uidivmod_spec (hload : Loaded code base division) (hd : reg 1 ≠ 0) :
    Reaches code (fun m => ∃ reg' flags', m = back reg' flags' mem (reg 14) ∧
        reg' 0 = reg 0 / reg 1 ∧ reg' 1 = reg 0 % reg 1 ∧ ∀ r, 4 ≤ r → reg' r = reg r)
      (point base 0 reg flags mem) := by
  have hunmet := (compares_subFlags (reg 1) 0).eq.trans (decide_eq_false hd)
  refine hload.next (point base 1 reg (subFlags (reg 1) 0) mem) rfl rfl ?_
  refine hload.next _ rfl (exec_unmet hunmet) ?_
  refine hload.next (point base 3 (Function.update reg 2 0) _ mem) rfl rfl ?_
  refine hload.next (point base 4 (Function.update (Function.update reg 2 0) 3 1) _ mem) rfl rfl ?_
  have hup : Up reg (Function.update (Function.update reg 2 0) 3 1) 0 := by
    refine ⟨rfl, (Nat.mul_one _).symm, rfl, rfl, fun r hr => ?_⟩
    rw [Function.update_of_ne (by omega), Function.update_of_ne (by omega)]
  refine (shift_up hload hd (show 0 + 32 = 32 from rfl) hup).trans ?_
  rintro _ ⟨j, reg₁, flags₁, rfl, hdown⟩
  refine (walk_down hload hdown).trans ?_
  rintro _ ⟨reg₂, flags₂, rfl, hquo, hrem, hothers⟩
  refine hload.next (point base 19 (Function.update reg₂ 1 (reg₂ 0)) _ mem) rfl rfl ?_
  refine hload.next (point base 20 (Function.update (Function.update reg₂ 1 (reg₂ 0)) 0 (reg₂ 2)) _ mem)
    rfl rfl ?_
  refine hload.next (back (Function.update (Function.update reg₂ 1 (reg₂ 0)) 0 (reg₂ 2)) flags₂ mem
    (reg₂ 14)) rfl rfl (.done ?_)
  refine ⟨Function.update (Function.update reg₂ 1 (reg₂ 0)) 0 (reg₂ 2), flags₂, ?_, hquo, hrem,
    fun r hr => ?_⟩
  · rw [hothers 14 (by decide)]
  · rw [Function.update_of_ne (by omega), Function.update_of_ne (by omega)]
    exact hothers r hr

end DiscoBsd.Clib
