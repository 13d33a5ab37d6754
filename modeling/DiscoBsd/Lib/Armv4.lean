import Mathlib.Data.Nat.Notation
import Mathlib.Tactic.NormNum
import Mathlib.Tactic.Positivity
import Mathlib.Tactic.Ring

/-!
# ARMv4 instruction words

What a word says, for the instructions without a coprocessor, a status register or an offset in a
register: `decode`. Fields of words that are put together from shifted values are read with
`field_or`, `field_within`, `field_below` and `field_above`.
-/

namespace DiscoBsd.Lib

namespace Armv4

/-! ## Instructions -/

inductive Shift where
  | lsl
  | lsr
  | asr
  | ror
  deriving DecidableEq

/-- The second operand of a data-processing instruction. -/
inductive Operand where
  | imm (value : BitVec 32)
  | reg (rm : Nat)
  | shifted (rm : Nat) (type : Shift) (amount : Nat)
  | shiftedBy (rm : Nat) (type : Shift) (rs : Nat)
  | rrx (rm : Nat)
  deriving DecidableEq

/-- An instruction. A comparison has no `rd` and a move no `rn`, which is 0 then. The kinds of a
halfword transfer are 1 for a halfword, 2 for a signed byte and 3 for a signed halfword. -/
inductive Instr where
  | dataProcessing (cond opcode : Nat) (s : Bool) (rd rn : Nat) (operand : Operand)
  | multiply (cond : Nat) (s : Bool) (rd rm rs : Nat)
  | branch (cond : Nat) (link : Bool) (offset : Int)
  | branchExchange (cond rm : Nat)
  | transfer (cond : Nat) (load byte pre writeback : Bool) (rn rd : Nat) (offset : Int)
  | halfword (cond kind : Nat) (load pre writeback : Bool) (rn rd : Nat) (offset : Int)
  | block (cond : Nat) (load pre up s writeback : Bool) (rn list : Nat)
  deriving DecidableEq

/-! ## Decoding -/

/-- The bits from `low` on. -/
def field (w : BitVec 32) (low width : Nat) : Nat := w.toNat / 2 ^ low % 2 ^ width

def bit (w : BitVec 32) (i : Nat) : Bool := field w i 1 == 1

/-- An offset with its direction. -/
def offset (w : BitVec 32) (value : Nat) : Int := if bit w 23 then value else -value

def shiftType : Nat → Shift
  | 0 => .lsl
  | 1 => .lsr
  | 2 => .asr
  | _ => .ror

def shiftedOperand (w : BitVec 32) : Operand :=
  let rm := field w 0 4
  let amount := field w 7 5
  match shiftType (field w 5 2) with
  | .lsl => if amount = 0 then .reg rm else .shifted rm .lsl amount
  | .lsr => .shifted rm .lsr (if amount = 0 then 32 else amount)
  | .asr => .shifted rm .asr (if amount = 0 then 32 else amount)
  | .ror => if amount = 0 then .rrx rm else .shifted rm .ror amount

def shifterOperand (w : BitVec 32) : Operand :=
  if bit w 25 then .imm ((BitVec.ofNat 32 (field w 0 8)).rotateRight (2 * field w 8 4))
  else if bit w 4 then .shiftedBy (field w 0 4) (shiftType (field w 5 2)) (field w 8 4)
  else shiftedOperand w

/-- The tests, which always set the flags: without, the word is another instruction. -/
def isTest (opcode : Nat) : Bool := decide (8 ≤ opcode) && decide (opcode ≤ 11)

def isMove (opcode : Nat) : Bool := opcode == 13 || opcode == 15

def decodeDataProcessing (w : BitVec 32) : Option Instr :=
  let cond := field w 28 4
  let opcode := field w 21 4
  if isTest opcode && !bit w 20 then
    if field w 4 24 = 0x12FFF1 then some (.branchExchange cond (field w 0 4)) else none
  else
    some (.dataProcessing cond opcode (bit w 20) (if isTest opcode then 0 else field w 12 4)
      (if isMove opcode then 0 else field w 16 4) (shifterOperand w))

def decodeMultiply (w : BitVec 32) : Option Instr :=
  if field w 21 7 = 0 then
    some (.multiply (field w 28 4) (bit w 20) (field w 16 4) (field w 0 4) (field w 8 4))
  else none

def decodeHalfword (w : BitVec 32) : Option Instr :=
  let kind := field w 5 2
  if bit w 22 && (bit w 20 || kind == 1) then
    some (.halfword (field w 28 4) kind (bit w 20) (bit w 24) (bit w 21) (field w 16 4)
      (field w 12 4) (offset w (16 * field w 8 4 + field w 0 4)))
  else none

/-- The instruction of a word. -/
def decode (w : BitVec 32) : Option Instr :=
  let cond := field w 28 4
  if cond = 15 then none
  else
    match field w 25 3 with
    | 0 =>
        if bit w 4 && bit w 7 then
          if field w 5 2 = 0 then decodeMultiply w else decodeHalfword w
        else decodeDataProcessing w
    | 1 => decodeDataProcessing w
    | 2 =>
        some (.transfer cond (bit w 20) (bit w 22) (bit w 24) (bit w 21) (field w 16 4)
          (field w 12 4) (offset w (field w 0 12)))
    | 4 =>
        some (.block cond (bit w 20) (bit w 24) (bit w 23) (bit w 22) (bit w 21) (field w 16 4)
          (field w 0 16))
    | 5 =>
        let words : Int := field w 0 24
        some (.branch cond (bit w 24) (if words < 2 ^ 23 then 4 * words else 4 * (words - 2 ^ 24)))
    | _ => none

/-! ## Fields of words that are put together -/

variable {v : Int} {s low width : Nat}

theorem field_or (a b : BitVec 32) (low width : Nat) :
    field (a ||| b) low width = field a low width ||| field b low width := by
  unfold field
  rw [BitVec.toNat_or, Nat.or_div_two_pow, Nat.or_mod_two_pow]

theorem toNat_shifted (h0 : 0 ≤ v) (h : v * 2 ^ s < 2 ^ 32) :
    (BitVec.ofInt 32 v <<< s).toNat = v.toNat * 2 ^ s := by
  obtain ⟨k, rfl⟩ := Int.eq_ofNat_of_zero_le h0
  have hlt : k * 2 ^ s < 2 ^ 32 := by exact_mod_cast h
  have hk : k < 2 ^ 32 := Nat.lt_of_le_of_lt (Nat.le_mul_of_pos_right k (by positivity)) hlt
  rw [BitVec.toNat_shiftLeft, BitVec.ofInt_natCast, BitVec.toNat_ofNat, Nat.mod_eq_of_lt hk,
    Nat.shiftLeft_eq, Int.toNat_natCast]
  exact Nat.mod_eq_of_lt hlt

theorem field_small {w : BitVec 32} (h : w.toNat < 2 ^ low) : field w low width = 0 := by
  unfold field
  rw [Nat.div_eq_of_lt h, Nat.zero_mod]

/-- A value that lies in the field. -/
theorem field_within (h0 : 0 ≤ v) (hlow : low ≤ s) (h : v * 2 ^ s < 2 ^ (low + width))
    (hword : low + width ≤ 32) :
    field (BitVec.ofInt 32 v <<< s) low width = v.toNat * 2 ^ (s - low) := by
  have hlt : v * 2 ^ s < 2 ^ 32 :=
    lt_of_lt_of_le h (pow_le_pow_right₀ (by norm_num) hword)
  unfold field
  rw [toNat_shifted h0 hlt]
  obtain ⟨d, rfl⟩ := Nat.exists_eq_add_of_le hlow
  obtain ⟨k, rfl⟩ := Int.eq_ofNat_of_zero_le h0
  have hsplit : k * 2 ^ (low + d) = k * 2 ^ d * 2 ^ low := by rw [pow_add]; ring
  have hk : k * 2 ^ (low + d) < 2 ^ (low + width) := by exact_mod_cast h
  rw [Int.toNat_natCast, Nat.add_sub_cancel_left, hsplit, Nat.mul_div_cancel _ (by positivity)]
  rw [hsplit, pow_add, Nat.mul_comm (2 ^ low)] at hk
  exact Nat.mod_eq_of_lt (Nat.lt_of_mul_lt_mul_right hk)

theorem field_below (h0 : 0 ≤ v) (h : v * 2 ^ s < 2 ^ low) (hword : low ≤ 32) :
    field (BitVec.ofInt 32 v <<< s) low width = 0 := by
  have hlt : v * 2 ^ s < 2 ^ 32 :=
    lt_of_lt_of_le h (pow_le_pow_right₀ (by norm_num) hword)
  refine field_small ?_
  rw [toNat_shifted h0 hlt]
  obtain ⟨k, rfl⟩ := Int.eq_ofNat_of_zero_le h0
  exact_mod_cast h

theorem field_above (h0 : 0 ≤ v) (h : v * 2 ^ s < 2 ^ 32) (hlow : low + width ≤ s) :
    field (BitVec.ofInt 32 v <<< s) low width = 0 := by
  unfold field
  rw [toNat_shifted h0 h]
  obtain ⟨d, rfl⟩ := Nat.exists_eq_add_of_le hlow
  rw [show v.toNat * 2 ^ (low + width + d) = v.toNat * 2 ^ d * 2 ^ width * 2 ^ low by
    rw [pow_add, pow_add]; ring, Nat.mul_div_cancel _ (by positivity), Nat.mul_mod_left]

/-! ## Rotated constants -/

theorem rotateRight_rotateLeft (value : BitVec 32) {r : Nat} (hr : r < 32) :
    (value.rotateLeft r).rotateRight r = value := by
  refine BitVec.eq_of_getLsbD_eq fun i hi => ?_
  rw [BitVec.getLsbD_rotateRight_of_lt hr]
  by_cases h : i < 32 - r
  · rw [decide_eq_true h, cond_true, BitVec.getLsbD_rotateLeft_of_le hr,
      decide_eq_false (show ¬ r + i < r by omega), cond_false,
      decide_eq_true (show r + i < 32 by omega), Bool.true_and, Nat.add_sub_cancel_left]
  · rw [decide_eq_false h, cond_false, BitVec.getLsbD_rotateLeft_of_le hr,
      decide_eq_true (show i - (32 - r) < r by omega), cond_true, decide_eq_true hi, Bool.true_and,
      show 32 - r + (i - (32 - r)) = i by omega]

end Armv4

end DiscoBsd.Lib
