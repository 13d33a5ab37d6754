import DiscoBsd.Smlrc.Output

/-!
# Constants in the code generator

The functions of `cgarm.c` that print an instruction with a constant in it. A constant that has no
encoding in the instruction goes through the scratch register, which `GenMovImm` loads with a move,
with the move of its complement, or from a literal pool.
-/

namespace DiscoBsd.Smlrc

open Asm

/-- The scratch register. -/
def ArmIP : Nat := 12

/-- `ArmImm8r`: is a constant an 8-bit value rotated right by an even amount? -/
def armImm8r (v : Word) : Bool :=
  (List.range 16).any fun i =>
    let r := if i = 0 then v else v <<< (2 * i) ||| v >>> (32 - 2 * i)
    r &&& 0xFFFFFF00 == 0

/-- The compiler and the assembler agree on the constants that have an encoding. -/
theorem armImm8r_eq (v : Word) : armImm8r v = (encImm8r v).isSome := by
  have hrot : ∀ i < 16, v.rotateLeft (2 * i) =
      if i = 0 then v else v <<< (2 * i) ||| v >>> (32 - 2 * i) := by
    intro i hi
    rw [BitVec.rotateLeft_def, Nat.mod_eq_of_lt (by omega)]
    split
    · next hzero =>
        subst hzero
        show v <<< 0 ||| v >>> 32 = v
        rw [BitVec.shiftLeft_zero, BitVec.ushiftRight_eq_zero (Nat.le_refl 32), BitVec.or_zero]
    · rfl
  rw [Bool.eq_iff_iff, encImm8r, List.findSome?_isSome_iff, armImm8r, List.any_eq_true]
  refine exists_congr fun i => and_congr_right fun hi => ?_
  dsimp only
  rw [hrot i (List.mem_range.mp hi), beq_iff_eq]
  split <;> simp_all

/-- A line of an instruction. -/
def printed (mnem ops : Text) : Text := '\t' :: mnem ++ '\t' :: ops ++ ['\n']

def comma : Text := ", ".toList

def hash (v : Word) : Text := '#' :: percentD v

/-- `GenMovImm`. -/
def genMovImm (rd : Nat) (imm : Word) : List Text :=
  if armImm8r imm then [printed "mov".toList (prn rd ++ comma ++ hash imm)]
  else if armImm8r (~~~imm) then [printed "mvn".toList (prn rd ++ comma ++ hash (~~~imm))]
  else [printed "ldr".toList (prn rd ++ ", =0x".toList ++ percent08X imm)]

/-- `GenMov`. -/
def genMov (rd rs : Nat) : List Text :=
  if rd ≠ rs then [printed "mov".toList (prn rd ++ comma ++ prn rs)] else []

/-- An instruction with two registers and a constant. -/
def threeImm (mnem : Text) (rd rn : Nat) (imm : Word) : Text :=
  printed mnem (prn rd ++ comma ++ prn rn ++ comma ++ hash imm)

def threeReg (mnem : Text) (rd rn rm : Nat) : Text :=
  printed mnem (prn rd ++ comma ++ prn rn ++ comma ++ prn rm)

/-- `GenAddConst`. -/
def genAddConst (rd rn : Nat) (imm : Word) : List Text :=
  if imm = 0 then genMov rd rn
  else if armImm8r imm then [threeImm "add".toList rd rn imm]
  else if armImm8r (-imm) then [threeImm "sub".toList rd rn (-imm)]
  else genMovImm ArmIP imm ++ [threeReg "add".toList rd rn ArmIP]

/-- The tokens of the binary operators that have an instruction. -/
inductive Token where
  | plus
  | postAdd
  | assignAdd
  | minus
  | postSub
  | assignSub
  | and
  | assignAnd
  | xor
  | assignXor
  | or
  | assignOr
  | lShift
  | assignLSh
  | rShift
  | assignRSh
  | uRShift
  | assignURSh
  deriving DecidableEq

/-- `ArmMnem`. -/
def armMnem : Token → Text
  | .plus | .postAdd | .assignAdd => "add".toList
  | .minus | .postSub | .assignSub => "sub".toList
  | .and | .assignAnd => "and".toList
  | .xor | .assignXor => "eor".toList
  | .or | .assignOr => "orr".toList
  | .lShift | .assignLSh => "lsl".toList
  | .rShift | .assignRSh => "asr".toList
  | .uRShift | .assignURSh => "lsr".toList

/-- `ArmIsShift`. -/
def armIsShift : Token → Bool
  | .lShift | .assignLSh | .rShift | .assignRSh | .uRShift | .assignURSh => true
  | _ => false

/-- `GenBinReg`. -/
def genBinReg (tok : Token) (rd rn rm : Nat) : List Text := [threeReg (armMnem tok) rd rn rm]

/-- `GenBinConst`. -/
def genBinConst (tok : Token) (rd rn : Nat) (imm : Word) : List Text :=
  if armIsShift tok then [threeImm (armMnem tok) rd rn (imm &&& 31)]
  else if armImm8r imm then [threeImm (armMnem tok) rd rn imm]
  else if (tok = .plus ∨ tok = .assignAdd) ∧ armImm8r (-imm) then
    [threeImm "sub".toList rd rn (-imm)]
  else if (tok = .minus ∨ tok = .assignSub) ∧ armImm8r (-imm) then
    [threeImm "add".toList rd rn (-imm)]
  else if (tok = .and ∨ tok = .assignAnd) ∧ armImm8r (~~~imm) then
    [threeImm "bic".toList rd rn (~~~imm)]
  else genMovImm ArmIP imm ++ genBinReg tok rd rn ArmIP

/-- `GenCmpImm`. -/
def genCmpImm (reg : Nat) (imm : Word) : List Text :=
  if armImm8r imm then [printed "cmp".toList (prn reg ++ comma ++ hash imm)]
  else if armImm8r (-imm) then [printed "cmn".toList (prn reg ++ comma ++ hash (-imm))]
  else genMovImm ArmIP imm ++ [printed "cmp".toList (prn reg ++ comma ++ prn ArmIP)]

end DiscoBsd.Smlrc
