import DiscoBsd.Lib.Armv4
import Mathlib.Logic.Function.Basic
import Mathlib.Logic.Relation

/-!
# An ARMv4 machine

What the instructions of `Armv4` do to registers, flags and memory. An instruction has no effect
(`none`) where the architecture leaves it open, where it is not described here, which are transfers
of halfwords, flags set by other instructions than comparisons and loads of the program counter, and
where a word is accessed at an address that is not aligned. The code is apart from the memory.
-/

namespace DiscoBsd.Lib

namespace Armv4

abbrev Mem := BitVec 32 → BitVec 8

/-! ## Memory -/

/-- The word at an address, its low byte first. -/
def word (mem : Mem) (a : BitVec 32) : BitVec 32 :=
  mem (a + 3) ++ mem (a + 2) ++ mem (a + 1) ++ mem a

def putByte (mem : Mem) (a : BitVec 32) (b : BitVec 8) : Mem := Function.update mem a b

/-- The memory with a word at an address. -/
def putWord (mem : Mem) (a v : BitVec 32) : Mem := fun x =>
  if (x - a).toNat < 4 then v.extractLsb' (8 * (x - a).toNat) 8 else mem x

def aligned (a : BitVec 32) : Bool := a.toNat % 4 == 0

/-- The memory with words from an address upwards. -/
def putWords (mem : Mem) (a : BitVec 32) : List (BitVec 32) → Mem
  | [] => mem
  | v :: vs => putWords (putWord mem a v) (a + 4) vs

/-! ## The machine -/

structure Flags where
  n : Bool
  z : Bool
  c : Bool
  v : Bool
  deriving DecidableEq

/-- The registers up to 14, the flags, the memory, the address of the next instruction and the kind
of code that is found there. -/
structure Machine where
  reg : Nat → BitVec 32
  flags : Flags
  mem : Mem
  pc : Nat
  thumb : Bool

namespace Machine

/-- The program counter is ahead of the instruction that reads it. -/
def read (m : Machine) (r : Nat) : BitVec 32 :=
  if r = 15 then BitVec.ofNat 32 (m.pc + 8) else m.reg r

def next (m : Machine) : Machine := { m with pc := m.pc + 4 }

def set (m : Machine) (r : Nat) (v : BitVec 32) : Machine :=
  { m with reg := Function.update m.reg r v }

def compared (m : Machine) (f : Flags) : Machine := { m with flags := f }

def stored (m : Machine) (mem : Mem) : Machine := { m with mem := mem }

def jump (m : Machine) (target : Nat) : Machine := { m with pc := target }

/-- A jump to an address whose low bit says what code is there. -/
def exchange (m : Machine) (target : BitVec 32) : Machine :=
  { m with pc := (target &&& ~~~1).toNat, thumb := target.getLsbD 0 }

section Fields

variable (m : Machine) (r k : Nat) (v : BitVec 32) (f : Flags) (mem : Mem)

@[simp] theorem set_reg : (m.set r v).reg k = if k = r then v else m.reg k :=
  Function.update_apply m.reg r v k

@[simp] theorem set_flags : (m.set r v).flags = m.flags := rfl

@[simp] theorem set_mem : (m.set r v).mem = m.mem := rfl

@[simp] theorem set_pc : (m.set r v).pc = m.pc := rfl

@[simp] theorem set_thumb : (m.set r v).thumb = m.thumb := rfl

@[simp] theorem next_reg : m.next.reg = m.reg := rfl

@[simp] theorem next_flags : m.next.flags = m.flags := rfl

@[simp] theorem next_mem : m.next.mem = m.mem := rfl

@[simp] theorem next_pc : m.next.pc = m.pc + 4 := rfl

@[simp] theorem next_thumb : m.next.thumb = m.thumb := rfl

@[simp] theorem compared_reg : (m.compared f).reg = m.reg := rfl

@[simp] theorem compared_flags : (m.compared f).flags = f := rfl

@[simp] theorem compared_mem : (m.compared f).mem = m.mem := rfl

@[simp] theorem compared_pc : (m.compared f).pc = m.pc := rfl

@[simp] theorem compared_thumb : (m.compared f).thumb = m.thumb := rfl

@[simp] theorem stored_reg : (m.stored mem).reg = m.reg := rfl

@[simp] theorem stored_flags : (m.stored mem).flags = m.flags := rfl

@[simp] theorem stored_mem : (m.stored mem).mem = mem := rfl

@[simp] theorem stored_pc : (m.stored mem).pc = m.pc := rfl

@[simp] theorem stored_thumb : (m.stored mem).thumb = m.thumb := rfl

end Fields

theorem read_of_lt {m : Machine} {r : Nat} (hr : r < 15) : m.read r = m.reg r := by
  have hne : r ≠ 15 := by omega
  exact if_neg hne

end Machine

/-! ## Operands and results -/

def shift (type : Shift) (v : BitVec 32) (amount : Nat) : BitVec 32 :=
  match type with
  | .lsl => v <<< amount
  | .lsr => v >>> amount
  | .asr => v.sshiftRight amount
  | .ror => v.rotateRight amount

def Operand.value (m : Machine) : Operand → BitVec 32
  | .imm v => v
  | .reg rm => m.read rm
  | .shifted rm type amount => shift type (m.read rm) amount
  | .shiftedBy rm type rs => shift type (m.read rm) ((m.read rs).toNat % 256)
  | .rrx rm => (m.read rm >>> 1) ||| (BitVec.ofBool m.flags.c).setWidth 32 <<< 31

/-- The result of a data-processing instruction that is no comparison. -/
def result (opcode : Nat) (a b : BitVec 32) (carry : Bool) : Option (BitVec 32) :=
  match opcode with
  | 0 => some (a &&& b)
  | 1 => some (a ^^^ b)
  | 2 => some (a - b)
  | 3 => some (b - a)
  | 4 => some (a + b)
  | 5 => some (a + b + (BitVec.ofBool carry).setWidth 32)
  | 6 => some (a - b - (BitVec.ofBool !carry).setWidth 32)
  | 7 => some (b - a - (BitVec.ofBool !carry).setWidth 32)
  | 12 => some (a ||| b)
  | 13 => some b
  | 14 => some (a &&& ~~~b)
  | 15 => some (~~~b)
  | _ => none

/-- The flags of a difference, where the carry is set when nothing is borrowed. -/
def subFlags (a b : BitVec 32) : Flags :=
  ⟨(a - b).msb, a == b, decide (b.toNat ≤ a.toNat), BitVec.ssubOverflow a b⟩

def addFlags (a b : BitVec 32) : Flags :=
  ⟨(a + b).msb, a + b == 0, BitVec.uaddOverflow a b, BitVec.saddOverflow a b⟩

/-- The flags of a comparison. -/
def comparison (opcode : Nat) (a b : BitVec 32) : Option Flags :=
  match opcode with
  | 10 => some (subFlags a b)
  | 11 => some (addFlags a b)
  | _ => none

/-- Is a condition met? -/
def Flags.holds (f : Flags) (cond : Nat) : Bool :=
  match cond with
  | 0 => f.z
  | 1 => !f.z
  | 2 => f.c
  | 3 => !f.c
  | 4 => f.n
  | 5 => !f.n
  | 6 => f.v
  | 7 => !f.v
  | 8 => f.c && !f.z
  | 9 => !f.c || f.z
  | 10 => f.n == f.v
  | 11 => f.n != f.v
  | 12 => !f.z && f.n == f.v
  | 13 => f.z || f.n != f.v
  | _ => true

def Instr.cond : Instr → Nat
  | .dataProcessing c .. => c
  | .multiply c .. => c
  | .branch c .. => c
  | .branchExchange c .. => c
  | .transfer c .. => c
  | .halfword c .. => c
  | .block c .. => c

/-! ## Comparisons -/

/-- The conditions after a comparison say how the operands compare. -/
structure Compares (f : Flags) (a b : BitVec 32) : Prop where
  eq : f.holds 0 = decide (a = b)
  ne : f.holds 1 = decide (a ≠ b)
  hs : f.holds 2 = decide (b.toNat ≤ a.toNat)
  lo : f.holds 3 = decide (a.toNat < b.toNat)
  hi : f.holds 8 = decide (b.toNat < a.toNat)
  ls : f.holds 9 = decide (a.toNat ≤ b.toNat)
  ge : f.holds 10 = decide (b.toInt ≤ a.toInt)
  lt : f.holds 11 = decide (a.toInt < b.toInt)
  gt : f.holds 12 = decide (b.toInt < a.toInt)
  le : f.holds 13 = decide (a.toInt ≤ b.toInt)

theorem bne_decide (p q : Prop) [Decidable p] [Decidable q] :
    (decide p != decide q) = decide ¬ (p ↔ q) := by
  by_cases hp : p <;> by_cases hq : q <;> simp [hp, hq]

/-- The sign of a difference is wrong when it overflows. -/
theorem msb_sub_overflow (a b : BitVec 32) :
    ((a - b).msb != BitVec.ssubOverflow a b) = decide (a.toInt < b.toInt) := by
  have ha := a.toInt_lt
  have ha' := a.le_toInt
  have hb := b.toInt_lt
  have hb' := b.le_toInt
  rw [BitVec.msb_eq_toInt, BitVec.toInt_sub, BitVec.ssubOverflow]
  rw [← Bool.decide_or, bne_decide, decide_eq_decide]
  have hwrap : ∀ d : Int, d.bmod (2 ^ 32) =
      if d % 4294967296 < 2147483648 then d % 4294967296 else d % 4294967296 - 4294967296 :=
    fun _ => rfl
  rw [hwrap]
  omega

theorem compares_subFlags (a b : BitVec 32) : Compares (subFlags a b) a b := by
  have hlt := msb_sub_overflow a b
  have hge : ((a - b).msb == BitVec.ssubOverflow a b) = !decide (a.toInt < b.toInt) := by
    rw [← hlt, bne, Bool.not_not]
  have heq : (a == b) = decide (a.toNat = b.toNat) := by
    rw [Bool.eq_iff_iff, beq_iff_eq, decide_eq_true_eq, BitVec.toNat_inj]
  have heq' : (a == b) = decide (a.toInt = b.toInt) := by
    rw [Bool.eq_iff_iff, beq_iff_eq, decide_eq_true_eq, BitVec.toInt_inj]
  constructor
  · rfl
  · show (!(a == b)) = _
    rw [decide_not]
    rfl
  · rfl
  · show (!decide (b.toNat ≤ a.toNat)) = _
    rw [← decide_not, decide_eq_decide]
    omega
  · show (decide (b.toNat ≤ a.toNat) && !(a == b)) = _
    rw [heq, ← decide_not, ← Bool.decide_and, decide_eq_decide]
    omega
  · show (!decide (b.toNat ≤ a.toNat) || (a == b)) = _
    rw [heq, ← decide_not, ← Bool.decide_or, decide_eq_decide]
    omega
  · show ((a - b).msb == BitVec.ssubOverflow a b) = _
    rw [hge, ← decide_not, decide_eq_decide]
    omega
  · exact hlt
  · show (!(a == b) && ((a - b).msb == BitVec.ssubOverflow a b)) = _
    rw [hge, heq', ← decide_not, ← decide_not, ← Bool.decide_and, decide_eq_decide]
    omega
  · show ((a == b) || ((a - b).msb != BitVec.ssubOverflow a b)) = _
    rw [hlt, heq', ← Bool.decide_or, decide_eq_decide]
    omega

/-- A comparison with the negated operand, which has to be another one. -/
theorem addFlags_neg {a b : BitVec 32} (hzero : b ≠ 0) (hmin : b ≠ BitVec.intMin 32) :
    addFlags a (-b) = subFlags a b := by
  have hb := b.isLt
  have ha := a.isLt
  have hpos : b.toNat ≠ 0 := by
    intro h
    exact hzero (BitVec.eq_of_toNat_eq h)
  have hneg : (-b).toInt = -b.toInt := BitVec.toInt_neg_of_ne_intMin hmin
  have hsum : a + -b = a - b := (BitVec.sub_eq_add_neg a b).symm
  unfold addFlags subFlags
  rw [hsum]
  congr 1
  · rw [Bool.eq_iff_iff, beq_iff_eq, beq_iff_eq]
    constructor
    · intro h
      rw [← BitVec.sub_add_cancel a b, h]
      exact BitVec.zero_add b
    · intro h
      rw [h]
      exact BitVec.sub_self b
  · unfold BitVec.uaddOverflow
    rw [BitVec.toNat_neg, decide_eq_decide]
    omega
  · unfold BitVec.saddOverflow BitVec.ssubOverflow
    rw [hneg, ← sub_eq_add_neg]

/-! ## Instructions -/

/-- The registers of a list, in order. -/
def listed (list : Nat) : List Nat := (List.range 16).filter list.testBit

namespace Machine

def dataProcessing (m : Machine) (opcode : Nat) (s : Bool) (rd rn : Nat) (operand : Operand) :
    Option Machine :=
  if isTest opcode then
    (comparison opcode (m.read rn) (operand.value m)).map m.next.compared
  else if s || rd == 15 then none
  else (result opcode (m.read rn) (operand.value m) m.flags.c).map (m.next.set rd)

/-- A load or store of a word or a byte. One that comes before the offset is added always writes the
sum back. -/
def transfer (m : Machine) (load byte pre writeback : Bool) (rn rd : Nat) (offset : Int) :
    Option Machine :=
  let back := !pre || writeback
  let sum := m.read rn + BitVec.ofInt 32 offset
  let address := if pre then sum else m.read rn
  let moved := if back then m.next.set rn sum else m.next
  if rd == 15 || (!pre && writeback) || (back && (rn == rd || rn == 15)) then none
  else if byte then
    some (if load then moved.set rd ((m.mem address).setWidth 32)
      else moved.stored (putByte m.mem address ((m.read rd).setWidth 8)))
  else if aligned address then
    some (if load then moved.set rd (word m.mem address)
      else moved.stored (putWord m.mem address (m.read rd)))
  else none

/-- The registers of a list are loaded from the words at an address and up. -/
def loadAll (m : Machine) (a : BitVec 32) : List Nat → Machine
  | [] => m
  | r :: rs => loadAll (m.set r (word m.mem a)) (a + 4) rs

/-- A load or store of a list of registers, the lowest of them at the lowest address. -/
def block (m : Machine) (load pre up s writeback : Bool) (rn list : Nat) : Option Machine :=
  let regs := listed list
  let size := BitVec.ofNat 32 (4 * regs.length)
  let base := m.read rn
  let low := if up then base else base - size
  let start := if pre == up then low + 4 else low
  let moved := if writeback then m.next.set rn (if up then base + size else base - size) else m.next
  if s || regs.isEmpty || regs.contains 15 || rn == 15 || (writeback && regs.contains rn) then none
  else if aligned start then
    some (if load then moved.loadAll start regs
      else moved.stored (putWords m.mem start (regs.map m.read)))
  else none

/-- What an instruction does whose condition is met. -/
def effect (m : Machine) : Instr → Option Machine
  | .dataProcessing _ opcode s rd rn operand => m.dataProcessing opcode s rd rn operand
  | .multiply _ s rd rm rs =>
      if s || rd == 15 || rd == rm then none else some (m.next.set rd (m.read rm * m.read rs))
  | .branch _ link offset =>
      let target := ((m.pc : Int) + 8 + offset).toNat
      some ((if link then m.set 14 (BitVec.ofNat 32 (m.pc + 4)) else m).jump target)
  | .branchExchange _ rm => some (m.exchange (m.read rm))
  | .transfer _ load byte pre writeback rn rd offset =>
      m.transfer load byte pre writeback rn rd offset
  | .halfword .. => none
  | .block _ load pre up s writeback rn list => m.block load pre up s writeback rn list

def exec (m : Machine) (i : Instr) : Option Machine :=
  if m.flags.holds i.cond then m.effect i else some m.next

end Machine

end Armv4

end DiscoBsd.Lib
