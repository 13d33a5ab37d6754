import DiscoBsd.Asm.Encode
import DiscoBsd.Lib.Armv4

/-!
# What an instruction text says

The language of the assembler as a programmer knows it, without regard to how `encode` reads it: the
ARMv4 instruction that a mnemonic and its operands stand for, if they stand for one. Registers,
conditions and mnemonics have tables of their own, and operands are split by how deep in brackets a
comma is. The operands are all there, nothing is left over, numbers are complete, and what they say has
an encoding.
-/

namespace DiscoBsd.Asm

open Lib.Armv4

/-! ## Operands -/

/-- What a character adds to the number of open brackets and braces. -/
def nesting (c : Char) : Int :=
  if c ∈ ['[', '\x7b'] then 1 else if c ∈ [']', '\x7d'] then -1 else 0

/-- The characters of a text, each with the number of brackets and braces that are open before it. -/
def nested (p : Text) (depth : Int) : List (Char × Int) :=
  p.zip (p.scanl (fun depth c => depth + nesting c) depth)

/-- The operands of an instruction, all of them: what is between the commas outside of brackets, without
the blanks around it. -/
def operands (ops : Text) : List Text :=
  ((nested (cstr ops) 0).splitOn (',', 0)).map fun part => trim (part.map Prod.fst)

/-- The registers that have a name in the procedure call standard. -/
def registerNames : List (Text × Nat) :=
  [("sl".toList, 10), ("fp".toList, 11), ("ip".toList, 12), ("sp".toList, 13), ("lr".toList, 14),
    ("pc".toList, 15)]

/-- The numbers of the registers; there may be a zero before a single digit. -/
def registerNumbers : List (Text × Nat) :=
  [("0".toList, 0), ("1".toList, 1), ("2".toList, 2), ("3".toList, 3), ("4".toList, 4),
    ("5".toList, 5), ("6".toList, 6), ("7".toList, 7), ("8".toList, 8), ("9".toList, 9),
    ("10".toList, 10), ("11".toList, 11), ("12".toList, 12), ("13".toList, 13), ("14".toList, 14),
    ("15".toList, 15), ("00".toList, 0), ("01".toList, 1), ("02".toList, 2), ("03".toList, 3),
    ("04".toList, 4), ("05".toList, 5), ("06".toList, 6), ("07".toList, 7), ("08".toList, 8),
    ("09".toList, 9)]

/-- A register by its number or its name. -/
def register : Text → Option Nat
  | 'r' :: number => registerNumbers.lookup number
  | 'R' :: number => registerNumbers.lookup number
  | name => registerNames.lookup name

/-- The suffixes of the conditions, in the order of the condition field of the architecture. -/
def conditions : List (List Text) :=
  [["eq".toList], ["ne".toList], ["cs".toList, "hs".toList], ["cc".toList, "lo".toList],
    ["mi".toList], ["pl".toList], ["vs".toList], ["vc".toList], ["hi".toList], ["ls".toList],
    ["ge".toList], ["lt".toList], ["gt".toList], ["le".toList], ["al".toList]]

def condition (t : Text) : Option Nat := conditions.findIdx? fun names => decide (t ∈ names)

/-- A number, which is nothing but a sign, the base and digits. -/
def numeral (p : Text) : Option Int :=
  let (neg, s) := sign (p.dropWhile isspace)
  let (base, ds) := numberBase 0 s
  if ds ≠ [] ∧ ds.all (isDigitOf base) then
    some (if neg then -(ofDigits base ds) else ofDigits base ds)
  else none

def immediate : Text → Option Int
  | '#' :: s => numeral s
  | _ => none

/-- A constant of 32 bits, signed or unsigned. -/
def constant (n : Int) : Option Word :=
  if -(2 ^ 31) ≤ n ∧ n < 2 ^ 32 then some (BitVec.ofInt 32 n) else none

def source (t : Text) : Option Operand :=
  match immediate t with
  | some n => (constant n).map .imm
  | none => (register t).map .reg

/-! ## Data processing -/

/-- The opcodes of the architecture that have a mnemonic here. -/
def opcodes : List (Text × Nat) :=
  [("and".toList, 0), ("eor".toList, 1), ("sub".toList, 2), ("rsb".toList, 3), ("add".toList, 4),
    ("cmp".toList, 10), ("cmn".toList, 11), ("orr".toList, 12), ("mov".toList, 13),
    ("bic".toList, 14), ("mvn".toList, 15)]

/-- The condition and the opcode of a mnemonic. -/
def dataMnemonic (m : Text) : Option (Nat × Nat) :=
  match opcodes.lookup m with
  | some op => some (14, op)
  | none => (condition (m.drop 3)).bind fun cc => (opcodes.lookup (m.take 3)).map fun op => (cc, op)

def dataMeaning (cc op : Nat) : List Text → Option Instr
  | [a, b] =>
      if isMove op then do
        let rd ← register a
        let src ← source b
        return .dataProcessing cc op false rd 0 src
      else if isTest op then do
        let rn ← register a
        let src ← source b
        return .dataProcessing cc op true 0 rn src
      else none
  | [a, b, c] =>
      if isMove op || isTest op then none
      else do
        let rd ← register a
        let rn ← register b
        let src ← source c
        return .dataProcessing cc op false rd rn src
  | _ => none

/-! ## Shifts and multiplications -/

def shifts : List (Text × Shift) := [("lsl".toList, .lsl), ("lsr".toList, .lsr), ("asr".toList, .asr)]

/-- A register that is shifted by a constant. -/
def shiftedReg (rm : Nat) (type : Shift) (n : Int) : Option Operand :=
  match type with
  | .lsl =>
      if n = 0 then some (.reg rm)
      else if 1 ≤ n ∧ n ≤ 31 then some (.shifted rm .lsl n.toNat)
      else none
  | type => if 1 ≤ n ∧ n ≤ 32 then some (.shifted rm type n.toNat) else none

/-- A register that is shifted by a constant or by a register. -/
def shifted (rm : Nat) (type : Shift) (t : Text) : Option Operand :=
  match immediate t with
  | some n => shiftedReg rm type n
  | none => (register t).map (.shiftedBy rm type)

def shiftMeaning (type : Shift) : List Text → Option Instr
  | [a, b, c] => do
      let rd ← register a
      let rm ← register b
      let operand ← shifted rm type c
      return .dataProcessing 14 13 false rd 0 operand
  | _ => none

def mulMeaning : List Text → Option Instr
  | [a, b, c] => do
      let rd ← register a
      let rm ← register b
      let rs ← register c
      return .multiply 14 false rd rm rs
  | _ => none

/-! ## Lists of registers -/

/-- The registers from `ra` to `rz`. -/
def rangeOf (ra rz : Nat) : Word :=
  (List.range 16).foldl (fun list k => if ra ≤ k ∧ k ≤ rz then list ||| bits 1 k else list) 0

def listPart (part : Text) : Option Word :=
  match strchr part '-' with
  | none => (register part).map fun r => rangeOf r r
  | some i => do
      let ra ← register (part.take i)
      let rz ← register (part.drop (i + 1))
      if ra ≤ rz then some (rangeOf ra rz) else none

def listOf (parts : List Text) : Option Word :=
  parts.foldlM (fun list part => (listPart part).map (list ||| ·)) 0

/-- What is between the braces of a list, of which there is nothing outside. -/
def braced (ops : Text) : Option Text :=
  match strchr ops '\x7b', strchr ops '\x7d' with
  | some b, some e =>
      if b < e ∧ (ops.take b).all isblank ∧ ((cstr ops).drop (e + 1)).all isblank then
        some ((ops.drop (b + 1)).take (e - b - 1))
      else none
  | _, _ => none

/-- A push or a pop. For one register it is a store or a load with write-back. -/
def stackInstr (push : Bool) (list : Word) : Instr :=
  match (List.range 16).filter (fun k => list.getLsbD k) with
  | [only] =>
      if push then .transfer 14 false false true true 13 only (-4)
      else .transfer 14 true false false false 13 only 4
  | _ =>
      if push then .block 14 false true false false true 13 list.toNat
      else .block 14 true false true false true 13 list.toNat

def stackMeaning (push : Bool) (ops : Text) : Option Instr := do
  let inner ← braced ops
  let list ← listOf (operands inner)
  return stackInstr push list

/-! ## Loads and stores -/

/-- A load or store: of a word or a byte, or of the kinds of a halfword transfer. -/
inductive Access where
  | word (load byte : Bool)
  | half (load : Bool) (kind : Nat)

def accesses : List (Text × Access) :=
  [("ldr".toList, .word true false), ("str".toList, .word false false),
    ("ldrb".toList, .word true true), ("strb".toList, .word false true),
    ("ldrh".toList, .half true 1), ("strh".toList, .half false 1), ("ldrsb".toList, .half true 2),
    ("ldrsh".toList, .half true 3)]

/-- The instruction, when its offset has an encoding. -/
def Access.instr (access : Access) (pre writeback : Bool) (rn rd : Nat) (off : Int) :
    Option Instr :=
  match access with
  | word load byte =>
      if off.natAbs < 4096 then some (.transfer 14 load byte pre writeback rn rd off) else none
  | half load kind =>
      if off.natAbs < 256 then some (.halfword 14 kind load pre writeback rn rd off) else none

/-- The register of an address and its offset if there is one. -/
def addressOf (inner : Text) : Option (Nat × Option Int) :=
  match operands inner with
  | [rn] => (register rn).map fun rn => (rn, none)
  | [rn, off] => do
      let rn ← register rn
      let off ← immediate off
      return (rn, some off)
  | _ => none

/-- An address in brackets, and whether it is written back. -/
def bracketed (a : Text) : Option (Nat × Option Int × Bool) :=
  match a, strchr a ']' with
  | '[' :: rest, some rb =>
      let after := a.drop (rb + 1)
      if after = [] ∨ after = ['!'] then
        (addressOf (rest.take (rb - 1))).map fun (rn, off) => (rn, off, decide (after = ['!']))
      else none
  | _, _ => none

def accessMeaning (access : Access) : List Text → Option Instr
  | [t, a] => do
      let rd ← register t
      let (rn, off, writeback) ← bracketed a
      access.instr true writeback rn rd (off.getD 0)
  | [t, a, post] => do
      let rd ← register t
      let off ← immediate post
      match bracketed a with
      | some (rn, none, false) => access.instr false false rn rd off
      | _ => none
  | _ => none

/-! ## Instructions -/

/-- The condition of a branch, and whether it links. -/
def branchMnemonic : Text → Option (Nat × Bool)
  | ['b'] => some (14, false)
  | ['b', 'l'] => some (14, true)
  | 'b' :: rest =>
      match condition rest with
      | some cc => some (cc, false)
      | none =>
          match rest with
          | 'l' :: rest => (condition rest).map fun cc => (cc, true)
          | _ => none
  | _ => none

/-- A branch to an address that its offset reaches. -/
def branchMeaning (find : Text → Option Nat) (addr cc : Nat) (link : Bool) : List Text → Option Instr
  | [label] => do
      let target ← find label
      let off : Int := target - (addr + 8)
      if off % 4 = 0 ∧ -33554432 ≤ off ∧ off < 33554432 then some (.branch cc link off) else none
  | _ => none

/-- What an instruction that is no branch stands for. -/
def plainMeaning (mnem ops : Text) : Option Instr :=
  match dataMnemonic mnem with
  | some (cc, op) => dataMeaning cc op (operands ops)
  | none =>
      match shifts.lookup mnem with
      | some type => shiftMeaning type (operands ops)
      | none =>
          match accesses.lookup mnem with
          | some access => accessMeaning access (operands ops)
          | none =>
              if mnem = "mul".toList then mulMeaning (operands ops)
              else if mnem = "push".toList then stackMeaning true ops
              else if mnem = "pop".toList then stackMeaning false ops
              else none

/-- The instruction that a mnemonic and its operands stand for. -/
def meaning (find : Text → Option Nat) (addr : Nat) (mnem ops : Text) : Option Instr :=
  if mnem = "bx".toList then
    match operands ops with
    | [rm] => (register rm).map (.branchExchange 14)
    | _ => none
  else
    match branchMnemonic mnem with
    | some (cc, link) => branchMeaning find addr cc link (operands ops)
    | none => plainMeaning mnem ops

end DiscoBsd.Asm
