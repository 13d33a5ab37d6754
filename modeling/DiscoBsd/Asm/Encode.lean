import DiscoBsd.Asm.Text

/-!
# Encoding one instruction

`encode` of `as_arm.c`: the 32-bit word of an instruction of the ARMv4T subset the compiler
emits, from its mnemonic and its operand string. Branches look their target up; everything else
depends on the text alone. Reading an operand that is not there, writing past a scratch buffer
and shifting by a register number of -1 are undefined in C; here they end the run.
-/

namespace DiscoBsd.Asm

/-- A machine word. -/
abbrev Word := BitVec 32

/-- Why an instruction has no encoding. -/
inductive EncodeError where
  | badInstruction (message : String)
  | undefined
deriving DecidableEq, Repr

/-- The condition-code suffixes. -/
def condTable : List (Text × Nat) :=
  [("eq".toList, 0), ("ne".toList, 1), ("cs".toList, 2), ("hs".toList, 2), ("cc".toList, 3),
    ("lo".toList, 3), ("mi".toList, 4), ("pl".toList, 5), ("vs".toList, 6), ("vc".toList, 7),
    ("hi".toList, 8), ("ls".toList, 9), ("ge".toList, 10), ("lt".toList, 11), ("gt".toList, 12),
    ("le".toList, 13), ("al".toList, 14)]

/-- `cond_code`: the field of a condition-code suffix. -/
def condCode (s : Text) : Option Nat := condTable.lookup s

/-- `parse_imm`: the value of a `#` operand. -/
def parseImm : Text → Option Int
  | '#' :: s => some (strtol s 0).1
  | _ => none

/-- `enc_imm8r`: an 8-bit value with a rotation, when the constant has one. -/
def encImm8r (v : Word) : Option Word :=
  (List.range 16).findSome? fun i =>
    let r := v.rotateLeft (2 * i)
    if r &&& 0xFFFFFF00 = 0 then some (BitVec.ofNat 32 i <<< 8 ||| (r &&& 0xFF)) else none

/-- `dp_opcode`: the opcode field of a data-processing mnemonic. -/
def dpOpcode (m : Text) : Option Nat :=
  [("and".toList, 0), ("eor".toList, 1), ("sub".toList, 2), ("rsb".toList, 3), ("add".toList, 4),
    ("orr".toList, 12), ("mov".toList, 13), ("bic".toList, 14), ("mvn".toList, 15)].lookup m

/-- A field of an instruction word. -/
def bits (v : Int) (shift : Nat) : Word := BitVec.ofInt 32 v <<< shift

/-- The operand at an index; there is none past the last. -/
def operand (o : List Text) (i : Nat) : Except EncodeError Text :=
  match o[i]? with
  | some t => .ok t
  | none => .error .undefined

/-- The immediate of a data-processing instruction, encoded. -/
def dpImm (message : String) (imm : Int) : Except EncodeError Word :=
  match encImm8r (BitVec.ofInt 32 imm) with
  | some e => .ok e
  | none => .error (.badInstruction message)

/-- A register operand that has to be one. -/
def reqReg (message : String) (t : Text) : Except EncodeError Int :=
  if regNum t < 0 then .error (.badInstruction message) else .ok (regNum t)

/-! ## Branches -/

/-- Is the mnemonic read as a branch? -/
def isBranch (base : Text) : Bool :=
  match base with
  | 'b' :: rest => rest.isEmpty || rest.head? == some 'l' || (condCode rest).isSome ||
      rest.head? == some 'x'
  | _ => false

/-- The condition and link fields of a branch mnemonic. -/
def branchFields (base : Text) : Except EncodeError (Nat × Nat) :=
  if base = "bl".toList then .ok (14, 1)
  else if base = "b".toList then .ok (14, 0)
  else match condCode base.tail with
    | some c => .ok (c, 0)
    | none => .error (.badInstruction "bad branch")

/-- The size of the caller's buffer for an unresolved name. -/
def EXTNAME : Nat := 64

/-- A branch to a label, or to a name left to the linker. -/
def encodeBranch (find : Text → Option Nat) (addr : Nat) (base ops : Text) :
    Except EncodeError (Word × Option Text) := do
  let (c, l) ← branchFields base
  let o ← operand (splitOps ops 4) 0
  let word (off : Int) : Word :=
    bits c 28 ||| bits 5 25 ||| bits l 24 ||| (BitVec.ofInt 32 off &&& 0x00FFFFFF)
  match find o with
  | some target => .ok (word (((target : Int) - (addr + 8)) / 4), none)
  | none => if o.length < EXTNAME then .ok (word (-2), some o) else .error .undefined

/-! ## The other instructions -/

/-- A data-processing instruction, a move or a comparison. -/
def encodeDp (cc : Nat) (base ops : Text) : Except EncodeError Word := do
  let o := splitOps ops 4
  let op := (dpOpcode base).getD 0
  if base = "mov".toList ∨ base = "mvn".toList then
    let rd := regNum (← operand o 0)
    let src ← operand o 1
    match parseImm src with
    | some imm =>
        return bits cc 28 ||| bits 1 25 ||| bits op 21 ||| bits rd 12 |||
          (← dpImm "mov imm not encodable" imm)
    | none =>
        return bits cc 28 ||| bits op 21 ||| bits rd 12 |||
          bits (← reqReg "mov: bad operand" src) 0
  else if base = "cmp".toList ∨ base = "cmn".toList then
    let opc := if base = "cmp".toList then 10 else 11
    let rn := regNum (← operand o 0)
    let src ← operand o 1
    match parseImm src with
    | some imm =>
        return bits cc 28 ||| bits 1 25 ||| bits opc 21 ||| bits 1 20 ||| bits rn 16 |||
          (← dpImm "cmp imm not encodable" imm)
    | none =>
        return bits cc 28 ||| bits opc 21 ||| bits 1 20 ||| bits rn 16 |||
          bits (regNum src) 0
  else
    let rd := regNum (← operand o 0)
    let rn := regNum (← operand o 1)
    if rd < 0 ∨ rn < 0 then .error (.badInstruction "dp: bad reg")
    else
      let src ← operand o 2
      match parseImm src with
      | some imm =>
          return bits cc 28 ||| bits 1 25 ||| bits op 21 ||| bits rn 16 ||| bits rd 12 |||
            (← dpImm "dp imm not encodable" imm)
      | none =>
          return bits cc 28 ||| bits op 21 ||| bits rn 16 ||| bits rd 12 |||
            bits (← reqReg "dp: bad rm" src) 0

/-- A shift by a constant or a register. -/
def encodeShift (cc : Nat) (base ops : Text) : Except EncodeError Word := do
  let o := splitOps ops 4
  let type := if base = "lsl".toList then 0 else if base = "lsr".toList then 1 else 2
  let rd := regNum (← operand o 0)
  let rn := regNum (← operand o 1)
  let src ← operand o 2
  match parseImm src with
  | some imm =>
      return bits cc 28 ||| bits 13 21 ||| bits rd 12 ||| bits (imm % 32) 7 |||
        bits type 5 ||| bits rn 0
  | none =>
      return bits cc 28 ||| bits 13 21 ||| bits rd 12 ||| bits (regNum src) 8 |||
        bits type 5 ||| bits 1 4 ||| bits rn 0

/-- A multiplication. -/
def encodeMul (cc : Nat) (ops : Text) : Except EncodeError Word := do
  let o := splitOps ops 4
  let rd := regNum (← operand o 0)
  let rm := regNum (← operand o 1)
  let rs := regNum (← operand o 2)
  return bits cc 28 ||| bits rd 16 ||| bits rs 8 ||| bits 9 4 ||| bits rm 0

/-- The registers `ra` to `rz`. -/
def regRange (ra rz : Int) : Except EncodeError Word :=
  if ra < 0 ∧ ra ≤ rz then .error .undefined
  else .ok ((List.range 16).foldl
    (fun list (k : Nat) => if ra ≤ k ∧ (k : Int) ≤ rz then list ||| bits 1 k else list) 0)

/-- The registers one part of a list names. -/
def regPart (part : Text) : Except EncodeError Word :=
  match strchr part '-' with
  | some i =>
    if i < 8 ∧ (part.drop (i + 1)).length < 8 then
      regRange (regNum (part.take i)) (regNum (part.drop (i + 1)))
    else .error .undefined
  | none => regRange (regNum part) (max 0 (regNum part))

/-- The registers of a list between braces. -/
def regList (ops : Text) : Except EncodeError Word :=
  match strchr ops '\x7b', strchr ops '\x7d' with
  | some b, some e =>
    if b < e ∧ e - b - 1 < 128 then
      (splitOps ((ops.drop (b + 1)).take (e - b - 1)) 20).foldlM
        (fun list part => do return list ||| (← regPart part)) 0
    else .error .undefined
  | _, _ => .error (.badInstruction "push/pop: bad list")

/-- A push or a pop; one register alone takes the load or store form. -/
def encodeStack (base ops : Text) : Except EncodeError Word := do
  let list ← regList ops
  let push := decide (base = "push".toList)
  match (List.range 16).filter (fun k => list.getLsbD k) with
  | [only] => return (if push then 0xE52D0004 else 0xE49D0004) ||| bits only 12
  | _ => return (if push then 0xE92D0000 else 0xE8BD0000) ||| list

/-- What a load or store mnemonic says: load, byte, half, sign. -/
def memOp (base : Text) : Option (Bool × Bool × Bool × Bool) :=
  [("ldr".toList, (true, false, false, false)), ("str".toList, (false, false, false, false)),
    ("ldrb".toList, (true, true, false, false)), ("strb".toList, (false, true, false, false)),
    ("ldrh".toList, (true, false, true, false)), ("strh".toList, (false, false, true, false)),
    ("ldrsb".toList, (true, true, true, true)),
    ("ldrsh".toList, (true, false, true, true))].lookup base

/-- One bit of an instruction word. -/
def flag (b : Bool) (shift : Nat) : Word := bits b.toNat shift

/-- The address operands of a load or store, joined again. -/
def joinOps (o : List Text) : Text := List.intercalate [',', ' '] o

/-- The base register, offset, pre-index and write-back of an address. -/
def memAddress (addrbuf : Text) : Except EncodeError (Int × Int × Bool × Bool) :=
  match strchr addrbuf '[', strchr addrbuf ']' with
  | some lb, some rb =>
    if lb < rb ∧ (addrbuf.drop (rb + 1)).length < 64 then do
      let inside := splitOps ((addrbuf.drop (lb + 1)).take (rb - lb - 1)) 4
      let after := addrbuf.drop (rb + 1)
      let rn := regNum (← operand inside 0)
      let off := (inside[1]?.bind parseImm).getD 0
      if after.head? = some '!' then return (rn, off, true, true)
      else match strchr after '#' with
        | some h => return (rn, (parseImm (after.drop h)).getD 0, false, false)
        | none => return (rn, off, true, false)
    else .error .undefined
  | _, _ => .error (.badInstruction "ldr/str: bad addr")

/-- A load or a store. -/
def encodeMem (cc : Nat) (base ops : Text) : Except EncodeError Word := do
  let (isload, byte, half, signed) := (memOp base).getD (false, false, false, false)
  let o := splitOps ops 4
  let rd := regNum (← operand o 0)
  let address ← operand o 1
  if address.head? = some '=' then return 0xFFFFFFFF
  else
    let addrbuf := joinOps o.tail
    if addrbuf.length < 128 then
      let (rn, off, p, w) ← memAddress addrbuf
      let u := decide (0 ≤ off)
      let off := (off.natAbs : Int)
      if half then
        let sh := if signed then (if byte then 2 else 3) else 1
        return bits cc 28 ||| flag p 24 ||| flag u 23 ||| bits 1 22 ||| flag w 21 |||
          flag isload 20 ||| bits rn 16 ||| bits rd 12 ||| bits (off / 16 % 16) 8 ||| bits 1 7 |||
          bits sh 5 ||| bits 1 4 ||| bits (off % 16) 0
      else
        return bits cc 28 ||| bits 1 26 ||| flag p 24 ||| flag u 23 ||| flag byte 22 |||
          flag w 21 ||| flag isload 20 ||| bits rn 16 ||| bits rd 12 ||| bits (off % 4096) 0
    else .error .undefined

/-- A condition code at the end of a data-processing mnemonic, split off. -/
def splitCond (base : Text) : Nat × Text :=
  let stem := base.take (base.length - 2)
  match condCode (base.drop (base.length - 2)) with
  | some c => if 3 < base.length ∧ (dpOpcode stem).isSome then (c, stem) else (14, base)
  | none => (14, base)

/-- `encode`: the word of an instruction, and the name left to the linker if there is one. -/
def encode (find : Text → Option Nat) (addr : Nat) (mnem ops : Text) :
    Except EncodeError (Word × Option Text) :=
  if isBranch mnem then
    if mnem = "bx".toList then do
      let rm ← reqReg "bx: bad reg" (← operand (splitOps ops 4) 0)
      return (0xE12FFF10 ||| bits rm 0, none)
    else encodeBranch find addr mnem ops
  else do
    let (cc, base) := splitCond mnem
    let w ←
      if (dpOpcode base).isSome ∨ base = "cmp".toList ∨ base = "cmn".toList then
        encodeDp cc base ops
      else if base = "lsl".toList ∨ base = "lsr".toList ∨ base = "asr".toList then
        encodeShift cc base ops
      else if base = "mul".toList then encodeMul cc ops
      else if base = "push".toList ∨ base = "pop".toList then encodeStack base ops
      else if (memOp base).isSome then encodeMem cc base ops
      else .error (.badInstruction "unknown instruction")
    return (w, none)

end DiscoBsd.Asm
