import DiscoBsd.Asm.Encode

/-!
# The statement on a line

The first half of `do_line`: copy the line, cut its comment, take its labels off, and tell
which directive or instruction is left and with what operands. Nothing here looks at the state
of the assembler, so both passes read the same statement from the same line.
-/

namespace DiscoBsd.Asm

/-- The sections of the output. -/
inductive Sec where
  | text
  | rodata
  | data
  | bss
deriving DecidableEq, Repr

/-- An operand of `.word`, `.short` or `.byte`. -/
inductive Datum where
  | number (v : Int)
  | symbol (name : Text) (ofs : Int)
deriving DecidableEq

/-- A literal that waits for its pool: a number or a symbol's address. -/
inductive Literal where
  | number (v : Int)
  | symbol (name : Text)
deriving DecidableEq

/-- What a line asks for after its labels. -/
inductive Stmt where
  | blank
  | section (sec : Sec)
  | globl (name : Text)
  | align (a : Int)
  | data (size : Nat) (parts : List Datum)
  | space (n : Int)
  | ascii (bytes : Option (List UInt8))
  | ltorg
  | load (rd : Int) (x : Literal)
  | loadNoComma
  | instr (mnem ops : Text)
deriving DecidableEq

/-- Does a number start here? -/
def isNumber (c : Char) : Bool := isdigit c || c == '-' || c == '+'

/-- A character of a symbol name in an operand. -/
def inSymbol (c : Char) : Bool := !(c == '+' || c == '-' || c == ' ')

/-- The longest symbol name a data operand keeps. -/
def NAMEMAX : Nat := 63

/-- One operand of a data directive. -/
def datum (a : Text) : Datum :=
  if isNumber (deref a) then .number (strtol a 0).1
  else
    let rest := a.dropWhile inSymbol
    .symbol ((a.takeWhile inSymbol).take NAMEMAX) (if rest = [] then 0 else (strtol rest 0).1)

/-- The operands of a data directive: at most 32 of the first 255 characters. -/
def dataArgs (args : Text) : List Datum := (splitOps ((cstr args).take 255) 32).map datum

/-- The section a `.section` directive selects. -/
def sectionArg (args : Text) : Sec :=
  if strstr args "rodata".toList then .rodata
  else if strstr args "data".toList then .data
  else if strstr args "bss".toList then .bss
  else .text

/-- The statement of a directive; one that is not known is ignored. -/
def directive (dir args : Text) : Stmt :=
  if dir = "text".toList then .section .text
  else if dir = "data".toList then .section .data
  else if dir = "bss".toList then .section .bss
  else if dir = "section".toList then .section (sectionArg args)
  else if dir = "globl".toList then .globl (cstr args)
  else if dir = "align".toList then .align (atoi args)
  else if dir = "word".toList then .data 4 (dataArgs args)
  else if dir = "short".toList ∨ dir = "hword".toList then .data 2 (dataArgs args)
  else if dir = "byte".toList then .data 1 (dataArgs args)
  else if dir = "space".toList then .space (atoi args)
  else if dir = "ascii".toList then .ascii (asciiArgs args)
  else if dir = "ltorg".toList then .ltorg
  else .blank

/-- The literal after the `=` of a load. -/
def literal (v : Text) : Literal :=
  if isNumber (deref v) then .number (strtol v 0).1
  else .symbol ((cstr v).rdropWhile isblank)

/-- A load from a literal pool. The comma becomes a terminator before the literal is read. -/
def loadLiteral (ops : Text) (eq : Nat) : Stmt :=
  match strchr ops ',' with
  | none => .loadNoComma
  | some comma =>
    let cut := ops.set comma NUL
    .load (regNum ((cstr (skipws cut)).take 7)) (literal (skipws (cut.drop (eq + 1))))

/-- The characters up to a blank or the terminator. -/
def token (p : Text) : Text := p.takeWhile fun c => !(c == NUL || isspace c)

/-- The statement of an instruction. -/
def instruction (p : Text) : Stmt :=
  let mnem := (token p).take 15
  let ops := skipws (p.drop (token p).length)
  match strchr ops '=' with
  | some eq => if mnem = "ldr".toList then loadLiteral ops eq else .instr mnem (cstr ops)
  | none => .instr mnem (cstr ops)

/-- The statement after the labels. -/
def stmt (p : Text) : Stmt :=
  if deref p = NUL then .blank
  else if deref p = '.' then
    directive ((token p.tail).take 31) (skipws (p.tail.drop (token p.tail).length))
  else instruction p

/-- The labels of a line and its statement. -/
def parseLine (raw : Text) : List Text × Stmt :=
  let p := skipws (stripComment false (lineBuffer raw))
  let (ls, q) := labels p.length p
  (ls, stmt q)

end DiscoBsd.Asm
