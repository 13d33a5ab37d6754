import Mathlib.Data.List.DropRight
import Mathlib.Tactic

/-!
# Reading one assembler line

`usr.bin/as/as_arm.c` reads its source twice, a line at a time, and takes every line apart in
`do_line` before it acts on it. This file holds the taking apart: the C string functions the
scanner uses, the comment and label scan, the operand splitter, the `.ascii` escapes, and the
statement a line turns out to be. What a statement does is in `DiscoBsd.Asm.Assemble`.

A pointer into the line buffer is the rest of the buffer from that place on, terminator and
padding included. An empty list is a pointer past the buffer.
-/

namespace DiscoBsd.Asm

/-- Source text: one character for each byte. -/
abbrev Text := List Char

/-- The terminator of a C string. -/
def NUL : Char := '\x00'

/-- The C string at a pointer. -/
def cstr (p : Text) : Text := p.takeWhile (· != NUL)

/-- The character at a pointer. -/
def deref (p : Text) : Char := p.headD NUL

/-- A space or a tab, the blanks `skipws` knows. -/
def isblank (c : Char) : Bool := c == ' ' || c == '\t'

/-- C's `isspace`. -/
def isspace (c : Char) : Bool := c == ' ' || (9 ≤ c.toNat && c.toNat ≤ 13)

/-- C's `isdigit`. -/
def isdigit (c : Char) : Bool := 48 ≤ c.toNat && c.toNat ≤ 57

/-- Advance over blanks. -/
def skipws (p : Text) : Text := p.dropWhile isblank

/-- The index of the first `c` of the C string at `p`. -/
def strchr (p : Text) (c : Char) : Option Nat := (cstr p).idxOf? c

/-- Does the C string at `p` hold `needle`? -/
def strstr (p needle : Text) : Bool := decide (needle <:+: cstr p)

/-! ## Numbers -/

/-- The value `strtol` gives a digit or a letter. -/
def digitValue (c : Char) : Option Nat :=
  if isdigit c then some (c.toNat - 48)
  else if 97 ≤ c.toNat ∧ c.toNat ≤ 122 then some (c.toNat - 87)
  else if 65 ≤ c.toNat ∧ c.toNat ≤ 90 then some (c.toNat - 55)
  else none

/-- Is `c` a digit in this base? -/
def isDigitOf (base : Nat) (c : Char) : Bool := (digitValue c).any (· < base)

/-- The number a run of digits stands for. -/
def ofDigits (base : Nat) (ds : Text) : Nat :=
  ds.foldl (fun v c => base * v + (digitValue c).getD 0) 0

/-- `LONG_MAX` of the 32-bit target. -/
def LONGMAX : Nat := 2 ^ 31 - 1

/-- The sign `strtol` picks up, and the rest. -/
def sign : Text → Bool × Text
  | '-' :: p => (true, p)
  | '+' :: p => (false, p)
  | p => (false, p)

/-- The base `strtol` settles on, and the text after a `0x`. -/
def numberBase (base : Nat) (p : Text) : Nat × Text :=
  match p with
  | '0' :: 'x' :: q => if base = 0 ∨ base = 16 then (16, q) else (base, p)
  | '0' :: 'X' :: q => if base = 0 ∨ base = 16 then (16, q) else (base, p)
  | '0' :: _ => (if base = 0 then 8 else base, p)
  | _ => (if base = 0 then 10 else base, p)

/-- `strtol`: the value, and where it stopped reading. -/
def strtol (p : Text) (base : Nat) : Int × Text :=
  let (neg, s) := sign (p.dropWhile isspace)
  let (b, s) := numberBase base s
  let ds := s.takeWhile (isDigitOf b)
  let v : Int := if neg then -(min (ofDigits b ds) (LONGMAX + 1)) else min (ofDigits b ds) LONGMAX
  (v, if ds = [] then p else s.drop ds.length)

/-- `atoi`, with the wrap of a 32-bit `int`. -/
def atoi (p : Text) : Int :=
  let (neg, s) := sign (skipws p)
  let v : Int := ofDigits 10 (s.takeWhile isdigit)
  (if neg then -v else v).bmod (2 ^ 32)

/-! ## Operands -/

/-- Drop the blanks around a field. -/
def trim (p : Text) : Text := (skipws p).rdropWhile isblank

/-- The fields of an operand string, cut at the commas outside brackets. -/
def fields (depth : Int) (field : Text) : Text → List Text
  | [] => [field]
  | c :: p =>
    if c = '[' ∨ c = '\x7b' then fields (depth + 1) (field ++ [c]) p
    else if c = ']' ∨ c = '\x7d' then fields (depth - 1) (field ++ [c]) p
    else if c = ',' ∧ depth = 0 then field :: fields depth [] p
    else fields depth (field ++ [c]) p

/-- `split_ops`: at most `max` trimmed fields. -/
def splitOps (p : Text) (max : Nat) : List Text := ((fields 0 [] (cstr p)).take max).map trim

/-- `reg_num`: a register's number, or -1. -/
def regNum (s : Text) : Int :=
  match s with
  | ['s', 'p'] => 13
  | ['l', 'r'] => 14
  | ['p', 'c'] => 15
  | ['i', 'p'] => 12
  | ['f', 'p'] => 11
  | ['s', 'l'] => 10
  | [r, d] => if (r = 'r' ∨ r = 'R') ∧ isdigit d then atoi [d] else -1
  | [r, d, e] =>
    if (r = 'r' ∨ r = 'R') ∧ isdigit d ∧ isdigit e ∧ atoi [d, e] ≤ 15 then atoi [d, e] else -1
  | _ => -1

/-! ## The line buffer -/

/-- The length of `do_line`'s buffer, and of `assemble`'s. -/
def LINESIZE : Nat := 512

/-- A line end that `do_line` drops. -/
def isNewline (c : Char) : Bool := c == '\n' || c == '\r'

/-- The buffer with a line copied in and its line end dropped. -/
def lineBuffer (raw : Text) : Text :=
  let text := ((cstr raw).take (LINESIZE - 1)).rdropWhile isNewline
  text ++ List.replicate (LINESIZE - text.length) NUL

/-- Cut a comment: an `@` where the quotes seen so far are even in number. -/
def stripComment (instr : Bool) : Text → Text
  | [] => []
  | c :: p =>
    if c = NUL then c :: p
    else if c = '"' then c :: stripComment (!instr) p
    else if c = '@' ∧ instr = false then NUL :: p
    else c :: stripComment instr p

/-- A character that a bare label does not hold. -/
def notInLabel (c : Char) : Bool := c == ' ' || c == '\t' || c == ','

/-- The leading labels of a line, and what follows the last of them. -/
def labels : Nat → Text → List Text × Text
  | 0, p => ([], p)
  | fuel + 1, p =>
    match strchr p ':' with
    | none => ([], p)
    | some i =>
      if (p.take i).any notInLabel then ([], p)
      else ((p.take i) :: (labels fuel (skipws (p.drop (i + 1)))).1,
        (labels fuel (skipws (p.drop (i + 1)))).2)

/-! ## The `.ascii` directive -/

/-- The bytes of a string from the character after its opening quote. A backslash at the end
makes the loop step over the terminator and read on in the buffer; outside of it nothing is
known. -/
def asciiBytes : Nat → Text → Option (List UInt8)
  | 0, _ => none
  | _ + 1, [] => none
  | fuel + 1, c :: q =>
    if c = NUL ∨ c = '"' then some []
    else if c = '\\' then
      match q with
      | [] => none
      | e :: q =>
        if e = 'n' then (asciiBytes fuel q).map (10 :: ·)
        else if e = 't' then (asciiBytes fuel q).map (9 :: ·)
        else if isDigitOf 8 e then
          (asciiBytes fuel (strtol (e :: q) 8).2).map
            (UInt8.ofNat ((strtol (e :: q) 8).1.toNat) :: ·)
        else (asciiBytes fuel q).map (e.toUInt8 :: ·)
    else (asciiBytes fuel q).map (c.toUInt8 :: ·)

/-- The bytes of the first quoted string of an operand. -/
def asciiArgs (args : Text) : Option (List UInt8) :=
  match strchr args '"' with
  | none => some []
  | some i => asciiBytes (args.length + 1) (args.drop (i + 1))

end DiscoBsd.Asm
