import DiscoBsd.Clists.Refinement
import DiscoBsd.Lib.Steps

/-!
# Terminal output

`ttwrite` and `ttyoutput` of `sys/kern/tty.c` over the character lists, for one writing process. Between
two calls on the character lists interrupts come in: the device takes characters from the output queue,
and the other queues take and give back blocks. A sleep ends whenever the scheduler lets it, or by a
signal.

`taken` records the characters that left the output queue, `sent` those of the user's characters that
the writer is done with.
-/

namespace DiscoBsd.Output

open DiscoBsd.Clists

def OBUFSIZ : Nat := 100

/-- The character types, a bit above them says whether the parity bit is set. -/
def partab : List Nat :=
  [0o001, 0o201, 0o201, 0o001, 0o201, 0o001, 0o001, 0o201,
   0o202, 0o004, 0o003, 0o201, 0o005, 0o206, 0o201, 0o001,
   0o201, 0o001, 0o001, 0o201, 0o001, 0o201, 0o201, 0o001,
   0o001, 0o201, 0o201, 0o001, 0o201, 0o001, 0o001, 0o201,
   0o200, 0o000, 0o000, 0o200, 0o000, 0o200, 0o200, 0o000,
   0o000, 0o200, 0o200, 0o000, 0o200, 0o000, 0o000, 0o200,
   0o000, 0o200, 0o200, 0o000, 0o200, 0o000, 0o000, 0o200,
   0o200, 0o000, 0o000, 0o200, 0o000, 0o200, 0o200, 0o000,
   0o200, 0o000, 0o000, 0o200, 0o000, 0o200, 0o200, 0o000,
   0o000, 0o200, 0o200, 0o000, 0o200, 0o000, 0o000, 0o200,
   0o000, 0o200, 0o200, 0o000, 0o200, 0o000, 0o000, 0o200,
   0o200, 0o000, 0o000, 0o200, 0o000, 0o200, 0o200, 0o000,
   0o000, 0o200, 0o200, 0o000, 0o200, 0o000, 0o000, 0o200,
   0o200, 0o000, 0o000, 0o200, 0o000, 0o200, 0o200, 0o000,
   0o200, 0o000, 0o000, 0o200, 0o000, 0o200, 0o200, 0o000,
   0o000, 0o200, 0o200, 0o000, 0o200, 0o000, 0o000, 0o201] ++ List.replicate 128 0o007

def ORDINARY : Nat := 0
def CONTROL : Nat := 1
def BACKSPACE : Nat := 2
def NEWLINE : Nat := 3
def TAB : Nat := 4
def VTAB : Nat := 5
def RETURN : Nat := 6

/-- `partab[c] & mask`. -/
def partabAnd (c : UInt8) (mask : Nat) : Nat := partab.getD c.toNat 0 &&& mask

/-- The bits of `t_flags` that output looks at. -/
structure Flags where
  raw : Bool
  litout : Bool
  flusho : Bool
  crmod : Bool
  xtabs : Bool

/-- `t_flags & (RAW|LITOUT)`. -/
def Flags.literal (t_flags : Flags) : Bool := t_flags.raw || t_flags.litout

/-- The characters before the first one that needs `ttyoutput`, as `cc - scanc(cc, cp)` counts them. -/
def ordinary (cp : List UInt8) : Nat := (cp.takeWhile fun c => decide (partabAnd c 0o77 = 0)).length

inductive TtyError where
  | ok | eio | ewouldblock
deriving DecidableEq

/-- Where the writer is: at the labels and loop heads of `ttwrite`, in `ttyoutput` behind the carriage
return of a newline, or asleep. -/
inductive Control where
  | loop
  | whileResid
  | whileCc
  | newline
  | ovhiwat
  | asleep
  | returned (error : TtyError) (uio_resid : Nat)
  | interrupted
deriving DecidableEq

/-- What does not change: the flags, the high water mark, the size of the pool, IO_NDELAY, and which of
the queues is the output queue. -/
structure Tty (Q : Type) where
  t_flags : Flags
  hiwat : Nat
  nclist : Nat
  ndelay : Bool
  t_outq : Q

structure Kernel (Q : Type) where
  clists : Pool Q
  t_col : Int
  cnt : Nat
  uio : List UInt8
  obuf : List UInt8
  control : Control
  taken : List UInt8
  sent : List UInt8

variable {Q : Type} [DecidableEq Q]

namespace Kernel

variable (tp : Tty Q) (k : Kernel Q)

def outqCc : Int := (k.clists.list tp.t_outq).c_cc

/-- `CLIST_LOW`. -/
def clistLow : Bool :=
  decide (0 < k.outqCc tp) && decide (k.clists.cfreecount < (tp.nclist * CBSIZE / 4 : Nat))

/-- `tp->t_outq.c_cc > hiwat`. -/
def high : Bool := decide ((tp.hiwat : Int) < k.outqCc tp)

/-- The writer returns short for IO_NDELAY, or sleeps. -/
def wait : Kernel Q :=
  if tp.ndelay then
    let uio_resid := k.uio.length + k.obuf.length
    { k with control := .returned (if uio_resid = k.cnt then .ewouldblock else .ok) uio_resid }
  else { k with control := .asleep }

/-- `cp++, cc--` after a character that needed `ttyoutput`. -/
def next (c : UInt8) (t_col : Int) (k : Kernel Q) : Kernel Q :=
  let k := { k with t_col := t_col, obuf := k.obuf.tail, sent := k.sent ++ [c] }
  { k with control := if tp.t_flags.flusho || k.high tp then .ovhiwat else .whileCc }

/-- The column behind a character that was put, with the types of `partab`. -/
def column (c : UInt8) (t_col : Int) : Int :=
  if partabAnd c 0o77 = ORDINARY then t_col + 1
  else if partabAnd c 0o77 = BACKSPACE then (if t_col ≠ 0 then t_col - 1 else t_col)
  else if partabAnd c 0o77 = NEWLINE ∨ partabAnd c 0o77 = RETURN then 0
  else if partabAnd c 0o77 = TAB then t_col - t_col % 8 + 7 + 1
  else t_col

/-- The end of `ttyoutput`: put the character and move the column. -/
def ttyoutputEnd (c : UInt8) : Kernel Q :=
  let ch := c &&& 0x7f
  if tp.t_flags.flusho then k.next tp c (column ch k.t_col)
  else
    let (error, clists) := k.clists.putc ch.toNat tp.t_outq
    let k := { k with clists := clists }
    if error ≠ 0 then k.wait tp else k.next tp c (column ch k.t_col)

/-- `ttyoutput` for a tab with XTABS. -/
def ttyoutputTab (c : UInt8) : Option (Kernel Q) :=
  let n := (8 - k.t_col % 8).toNat
  if tp.t_flags.flusho then some (k.next tp c (k.t_col + n))
  else
    (k.clists.b_to_q (List.replicate n 32) tp.t_outq).map fun (left, clists) =>
      let k := { k with clists := clists }
      let n := n - left
      if n = 0 then k.wait tp else k.next tp c (k.t_col + n)

/-- `ttyoutput` with RAW or LITOUT. -/
def ttyoutputLiteral (c : UInt8) : Kernel Q :=
  if tp.t_flags.flusho then k.next tp c k.t_col
  else
    let (error, clists) := k.clists.putc c.toNat tp.t_outq
    let k := { k with clists := clists }
    if error ≠ 0 then k.wait tp else k.next tp c k.t_col

/-- `ttyoutput` for the first character of the buffer, up to the carriage return of a newline. -/
def ttyoutput (c : UInt8) : Option (Kernel Q) :=
  let ch := c &&& 0x7f
  if tp.t_flags.literal then some (k.ttyoutputLiteral tp c)
  else if ch = 9 ∧ tp.t_flags.xtabs then k.ttyoutputTab tp c
  else if ch = 10 ∧ tp.t_flags.crmod then
    let (error, clists) := k.clists.putc 13 tp.t_outq
    let k := { k with clists := clists }
    some (if error ≠ 0 then k.wait tp else { k with control := .newline })
  else some (k.ttyoutputEnd tp c)

/-- Transfer `ce` characters en masse. -/
def transfer (ce : Nat) : Option (Kernel Q) :=
  (k.clists.b_to_q (k.obuf.take ce) tp.t_outq).map fun (left, clists) =>
    let n := ce - left
    let k := { k with
      clists := clists
      t_col := k.t_col + n
      obuf := k.obuf.drop n
      sent := k.sent ++ k.obuf.take n }
    if 0 < left then k.wait tp
    else { k with control := if tp.t_flags.flusho || k.high tp then .whileResid else .whileCc }

/-- `while (cc > 0)`. -/
def whileCc : Option (Kernel Q) :=
  match k.obuf with
  | [] => some { k with control := .whileResid }
  | c :: _ =>
      if tp.t_flags.literal then k.transfer tp k.obuf.length
      else if ordinary k.obuf = 0 then k.ttyoutput tp c
      else k.transfer tp (ordinary k.obuf)

/-- `while (uio->uio_resid || cc > 0)`. -/
def whileResid : Kernel Q :=
  if k.uio = [] ∧ k.obuf = [] then { k with control := .returned .ok (k.uio.length + k.obuf.length) }
  else if tp.t_flags.flusho then { k with uio := [], control := .returned .ok 0 }
  else if k.high tp || k.clistLow tp then { k with control := .ovhiwat }
  else if k.obuf = [] then
    { k with uio := k.uio.drop OBUFSIZ, obuf := k.uio.take OBUFSIZ, control := .whileCc }
  else { k with control := .whileCc }

/-- From the label `loop` to the loop over the user's data. -/
def loop (carr_on isopen background : Bool) : Kernel Q :=
  if carr_on = false then
    if isopen then { k with control := .returned .eio k.uio.length }
    else if tp.ndelay then { k with control := .returned .ewouldblock (k.uio.length + k.obuf.length) }
    else { k with control := .asleep }
  else if background then { k with control := .asleep }
  else { k with control := .whileResid }

def ovhiwat : Kernel Q :=
  if k.high tp = false ∧ k.clistLow tp = false then { k with control := .loop } else k.wait tp

end Kernel

/-! ## Runs -/

/-- A call that concerns other queues only. -/
def others (outq : Q) : Call Q → Bool
  | .getc p => p ≠ outq
  | .putc _ p => p ≠ outq
  | .q_to_b q _ => q ≠ outq
  | .b_to_q _ q => q ≠ outq
  | .ndqb q _ => q ≠ outq
  | .ndflush q _ => q ≠ outq
  | .unputc p => p ≠ outq
  | .catq source target => source ≠ outq && target ≠ outq && source ≠ target
  | .walk p => p ≠ outq

inductive Event (Q : Type) where
  | run (carr_on isopen background : Bool)
  | getc
  | q_to_b (cc : Int)
  | other (c : Call Q)
  | signal

namespace Kernel

/-- The writer goes on from where it is. -/
def run (tp : Tty Q) (k : Kernel Q) (carr_on isopen background : Bool) : Option (Kernel Q) :=
  match k.control with
  | .loop => some (k.loop tp carr_on isopen background)
  | .whileResid => some (k.whileResid tp)
  | .whileCc => k.whileCc tp
  | .newline => k.obuf.head?.map fun c => k.ttyoutputEnd tp c
  | .ovhiwat => some (k.ovhiwat tp)
  | .asleep => some { k with control := .loop }
  | .returned _ _ => none
  | .interrupted => none

def event (char_signed : Bool) (tp : Tty Q) (k : Kernel Q) : Event Q → Option (Kernel Q)
  | .run carr_on isopen background => k.run tp carr_on isopen background
  | .getc =>
      let (c, clists) := k.clists.getc tp.t_outq
      some { k with
        clists := clists
        taken := if c < 0 then k.taken else k.taken ++ [UInt8.ofNat c.toNat] }
  | .q_to_b cc =>
      (k.clists.q_to_b tp.t_outq cc).map fun (out, clists) =>
        { k with clists := clists, taken := k.taken ++ out }
  | .other c =>
      if others tp.t_outq c then
        (k.clists.call char_signed c).map fun (_, clists) => { k with clists := clists }
      else none
  | .signal => if k.control = .asleep then some { k with control := .interrupted } else none

/-- The start of a write, with the pool and the column as earlier output left them. -/
def start (clists : Pool Q) (t_col : Int) (data : List UInt8) : Kernel Q where
  clists := clists
  t_col := t_col
  cnt := data.length
  uio := data
  obuf := []
  control := .loop
  taken := []
  sent := []

end Kernel

end DiscoBsd.Output
