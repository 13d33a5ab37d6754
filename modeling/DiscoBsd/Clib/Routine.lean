import DiscoBsd.Asm.Syntax
import DiscoBsd.Lib.ArmRun

/-!
# Routines of the C library in assembly language

The lines of `clib.s` without its comments and directives, and the code that they stand for. The
loader puts the code at a multiple of four, wherever that is.
-/

namespace DiscoBsd.Clib

open Asm Lib.Armv4

/-- A line of a routine. -/
inductive Line where
  | label (name : String)
  | instr (mnem ops : String)

def Line.size : Line → Nat
  | .label _ => 0
  | .instr .. => 4

/-- The offset of a label. -/
def offsetOf (name : Text) : List Line → Option Nat
  | [] => none
  | .label l :: rest => if l.toList = name then some 0 else offsetOf name rest
  | .instr .. :: rest => (offsetOf name rest).map (4 + ·)

/-- The instructions of some lines that begin at an offset. -/
def codeFrom (find : Text → Option Nat) : Nat → List Line → Option (List Instr)
  | _, [] => some []
  | off, .label _ :: rest => codeFrom find off rest
  | off, .instr mnem ops :: rest => do
      let i ← meaning find off mnem.toList ops.toList
      let rest ← codeFrom find (off + 4) rest
      return i :: rest

def codeOf (src : List Line) : Option (List Instr) := codeFrom (offsetOf · src) 0 src

/-- The machine is in front of a routine of some lines whose code is loaded. -/
def Calls (code : Code) (src : List Line) (name : String) (m : Machine) : Prop :=
  ∃ prog off base, codeOf src = some prog ∧ offsetOf name.toList src = some off ∧
    Loaded code base prog ∧ m.pc = base + off ∧ m.thumb = false

/-- A call has come back to where `lr` said, with these registers as they were. -/
structure Returned (saved : List Nat) (m m' : Machine) : Prop where
  pc : m'.pc = (m.reg 14 &&& ~~~1).toNat
  thumb : m'.thumb = (m.reg 14).getLsbD 0
  kept : ∀ r ∈ saved, m'.reg r = m.reg r

/-- A routine is followed from its place in the instructions. -/
theorem Calls.reaches {code : Code} {src : List Line} {name : String} {m : Machine}
    {goal : Machine → Prop} {prog : List Instr} {k : Nat} (h : Calls code src name m)
    (hcode : codeOf src = some prog) (hoff : offsetOf name.toList src = some (4 * k))
    (hrun : ∀ base, Loaded code base prog → Reaches code goal (point base k m.reg m.flags m.mem)) :
    Reaches code goal m := by
  obtain ⟨prog', off, base, hcode', hoff', hload, hpc, hthumb⟩ := h
  obtain rfl := Option.some.inj (hcode.symm.trans hcode')
  obtain rfl := Option.some.inj (hoff.symm.trans hoff')
  have hm : point base k m.reg m.flags m.mem = m := by
    unfold point
    rw [← hpc, ← hthumb]
  rw [← hm]
  exact hrun base hload

end DiscoBsd.Clib
