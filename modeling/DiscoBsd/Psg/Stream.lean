import DiscoBsd.Lib.Timed

/-!
# The stream of the PSG driver

A stream of 16-bit words is a list of commands of one or two words; a command whose value is still
missing is not one yet. `Plays` is what it means to carry out the commands that are due.
-/

namespace DiscoBsd.Psg

open Lib

/-- A write to the hardware: to a register by its offset, or of the share in the mix. -/
inductive Write where
  | reg (r v : UInt16)
  | mix (m : UInt16)
  deriving DecidableEq

/-- A command with its words. -/
inductive Command where
  | one (w : UInt16)
  | two (w v : UInt16)
  deriving DecidableEq

/-- Has a command that starts with this word a value? -/
def takesValue (w : UInt16) : Bool := w &&& 0x8000 == 0 && w &&& 0xf000 == 0x4000

/-- `psg_regok`. -/
def psg_regok (r : UInt16) : Bool :=
  if r &&& 1 ≠ 0 then false
  else decide (r ≥ 0x60 ∧ r ≤ 0x80) || decide (r ≥ 0x90 ∧ r ≤ 0x9e)

namespace Command

def words : Command → List UInt16
  | one w => [w]
  | two w v => [w, v]

/-- The milliseconds that a command waits. -/
def ms : Command → Nat
  | one w => if w &&& 0x8000 ≠ 0 then (w &&& 0x7fff).toNat else 0
  | two .. => 0

/-- What a command writes to the hardware. -/
def writes : Command → List Write
  | one w =>
      if w &&& 0x8000 ≠ 0 then []
      else if w &&& 0xf000 = 0x5000 ∧ w &&& 0xfff ≤ 2 then [.mix (w &&& 3)] else []
  | two w v => if psg_regok (w &&& 0xff) then [.reg (w &&& 0xff) v] else []

/-- A command has a value if its first word says so. -/
def WellFormed : Command → Prop
  | one w => takesValue w = false
  | two w _ => takesValue w = true

end Command

/-- The complete commands of a stream. -/
def commands : List UInt16 → List Command
  | [] => []
  | [w] => if takesValue w then [] else [.one w]
  | w :: v :: ws => if takesValue w then .two w v :: commands ws else .one w :: commands (v :: ws)

/-- A stream does not end within a command. -/
def Complete (ws : List UInt16) : Prop := ((commands ws).flatMap Command.words) = ws

instance (ws : List UInt16) : Decidable (Complete ws) := inferInstanceAs (Decidable (_ = _))

/-! ## Commands and words -/

theorem commands_cons_two {w v : UInt16} {ws : List UInt16} (h : takesValue w = true) :
    commands (w :: v :: ws) = .two w v :: commands ws := by
  rw [commands, if_pos h]

theorem commands_cons_one {w : UInt16} {ws : List UInt16} (h : takesValue w = false) :
    commands (w :: ws) = .one w :: commands ws := by
  cases ws with
  | nil => exact if_neg (Bool.eq_false_iff.mp h)
  | cons v ws => exact if_neg (Bool.eq_false_iff.mp h)

/-- Commands in front of a stream are commands of it. -/
theorem commands_append {cmds : List Command} (hcmds : ∀ c ∈ cmds, c.WellFormed) (ws : List UInt16) :
    commands (cmds.flatMap Command.words ++ ws) = cmds ++ commands ws := by
  induction cmds with
  | nil => rfl
  | cons c cmds ih =>
      have hrest := ih fun c' hc' => hcmds c' (List.mem_cons_of_mem _ hc')
      have hc := hcmds c List.mem_cons_self
      cases c with
      | one w =>
          show commands (w :: (cmds.flatMap Command.words ++ ws)) = _
          rw [commands_cons_one hc, hrest]
          rfl
      | two w v =>
          show commands (w :: v :: (cmds.flatMap Command.words ++ ws)) = _
          rw [commands_cons_two hc, hrest]
          rfl

/-! ## Playing -/

/-- What playing does: it takes commands off the front, none before its time, and goes on as long as
one that is due is there. -/
structure Plays (wait : Int) (ws : List UInt16) (cmds : List Command) (wait' : Int)
    (rest : List UInt16) : Prop where
  split : cmds.flatMap Command.words ++ rest = ws
  wellFormed : ∀ c ∈ cmds, c.WellFormed
  waits : wait' = wait + (cmds.map Command.ms).sum
  due : ∀ i < cmds.length, wait + startOf Command.ms cmds i ≤ 0
  stopped : 0 < wait' ∨ commands rest = []

/-- A command that is due, and then the others. -/
theorem Plays.cons {wait wait' : Int} {c : Command} {ws rest : List UInt16} {cmds : List Command}
    (h : Plays (wait + c.ms) ws cmds wait' rest) (hdue : wait ≤ 0) (hc : c.WellFormed) :
    Plays wait (c.words ++ ws) (c :: cmds) wait' rest := by
  refine ⟨?_, List.forall_mem_cons.mpr ⟨hc, h.wellFormed⟩, ?_, fun i hi => ?_, h.stopped⟩
  · rw [List.flatMap_cons, List.append_assoc, h.split]
  · rw [h.waits, List.map_cons, List.sum_cons]
    push_cast
    omega
  · cases i with
    | zero =>
        rw [startOf_zero]
        omega
    | succ i =>
        have hnext := h.due i (Nat.lt_of_succ_lt_succ hi)
        rw [startOf_cons]
        push_cast
        omega

end DiscoBsd.Psg
