import Mathlib.Algebra.GroupWithZero.Nat
import Mathlib.Algebra.BigOperators.Group.List.Basic

/-!
# Timed lists

A list of commands, some of which take time. `startOf` is the time at which a command may be carried
out: the sum of the times of those before it.
-/

namespace DiscoBsd.Lib

variable {α : Type*} (ms : α → Nat)

/-- The time at which command `i` may be carried out. -/
def startOf (cmds : List α) (i : Nat) : Nat := ((cmds.take i).map ms).sum

variable {ms} {cmds rest : List α} {i j : Nat}

theorem startOf_zero (cmds : List α) : startOf ms cmds 0 = 0 := rfl

theorem startOf_cons (cmd : α) (cmds : List α) (i : Nat) :
    startOf ms (cmd :: cmds) (i + 1) = ms cmd + startOf ms cmds i := by
  rw [startOf, List.take_succ_cons, List.map_cons, List.sum_cons]
  rfl

theorem startOf_append_left (rest : List α) (h : i ≤ cmds.length) :
    startOf ms (cmds ++ rest) i = startOf ms cmds i := by
  rw [startOf, List.take_append_of_le_length h]
  rfl

theorem startOf_append_right (cmds rest : List α) (i : Nat) :
    startOf ms (cmds ++ rest) (cmds.length + i) = startOf ms cmds cmds.length + startOf ms rest i := by
  unfold startOf
  rw [List.take_length_add_append, List.map_append, List.sum_append, List.take_length]

theorem startOf_length (cmds : List α) : startOf ms cmds cmds.length = (cmds.map ms).sum := by
  rw [startOf, List.take_length]

end DiscoBsd.Lib
