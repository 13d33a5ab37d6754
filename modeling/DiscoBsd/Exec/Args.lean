import DiscoBsd.Exec.Loader
import DiscoBsd.Lib.Bytes

/-!
# Saving the arguments of exec

`exec_save_args` copies the strings of the caller into six buffers of `exec_alloc`, before the old image
is given up. The memory of the caller is read through its pointers, wherever they lead. Strings are
without their NUL, sizes are those of objects in the memory of a process, and `geteblk` waits until it
has a buffer.
-/

namespace DiscoBsd.Exec

abbrev Str := List UInt8

/-- The bytes of strings with their NULs. -/
def bytes (strs : List Str) : Nat := (strs.map fun str => str.length + 1).sum

/-- The bytes used in each of the buffers. -/
abbrev Arena := List Nat

def MAXALLOCBUF : Nat := 6

/-- The buffers before anything is allocated. -/
def Arena.empty : Arena := List.replicate MAXALLOCBUF 0

/-- `exec_alloc`: the buffer and the offset of the object, in the first buffer that has room. `geteblk` is
taken to give a buffer in the end: with `NBUF` 3 an exec that takes three sleeps for ever. -/
def exec_alloc (size ru : Nat) : Arena → Option ((Nat × Nat) × Arena)
  | [] => none
  | fill :: alloc =>
      let start := if ru ≤ 1 then fill else (fill + (ru - 1)) / ru * ru
      if start + size ≤ MAXBSIZE then some ((0, start), (start + size) :: alloc)
      else (exec_alloc size ru alloc).map fun ((i, offset), alloc) => ((i + 1, offset), fill :: alloc)

/-- The memory of the caller: the pointer and the string at each address. -/
structure UserMemory where
  word : Nat → Nat
  str : Nat → Str

namespace UserMemory

/-- The string of a pointer that is not NULL. -/
def deref (mem : UserMemory) (ptr : Nat) : Option Str := if ptr = 0 then none else some (mem.str ptr)

/-- `while (argp[argc]) argc++;` in an address space of so many words. -/
def count (mem : UserMemory) : Nat → Nat → Nat
  | 0, _ => 0
  | words + 1, argp => if mem.word argp = 0 then 0 else mem.count words (wrap (argp + NBPW)) + 1

end UserMemory

/-- The first line of a script. Without an argument `interparg` is empty. -/
structure Script where
  interpname : Str
  interparg : Str

/-- What `exec_save_args` finds in `exec_params`. -/
structure Call where
  mem : UserMemory
  userfname : Str
  userargp : Nat
  userenvp : Nat
  sh : Option Script
  alloc : Arena

/-- The saved lists, and how many pointers have been allocated for each. -/
structure Saved where
  argp : List Str
  argSlots : Nat
  envp : List Str
  envSlots : Nat

namespace Call

/-- The number of strings at a pointer, which may be NULL. -/
def strings (x : Call) (userp : Nat) : Nat := if userp = 0 then 0 else x.mem.count (2 ^ 30) userp

/-- The number of arguments that pointers are allocated for. -/
def argc (x : Call) : Nat :=
  match x.sh with
  | none => x.strings x.userargp
  | some sh => x.strings x.userargp + 1 + if sh.interparg = [] then 0 else 1

/-- `if (argp) ap = *argp++; else ap = NULL;` -/
def fetch (x : Call) (argp : Nat) : Option Str × Nat :=
  if argp = 0 then (none, 0) else (x.mem.deref (x.mem.word argp), wrap (argp + NBPW))

/-- `--argp` -/
def stepBack (argp : Nat) : Nat := wrap (argp + (4294967296 - NBPW))

/-- The next argument, and the pointer behind it. The words of the first line and the name of a script
come before its arguments. -/
def nextArg (x : Call) (argc argp : Nat) : Option Str × Nat :=
  let (ap, argp) := x.fetch argp
  match x.sh with
  | none => (ap, argp)
  | some sh =>
      if argc = 0 then (some sh.interpname, argp)
      else if argc = 1 ∧ sh.interparg ≠ [] then (some sh.interparg, stepBack argp)
      else if argc = 1 ∨ argc = 2 ∧ sh.interparg ≠ [] then (some x.userfname, stepBack argp)
      else (ap, argp)

end Call

/-- The loop that saves strings, for so many strings at most: whether it comes to the end of the list,
what has been saved and what is used. A string that finds no room ends it, too. -/
def saveStrings (next : Nat → Nat → Option Str × Nat) :
    Nat → List Str → Nat → Arena → Bool × List Str × Arena
  | 0, saved, _, alloc => (false, saved, alloc)
  | strings + 1, saved, ptr, alloc =>
      match next saved.length ptr with
      | (none, _) => (true, saved, alloc)
      | (some ap, ptr) =>
          match exec_alloc (ap.length + 1) 1 alloc with
          | none => (false, saved, alloc)
          | some (_, alloc) => saveStrings next strings (saved ++ [ap]) ptr alloc

/-- The bytes that are left. Each string takes one at least. -/
def Arena.free (alloc : Arena) : Nat := (alloc.map fun fill => MAXBSIZE - fill).sum

/-- One of the lists with its pointers, of which none are needed for an empty list. -/
def saveList (next : Nat → Nat → Option Str × Nat) (count ptr : Nat) (alloc : Arena) :
    Bool × Nat × List Str × Arena :=
  if count = 0 then (true, 0, [], alloc)
  else
    match exec_alloc (count * NBPW) NBPW alloc with
    | none => (false, 0, [], alloc)
    | some (_, alloc) =>
        let (done, saved, alloc) := saveStrings next (alloc.free + 1) [] ptr alloc
        (done, count, saved, alloc)

/-- `exec_save_args`. A pointer that is stored behind its array is counted, what it overwrites is not
followed. -/
def exec_save_args (x : Call) : Saved :=
  let (done, argSlots, argp, alloc) := saveList x.nextArg x.argc x.userargp x.alloc
  if done then
    let (_, envSlots, envp, _) :=
      saveList (fun _ => x.fetch) (x.strings x.userenvp) x.userenvp alloc
    ⟨argp, argSlots, envp, envSlots⟩
  else ⟨argp, argSlots, [], 0⟩

/-- The handlers go on after `exec_save_args`, which returns nothing, to the checks of the file. When
it is accepted the program is started with what has been saved. -/
def execute (x : Call) (accepted : Bool) : Option Saved :=
  if accepted then some (exec_save_args x) else none

/-! ## The stack of a new program

`exec_setupstack` puts the saved lists at the top of the memory of the process, which the kernel writes
at the addresses the process has. Each loader computes the section of the stack on its own. The name for
accounting is left out.
-/

section

open Lib

/-! ## Machines -/

/-- Where the memory of a process ends, and whether the machine is a MIPS, or else an ARM. -/
structure Port where
  user_data_end : Nat
  mips : Bool
  aligned : user_data_end % 8 = 0
  low : 16384 ≤ user_data_end
  high : user_data_end < 4294967296

def Port.gba (w : Window) : Port where
  user_data_end := w.user_data_end
  mips := false
  aligned := by cases w <;> rfl
  low := by cases w <;> decide
  high := by cases w <;> decide

def Port.pic32 : Port where
  user_data_end := 0x7f000000 + 128 * 1024
  mips := true
  aligned := rfl
  low := by decide
  high := by decide

/-! ## The section -/

namespace Saved

def argc (epp : Saved) : Nat := epp.argp.length % 65536

def envc (epp : Saved) : Nat := epp.envp.length % 65536

def argbc (epp : Saved) : Nat := bytes epp.argp % 65536

def envbc (epp : Saved) : Nat := bytes epp.envp % 65536

/-- Before `exec_save_args`. -/
def nothing : Saved := ⟨[], 0, [], 0⟩

end Saved

inductive Loader where
  | aout
  | elf
  deriving DecidableEq

/-- The buffers at the call of `exec_save_args`. A program header has been read into the first. -/
def Loader.alloc : Loader → Arena
  | aout => .empty
  | elf => 32 :: List.replicate (MAXALLOCBUF - 1) 0

def Loader.stackLen (epp : Saved) : Loader → Nat
  | aout => wrap (SSIZE + roundup (epp.argbc + epp.envbc) + (epp.argc + epp.envc + 4) * NBPW)
  | elf => wrap (SSIZE + epp.argbc + epp.envbc + (epp.argc + epp.envc + 4) * NBPW)

/-- `addr - len`. -/
def below (addr len : Nat) : Nat := wrap (addr + (4294967296 - len))

/-- The section of the stack. `exec_elf_check` computes it before the lists are saved. -/
def Loader.stack (port : Port) (saved : Saved) (loader : Loader) : Memsect :=
  let len := match loader with
    | aout => aout.stackLen saved
    | elf => elf.stackLen .nothing
  ⟨below port.user_data_end len, len⟩

/-! ## The stack -/

/-- `copystr`: whether all of the string has been copied, and how many bytes. -/
def copystr : Str → Nat → Nat → Bytes → Bool × Nat × Bytes
  | [], maxlength, dest, mem =>
      if maxlength = 0 then (false, 0, mem) else (true, 1, putBytes mem dest [0])
  | c :: src, maxlength, dest, mem =>
      if maxlength = 0 then (false, 0, mem)
      else
        let (copied, len, mem) := copystr src (maxlength - 1) (dest + 1) (putBytes mem dest [c])
        (copied, len + 1, mem)

/-- The loop that copies a list: its pointers from `ptr` on, its strings from `ucp` on. -/
def putStrings (topp : Nat) : List Str → Nat → Nat → Bytes → Nat × Bytes
  | [], ptr, ucp, mem => (ucp, put32 mem ptr 0)
  | str :: strs, ptr, ucp, mem =>
      match copystr str (below topp ucp) ucp (put32 mem ptr ucp) with
      | (true, len, mem) => putStrings topp strs (ptr + NBPW) (ucp + len) mem
      | (false, _, mem) => putStrings topp strs (ptr + NBPW) ucp mem

/-- The memory and the registers that the program starts with. -/
structure Started where
  mem : Bytes
  sp : Nat
  argc : Nat
  argp : Nat
  envp : Nat

/-- `argp - 16` and `argp - 0x40`, of pointers. -/
def Port.gap (port : Port) : Nat := if port.mips then 16 * NBPW else 0x40 * NBPW

/-- `exec_setupstack`, which may panic. -/
def exec_setupstack (port : Port) (stack : Memsect) (epp : Saved) (mem : Bytes) : Option Started :=
  let topp := below (wrap (stack.vaddr + stack.len)) NBPW
  let ucp := below topp (roundup (epp.envbc + epp.argbc))
  let envp := below ucp ((epp.envc + 1) * NBPW)
  let argp := below envp ((epp.argc + 1) * NBPW)
  let sp := if port.mips then below argp port.gap else below argp port.gap / 8 * 8
  let (ucp, mem) := putStrings topp (epp.argp.take epp.argc) argp ucp (put32 mem topp argp)
  let (ucp, mem) := putStrings topp (epp.envp.take epp.envc) envp ucp mem
  if roundup ucp = topp then some ⟨mem, sp, epp.argc, argp, envp⟩ else none

end

end DiscoBsd.Exec
