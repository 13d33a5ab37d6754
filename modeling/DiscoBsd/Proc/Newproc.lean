import DiscoBsd.File.Descriptors
import DiscoBsd.Proc.PidRuns
import DiscoBsd.Rmap.Map

/-!
# The fork system call

`fork1` and `newproc` over the process table, with the pointers of its lists and hash chains, the
references to files and inodes and the swap map. `newproc` makes the child by swapping the parent out
in its name; without room in the swap space it takes back what it has done.
-/

namespace DiscoBsd.Proc

open DiscoBsd.File (NOFILE)

/-- A pointer to a pointer to a process: a list, or the `p_nxt` of a process. -/
inductive Link where
  | allproc | zombproc
  | p_nxt (p : Nat)
deriving DecidableEq

inductive Stat where
  | free | SSLEEP | SRUN | SIDL | SZOMB | SSTOP
deriving DecidableEq

def SLOAD : BitVec 16 := 0x0001

def SLOCK : BitVec 16 := 0x0004

def SSWAP : BitVec 16 := 0x0008

def SVFORK : BitVec 16 := 0x0100

def SVFPRNT : BitVec 16 := 0x0200

def SVFDONE : BitVec 16 := 0x0400

def MAXUPRC : Nat := 20

def USIZE : Nat := 3072

def EAGAIN : Nat := 11

/-- `btod`: from bytes to device blocks. -/
def btod (bytes : Nat) : Nat := (bytes + 1023) % 2 ^ 32 / 1024

/-- A `struct proc`. -/
structure Slot where
  p_nxt : Option Nat
  p_prev : Option Link
  p_pptr : Option Nat
  p_flag : BitVec 16
  p_uid : Int
  p_pid : Int
  p_ppid : Int
  p_stat : Stat
  p_cpu : Int
  p_time : Int
  p_nice : Int
  p_slptime : Int
  p_hash : Option Nat
  p_sigmask : BitVec 32
  p_sigignore : BitVec 32
  p_sigcatch : BitVec 32
  p_pgrp : Int
  p_addr : Nat
  p_daddr : Nat
  p_saddr : Nat
  p_dsize : Nat
  p_ssize : Nat
  p_wchan : Nat
  it_value : Nat

/-- The `u.` area of the process that runs. -/
structure User (F I : Type) where
  u_procp : Nat
  u_ofile : Fin NOFILE → Option F
  u_lastfile : Int
  u_cdir : I
  u_rdir : Option I
  u_uid : Int
  u_error : Nat
  u_rval : Int
  u_dsize : Nat
  u_ssize : Nat
  ru_nswap : Nat

/-- The process table with its lists and what `newproc` shares between parent and child. -/
structure Kernel (F I : Type) where
  proc : Nat → Slot
  allproc : Option Nat
  zombproc : Option Nat
  freeproc : Option Nat
  pidhash : Fin 16 → Option Nat
  mpid : Int
  pidchecked : Int
  f_count : F → BitVec 32
  i_count : I → BitVec 32
  swapmap : Rmap.Map
  u : User F I

/-- `PIDHASH`. -/
def PIDHASH (pid : Int) : Fin 16 := ⟨(pid % 16).toNat, by omega⟩

variable {F I : Type}

namespace User

/-- The descriptors up to `u_lastfile`. -/
def descriptors (u : User F I) : List (Fin NOFILE) :=
  (List.finRange NOFILE).filter fun n => (n : Int) ≤ u.u_lastfile

/-- A change of the count of the file of one descriptor. -/
def overFile [DecidableEq F] (u : User F I) (change : BitVec 32 → BitVec 32)
    (f_count : F → BitVec 32) (n : Fin NOFILE) : F → BitVec 32 :=
  match u.u_ofile n with
  | none => f_count
  | some fp => Function.update f_count fp (change (f_count fp))

def overFiles [DecidableEq F] (u : User F I) (change : BitVec 32 → BitVec 32)
    (f_count : F → BitVec 32) : F → BitVec 32 :=
  u.descriptors.foldl (u.overFile change) f_count

def overDirs [DecidableEq I] (u : User F I) (change : BitVec 32 → BitVec 32)
    (i_count : I → BitVec 32) : I → BitVec 32 :=
  let i_count := Function.update i_count u.u_cdir (change (i_count u.u_cdir))
  match u.u_rdir with
  | none => i_count
  | some rdir => Function.update i_count rdir (change (i_count rdir))

end User

/-- A change of one process. -/
def onProc (proc : Nat → Slot) (p : Nat) (change : Slot → Slot) : Nat → Slot :=
  Function.update proc p (change (proc p))

/-- `ptr->p_prev = link`. -/
def setPrev (proc : Nat → Slot) (ptr : Option Nat) (link : Link) : Nat → Slot :=
  match ptr with
  | none => proc
  | some p => onProc proc p fun slot => { slot with p_prev := some link }

namespace Kernel

/-- The processes of a list, at most so many. -/
def walk (k : Kernel F I) : Nat → Option Nat → List Nat
  | 0, _ => []
  | _ + 1, none => []
  | limit + 1, some p => p :: walk k limit (k.proc p).p_nxt

/-- A process as the search for an id sees it. -/
def entry (k : Kernel F I) (p : Nat) : Entry := ⟨p, (k.proc p).p_pid, (k.proc p).p_pgrp⟩

/-- The search for an id in a table of `nproc` slots. -/
def newpid (k : Kernel F I) (nproc : Nat) : Option (Int × Int) :=
  Table.newpid ⟨k.mpid, k.pidchecked, (k.walk nproc k.allproc).map k.entry,
    (k.walk nproc k.zombproc).map k.entry, []⟩

def setProcp (k : Kernel F I) (p : Nat) : Kernel F I := { k with u := { k.u with u_procp := p } }

def setError (k : Kernel F I) (error : Nat) : Kernel F I :=
  { k with u := { k.u with u_error := error } }

/-! ## The child -/

/-- Off the free list, with the number that has been found. -/
def take (k : Kernel F I) (child : Nat) (mpid pidchecked : Int) : Kernel F I :=
  { k with mpid := mpid, pidchecked := pidchecked, freeproc := (k.proc child).p_nxt }

/-- The entry of the child. -/
def enter (k : Kernel F I) (child : Nat) : Kernel F I :=
  let parent := k.proc k.u.u_procp
  { k with
    proc := onProc k.proc child fun p =>
      { p with
        p_stat := .SIDL
        it_value := 0
        p_flag := SLOAD
        p_uid := parent.p_uid
        p_pgrp := parent.p_pgrp
        p_nice := parent.p_nice
        p_pid := k.mpid
        p_ppid := parent.p_pid
        p_pptr := some k.u.u_procp
        p_time := 0
        p_cpu := 0
        p_sigmask := parent.p_sigmask
        p_sigcatch := parent.p_sigcatch
        p_sigignore := parent.p_sigignore
        p_wchan := 0
        p_slptime := 0 } }

/-- In front of its hash chain. -/
def hash (k : Kernel F I) (child : Nat) : Kernel F I :=
  let chain := PIDHASH (k.proc child).p_pid
  { k with
    proc := onProc k.proc child fun p => { p with p_hash := k.pidhash chain }
    pidhash := Function.update k.pidhash chain (some child) }

/-- In front of `allproc`, which is never empty. -/
def link (k : Kernel F I) (child : Nat) : Kernel F I :=
  let proc := onProc k.proc child fun p => { p with p_nxt := k.allproc }
  let proc := setPrev proc (proc child).p_nxt (.p_nxt child)
  { k with
    proc := setPrev proc (some child) .allproc
    allproc := some child }

/-- A change of the counts of all that parent and child share. -/
def onShared [DecidableEq F] [DecidableEq I] (k : Kernel F I) (change : BitVec 32 → BitVec 32) :
    Kernel F I :=
  { k with
    f_count := k.u.overFiles change k.f_count
    i_count := k.u.overDirs change k.i_count }

/-- The child has the image of its parent and is in its place. -/
def simulate (k : Kernel F I) (parent child : Nat) : Kernel F I :=
  let proc := onProc k.proc child fun p =>
    { p with
      p_dsize := (k.proc parent).p_dsize
      p_ssize := (k.proc parent).p_ssize
      p_daddr := (k.proc parent).p_daddr
      p_saddr := (k.proc parent).p_saddr }
  let proc := onProc proc parent fun p => { p with p_stat := .SIDL }
  { k.setProcp child with
    proc := onProc proc child fun p =>
      { p with p_addr := (proc parent).p_addr, p_stat := .SRUN } }

/-- `swapout` of a whole process that keeps its core, and what it returns. -/
def swapout (k : Kernel F I) (p : Nat) : Option (Int × Kernel F I) :=
  (Rmap.malloc3 k.swapmap (btod (k.proc p).p_dsize) (btod (k.proc p).p_ssize) (btod USIZE)).map
    fun (addr, a, swapmap) =>
      if addr = 0 then (-1, { k with swapmap := swapmap })
      else
        (0, { k with
          swapmap := swapmap
          u := { k.u with ru_nswap := k.u.ru_nswap + 1 }
          proc := onProc k.proc p fun q =>
            { q with
              p_daddr := a.getD 0 0
              p_saddr := a.getD 1 0
              p_addr := a.getD 2 0
              p_flag := (q.p_flag ||| SLOCK) &&& ~~~(SLOAD ||| SLOCK)
              p_time := 0 } })

/-- The parent of a `vfork` gives its image away and sleeps; `others` is what the other processes do
until the child lets it go on. -/
def vforkWait (k : Kernel F I) (parent child : Nat) (others : Kernel F I → Kernel F I) :
    Option (Kernel F I) :=
  let proc := onProc k.proc parent fun p => { p with p_dsize := 0, p_ssize := 0 }
  let proc := onProc proc child fun p => { p with p_flag := p.p_flag ||| SVFORK }
  let proc := onProc proc parent fun p => { p with p_flag := p.p_flag ||| SVFPRNT }
  let k := others { k with proc := proc }
  if (k.proc child).p_flag &&& SLOAD = 0 then none
  else
    let image := k.proc child
    let proc := onProc k.proc parent fun p =>
      { p with
        p_dsize := image.p_dsize
        p_daddr := image.p_daddr
        p_ssize := image.p_ssize
        p_saddr := image.p_saddr
        p_flag := p.p_flag &&& ~~~SVFPRNT }
    some { k with
      u := { k.u with u_dsize := image.p_dsize, u_ssize := image.p_ssize }
      proc := onProc proc child fun p =>
        { p with p_dsize := 0, p_ssize := 0, p_flag := p.p_flag ||| SVFDONE } }

/-! ## The way back -/

/-- Off `allproc`, where the child is in front. -/
def unlink (k : Kernel F I) (child : Nat) : Kernel F I :=
  { k with
    allproc := (k.proc child).p_nxt
    proc := setPrev k.proc (k.proc child).p_nxt .allproc }

/-- Off the hash chain, where the child is in front. -/
def unhash (k : Kernel F I) (child : Nat) : Kernel F I :=
  { k with
    pidhash := Function.update k.pidhash (PIDHASH (k.proc child).p_pid) (k.proc child).p_hash }

/-- Back to the free list. -/
def release (k : Kernel F I) (child : Nat) : Kernel F I :=
  { k with
    proc := onProc k.proc child fun p => { p with p_stat := .free, p_nxt := k.freeproc }
    freeproc := some child }

variable [DecidableEq F] [DecidableEq I]

/-- What has been done for the child, in the opposite order. -/
def backout (k : Kernel F I) (parent child : Nat) : Kernel F I :=
  let k := k.setProcp parent
  let k := { k with proc := onProc k.proc parent fun p => { p with p_stat := .SRUN } }
  let k := k.onShared fun count => count - 1
  ((k.unlink child).unhash child).release child

/-! ## `newproc` and `fork1` -/

/-- `newproc` up to the call of `swapout`. -/
def makeChild (k : Kernel F I) (child : Nat) (mpid pidchecked : Int) : Kernel F I :=
  let k := k.take child mpid pidchecked
  let k := ((k.enter child).hash child).link child
  let k := k.onShared fun count => count + 1
  k.simulate k.u.u_procp child

/-- `newproc` in the parent, and what it returns. -/
def newproc (k : Kernel F I) (nproc : Nat) (isvfork : Bool) (others : Kernel F I → Kernel F I) :
    Option (Int × Kernel F I) :=
  match k.newpid nproc, k.freeproc with
  | some (mpid, pidchecked), some child =>
      let parent := k.u.u_procp
      match (k.makeChild child mpid pidchecked).swapout child with
      | none => none
      | some (result, k) =>
          if result ≠ 0 then some (-1, k.backout parent child)
          else
            let proc := onProc k.proc child fun p => { p with p_flag := p.p_flag ||| SSWAP }
            let proc := onProc proc parent fun p => { p with p_stat := .SRUN }
            let k := { k.setProcp parent with proc := proc }
            if isvfork then (k.vforkWait parent child others).map fun k => (0, k)
            else some (0, k)
  | _, _ => none

/-- `fork1` in the parent. -/
def fork1 (k : Kernel F I) (nproc : Nat) (isvfork : Bool) (others : Kernel F I → Kernel F I) :
    Option (Kernel F I) :=
  let a := ((k.walk nproc k.allproc ++ k.walk nproc k.zombproc).filter fun p =>
    (k.proc p).p_uid = k.u.u_uid).length
  match k.freeproc with
  | none => some (k.setError EAGAIN)
  | some p2 =>
      if k.u.u_uid ≠ 0 ∧ ((k.proc p2).p_nxt = none ∨ MAXUPRC < a) then some (k.setError EAGAIN)
      else
        (k.newproc nproc isvfork others).map fun (result, k) =>
          if result < 0 then k.setError EAGAIN
          else { k with u := { k.u with u_rval := (k.proc p2).p_pid } }

end Kernel

end DiscoBsd.Proc
