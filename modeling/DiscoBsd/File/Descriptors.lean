import DiscoBsd.Lib.Holders
import DiscoBsd.Lib.Steps

/-!
# File descriptors and the open-file table

The descriptor tables of the processes and the open-file table they share. A system call is one step,
but `open` is three: the entry is in use, and the descriptor refers to it, while the path is looked up
and while the call waits for a lock. `attached` counts how often an object was attached to an entry
and `released` how often `closef` called the object's close routine.

The number of processes and the size of the open-file table are parameters.
-/

namespace DiscoBsd.File

open DiscoBsd.Lib

def NOFILE : Nat := 30

inductive Errno where
  | ebadf | emfile | einval | enfile | eacces | eagain | enodev | enxio | other
deriving DecidableEq

def UF_EXCLOSE : BitVec 8 := 0x1

def FREAD : BitVec 32 := 0x0001

def FWRITE : BitVec 32 := 0x0002

def O_NONBLOCK : BitVec 32 := 0x0004

def O_APPEND : BitVec 32 := 0x0008

def O_SHLOCK : BitVec 32 := 0x0010

def O_EXLOCK : BitVec 32 := 0x0020

def O_ASYNC : BitVec 32 := 0x0040

def O_FSYNC : BitVec 32 := 0x0080

def FMASK : BitVec 32 := FREAD ||| FWRITE ||| O_APPEND ||| O_ASYNC ||| O_FSYNC ||| O_NONBLOCK

/-- How far an `open` has come: the path is looked up, or the lock is waited for. -/
inductive Opening where
  | vnode (indx : Fin NOFILE) (flags : BitVec 32)
  | lock (indx : Fin NOFILE)
deriving DecidableEq

/-- The descriptors in the user area of a process. -/
structure User (NFILE : Nat) where
  u_ofile : Fin NOFILE → Option (Fin NFILE)
  u_pofile : Fin NOFILE → BitVec 8
  u_lastfile : Int
  u_rval : Int
  u_error : Option Errno
  opening : Option Opening
  alive : Bool

/-- The open-file table and all processes. -/
structure Kernel (NFILE nproc : Nat) where
  f_count : Fin NFILE → Nat
  f_flag : Fin NFILE → BitVec 32
  lastf : Nat
  u : Fin nproc → User NFILE
  attached : Fin NFILE → Nat
  released : Fin NFILE → Nat

variable {NFILE nproc : Nat}

/-- The largest descriptor below `n` that is open, or -1. -/
def lower (u_ofile : Fin NOFILE → Option (Fin NFILE)) : Nat → Int
  | 0 => -1
  | n + 1 =>
      if h : n < NOFILE then
        if u_ofile ⟨n, h⟩ = none then lower u_ofile n else n
      else lower u_ofile n

namespace User

/-- `while (u.u_lastfile >= 0 && u.u_ofile[u.u_lastfile] == NULL) u.u_lastfile--`. -/
def lowerLastfile (u : User NFILE) : User NFILE :=
  { u with u_lastfile := lower u.u_ofile (u.u_lastfile + 1).toNat }

def error (e : Errno) (u : User NFILE) : User NFILE := { u with u_error := some e }

def rval (value : Int) (u : User NFILE) : User NFILE := { u with u_rval := value }

/-- Another content for a descriptor. -/
def put (fd : Fin NOFILE) (content : Option (Fin NFILE)) (u : User NFILE) : User NFILE :=
  { u with u_ofile := Function.update u.u_ofile fd content }

def setFlags (fd : Fin NOFILE) (flags : BitVec 8) (u : User NFILE) : User NFILE :=
  { u with u_pofile := Function.update u.u_pofile fd flags }

/-- `if (fd > u.u_lastfile) u.u_lastfile = fd`. -/
def raiseLastfile (fd : Fin NOFILE) (u : User NFILE) : User NFILE :=
  { u with u_lastfile := if u.u_lastfile < fd then fd else u.u_lastfile }

/-- The descriptors up to `u_lastfile`. -/
def descriptors (u : User NFILE) : List (Fin NOFILE) :=
  (List.finRange NOFILE).filter fun fd => decide ((fd : Int) ≤ u.u_lastfile)

end User

namespace Kernel

/-- A change of the user area of a process. -/
def onUser (k : Kernel NFILE nproc) (p : Fin nproc) (change : User NFILE → User NFILE) :
    Kernel NFILE nproc :=
  { k with u := Function.update k.u p (change (k.u p)) }

def setCount (k : Kernel NFILE nproc) (fp : Fin NFILE) (count : Nat) : Kernel NFILE nproc :=
  { k with f_count := Function.update k.f_count fp count }

/-- The descriptor with this number, and the entry it refers to. -/
def getf (k : Kernel NFILE nproc) (p : Fin nproc) (f : Int) : Option (Fin NOFILE × Fin NFILE) :=
  if h : 0 ≤ f ∧ f.toNat < NOFILE then
    ((k.u p).u_ofile ⟨f.toNat, h.2⟩).map fun fp => (⟨f.toNat, h.2⟩, fp)
  else none

/-- Allocate a descriptor, the first free one from `i` on. -/
def ufalloc (k : Kernel NFILE nproc) (p : Fin nproc) (i : Nat) :
    Option (Fin NOFILE) × Kernel NFILE nproc :=
  match (List.finRange NOFILE).find? fun fd : Fin NOFILE =>
      decide (i ≤ fd.val) && ((k.u p).u_ofile fd).isNone with
  | none => (none, k.onUser p (User.error .emfile))
  | some fd =>
      (some fd, k.onUser p fun u => ((u.rval fd).setFlags fd 0).raiseLastfile fd)

def dupit (k : Kernel NFILE nproc) (p : Fin nproc) (fd : Fin NOFILE) (fp : Fin NFILE)
    (flags : BitVec 8) : Kernel NFILE nproc :=
  (k.onUser p fun u => ((u.put fd (some fp)).setFlags fd flags).raiseLastfile fd).setCount fp
    (k.f_count fp + 1)

/-- Internal form of close. -/
def closef (k : Kernel NFILE nproc) : Option (Fin NFILE) → Kernel NFILE nproc
  | none => k
  | some fp =>
      if 1 < k.f_count fp then k.setCount fp (k.f_count fp - 1)
      else
        { k.setCount fp 0 with released := Function.update k.released fp (k.released fp + 1) }

/-- The first free entry from `lastf` on, and then from the start of the table. -/
def findFile (k : Kernel NFILE nproc) : Option (Fin NFILE) :=
  let free := (List.finRange NFILE).filter fun fp => decide (k.f_count fp = 0)
  match free.find? fun fp : Fin NFILE => decide (k.lastf ≤ fp.val) with
  | some fp => some fp
  | none => free.find? fun fp : Fin NFILE => decide (fp.val < k.lastf)

/-- Allocate a descriptor and an entry of the open-file table. -/
def falloc (k : Kernel NFILE nproc) (p : Fin nproc) :
    Option (Fin NOFILE × Fin NFILE) × Kernel NFILE nproc :=
  match k.ufalloc p 0 with
  | (none, k) => (none, k)
  | (some i, k) =>
      match k.findFile with
      | none => (none, k.onUser p (User.error .enfile))
      | some fp =>
          (some (i, fp), { (k.onUser p (User.put i (some fp))).setCount fp 1 with lastf := fp + 1 })

/-! ## System calls -/

def dup2 (k : Kernel NFILE nproc) (p : Fin nproc) (i j : Int) : Kernel NFILE nproc :=
  match k.getf p i with
  | none => k.onUser p (User.error .ebadf)
  | some (fd, fp) =>
      if h : 0 ≤ j ∧ j.toNat < NOFILE then
        let k := k.onUser p (User.rval j)
        if i = j then k
        else
          let target : Fin NOFILE := ⟨j.toNat, h.2⟩
          let k := k.closef ((k.u p).u_ofile target)
          k.dupit p target fp ((k.u p).u_pofile fd &&& ~~~UF_EXCLOSE)
      else k.onUser p (User.error .ebadf)

/-- `dup`; an old calling convention has `dup2` behind a flag bit in its argument. -/
def dup (k : Kernel NFILE nproc) (p : Fin nproc) (i j : Int) : Kernel NFILE nproc :=
  if i < 0 ∨ 64 ≤ i then k.dup2 p (i % 64) j
  else
    match k.getf p i with
    | none => k.onUser p (User.error .ebadf)
    | some (fd, fp) =>
        match k.ufalloc p 0 with
        | (none, k) => k
        | (some target, k) => k.dupit p target fp ((k.u p).u_pofile fd &&& ~~~UF_EXCLOSE)

/-- The commands of `fcntl` that concern descriptors. -/
inductive Fcntl where
  | F_DUPFD (arg : Int)
  | F_GETFD
  | F_SETFD (arg : Int)

def fcntl (k : Kernel NFILE nproc) (p : Fin nproc) (fdes : Int) (cmd : Fcntl) :
    Kernel NFILE nproc :=
  match k.getf p fdes with
  | none => k.onUser p (User.error .ebadf)
  | some (fd, fp) =>
      match cmd with
      | .F_DUPFD arg =>
          if arg < 0 ∨ (NOFILE : Int) ≤ arg then k.onUser p (User.error .einval)
          else
            match k.ufalloc p arg.toNat with
            | (none, k) => k
            | (some target, k) => k.dupit p target fp ((k.u p).u_pofile fd &&& ~~~UF_EXCLOSE)
      | .F_GETFD => k.onUser p fun u => u.rval (u.u_pofile fd &&& 1).toNat
      | .F_SETFD arg =>
          k.onUser p fun u => u.setFlags fd ((u.u_pofile fd &&& ~~~1) ||| (BitVec.ofInt 8 arg &&& 1))

def close (k : Kernel NFILE nproc) (p : Fin nproc) (i : Int) : Kernel NFILE nproc :=
  match k.getf p i with
  | none => k.onUser p (User.error .ebadf)
  | some (fd, fp) => (k.onUser p fun u => (u.put fd none).lowerLastfile).closef (some fp)

/-- `copen` up to the lookup of the path. -/
def copen (k : Kernel NFILE nproc) (p : Fin nproc) (flags : BitVec 32) : Kernel NFILE nproc :=
  match k.falloc p with
  | (none, k) => k
  | (some (indx, fp), k) =>
      { k.onUser p fun u => { u with opening := some (.vnode indx flags) } with
        f_flag := Function.update k.f_flag fp (flags &&& FMASK) }

/-- Duplicate a descriptor in place of the one that was allocated. -/
def dupfdopen (k : Kernel NFILE nproc) (p : Fin nproc) (indx : Fin NOFILE) (dfd : Int)
    (mode : BitVec 32) (error : Errno) : Option Errno × Kernel NFILE nproc :=
  match k.getf p dfd with
  | none => (some .ebadf, k)
  | some (fd, wfp) =>
      if (k.u p).u_ofile indx = some wfp then (some .ebadf, k)
      else if error = .enodev then
        if (mode &&& (FREAD ||| FWRITE)) ||| k.f_flag wfp ≠ k.f_flag wfp then (some .eacces, k)
        else
          (none, (k.onUser p fun u =>
            ((u.put indx (some wfp)).setFlags indx (u.u_pofile fd)).raiseLastfile indx).setCount wfp
              (k.f_count wfp + 1))
      else (some error, k)

/-- How the lookup of the path ends: with the inode, or with an error and `u_dupfd`. -/
inductive Lookup where
  | found
  | failed (error : Errno) (u_dupfd : Int)

/-- `copen` after the lookup of the path. -/
def vnOpened (k : Kernel NFILE nproc) (p : Fin nproc) (indx : Fin NOFILE) (fp : Fin NFILE)
    (flags : BitVec 32) : Lookup → Kernel NFILE nproc
  | .failed error u_dupfd =>
      let k := k.setCount fp 0
      let closed := fun (k : Kernel NFILE nproc) (error : Option Errno) =>
        k.onUser p fun u => { u.put indx none with u_error := error, opening := none }
      if (error = .enodev ∨ error = .enxio) ∧ 0 ≤ u_dupfd then
        match k.dupfdopen p indx u_dupfd flags error with
        | (none, k) => k.onUser p fun u => { u.rval indx with opening := none }
        -- `error = dupfdopen(..) == 0` makes the error 0
        | (some _, k) => closed k none
      else closed k (some error)
  | .found =>
      let k := { k with attached := Function.update k.attached fp (k.attached fp + 1) }
      if flags &&& (O_EXLOCK ||| O_SHLOCK) ≠ 0 then
        k.onUser p fun u => { u with opening := some (.lock indx) }
      else k.onUser p fun u => { u with opening := none }

/-- `copen` after the wait for the lock. -/
def locked (k : Kernel NFILE nproc) (p : Fin nproc) (indx : Fin NOFILE) (error : Option Errno) :
    Kernel NFILE nproc :=
  match error with
  | none => k.onUser p fun u => { u with opening := none }
  | some error =>
      (k.closef ((k.u p).u_ofile indx)).onUser p fun u =>
        { (u.put indx none).error error with opening := none }

/-- `pipe`; the flag says that `ialloc` finds an inode. -/
def pipe (k : Kernel NFILE nproc) (p : Fin nproc) (inode : Bool) : Kernel NFILE nproc :=
  if inode = false then k
  else
    match k.falloc p with
    | (none, k) => k
    | (some (r, rf), k) =>
        match k.falloc p with
        | (none, k) => (k.setCount rf 0).onUser p (User.put r none)
        | (some (_, wf), k) =>
            let k := { k with attached := Function.update k.attached rf (k.attached rf + 1) }
            let k := { k with attached := Function.update k.attached wf (k.attached wf + 1) }
            { k.onUser p (User.rval r) with
              f_flag := Function.update (Function.update k.f_flag wf FWRITE) rf FREAD }

/-- `fp->f_count++` for a descriptor of the parent. -/
def reference (row : Fin NOFILE → Option (Fin NFILE)) (k : Kernel NFILE nproc) (fd : Fin NOFILE) :
    Kernel NFILE nproc :=
  match row fd with
  | none => k
  | some fp => k.setCount fp (k.f_count fp + 1)

/-- `fp->f_count--` for a descriptor of the parent. -/
def dereference (row : Fin NOFILE → Option (Fin NFILE)) (k : Kernel NFILE nproc)
    (fd : Fin NOFILE) : Kernel NFILE nproc :=
  match row fd with
  | none => k
  | some fp => k.setCount fp (k.f_count fp - 1)

/-- `newproc`; the flag says that there is room in swap for the child. -/
def newproc (k : Kernel NFILE nproc) (parent child : Fin nproc) (room : Bool) :
    Kernel NFILE nproc :=
  let u := k.u parent
  let k := u.descriptors.foldl (reference u.u_ofile) k
  if room then k.onUser child fun _ => u
  else (u.descriptors.foldl (dereference u.u_ofile) k).onUser parent (User.error .eagain)

/-- Close the descriptors that are marked, in an exec. -/
def execClose (p : Fin nproc) (k : Kernel NFILE nproc) (cc : Fin NOFILE) : Kernel NFILE nproc :=
  if (k.u p).u_pofile cc &&& UF_EXCLOSE ≠ 0 then
    (k.closef ((k.u p).u_ofile cc)).onUser p fun u => (u.put cc none).setFlags cc 0
  else k

/-- The part of an exec that concerns descriptors. -/
def execve (k : Kernel NFILE nproc) (p : Fin nproc) : Kernel NFILE nproc :=
  ((k.u p).descriptors.foldl (execClose p) k).onUser p User.lowerLastfile

/-- Close a descriptor of an exiting process. -/
def exitClose (p : Fin nproc) (k : Kernel NFILE nproc) (i : Fin NOFILE) : Kernel NFILE nproc :=
  (k.onUser p fun u => (u.put i none).setFlags i 0).closef ((k.u p).u_ofile i)

def exit (k : Kernel NFILE nproc) (p : Fin nproc) : Kernel NFILE nproc :=
  ((k.u p).descriptors.foldl (exitClose p) k).onUser p fun u => { u with alive := false }

end Kernel

/-! ## Runs -/

inductive Event (nproc : Nat) where
  | open (p : Fin nproc) (flags : BitVec 32)
  | opened (p : Fin nproc) (result : Kernel.Lookup)
  | locked (p : Fin nproc) (error : Option Errno)
  | pipe (p : Fin nproc) (inode : Bool)
  | dup (p : Fin nproc) (i j : Int)
  | dup2 (p : Fin nproc) (i j : Int)
  | fcntl (p : Fin nproc) (fdes : Int) (cmd : Kernel.Fcntl)
  | close (p : Fin nproc) (i : Int)
  | fork (parent child : Fin nproc) (room : Bool)
  | execve (p : Fin nproc)
  | exit (p : Fin nproc)

/-- Alive and not in the middle of an `open`. -/
def User.ready (u : User NFILE) : Bool := u.alive && u.opening.isNone

namespace Kernel

/-- One process, without open files. -/
def boot (NFILE nproc : Nat) (p : Fin nproc) : Kernel NFILE nproc where
  f_count _ := 0
  f_flag _ := 0
  lastf := 0
  u q := ⟨fun _ => none, fun _ => 0, -1, 0, none, none, decide (q = p)⟩
  attached _ := 0
  released _ := 0

def event (k : Kernel NFILE nproc) : Event nproc → Option (Kernel NFILE nproc)
  | .open p flags => if (k.u p).ready then some (k.copen p flags) else none
  | .opened p result =>
      match (k.u p).opening with
      | some (.vnode indx flags) =>
          ((k.u p).u_ofile indx).map fun fp => k.vnOpened p indx fp flags result
      | _ => none
  | .locked p error =>
      match (k.u p).opening with
      | some (.lock indx) => some (k.locked p indx error)
      | _ => none
  | .pipe p inode => if (k.u p).ready then some (k.pipe p inode) else none
  | .dup p i j => if (k.u p).ready then some (k.dup p i j) else none
  | .dup2 p i j => if (k.u p).ready then some (k.dup2 p i j) else none
  | .fcntl p fdes cmd => if (k.u p).ready then some (k.fcntl p fdes cmd) else none
  | .close p i => if (k.u p).ready then some (k.close p i) else none
  | .fork parent child room =>
      if (k.u parent).ready ∧ (k.u child).alive = false then some (k.newproc parent child room)
      else none
  | .execve p => if (k.u p).ready then some (k.execve p) else none
  | .exit p => if (k.u p).ready then some (k.exit p) else none

end Kernel

end DiscoBsd.File
