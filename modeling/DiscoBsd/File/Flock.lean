import Mathlib.Data.Fintype.Card
import Mathlib.Algebra.BigOperators.Group.Finset.Basic
import DiscoBsd.Lib.Steps

/-!
# Advisory locks on files

`flock`, `ino_lock` and `ino_unlock`, and the part of `closef` that gives locks up. A process runs until it
sleeps for a lock; a release wakes up all that sleep on the inode, and each of them looks at the locks again
when it runs. Open files are shared between processes by `dup` and `fork`.
-/

namespace DiscoBsd.File

inductive FileType where
  | DTYPE_INODE
  | DTYPE_SOCKET
  | DTYPE_PIPE
  deriving DecidableEq

/-- An entry of the open-file table, with the flags `FSHLOCK` and `FEXLOCK`. -/
structure OpenFile (I : Type*) where
  f_count : Nat
  f_type : FileType
  f_data : I
  fshlock : Bool
  fexlock : Bool

/-- The lock fields of an inode: two counters of 16 bits and the flags `ISHLOCK`, `IEXLOCK` and
`ILWAIT`. -/
structure InodeLocks where
  i_shlockc : Nat
  i_exlockc : Nat
  ishlock : Bool
  iexlock : Bool
  ilwait : Bool

/-- The argument of `flock`: `LOCK_SH`, `LOCK_EX`, `LOCK_NB` and `LOCK_UN`. -/
structure How where
  sh : Bool
  ex : Bool
  nb : Bool
  un : Bool

inductive LockError where
  | EINTR
  | ERESTART
  | EOPNOTSUPP
  | EWOULDBLOCK
  deriving DecidableEq

/-- A process: out of `flock` with its error, in `tsleep` for a lock, or woken up there. -/
inductive LockProc (F : Type*) where
  | running (error : Option LockError)
  | asleep (fp : F) (cmd : How)
  | woken (fp : F) (cmd : How)

/-- The files, the inodes and the processes. `fds` is the number of descriptors of a process for a
file. -/
structure Locks (F I P : Type*) where
  file : F → OpenFile I
  inode : I → InodeLocks
  proc : P → LockProc F
  fds : P → F → Nat

namespace Locks

variable {F I P : Type*} [DecidableEq F] [DecidableEq I] [DecidableEq P]

def setProc (s : Locks F I P) (p : P) (state : LockProc F) : Locks F I P :=
  { s with proc := Function.update s.proc p state }

/-- Return from `flock`. -/
def ret (s : Locks F I P) (p : P) (error : Option LockError) : Locks F I P :=
  s.setProc p (.running error)

/-- `wakeup` on `i_shlockc` of an inode. -/
def wakeup (s : Locks F I P) (ip : I) : Locks F I P :=
  { s with
    proc := fun p => match s.proc p with
      | .asleep fp cmd => if (s.file fp).f_data = ip then .woken fp cmd else .asleep fp cmd
      | state => state }

/-- `ino_unlock` for a shared lock that is held; `wait` is `ILWAIT` at the beginning. -/
def unlockShared (s : Locks F I P) (fp : F) (wait : Bool) : Locks F I P :=
  let ip := (s.file fp).f_data
  let c := ((s.inode ip).i_shlockc + 65535) % 65536
  let s := { s with inode := Function.update s.inode ip { s.inode ip with i_shlockc := c } }
  let s :=
    if c = 0 then
      let s := { s with inode := Function.update s.inode ip { s.inode ip with ishlock := false } }
      if wait then s.wakeup ip else s
    else s
  { s with file := Function.update s.file fp { s.file fp with fshlock := false } }

/-- `ino_unlock` for an exclusive lock that is held. -/
def unlockExclusive (s : Locks F I P) (fp : F) (wait : Bool) : Locks F I P :=
  let ip := (s.file fp).f_data
  let c := ((s.inode ip).i_exlockc + 65535) % 65536
  let s := { s with inode := Function.update s.inode ip { s.inode ip with i_exlockc := c } }
  let s :=
    if c = 0 then
      let s := { s with
        inode := Function.update s.inode ip { s.inode ip with iexlock := false, ilwait := false } }
      if wait then s.wakeup ip else s
    else s
  { s with file := Function.update s.file fp { s.file fp with fexlock := false } }

/-- `ino_unlock`; `sh` and `ex` are the kinds to unlock. -/
def ino_unlock (s : Locks F I P) (fp : F) (sh ex : Bool) : Locks F I P :=
  let sh := sh && (s.file fp).fshlock
  let ex := ex && (s.file fp).fexlock
  let wait := (s.inode (s.file fp).f_data).ilwait
  let s := if sh then s.unlockShared fp wait else s
  if ex then s.unlockExclusive fp wait else s

/-- The lock is granted. -/
def grant (s : Locks F I P) (fp : F) (cmd : How) : Locks F I P :=
  let ip := (s.file fp).f_data
  if cmd.ex then
    { s with
      inode := Function.update s.inode ip { s.inode ip with
        i_exlockc := ((s.inode ip).i_exlockc + 1) % 65536
        iexlock := true }
      file := Function.update s.file fp { s.file fp with fexlock := true } }
  else if cmd.sh && !(s.file fp).fshlock then
    { s with
      inode := Function.update s.inode ip { s.inode ip with
        i_shlockc := ((s.inode ip).i_shlockc + 1) % 65536
        ishlock := true }
      file := Function.update s.file fp { s.file fp with fshlock := true } }
  else s

/-- `tsleep` on `i_shlockc`. -/
def sleep (s : Locks F I P) (p : P) (fp : F) (cmd : How) : Locks F I P :=
  let ip := (s.file fp).f_data
  { s with inode := Function.update s.inode ip { s.inode ip with ilwait := true } }.setProc p
    (.asleep fp cmd)

/-- The locks that a file holds. -/
def held (s : Locks F I P) (fp : F) : Nat := (s.file fp).fshlock.toNat + (s.file fp).fexlock.toNat

section Termination

variable (s : Locks F I P) (fp : F) (wait : Bool)

omit [DecidableEq P] in
theorem file_unlockShared : (s.unlockShared fp wait).file =
    Function.update s.file fp { s.file fp with fshlock := false } := by
  simp only [unlockShared]
  generalize ((s.inode (s.file fp).f_data).i_shlockc + 65535) % 65536 = c
  split
  · split <;> rfl
  · rfl

omit [DecidableEq P] in
theorem file_unlockExclusive : (s.unlockExclusive fp wait).file =
    Function.update s.file fp { s.file fp with fexlock := false } := by
  simp only [unlockExclusive]
  generalize ((s.inode (s.file fp).f_data).i_exlockc + 65535) % 65536 = c
  split
  · split <;> rfl
  · rfl

omit [DecidableEq P] in
theorem held_unlock_ex (h : (s.file fp).fexlock = true) :
    (s.ino_unlock fp false true).held fp < s.held fp := by
  unfold held ino_unlock
  simp [file_unlockExclusive, h]

omit [DecidableEq P] in
theorem held_unlock_sh (h : (s.file fp).fshlock = true) :
    (s.ino_unlock fp true false).held fp < s.held fp := by
  unfold held ino_unlock
  simp [file_unlockShared, h]

end Termination

/-- `ino_lock`, from `again`. -/
def ino_lock (s : Locks F I P) (p : P) (fp : F) (cmd : How) : Locks F I P :=
  let ip := (s.file fp).f_data
  if (s.inode ip).iexlock then
    if _ : (s.file fp).fexlock = true then ino_lock (s.ino_unlock fp false true) p fp cmd
    else if cmd.nb then s.ret p (some .EWOULDBLOCK)
    else s.sleep p fp cmd
  else if cmd.ex && (s.inode ip).ishlock then
    if _ : (s.file fp).fshlock = true then ino_lock (s.ino_unlock fp true false) p fp cmd
    else if cmd.nb then s.ret p (some .EWOULDBLOCK)
    else s.sleep p fp cmd
  else (s.grant fp cmd).ret p none
  termination_by s.held fp
  decreasing_by
    · exact held_unlock_ex s fp ‹_›
    · exact held_unlock_sh s fp ‹_›

/-- `flock` on a file. -/
def flock (s : Locks F I P) (p : P) (fp : F) (how : How) : Locks F I P :=
  if (s.file fp).f_type ≠ .DTYPE_INODE then s.ret p (some .EOPNOTSUPP)
  else if how.un then (s.ino_unlock fp true true).ret p none
  else if !how.sh && !how.ex then s.ret p none
  else
    let how := if how.ex then { how with sh := false } else how
    if (s.file fp).fexlock && how.ex then s.ret p none
    else if (s.file fp).fshlock && how.sh then s.ret p none
    else s.ino_lock p fp how

/-- `closef`. -/
def closef (s : Locks F I P) (fp : F) : Locks F I P :=
  if 1 < (s.file fp).f_count then
    { s with
      file := Function.update s.file fp { s.file fp with f_count := (s.file fp).f_count - 1 } }
  else
    let s :=
      if ((s.file fp).fshlock || (s.file fp).fexlock) && decide ((s.file fp).f_type = .DTYPE_INODE) then
        s.ino_unlock fp true true
      else s
    { s with file := Function.update s.file fp { s.file fp with f_count := 0 } }

/-- The descriptors of a process for a file change. -/
def setFds (s : Locks F I P) (p : P) (fp : F) (n : Nat) : Locks F I P :=
  { s with fds := Function.update s.fds p (Function.update (s.fds p) fp n) }

end Locks

/-- What a process does. `open`, `dup` and `fork` are there for the descriptors. -/
inductive LockAction (F I P : Type*) where
  | open (p : P) (fp : F) (f_type : FileType) (ip : I)
  | dup (p : P) (fp : F)
  | fork (p q : P)
  | close (p : P) (fp : F)
  | flock (p : P) (fp : F) (how : How)
  | resume (p : P)
  | interrupt (p : P) (error : LockError)

namespace Locks

variable {F I P : Type*} [DecidableEq F] [DecidableEq I] [DecidableEq P]

/-- The process is not in `flock`. -/
def Running (s : Locks F I P) (p : P) : Prop := ∃ error, s.proc p = .running error

/-- What an action leads to. -/
inductive Step : Locks F I P → LockAction F I P → Locks F I P → Prop where
  | open {s p fp f_type ip} : s.Running p → (s.file fp).f_count = 0 →
      Step s (.open p fp f_type ip)
        ({ s with file := Function.update s.file fp ⟨1, f_type, ip, false, false⟩ }.setFds p fp 1)
  | dup {s p fp} : s.Running p → 0 < s.fds p fp →
      Step s (.dup p fp)
        ({ s with
          file := Function.update s.file fp
            { s.file fp with f_count := (s.file fp).f_count + 1 } }.setFds p fp (s.fds p fp + 1))
  | fork {s p q} : s.Running p → s.Running q → (∀ fp, s.fds q fp = 0) →
      Step s (.fork p q)
        { s with
          file := fun fp => { s.file fp with f_count := (s.file fp).f_count + s.fds p fp }
          fds := Function.update s.fds q (s.fds p) }
  | close {s p fp} : s.Running p → 0 < s.fds p fp →
      Step s (.close p fp) ((s.closef fp).setFds p fp (s.fds p fp - 1))
  | flock {s p fp how} : s.Running p → 0 < s.fds p fp → Step s (.flock p fp how) (s.flock p fp how)
  | resume {s p fp cmd} : s.proc p = .woken fp cmd → Step s (.resume p) (s.ino_lock p fp cmd)
  | interrupt_asleep {s p fp cmd error} : s.proc p = .asleep fp cmd →
      Step s (.interrupt p error) (s.ret p (some error))
  | interrupt_woken {s p fp cmd error} : s.proc p = .woken fp cmd →
      Step s (.interrupt p error) (s.ret p (some error))

/-- No file is open and no process is in `flock`. -/
def boot (ip : F → I) : Locks F I P where
  file := fun fp => ⟨0, .DTYPE_INODE, ip fp, false, false⟩
  inode := fun _ => ⟨0, 0, false, false, false⟩
  proc := fun _ => .running none
  fds := fun _ _ => 0

omit [DecidableEq P] in
/-- What `ino_unlock` does for a shared lock. -/
theorem unlockShared_eq (s : Locks F I P) (fp : F) (wait : Bool) :
    s.unlockShared fp wait =
      let ip := (s.file fp).f_data
      let c := ((s.inode ip).i_shlockc + 65535) % 65536
      { s with
        file := Function.update s.file fp { s.file fp with fshlock := false }
        inode := Function.update s.inode ip { s.inode ip with
          i_shlockc := c
          ishlock := decide (c ≠ 0) && (s.inode ip).ishlock }
        proc := if c = 0 ∧ wait = true then (s.wakeup ip).proc else s.proc } := by
  simp only [unlockShared]
  generalize ((s.inode (s.file fp).f_data).i_shlockc + 65535) % 65536 = c
  by_cases hc : c = 0
  · cases wait <;> simp [hc, wakeup]
  · simp [hc]

omit [DecidableEq P] in
theorem inode_unlockShared (s : Locks F I P) (fp : F) (wait : Bool) :
    (s.unlockShared fp wait).inode = Function.update s.inode (s.file fp).f_data
      { s.inode (s.file fp).f_data with
        i_shlockc := ((s.inode (s.file fp).f_data).i_shlockc + 65535) % 65536
        ishlock := decide (((s.inode (s.file fp).f_data).i_shlockc + 65535) % 65536 ≠ 0) &&
          (s.inode (s.file fp).f_data).ishlock } := by
  have h := unlockShared_eq s fp wait
  dsimp only at h
  generalize ((s.inode (s.file fp).f_data).i_shlockc + 65535) % 65536 = c at h ⊢
  rw [h]

omit [DecidableEq P] in
/-- What `ino_unlock` does for an exclusive lock. -/
theorem unlockExclusive_eq (s : Locks F I P) (fp : F) (wait : Bool) :
    s.unlockExclusive fp wait =
      let ip := (s.file fp).f_data
      let c := ((s.inode ip).i_exlockc + 65535) % 65536
      { s with
        file := Function.update s.file fp { s.file fp with fexlock := false }
        inode := Function.update s.inode ip { s.inode ip with
          i_exlockc := c
          iexlock := decide (c ≠ 0) && (s.inode ip).iexlock
          ilwait := decide (c ≠ 0) && (s.inode ip).ilwait }
        proc := if c = 0 ∧ wait = true then (s.wakeup ip).proc else s.proc } := by
  simp only [unlockExclusive]
  generalize ((s.inode (s.file fp).f_data).i_exlockc + 65535) % 65536 = c
  by_cases hc : c = 0
  · cases wait <;> simp [hc, wakeup]
  · simp [hc]

omit [DecidableEq P] in
theorem inode_unlockExclusive (s : Locks F I P) (fp : F) (wait : Bool) :
    (s.unlockExclusive fp wait).inode = Function.update s.inode (s.file fp).f_data
      { s.inode (s.file fp).f_data with
        i_exlockc := ((s.inode (s.file fp).f_data).i_exlockc + 65535) % 65536
        iexlock := decide (((s.inode (s.file fp).f_data).i_exlockc + 65535) % 65536 ≠ 0) &&
          (s.inode (s.file fp).f_data).iexlock
        ilwait := decide (((s.inode (s.file fp).f_data).i_exlockc + 65535) % 65536 ≠ 0) &&
          (s.inode (s.file fp).f_data).ilwait } := by
  have h := unlockExclusive_eq s fp wait
  dsimp only at h
  generalize ((s.inode (s.file fp).f_data).i_exlockc + 65535) % 65536 = c at h ⊢
  rw [h]

end Locks

end DiscoBsd.File
