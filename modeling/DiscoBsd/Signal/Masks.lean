import DiscoBsd.Lib.Steps
import Mathlib.Logic.Function.Basic
import Mathlib.Tactic.IntervalCases

/-!
# Signal masks

What the signal system calls, `pselect`, signal delivery, `sigreturn`, fork, exec and exit do to the
signal state of a process: the masks in its process table entry and the handlers, masks and stack in
its user area. Everything that comes from user memory is arbitrary, and so is the order of calls. A
call that sleeps is two steps, so that the state of a sleeper is a state of the system too.

Which signals are pending only decides which are delivered, and when. Here any signal may be
delivered to any process at any time, so the pending set is left out.
-/

namespace DiscoBsd.Signal

open DiscoBsd.Lib

def NSIG : Nat := 32

def SIGILL : Nat := 4

def SIGKILL : Nat := 9

def SIGTERM : Nat := 15

def SIGSTOP : Nat := 17

def SIGCONT : Nat := 19

def SIGCHLD : Nat := 20

def SIG_DFL : Nat := 0

def SIG_IGN : Nat := 1

def sigmask (m : Nat) : BitVec 32 := 1#32 <<< (m - 1)

def sigcantmask : BitVec 32 := sigmask SIGKILL ||| sigmask SIGSTOP

/-! ## Signal properties -/

def SA_KILL : Nat := 0x01

def SA_CORE : Nat := 0x02

def SA_STOP : Nat := 0x04

def SA_TTYSTOP : Nat := 0x08

def SA_IGNORE : Nat := 0x10

def SA_CONT : Nat := 0x20

/-- Signal properties, by signal number. -/
def sigprop : List Nat :=
  [0, SA_KILL, SA_KILL, SA_KILL ||| SA_CORE, SA_KILL ||| SA_CORE, SA_KILL ||| SA_CORE,
    SA_KILL ||| SA_CORE, SA_KILL ||| SA_CORE, SA_KILL ||| SA_CORE, SA_KILL, SA_KILL ||| SA_CORE,
    SA_KILL ||| SA_CORE, SA_KILL ||| SA_CORE, SA_KILL, SA_KILL, SA_KILL, SA_IGNORE, SA_STOP,
    SA_STOP ||| SA_TTYSTOP, SA_IGNORE ||| SA_CONT, SA_IGNORE, SA_STOP ||| SA_TTYSTOP,
    SA_STOP ||| SA_TTYSTOP, SA_IGNORE, SA_KILL, SA_KILL, SA_KILL, SA_KILL, SA_IGNORE, SA_IGNORE,
    SA_KILL, SA_KILL]

/-- Signals that are ignored by default. -/
def ignoredByDefault (sig : Nat) : Bool := sigprop.getD sig 0 &&& SA_IGNORE != 0

/-! ## The signal state of a process -/

inductive Errno where
  | ok | EINTR | ENOMEM | EFAULT | EINVAL | EWOULDBLOCK | ERESTART | EJUSTRETURN
  deriving DecidableEq

/-- A pointer given by the user: null, unmapped, or to a value. -/
inductive UserPtr (α : Type) where
  | null
  | fault
  | pointsTo (value : α)

/-- The pointer is not null. -/
def UserPtr.given {α : Type} : UserPtr α → Bool
  | .null => false
  | _ => true

structure Sigaction where
  sa_handler : Nat
  sa_mask : BitVec 32
  sa_flags : BitVec 32

def SA_ONSTACK : BitVec 32 := 0x0001

def SA_RESTART : BitVec 32 := 0x0002

def SA_DISABLE : BitVec 32 := 0x0004

def SA_NOCLDSTOP : BitVec 32 := 0x0008

structure Sigaltstack where
  ss_base : Nat
  ss_size : Int
  ss_flags : BitVec 32

def MINSIGSTKSZ : Int := 128

/-- The part of a signal frame that `sigreturn` puts into the signal state. -/
structure Sigcontext where
  sc_onstack : BitVec 32
  sc_mask : BitVec 32

def SAS_OLDMASK : BitVec 32 := 0x01

def SAS_ALTSTACK : BitVec 32 := 0x02

/-- The calls that sleep with a mask of their own. -/
inductive Asleep where
  | sigsuspend
  | pselect (sigmsk : Option (BitVec 32))

/-- The signal state in the process table entry and in the user area. -/
structure Proc where
  p_sigmask : BitVec 32
  p_sigignore : BitVec 32
  p_sigcatch : BitVec 32
  noCldStop : Bool
  u_signal : Nat → Nat
  u_sigmask : Nat → BitVec 32
  u_sigonstack : BitVec 32
  u_sigintr : BitVec 32
  u_oldmask : BitVec 32
  u_psflags : BitVec 32
  u_sigstk : Sigaltstack
  u_sigtramp : Nat
  u_error : Errno
  asleep : Option Asleep
  exiting : Bool

namespace Proc

/-! ## Signal actions -/

def setsigvec (p : Proc) (signum : Nat) (sa : Sigaction) : Proc :=
  let bit := sigmask signum
  let p := { p with
    u_signal := Function.update p.u_signal signum sa.sa_handler
    u_sigmask := Function.update p.u_sigmask signum (sa.sa_mask &&& ~~~sigcantmask)
    u_sigintr :=
      if sa.sa_flags &&& SA_RESTART = 0 then p.u_sigintr ||| bit else p.u_sigintr &&& ~~~bit
    u_sigonstack :=
      if sa.sa_flags &&& SA_ONSTACK ≠ 0 then p.u_sigonstack ||| bit else p.u_sigonstack &&& ~~~bit
    noCldStop := if signum = SIGCHLD then sa.sa_flags &&& SA_NOCLDSTOP != 0 else p.noCldStop }
  if sa.sa_handler = SIG_IGN ∨ (ignoredByDefault signum ∧ sa.sa_handler = SIG_DFL) then
    { p with
      p_sigignore := if signum ≠ SIGCONT then p.p_sigignore ||| bit else p.p_sigignore
      p_sigcatch := p.p_sigcatch &&& ~~~bit }
  else
    { p with
      p_sigignore := p.p_sigignore &&& ~~~bit
      p_sigcatch :=
        if sa.sa_handler = SIG_DFL then p.p_sigcatch &&& ~~~bit else p.p_sigcatch ||| bit }

/-- The action that `sigaction` copies out. -/
def oldaction (p : Proc) (signum : Nat) : Sigaction :=
  let bit := sigmask signum
  { sa_handler := p.u_signal signum
    sa_mask := p.u_sigmask signum
    sa_flags :=
      (if p.u_sigonstack &&& bit ≠ 0 then SA_ONSTACK else 0) |||
        (if p.u_sigintr &&& bit = 0 then SA_RESTART else 0) |||
        (if p.noCldStop then SA_NOCLDSTOP else 0) }

/-- The `sigaction` call, with what it copies out. -/
def sigaction (p : Proc) (signum : Int) (nsa : UserPtr Sigaction) (osa : UserPtr Unit)
    (sigtramp : Nat) : Proc × Option Sigaction :=
  let p := { p with u_sigtramp := sigtramp }
  if signum ≤ 0 ∨ (NSIG : Int) ≤ signum then ({ p with u_error := .EINVAL }, none)
  else if nsa.given ∧ (signum = SIGKILL ∨ signum = SIGSTOP) then
    ({ p with u_error := .EINVAL }, none)
  else
    let out := if osa.given then some (p.oldaction signum.toNat) else none
    match osa, nsa with
    | .fault, _ => ({ p with u_error := .EFAULT }, none)
    | _, .null => ({ p with u_error := .ok }, out)
    | _, .fault => ({ p with u_error := .EFAULT }, out)
    | _, .pointsTo sa => ({ p.setsigvec signum.toNat sa with u_error := .ok }, out)

def fatalsig (p : Proc) (signum : Nat) : Proc :=
  let mask := sigmask signum
  { p with
    u_signal := Function.update p.u_signal signum SIG_DFL
    p_sigignore := p.p_sigignore &&& ~~~mask
    p_sigcatch := p.p_sigcatch &&& ~~~mask
    p_sigmask := p.p_sigmask &&& ~~~mask }

/-- Set to ignore signals that are ignored by default. -/
def siginit (p : Proc) : Proc :=
  (List.range NSIG).foldl (fun p i =>
    if ignoredByDefault i ∧ i ≠ SIGCONT then { p with p_sigignore := p.p_sigignore ||| sigmask i }
    else p) p

/-! ## The mask -/

def SIG_BLOCK : Int := 1

def SIG_UNBLOCK : Int := 2

def SIG_SETMASK : Int := 3

/-- The change of the mask in `sigprocmask`. -/
def changeMask (p : Proc) (how : Int) (set : UserPtr (BitVec 32)) : Proc × Errno :=
  match set with
  | .null => (p, .ok)
  | .fault => (p, .EFAULT)
  | .pointsTo newmask =>
      if how = SIG_BLOCK then
        ({ p with p_sigmask := p.p_sigmask ||| (newmask &&& ~~~sigcantmask) }, .ok)
      else if how = SIG_UNBLOCK then ({ p with p_sigmask := p.p_sigmask &&& ~~~newmask }, .ok)
      else if how = SIG_SETMASK then ({ p with p_sigmask := newmask &&& ~~~sigcantmask }, .ok)
      else (p, .EINVAL)

/-- The `sigprocmask` call, with what it copies out. -/
def sigprocmask (p : Proc) (how : Int) (set : UserPtr (BitVec 32)) (oset : UserPtr Unit) :
    Proc × Option (BitVec 32) :=
  let oldmask := p.p_sigmask
  let (p, error) := p.changeMask how set
  match error, oset with
  | .ok, .fault => ({ p with u_error := .EFAULT }, none)
  | .ok, .pointsTo _ => ({ p with u_error := .ok }, some oldmask)
  | error, _ => ({ p with u_error := error }, none)

/-- `sigsuspend` up to its sleep. -/
def sigsuspend (p : Proc) (set : UserPtr (BitVec 32)) : Proc :=
  let nmask := match set with
    | .pointsTo nmask => nmask
    | _ => 0
  { p with
    u_oldmask := p.p_sigmask
    u_psflags := p.u_psflags ||| SAS_OLDMASK
    p_sigmask := nmask &&& ~~~sigcantmask
    asleep := some .sigsuspend }

/-- The end of a pass of `select1`: the sleep, under the caller's mask when there is one. -/
def selectSleep (p : Proc) (sigmsk : Option (BitVec 32)) : Proc :=
  match sigmsk with
  | none => { p with asleep := some (.pselect none) }
  | some sigmsk =>
      { p with
        u_oldmask := p.p_sigmask
        u_psflags := p.u_psflags ||| SAS_OLDMASK
        p_sigmask := sigmsk
        asleep := some (.pselect (some sigmsk)) }

/-- `select1` up to its sleep. `done` is the value with which it returns before it sleeps, when the
descriptors or the timeout make it. -/
def select1 (p : Proc) (maskp : UserPtr (BitVec 32)) (done : Option Errno) : Proc :=
  match maskp, done with
  | .fault, _ => { p with u_error := .EFAULT }
  | _, some error => { p with u_error := error }
  | .null, none => p.selectSleep none
  | .pointsTo sigmsk, none => p.selectSleep (some (sigmsk &&& ~~~sigcantmask))

/-- A sleeper resumes: `error` is what `tsleep` returns and `done` how the next pass of `select1`
ends, when it does not sleep again. -/
def wake (p : Proc) (error : Errno) (done : Option Errno) : Proc :=
  match p.asleep with
  | none => p
  | some .sigsuspend => if error = .ok then p else { p with u_error := .EINTR, asleep := none }
  | some (.pselect sigmsk) =>
      let p := if sigmsk.isSome then { p with p_sigmask := p.u_oldmask } else p
      if error = .ok then
        match done with
        | none => p.selectSleep sigmsk
        | some error => { p with u_error := error, asleep := none }
      else
        { p with
          u_error :=
            if error = .ERESTART then .EINTR else if error = .EWOULDBLOCK then .ok else error
          asleep := none }

/-- The `sigaltstack` call, with what it copies out. -/
def sigaltstack (p : Proc) (nss : UserPtr Sigaltstack) (oss : UserPtr Unit) :
    Proc × Option Sigaltstack :=
  let p :=
    if p.u_psflags &&& SAS_ALTSTACK = 0 then
      { p with u_sigstk := { p.u_sigstk with ss_flags := p.u_sigstk.ss_flags ||| SA_DISABLE } }
    else p
  let out := if oss.given then some p.u_sigstk else none
  match oss, nss with
  | .fault, _ => ({ p with u_error := .EFAULT }, none)
  | _, .null => ({ p with u_error := .ok }, out)
  | _, .fault => ({ p with u_error := .EFAULT }, out)
  | _, .pointsTo ss =>
      if ss.ss_flags &&& SA_DISABLE ≠ 0 then
        if p.u_sigstk.ss_flags &&& SA_ONSTACK ≠ 0 then ({ p with u_error := .EINVAL }, out)
        else
          ({ p with
            u_psflags := p.u_psflags &&& ~~~SAS_ALTSTACK
            u_sigstk := { p.u_sigstk with ss_flags := ss.ss_flags }
            u_error := .ok }, out)
      else if ss.ss_size < MINSIGSTKSZ then ({ p with u_error := .ENOMEM }, out)
      else
        ({ p with u_psflags := p.u_psflags ||| SAS_ALTSTACK, u_sigstk := ss, u_error := .ok }, out)

/-! ## Delivery -/

/-- `sendsig`, with the frame it builds. `trashed` says that the user stack has run into the
data. -/
def sendsig (p : Proc) (sig : Nat) (mask : BitVec 32) (trashed : Bool) :
    Proc × Option Sigcontext :=
  let oonstack := p.u_sigstk.ss_flags &&& SA_ONSTACK
  let p :=
    if p.u_psflags &&& SAS_ALTSTACK ≠ 0 ∧ p.u_sigstk.ss_flags &&& SA_ONSTACK = 0 ∧
        p.u_sigonstack &&& sigmask sig ≠ 0 then
      { p with u_sigstk := { p.u_sigstk with ss_flags := p.u_sigstk.ss_flags ||| SA_ONSTACK } }
    else p
  if p.u_sigstk.ss_flags &&& SA_ONSTACK = 0 ∧ trashed then (p.fatalsig SIGILL, none)
  else (p, some ⟨oonstack, mask⟩)

/-- `exit` ignores every signal from its first lines on. -/
def exit (p : Proc) : Proc :=
  { p with p_sigignore := BitVec.allOnes 32, exiting := true }

/-- The first lines of `postsig` for a caught signal, with the mask to restore afterwards. -/
def returnmask (p : Proc) : Proc × BitVec 32 :=
  if p.u_psflags &&& SAS_OLDMASK ≠ 0 then
    ({ p with u_psflags := p.u_psflags &&& ~~~SAS_OLDMASK }, p.u_oldmask)
  else (p, p.p_sigmask)

/-- `postsig`, with the frame. A signal with the default action ends the process, with a core file or
without. -/
def postsig (p : Proc) (sig : Nat) (trashed : Bool) : Proc × Option Sigcontext :=
  let mask := sigmask sig
  if p.u_signal sig ≠ SIG_DFL then
    let (p, returnmask) := { p with u_error := .ok }.returnmask
    let p := { p with p_sigmask := p.p_sigmask ||| (p.u_sigmask sig ||| mask) }
    p.sendsig sig returnmask trashed
  else (p.exit, none)

def sigreturn (p : Proc) (scp : UserPtr Sigcontext) : Proc :=
  match scp with
  | .pointsTo sc =>
      { p with
        u_error := .EJUSTRETURN
        u_sigstk := { p.u_sigstk with
          ss_flags :=
            if sc.sc_onstack &&& SA_ONSTACK ≠ 0 then p.u_sigstk.ss_flags ||| SA_ONSTACK
            else p.u_sigstk.ss_flags &&& ~~~SA_ONSTACK }
        p_sigmask := sc.sc_mask &&& ~~~sigcantmask }
  | _ => { p with u_error := .EFAULT }

end Proc

/-! ## Exec -/

/-- The number of the lowest bit that is set, counted from 1. -/
def ffs (mask : BitVec 32) : Nat :=
  match (List.range 32).find? mask.getLsbD with
  | none => 0
  | some i => i + 1

theorem ffs_spec {mask : BitVec 32} (h : mask ≠ 0) :
    1 ≤ ffs mask ∧ ffs mask ≤ 32 ∧ mask.getLsbD (ffs mask - 1) = true := by
  unfold ffs
  cases hfind : (List.range 32).find? mask.getLsbD with
  | none =>
      refine absurd (BitVec.eq_of_getLsbD_eq fun i hi => ?_) h
      have hclear := List.find?_eq_none.mp hfind i (List.mem_range.mpr hi)
      simpa using hclear
  | some i =>
      have hi := List.mem_range.mp (List.mem_of_find?_eq_some hfind)
      exact ⟨Nat.le_add_left 1 i, by dsimp only; omega, List.find?_some hfind⟩

theorem getLsbD_sigmask (m i : Nat) :
    (sigmask m).getLsbD i = (decide (i < 32) && decide (i = m - 1)) := by
  rw [sigmask, ← BitVec.twoPow_eq, BitVec.getLsbD_twoPow]
  by_cases hi : i = m - 1
  · subst hi
    simp
  · simp [hi, Ne.symm hi]

/-- Clearing a bit that is set makes the mask smaller. -/
theorem clear_lt {mask : BitVec 32} (h : mask ≠ 0) :
    (mask &&& ~~~sigmask (ffs mask)).toNat < mask.toNat := by
  obtain ⟨hlow, hhigh, hbit⟩ := ffs_spec h
  have hle : (mask &&& ~~~sigmask (ffs mask)).toNat ≤ mask.toNat := by
    rw [BitVec.toNat_and]
    exact Nat.and_le_left
  refine Nat.lt_of_le_of_ne hle fun heq => ?_
  have hsame : mask &&& ~~~sigmask (ffs mask) = mask := BitVec.eq_of_toNat_eq heq
  have hcleared : (mask &&& ~~~sigmask (ffs mask)).getLsbD (ffs mask - 1) = false := by
    simp only [BitVec.getLsbD_and, BitVec.getLsbD_not, getLsbD_sigmask]
    simp
  rw [hsame, hbit] at hcleared
  cases hcleared

namespace Proc

/-- The loop of `execsigs` that resets the caught signals. -/
def resetCaught (p : Proc) : Proc :=
  if _h : p.p_sigcatch = 0 then p
  else
    let nc := ffs p.p_sigcatch
    let mask := sigmask nc
    resetCaught { p with
      p_sigcatch := p.p_sigcatch &&& ~~~mask
      p_sigignore :=
        if ignoredByDefault nc ∧ nc ≠ SIGCONT then p.p_sigignore ||| mask else p.p_sigignore
      u_signal := Function.update p.u_signal nc SIG_DFL }
termination_by p.p_sigcatch.toNat
decreasing_by exact clear_lt _h

def execsigs (p : Proc) : Proc :=
  { p.resetCaught with
    u_sigstk := { ss_base := 0, ss_size := 0, ss_flags := SA_DISABLE }
    u_psflags := 0 }

end Proc

/-! ## The system -/

/-- What a process that is awake does, or what is done to it. -/
inductive Call where
  | sigaction (signum : Int) (nsa : UserPtr Sigaction) (osa : UserPtr Unit) (sigtramp : Nat)
  | sigprocmask (how : Int) (set : UserPtr (BitVec 32)) (oset : UserPtr Unit)
  | sigsuspend (set : UserPtr (BitVec 32))
  | pselect (maskp : UserPtr (BitVec 32)) (done : Option Errno)
  | sigaltstack (nss : UserPtr Sigaltstack) (oss : UserPtr Unit)
  | postsig (sig : Nat) (trashed : Bool)
  | sigreturn (scp : UserPtr Sigcontext)
  | execve
  | exit

def Proc.call (p : Proc) : Call → Proc
  | .sigaction signum nsa osa sigtramp => (p.sigaction signum nsa osa sigtramp).1
  | .sigprocmask how set oset => (p.sigprocmask how set oset).1
  | .sigsuspend set => p.sigsuspend set
  | .pselect maskp done => p.select1 maskp done
  | .sigaltstack nss oss => (p.sigaltstack nss oss).1
  | .postsig sig trashed => (p.postsig sig trashed).1
  | .sigreturn scp => p.sigreturn scp
  | .execve => p.execsigs
  | .exit => p.exit

/-- The processes of the system, by table slot. -/
abbrev Kernel := Nat → Option Proc

inductive Event where
  | call (slot : Nat) (c : Call)
  | wake (slot : Nat) (error : Errno) (done : Option Errno)
  | newproc (parent child : Nat)
  | wait4 (slot : Nat)

namespace Kernel

/-- Process 0 as `main` sets it up. -/
def boot : Kernel := fun slot =>
  if slot = 0 then
    some (Proc.siginit
      { p_sigmask := 0, p_sigignore := 0, p_sigcatch := 0, noCldStop := false
        u_signal := fun _ => SIG_DFL, u_sigmask := fun _ => 0, u_sigonstack := 0, u_sigintr := 0
        u_oldmask := 0, u_psflags := 0
        u_sigstk := { ss_base := 0, ss_size := 0, ss_flags := 0 }
        u_sigtramp := 0, u_error := .ok, asleep := none, exiting := false })
  else none

/-- One step of the system. A sleeper can only wake up. The child of `newproc` has its parent's masks
and a copy of its user area. An exiting process makes no more calls, and `wait4` frees its slot. -/
def event (k : Kernel) : Event → Option Kernel
  | .call slot c => do
      let p ← k slot
      if p.exiting ∨ p.asleep.isSome then none else some (Function.update k slot (some (p.call c)))
  | .wake slot error done => do
      let p ← k slot
      if p.asleep.isSome then some (Function.update k slot (some (p.wake error done))) else none
  | .newproc parent child => do
      let p ← k parent
      if p.exiting ∨ p.asleep.isSome ∨ (k child).isSome then none
      else some (Function.update k child (some { p with noCldStop := false }))
  | .wait4 slot => do
      let p ← k slot
      if p.exiting then some (Function.update k slot none) else none

end Kernel

end DiscoBsd.Signal
