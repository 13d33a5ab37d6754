import DiscoBsd.Signal.Masks

/-!
# Signal numbers

How a signal number gets from `kill`, `killpg`, `ptrace`, `sigaction` and the kernel's own `psignal`
to the tables it indexes: `sigprop`, `u_signal`, `u_sigmask` and the bits of the masks. `index` stands
where a function first uses a number in this way, and a number outside of 1 to `NSIG - 1` ends the
step with `none`; a function uses the number only as it was at that place. What cannot happen in a
state leaves it as it is. The values that the calls return are left out.

A process that stops in `issignal` is seen by others in between, so `issignal` is one step for each
turn of its loop, with the place it stands at.
-/

namespace DiscoBsd.Signal.Delivery

open DiscoBsd.Lib

def SIGHUP : Nat := 1

def SIGINT : Nat := 2

def SIGQUIT : Nat := 3

def SIGTRAP : Nat := 5

def SIGSEGV : Nat := 11

def SIGSYS : Nat := 12

def SIGPIPE : Nat := 13

def SIGALRM : Nat := 14

def SIGTSTP : Nat := 18

def SIGTTIN : Nat := 21

def SIGTTOU : Nat := 22

def SIGIO : Nat := 23

def SIGXCPU : Nat := 24

def SIGXFSZ : Nat := 25

def SIGVTALRM : Nat := 26

def SIGPROF : Nat := 27

def SIGWINCH : Nat := 28

/-- The signals that the kernel posts of itself. -/
def raised : List Nat :=
  [SIGHUP, SIGINT, SIGQUIT, SIGILL, SIGTRAP, SIGKILL, SIGSEGV, SIGSYS, SIGPIPE, SIGALRM, SIGTSTP,
    SIGCONT, SIGCHLD, SIGTTIN, SIGTTOU, SIGIO, SIGXCPU, SIGXFSZ, SIGVTALRM, SIGPROF, SIGWINCH]

def stopsigmask : BitVec 32 :=
  sigmask SIGSTOP ||| sigmask SIGTSTP ||| sigmask SIGTTIN ||| sigmask SIGTTOU

def contsigmask : BitVec 32 := sigmask SIGCONT

def PUSER : Int := 50

def NZERO : Int := 0

/-- The size of the user area. -/
def USIZE : Int := 3072

/-- The number at its first use as an index or for a mask bit. -/
def index (sig : Int) : Option Nat := if 1 ≤ sig ∧ sig < NSIG then some sig.toNat else none

/-- Whether a signal has a property. -/
def has (sig prop : Nat) : Bool := sigprop.getD sig 0 &&& prop != 0

inductive Stat where
  | SSLEEP | SRUN | SIDL | SZOMB | SSTOP
  deriving DecidableEq

/-- What `psignal` finds will be done with a signal. -/
inductive Action where
  | dfl | hold | catch
  deriving DecidableEq

/-- Where a process stands with `issignal`. -/
inductive Point where
  /-- Elsewhere, in the user program or in the kernel. -/
  | away
  /-- At the top of the loop. -/
  | issignal
  /-- Stopped for the process that traces it. -/
  | traced
  /-- Stopped by a signal with the default action, with its mask bit. -/
  | stopped (mask : BitVec 32)
  /-- At the caller, to which a signal has been returned. -/
  | signalled (sig : Int)
  deriving DecidableEq

/-- A process: its signal state, and what decides how a signal is delivered. `p_ptracesig` is a
character. -/
structure Task extends Proc where
  p_stat : Stat
  p_pid : Int
  p_ppid : Int
  p_pgrp : Int
  p_pptr : Nat
  P_TRACED : Bool
  SVFORK : Bool
  SSYS : Bool
  P_SINTR : Bool
  p_wchan : Bool
  p_nice : Int
  p_pri : Int
  p_sig : BitVec 32
  p_ptracesig : Nat
  point : Point

namespace Task

/-! ## Posting -/

def stop (p : Task) : Task := { p with p_stat := .SSTOP }

def setrun (p : Task) : Task := { p with p_wchan := false, p_stat := .SRUN }

/-- The lines at `run`. -/
def run (p : Task) : Task := { p with p_pri := min p.p_pri PUSER }.setrun

def action (p : Task) (mask : BitVec 32) : Action :=
  if p.P_TRACED then .dfl
  else if p.p_sigmask &&& mask ≠ 0 then .hold
  else if p.p_sigcatch &&& mask ≠ 0 then .catch
  else .dfl

/-- `p->p_sig &= ~mask`. -/
def take (p : Task) (mask : BitVec 32) : Task := { p with p_sig := p.p_sig &&& ~~~mask }

/-- `case SSLEEP`, with whether the parent is told of a stop. -/
def psignalSleep (p : Task) (sig : Nat) (action : Action) : Task × Bool :=
  if ¬ p.P_SINTR then (p, false)
  else if p.P_TRACED then (p.run, false)
  else if has sig SA_CONT ∧ action = .dfl then (p.take (sigmask sig), false)
  else if has sig SA_STOP then
    if action ≠ .dfl then (p.run, false)
    else if p.SVFORK then (p, false)
    else ({ p.take (sigmask sig) with p_ptracesig := sig }.stop, true)
  else (p.run, false)

/-- `case SSTOP`. -/
def psignalStop (p : Task) (sig : Nat) (action : Action) : Task :=
  if p.P_TRACED then p
  else if sig = SIGKILL then p.run
  else if has sig SA_CONT then
    let p := if action = .dfl then p.take (sigmask sig) else p
    if action = .catch ∨ ¬ p.p_wchan then p.run else { p with p_stat := .SSLEEP }
  else if has sig SA_STOP then p.take (sigmask sig)
  else if p.p_wchan ∧ p.P_SINTR then { p with p_wchan := false }
  else p

/-- A process at low priority is not kept from dying. -/
def renice (p : Task) (sig : Nat) (action : Action) : Task :=
  if NZERO < p.p_nice ∧ action = .dfl ∧ has sig SA_KILL ∧ ¬ p.P_TRACED then
    { p with p_nice := NZERO }
  else p

/-- A signal with the property takes the pending signals of the mask away. -/
def cancel (p : Task) (sig prop : Nat) (mask : BitVec 32) : Task :=
  if has sig prop then p.take mask else p

/-- The bit of the signal set, and what the process is made to do about it. -/
def pend (p : Task) (sig : Nat) (action : Action) : Task × Bool :=
  let p := { p with p_sig := p.p_sig ||| sigmask sig }
  if action = .hold ∧ (¬ has sig SA_CONT ∨ p.p_stat ≠ .SSTOP) then (p, false)
  else
    match p.p_stat with
    | .SSLEEP => p.psignalSleep sig action
    | .SSTOP => (p.psignalStop sig action, false)
    | _ => (p, false)

/-- `psignal`, with whether the parent is told of a stop. -/
def psignal (p : Task) (sig : Int) : Option (Task × Bool) := do
  let sig ← index sig
  let mask := sigmask sig
  if ¬ p.P_TRACED ∧ p.p_sigignore &&& mask ≠ 0 then return (p, false)
  else
    let action := p.action mask
    let p := (p.renice sig action).cancel sig SA_CONT stopsigmask
    -- a tty stop of a child of init is discarded
    if has sig SA_STOP ∧ has sig SA_TTYSTOP ∧ p.p_pptr = 1 ∧ action = .dfl then return (p, false)
    else return (p.cancel sig SA_STOP contsigmask).pend sig action

/-! ## Actions -/

/-- The pending bit that `setsigvec` takes away. -/
def unpend (p : Task) (sig : Nat) (sa : Sigaction) : Task :=
  if sa.sa_handler = SIG_IGN ∨ (has sig SA_IGNORE ∧ sa.sa_handler = SIG_DFL) then
    p.take (sigmask sig)
  else p

def sigaction (p : Task) (signum : Int) (nsa : UserPtr Sigaction) (osa : UserPtr Unit)
    (sigtramp : Nat) : Option Task :=
  let q := { p with toProc := (p.toProc.sigaction signum nsa osa sigtramp).1 }
  if signum ≤ 0 ∨ (NSIG : Int) ≤ signum then some q
  else if nsa.given ∧ (signum = SIGKILL ∨ signum = SIGSTOP) then some q
  else do
    let sig ← index signum
    match osa, nsa with
    | .fault, _ => return q
    | _, .pointsTo sa => return q.unpend sig sa
    | _, _ => return q

/-- The loop of `execsigs`, `fuel` times at most. -/
def execLoop : Nat → Task → Option Task
  | 0, p => some p
  | fuel + 1, p =>
      if p.p_sigcatch = 0 then some p
      else do
        let nc ← index (ffs p.p_sigcatch)
        let mask := sigmask nc
        let ignored := has nc SA_IGNORE
        execLoop fuel { p with
          p_sigcatch := p.p_sigcatch &&& ~~~mask
          p_sigignore := if ignored ∧ nc ≠ SIGCONT then p.p_sigignore ||| mask else p.p_sigignore
          p_sig := if ignored then p.p_sig &&& ~~~mask else p.p_sig
          u_signal := Function.update p.u_signal nc SIG_DFL }

/-- `execsigs`; there are 32 bits in `p_sigcatch`. -/
def execsigs (p : Task) : Option Task := do
  let p ← execLoop 32 p
  return { p with
    u_sigstk := { ss_base := 0, ss_size := 0, ss_flags := SA_DISABLE }
    u_psflags := 0 }

/-! ## Delivery -/

/-- The cheap part of `CURSIG`. -/
def cursig (p : Task) : Task :=
  if p.p_sig = 0 ∨ (¬ p.P_TRACED ∧ p.p_sig &&& ~~~p.p_sigmask = 0) then p
  else { p with point := .issignal }

/-- `switch ((int)u.u_signal[sig])`, with whether the parent is told of a stop. -/
def dispose (p : Task) (sig : Nat) : Task × Bool :=
  let again := { p.take (sigmask sig) with point := .issignal }
  if p.u_signal sig = SIG_DFL then
    if p.p_pid ≤ 1 then (again, false)
    else if has sig SA_STOP then
      if p.P_TRACED ∨ (p.p_pptr = 1 ∧ has sig SA_TTYSTOP) then (again, false)
      else ({ p with p_ptracesig := sig, point := .stopped (sigmask sig) }.stop, true)
    else if has sig SA_IGNORE then (again, false)
    else ({ p with point := .signalled sig }, false)
  else if p.u_signal sig = SIG_IGN then (again, false)
  else ({ p with point := .signalled sig }, false)

/-- What the parent is told, if anything: always, or unless it has asked not to be. -/
inductive Notice where
  | none | always | stop

/-- A turn of `issignal` up to its end or to where the process stops. -/
def issignal (p : Task) : Option (Task × Notice) := do
  let mask := p.p_sig &&& ~~~p.p_sigmask
  let mask := if p.SVFORK then mask &&& ~~~stopsigmask else mask
  if mask = 0 then return ({ p with point := .away }, .none)
  let sig ← index (ffs mask)
  let mask := sigmask sig
  if mask &&& p.p_sigignore ≠ 0 ∧ ¬ p.P_TRACED then return (p.take mask, .none)
  if p.P_TRACED ∧ ¬ p.SVFORK then
    return ({ p.take mask with p_ptracesig := sig, point := .traced }.stop, .always)
  let (p, told) := p.dispose sig
  return (p, if told then .stop else .none)

/-- The rest of the turn, when the process has been released by the one that traces it. -/
def released (p : Task) : Option (Task × Bool) :=
  if p.p_ptracesig = 0 then some ({ p with point := .issignal }, false)
  else do
    let sig ← index p.p_ptracesig
    let mask := sigmask sig
    let p := { p with p_sig := p.p_sig ||| mask }
    if p.p_sigmask &&& mask ≠ 0 then return ({ p with point := .issignal }, false)
    if ¬ p.P_TRACED then return ({ p with point := .issignal }, false)
    return p.dispose sig

/-- `postsig`, with whether it leaves a signal for `fatalsig` to post. -/
def postsig (p : Task) (sig : Int) (trashed : Bool) : Option (Task × Bool) := do
  let sig ← index sig
  let handled := p.u_signal sig ≠ SIG_DFL
  let (q, frame) := p.toProc.postsig sig trashed
  return ({ p.take (sigmask sig) with toProc := q, point := .away }, handled ∧ frame.isNone)

end Task

/-! ## The words of `ptrace` -/

structure Ipc where
  ip_lock : Int
  ip_req : Int
  ip_addr : Int
  ip_data : Int

def PT_TRACE_ME : Int := 0

def PT_READ_I : Int := 1

def PT_READ_D : Int := 2

def PT_READ_U : Int := 3

def PT_WRITE_I : Int := 4

def PT_WRITE_D : Int := 5

def PT_WRITE_U : Int := 6

def PT_CONTINUE : Int := 7

def PT_KILL : Int := 8

def PT_STEP : Int := 9

/-- The words of a process with a part in its signal state. -/
inductive Word where
  | p_sig
  | p_sigmask
  | p_sigignore
  | p_sigcatch
  /-- `p_slptime`, `p_ptracesig` and two bytes of padding. -/
  | p_ptracesig
  | u_signal (sig : Nat)
  | u_sigmask (sig : Nat)

/-- A word of a process overwritten. -/
def Task.store (p : Task) (data : Int) : Word → Task
  | .p_sig => { p with p_sig := BitVec.ofInt 32 data }
  | .p_sigmask => { p with p_sigmask := BitVec.ofInt 32 data }
  | .p_sigignore => { p with p_sigignore := BitVec.ofInt 32 data }
  | .p_sigcatch => { p with p_sigcatch := BitVec.ofInt 32 data }
  | .p_ptracesig => { p with p_ptracesig := (data / 256 % 256).toNat }
  | .u_signal sig => { p with u_signal := Function.update p.u_signal sig (data % 2 ^ 32).toNat }
  | .u_sigmask sig => { p with u_sigmask := Function.update p.u_sigmask sig (BitVec.ofInt 32 data) }

/-! ## The system -/

/-- The processes by table slot, the slots on `allproc`, and the request of `ptrace`. -/
structure System where
  procs : Nat → Option Task
  allproc : List Nat
  ipc : Ipc

namespace System

def set (s : System) (slot : Nat) (p : Task) : System :=
  { s with procs := Function.update s.procs slot (some p) }

/-- The parent is told, unless it has set `P_NOCLDSTOP`. SIGCHLD does not stop a process, so nothing
comes of the parent's own `psignal`. -/
def tell (s : System) (parent : Nat) : Option System :=
  match s.procs parent with
  | none => some s
  | some q =>
      if q.noCldStop then some s
      else do
        let (q, _) ← q.psignal SIGCHLD
        return s.set parent q

def psignal (s : System) (slot : Nat) (sig : Int) : Option System :=
  match s.procs slot with
  | none => some s
  | some p => do
      let (p, told) ← p.psignal sig
      if told then (s.set slot p).tell p.p_pptr else return s.set slot p

def gsignal (s : System) (pgrp : Int) (sig : Int) : Option System :=
  if pgrp = 0 then some s
  else
    s.allproc.foldlM (fun s slot =>
      match s.procs slot with
      | none => some s
      | some p => if p.p_pgrp = pgrp then s.psignal slot sig else some s) s

def pfind (s : System) (pid : Int) : Option Nat :=
  s.allproc.find? fun slot => (s.procs slot).any (·.p_pid = pid)

/-- `killpg1` of the process in `self`; `can` is what `cansignal` answers, by slot. -/
def killpg1 (s : System) (self : Nat) (signo pgrp : Int) (all : Bool) (can : Nat → Bool) :
    Option System :=
  let pgrp := if ¬ all ∧ pgrp = 0 then ((s.procs self).map (·.p_pgrp)).getD 0 else pgrp
  if ¬ all ∧ pgrp = 0 then some s
  else
    s.allproc.foldlM (fun s slot =>
      match s.procs slot with
      | none => some s
      | some p =>
          if (p.p_pgrp ≠ pgrp ∧ ¬ all) ∨ p.p_ppid = 0 ∨ p.SSYS ∨ (all ∧ slot = self) then some s
          else if ¬ can slot then some s
          else if signo ≠ 0 then s.psignal slot signo
          else some s) s

def kill (s : System) (self : Nat) (pid signo : Int) (can : Nat → Bool) : Option System :=
  if signo < 0 ∨ (NSIG : Int) ≤ signo then some s
  else if 0 < pid then
    match s.pfind pid with
    | none => some s
    | some slot => if can slot ∧ signo ≠ 0 then s.psignal slot signo else some s
  else if pid = -1 then s.killpg1 self signo 0 true can
  else if pid = 0 then s.killpg1 self signo 0 false can
  else s.killpg1 self signo (-pid) false can

def killpg (s : System) (self : Nat) (pgrp signo : Int) (can : Nat → Bool) : Option System :=
  if signo < 0 ∨ (NSIG : Int) ≤ signo then some s else s.killpg1 self signo pgrp false can

/-- What `exit` does to a process of its table that may be a child. -/
def orphan (parent : Nat) (s : System) (child : Nat) : Option System :=
  match s.procs child with
  | none => some s
  | some q =>
      if q.p_pptr ≠ parent then some s
      else
        let q := { q with p_pptr := 1, p_ppid := 1 }
        if q.P_TRACED then (s.set child { q with P_TRACED := false }).psignal child SIGKILL
        else if q.p_stat = .SSTOP then do
          let s ← (s.set child q).psignal child SIGHUP
          s.psignal child SIGCONT
        else some (s.set child q)

/-- `exit` of the process `p` in a slot. -/
def exit (s : System) (slot : Nat) (p : Task) : Option System := do
  let s := { s.set slot { p with
      toProc := p.toProc.exit, P_TRACED := false, p_sig := 0, SVFORK := false, p_stat := .SZOMB
      point := .away } with
    allproc := s.allproc.erase slot }
  let s ← s.allproc.foldlM (orphan slot) s
  s.psignal p.p_pptr SIGCHLD

/-! ## Tracing -/

/-- `ptrace` of the process in `self`; it waits while another request is on its way. -/
def ptrace (s : System) (self : Nat) (req pid addr data : Int) : System :=
  match s.procs self with
  | none => s
  | some u =>
      if req ≤ 0 then s.set self { u with P_TRACED := true }
      else
        match s.pfind pid with
        | none => s
        | some slot =>
            match s.procs slot with
            | none => s
            | some p =>
                if p.p_stat ≠ .SSTOP ∨ p.p_ppid ≠ u.p_pid ∨ ¬ p.P_TRACED then s
                else if s.ipc.ip_lock ≠ 0 then s
                else { s.set slot p.setrun with ipc := ⟨p.p_pid, req, addr, data⟩ }

/-- The end of `ptrace`, when the request has been seen to. -/
def ptraceEnd (s : System) : System :=
  if s.ipc.ip_lock ≠ 0 ∧ s.ipc.ip_req ≤ 0 then { s with ipc := { s.ipc with ip_lock := 0 } } else s

/-- `*p = ipc.ip_data` of `PT_WRITE_U`; `target` is the signal word at the address, if it is one. -/
def writeU (s : System) (target : Option (Nat × Word)) (data : Int) : System :=
  match target with
  | none => s
  | some (slot, word) =>
      match s.procs slot with
      | none => s
      | some p => s.set slot (p.store data word)

/-- How `procxmt` ends. -/
inductive Procxmt where
  | ret (value : Bool) (s : System)
  | exit (s : System)

/-- `procxmt` of the process `p` in a slot. `word` says which words of signal state lie at which
addresses, and `user` is what a read finds there, or that the address is bad. -/
def procxmt (word : Int → Option (Nat × Word)) (s : System) (slot : Nat) (p : Task)
    (user : Option Int) : Procxmt :=
  if s.ipc.ip_lock ≠ p.p_pid then .ret false s
  else
    let i := s.ipc.ip_req
    let error := Procxmt.ret false { s with ipc := { s.ipc with ip_req := -1 } }
    let s := { s with ipc := { s.ipc with ip_req := 0 } }
    if i = PT_READ_I ∨ i = PT_READ_D then
      match user with
      | none => error
      | some value => .ret false { s with ipc := { s.ipc with ip_data := value } }
    else if i = PT_READ_U then
      if s.ipc.ip_addr < 0 ∨ USIZE ≤ s.ipc.ip_addr then error
      else .ret false { s with ipc := { s.ipc with ip_data := user.getD 0 } }
    else if i = PT_WRITE_I ∨ i = PT_WRITE_D then
      match user with
      | none => error
      | some _ => .ret false s
    else if i = PT_WRITE_U then .ret false (s.writeU (word s.ipc.ip_addr) s.ipc.ip_data)
    else if i = PT_STEP ∨ i = PT_CONTINUE then
      if s.ipc.ip_data > NSIG then error
      else .ret true (s.set slot { p with p_ptracesig := (s.ipc.ip_data % 256).toNat })
    else if i = PT_KILL then .exit s
    else error

/-- Back in `issignal` the process stops again, or is released. -/
def resume (word : Int → Option (Nat × Word)) (s : System) (slot : Nat) (p : Task)
    (user : Option Int) : Option System :=
  match s.procxmt word slot p user with
  | .exit s => s.exit slot p
  | .ret value s =>
      match s.procs slot with
      | none => some s
      | some p =>
          if ¬ value ∧ p.P_TRACED then some (s.set slot p.stop)
          else do
            let (p, told) ← p.released
            if told then (s.set slot p).tell p.p_pptr else return s.set slot p

/-! ## Steps -/

inductive Event where
  | kill (self : Nat) (pid signo : Int) (can : Nat → Bool)
  | killpg (self : Nat) (pgrp signo : Int) (can : Nat → Bool)
  | psignal (slot sig : Nat)
  | gsignal (pgrp : Int) (sig : Nat)
  | call (slot : Nat) (c : Call)
  | ptrace (self : Nat) (req pid addr data : Int)
  | ptraceEnd
  | cursig (slot : Nat)
  | issignal (slot : Nat)
  | resume (slot : Nat) (user : Option Int)
  | restart (slot : Nat)
  | postsig (slot : Nat) (trashed : Bool)
  | tsleepEnd (slot : Nat)
  | tsleep (slot : Nat) (catching : Bool)
  | block (slot : Nat)
  | wakeup (slot : Nat)
  | newproc (parent child : Nat) (pid : Int) (isvfork : Bool) (stale : Nat)
  | wait4 (slot : Nat)

/-- A step of a process that is running. -/
def running (s : System) (slot : Nat) (f : Task → Option System) : Option System :=
  match s.procs slot with
  | none => some s
  | some p => if p.p_stat = .SRUN then f p else some s

/-- The calls that change the signal state. A signal is delivered, and the process exits, in steps of
their own. -/
def call (s : System) (slot : Nat) (p : Task) : Call → Option System
  | .sigaction signum nsa osa sigtramp => do
      let p ← p.sigaction signum nsa osa sigtramp
      return s.set slot p
  | .execve => do
      let p ← p.execsigs
      return s.set slot p
  | .exit => s.exit slot p
  | .postsig _ _ => some s
  | c => some (s.set slot { p with toProc := p.toProc.call c })

def step (word : Int → Option (Nat × Word)) (s : System) : Event → Option System
  | .kill self pid signo can => s.running self fun _ => s.kill self pid signo can
  | .killpg self pgrp signo can => s.running self fun _ => s.killpg self pgrp signo can
  | .psignal slot sig => if sig ∈ raised then s.psignal slot sig else some s
  | .gsignal pgrp sig => if sig ∈ raised then s.gsignal pgrp sig else some s
  | .call slot c => s.running slot fun p =>
      match p.point with
      | .away => s.call slot p c
      | _ => some s
  | .ptrace self req pid addr data => some (s.ptrace self req pid addr data)
  | .ptraceEnd => some s.ptraceEnd
  | .cursig slot => s.running slot fun p =>
      match p.point with
      | .away => some (s.set slot p.cursig)
      | _ => some s
  | .issignal slot => s.running slot fun p =>
      match p.point with
      | .issignal => do
          let (p, notice) ← p.issignal
          match notice with
          | .none => return s.set slot p
          | .always => (s.set slot p).psignal p.p_pptr SIGCHLD
          | .stop => (s.set slot p).tell p.p_pptr
      | _ => some s
  | .resume slot user => s.running slot fun p =>
      match p.point with
      | .traced => s.resume word slot p user
      | _ => some s
  | .restart slot => s.running slot fun p =>
      match p.point with
      | .stopped mask => some (s.set slot { p.take mask with point := .issignal })
      | _ => some s
  | .postsig slot trashed => s.running slot fun p =>
      match p.point with
      | .signalled sig => do
          let (q, fatal) ← p.postsig sig trashed
          if q.exiting then s.exit slot q
          else if fatal then (s.set slot q).psignal slot SIGILL
          else return s.set slot q
      | _ => some s
  | .tsleepEnd slot => s.running slot fun p =>
      match p.point with
      | .signalled sig => do
          -- u.u_sigintr & sigmask(sig)
          let _ ← index sig
          return s.set slot { p with P_SINTR := false, point := .away }
      | _ => some s
  | .tsleep slot catching => s.running slot fun p =>
      some (s.set slot { p with p_wchan := true, P_SINTR := catching })
  | .block slot => s.running slot fun p =>
      some (if p.p_wchan then s.set slot { p with p_stat := .SSLEEP } else s)
  | .wakeup slot =>
      match s.procs slot with
      | none => some s
      | some p =>
          some (if p.p_wchan then
            s.set slot { p with
              p_wchan := false
              p_stat := if p.p_stat = .SSLEEP then .SRUN else p.p_stat }
          else s)
  | .newproc parent child pid isvfork stale => s.running parent fun p =>
      if (s.procs child).isSome then some s
      else
        some { s.set child { p with
            noCldStop := false, p_pid := pid, p_ppid := p.p_pid, p_pptr := parent
            P_TRACED := false, SVFORK := isvfork, SSYS := false, P_SINTR := false, p_wchan := false
            p_sig := 0, p_ptracesig := stale, point := .away } with
          allproc := child :: s.allproc }
  | .wait4 slot =>
      match s.procs slot with
      | none => some s
      | some p =>
          some (if p.p_stat = .SZOMB then { s with procs := Function.update s.procs slot none }
          else s)

end System

end DiscoBsd.Signal.Delivery
