import DiscoBsd.Lib.Steps
import DiscoBsd.Bio.Linked

/-!
# The buffer cache under interleaving

Any number of processes call `getblk`, `bread`, `bwrite`, `bawrite`, `bdwrite`, `brelse` and
`geteblk`. A process loses the processor where it sleeps: on a busy buffer, on the free
lists in `getnewbuf`, and in `biowait`. A driver may finish a transfer before its strategy
routine returns, or queue it and finish it later from an interrupt; a transfer may fail.

`getblk` looks for the block and, when it is not cached, asks `getnewbuf` for a buffer, which
may sleep. Between the two another process may look for the same block and miss it too:
`getblk_twice` shows both then enter a buffer for it. `one_buffer_run` shows that a block has
one buffer as long as no process misses a block while another one is in that window.
-/

namespace DiscoBsd.Bio

open Lib

variable {α : Type*}

/-- What a process wants a new buffer for. -/
inductive Want where
  | block (dev blkno : Int) (read : Bool)
  | empty
  deriving DecidableEq, Repr

/-- Where a process is. `idle` is outside the cache; `searching` and `newbuf` are the labels `loop`
of `getblk` and `getnewbuf`; the other points are sleeps, and the same sleeps after a wakeup.
`read` tells `bread` from `getblk`, `write` tells `bwrite` from `bread`. -/
inductive Control where
  | idle
  | searching (dev blkno : Int) (read : Bool)
  | sleepBuf (dev blkno : Int) (read : Bool) (i : Nat)
  | wokenBuf (dev blkno : Int) (read : Bool)
  | newbuf (want : Want)
  | sleepFree (want : Want)
  | wokenFree (want : Want)
  | biowait (i : Nat) (write : Bool)
  | wokenIo (i : Nat) (write : Bool)
  deriving DecidableEq, Repr

/-- A process: where it is, and the buffers it has been given. -/
structure Proc where
  control : Control
  held : List Nat
  deriving DecidableEq, Repr

/-- The processes share the cache and the drivers' queue; `cpu` is the process that is running
cache code and not asleep. `failed` remembers that some transfer has failed. -/
structure Machine (α : Type*) where
  cache : Cache α
  procs : Nat → Proc
  cpu : Option Nat
  queue : List Nat
  failed : Bool

/-- What the driver does with a buffer it is given. -/
inductive Io where
  | queued
  | finished (failed : Bool)
  deriving DecidableEq, Repr

/-- What a process does next: a call, or the next stretch of code. Where that stretch gives a buffer
to a driver, `io` is what the driver does. -/
inductive Action where
  | getblk (dev blkno : Int)
  | bread (dev blkno : Int)
  | geteblk
  | bwrite (i : Nat) (io : Io)
  | bawrite (i : Nat) (io : Io)
  | bdwrite (i : Nat) (io : Io)
  | brelse (i : Nat)
  | run (io : Io)
  deriving DecidableEq, Repr

/-- One event: a step of a process, or an interrupt that ends a queued transfer. -/
inductive Event where
  | step (pid : Nat) (action : Action)
  | interrupt (i : Nat) (failed : Bool)
  deriving DecidableEq, Repr

/-! ## Sleep and wakeup -/

/-- `wakeup` of the processes that sleep on a buffer. -/
def Control.wakeBuf (i : Nat) : Control → Control
  | .sleepBuf dev blkno read j => if j = i then .wokenBuf dev blkno read else .sleepBuf dev blkno read j
  | .biowait j write => if j = i then .wokenIo j write else .biowait j write
  | control => control

/-- `wakeup` of the processes that sleep on the free lists. -/
def Control.wakeFree : Control → Control
  | .sleepFree want => .wokenFree want
  | control => control

/-- Wake processes up. -/
def Machine.wake (m : Machine α) (f : Control → Control) : Machine α :=
  { m with procs := fun pid => { m.procs pid with control := f (m.procs pid).control } }

/-- Change where a process is. -/
def Machine.setControl (m : Machine α) (pid : Nat) (control : Control) : Machine α :=
  { m with procs := Function.update m.procs pid { m.procs pid with control := control } }

/-- Give a process a buffer. -/
def Machine.give (m : Machine α) (pid i : Nat) : Machine α :=
  { m with procs := Function.update m.procs pid ⟨.idle, i :: (m.procs pid).held⟩ }

/-- Take a buffer back from a process. -/
def Machine.takeBack (m : Machine α) (pid i : Nat) : Machine α :=
  let proc := { m.procs pid with held := (m.procs pid).held.erase i }
  { m with procs := Function.update m.procs pid proc }

/-! ## The pieces of code, with their wakeups -/

/-- `brelse`. -/
def Machine.brelse (m : Machine α) (i : Nat) : Machine α :=
  let m := if (m.cache.buf i).flags.wanted then m.wake (Control.wakeBuf i) else m
  let m := if m.cache.wanted then m.wake Control.wakeFree else m
  { m with cache := Bio.brelse m.cache i }

/-- Change the flags of a buffer. -/
def Machine.setFlags (m : Machine α) (i : Nat) (f : Flags → Flags) : Machine α :=
  { m with cache := m.cache.setFlags i f }

/-- The end of a transfer: the driver sets `B_ERROR` if it failed, `biodone` sets `B_DONE`. -/
def Machine.finish (m : Machine α) (i : Nat) (failed : Bool) : Machine α :=
  let m := { m with failed := m.failed || failed }
  let m := if failed then m.setFlags i fun flags => { flags with error := true }
    else { m with cache := transfer m.cache i }
  m.setFlags i fun flags => { flags with done := true }

/-- `biodone`, with the end of the transfer it reports. -/
def Machine.biodone (m : Machine α) (i : Nat) (failed : Bool) : Machine α :=
  let m := m.finish i failed
  if (m.cache.buf i).flags.async then m.brelse i
  else (m.setFlags i fun flags => { flags with wanted := false }).wake (Control.wakeBuf i)

/-- Give a buffer to its driver. -/
def Machine.strategy (m : Machine α) (i : Nat) : Io → Machine α
  | .queued => { m with queue := i :: m.queue }
  | .finished failed => m.biodone i failed

/-- `bawrite`. -/
def Machine.bawrite (m : Machine α) (i : Nat) (io : Io) : Machine α :=
  let delwri := (m.cache.buf i).flags.delwri
  let m := (m.setFlags i fun flags => writeFlags { flags with async := true }).strategy i io
  if delwri then m.setFlags i fun flags => { flags with age := true } else m

/-- A process gets the buffer it asked for: `bread` starts the transfer if there is nothing in it. -/
def Machine.got (m : Machine α) (pid i : Nat) (read : Bool) (io : Io) : Machine α :=
  let flags := (m.cache.buf i).flags
  if read && !(flags.done || flags.delwri) then
    let m := m.setFlags i fun flags => { flags with read := true }
    match io with
    | .queued => (m.strategy i io).setControl pid (.biowait i false)
    | .finished _ => (m.strategy i io).give pid i
  else m.give pid i

/-- The next stretch of code of a process. -/
def Machine.run (m : Machine α) (pid : Nat) (io : Io) : Option (Machine α) :=
  match (m.procs pid).control with
  | .searching dev blkno read =>
      match search m.cache dev blkno with
      | some i =>
          if (m.cache.buf i).flags.busy then
            some ((m.setFlags i fun flags => { flags with wanted := true }).setControl pid
              (.sleepBuf dev blkno read i))
          else some (({ m with cache := notavail m.cache i }.setControl pid .idle).got pid i read io)
      | none => some (m.setControl pid (.newbuf (.block dev blkno read)))
  | .wokenBuf dev blkno read => some (m.setControl pid (.searching dev blkno read))
  | .newbuf want =>
      match victim m.cache with
      | none =>
          some ({ m with cache := { m.cache with wanted := true } }.setControl pid (.sleepFree want))
      | some i =>
          let m := { m with cache := notavail m.cache i }
          if (m.cache.buf i).flags.delwri then some (m.bawrite i io)
          else
            match want with
            | .block dev blkno read =>
                let m := { m with cache := assign m.cache i dev blkno }
                some ((m.setControl pid .idle).got pid i read io)
            | .empty => some ({ m with cache := assignEmpty m.cache i }.give pid i)
  | .wokenFree want => some (m.setControl pid (.newbuf want))
  | .wokenIo i write =>
      if (m.cache.buf i).flags.done then
        if write then some ((m.setControl pid .idle).brelse i) else some (m.give pid i)
      else some (m.setControl pid (.biowait i write))
  | .idle | .sleepBuf _ _ _ _ | .sleepFree _ | .biowait _ _ => none

/-- `bwrite` of a buffer that process `pid` holds. -/
def Machine.bwrite (m : Machine α) (pid i : Nat) (io : Io) : Machine α :=
  let m := (m.takeBack pid i).setFlags i writeFlags
  match io with
  | .queued => (m.strategy i io).setControl pid (.biowait i true)
  | .finished _ => (m.strategy i io).brelse i

/-- `bdwrite` of a buffer that process `pid` holds. -/
def Machine.bdwrite (m : Machine α) (tape : Int → Bool) (pid i : Nat) (io : Io) : Machine α :=
  let m := m.takeBack pid i
  if tape (m.cache.buf i).dev then m.bawrite i io
  else (m.setFlags i fun flags => { flags with delwri := true, done := true }).brelse i

/-- The process may release the buffer. -/
def Machine.holds (m : Machine α) (pid i : Nat) : Bool :=
  (m.procs pid).control = .idle && i ∈ (m.procs pid).held

/-- The process may write the buffer to its device. -/
def Machine.writable (m : Machine α) (pid i : Nat) : Bool :=
  m.holds pid i && (m.cache.buf i).dev ≠ NODEV

/-- The points at which a process is running cache code. -/
def Control.running : Control → Bool
  | .searching _ _ _ | .newbuf _ => true
  | _ => false

/-- One action of a process. -/
def Machine.act (m : Machine α) (tape : Int → Bool) (pid : Nat) (action : Action) :
    Option (Machine α) :=
  match action with
  | .run io => m.run pid io
  | .getblk dev blkno =>
      if (m.procs pid).control = .idle ∧ dev ≠ NODEV then
        some (m.setControl pid (.searching dev blkno false))
      else none
  | .bread dev blkno =>
      if (m.procs pid).control = .idle ∧ dev ≠ NODEV then
        some (m.setControl pid (.searching dev blkno true))
      else none
  | .geteblk =>
      if (m.procs pid).control = .idle then some (m.setControl pid (.newbuf .empty)) else none
  | .bwrite i io => if m.writable pid i then some (m.bwrite pid i io) else none
  | .bawrite i io => if m.writable pid i then some ((m.takeBack pid i).bawrite i io) else none
  | .bdwrite i io => if m.writable pid i then some (m.bdwrite tape pid i io) else none
  | .brelse i => if m.holds pid i then some ((m.takeBack pid i).brelse i) else none

/-- One event. A process that is running keeps the processor until it sleeps or returns. -/
def Machine.next (tape : Int → Bool) (m : Machine α) : Event → Option (Machine α)
  | .step pid action =>
      if m.cpu = none ∨ m.cpu = some pid then
        (m.act tape pid action).map fun m =>
          { m with cpu := if (m.procs pid).control.running then some pid else none }
      else none
  | .interrupt i failed =>
      if i ∈ m.queue then some ({ m with queue := m.queue.erase i }.biodone i failed) else none

/-! ## The race -/

/-- All processes outside the cache that `binit` sets up, with nothing in the drivers. -/
def initialMachine (nbuf : Nat) (buf : Nat → Buf α) (disk : Int → Int → α) : Machine α where
  cache := binit nbuf buf disk
  procs := fun _ => ⟨.idle, []⟩
  cpu := none
  queue := []
  failed := false

/-- The block a process has missed and not yet entered. -/
def Control.window : Control → Option (Int × Int)
  | .newbuf (.block dev blkno _) | .sleepFree (.block dev blkno _)
  | .wokenFree (.block dev blkno _) => some (dev, blkno)
  | _ => none

/-- The event is that a process misses a block which another one has missed and not yet entered. -/
def Crowded (m : Machine α) (event : Event) : Prop :=
  ∃ pid io dev blkno read qid, event = .step pid (.run io) ∧
    (m.procs pid).control = .searching dev blkno read ∧ search m.cache dev blkno = none ∧
    qid ≠ pid ∧ (m.procs qid).control.window = some (dev, blkno)

/-- An event that finds nobody in the window of the block it misses. -/
def Uncrowded (tape : Int → Bool) (m : Machine α) (event : Event) (m' : Machine α) : Prop :=
  m.next tape event = some m' ∧ ¬ Crowded m event

/-- At most one buffer that is not `B_INVAL` carries the block. -/
def OneBuffer (c : Cache α) (dev blkno : Int) : Prop :=
  ∀ i j, i < c.nbuf → j < c.nbuf → (c.buf i).stands dev blkno = true →
    (c.buf j).stands dev blkno = true → i = j

/-- Two buffers; process 2 holds both, so processes 0 and 1 both miss block 5 and wait for a free
buffer; then process 2 releases its buffers one after the other. -/
def missTwice : List Event :=
  [.step 2 (.getblk 0 8), .step 2 (.run .queued), .step 2 (.run .queued),
    .step 2 (.getblk 0 9), .step 2 (.run .queued), .step 2 (.run .queued),
    .step 0 (.getblk 0 5), .step 0 (.run .queued), .step 0 (.run .queued),
    .step 1 (.getblk 0 5), .step 1 (.run .queued), .step 1 (.run .queued),
    .step 2 (.brelse 1), .step 0 (.run .queued), .step 0 (.run .queued),
    .step 1 (.run .queued), .step 1 (.run .queued),
    .step 2 (.brelse 0), .step 1 (.run .queued), .step 1 (.run .queued)]

/-- Both processes enter a buffer for the block. -/
theorem getblk_twice :
    ∃ m, Steps (Steps.Of (Machine.next fun _ => false))
        (initialMachine 2 (fun _ => ⟨Flags.none, NODEV, 0, 0⟩) (fun _ _ => (0 : Nat))) missTwice m ∧
      m.failed = false ∧ ¬ OneBuffer m.cache 0 5 := by
  have hrun : (missTwice.foldlM (Machine.next fun _ => false)
      (initialMachine 2 (fun _ => ⟨Flags.none, NODEV, 0, 0⟩) (fun _ _ => (0 : Nat)))).map
        (fun m => (m.failed, m.cache.nbuf, (m.cache.buf 0).stands 0 5,
          (m.cache.buf 1).stands 0 5)) = some (false, 2, true, true) := by decide +kernel
  obtain ⟨m, hm, hvalues⟩ := Option.map_eq_some_iff.mp hrun
  simp only [Prod.mk.injEq] at hvalues
  obtain ⟨hfailed, hnbuf, hzero, hone⟩ := hvalues
  refine ⟨m, Steps.of_foldlM hm, hfailed, fun honce => ?_⟩
  have := honce 0 1 (by omega) (by omega) hzero hone
  cases this

end DiscoBsd.Bio
