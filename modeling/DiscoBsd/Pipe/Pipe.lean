import DiscoBsd.Lib.Memory
import DiscoBsd.Lib.Steps

/-!
# Pipes

`readp` and `writep` of `sys/kern/sys_pipe.c` with the transfer by `rwip`, for any number of processes
on one pipe. A process gives up the processor where the source sleeps: at a locked inode, without data,
without room, and in a transfer, which keeps the inode locked. It may go on whenever the scheduler lets
it, so the flags that say whom to wake are left out; a sleep for data or for room can end by a signal,
with the `longjmp` to `rwuio`.

`stored` and `obtained` record the bytes that writers stored and readers got, `finished` the writes that
returned.
-/

namespace DiscoBsd.Pipe

open DiscoBsd.Lib

def DEV_BSIZE : Nat := 1024

/-- `NDADDR * MAXBSIZE`. -/
def MAXPIPSIZ : Nat := 4 * 1024

inductive Errno where
  | ewouldblock | epipe | efbig | eio | enospc | eintr | erestart
deriving DecidableEq

/-- What can go wrong with a block: `bmap` fails or finds `u_error` still set, or the buffer cannot
be read. -/
inductive Fault where
  | bmap (error : Errno)
  | buffer
deriving DecidableEq

/-! ## The transfer -/

/-- The file, and the request with the bytes that are still in the user's buffers. -/
structure Out where
  file : Nat → UInt8
  i_size : Nat
  uio_offset : Nat
  uio_resid : Nat
  iov : List UInt8

/-- The loop of `rwip` for a write; the faults are those of the turns of the loop. -/
def rwipOutLoop (faults : Nat → Option Fault) : Nat → Nat → Out → Option Errno × Out
  | 0, _, io => (none, io)
  | fuel + 1, turn, io =>
      let n := min (DEV_BSIZE - io.uio_offset % DEV_BSIZE) io.uio_resid
      match faults turn with
      | some (.bmap error) => (some error, io)
      | some .buffer => (some .eio, { io with i_size := max io.i_size (io.uio_offset + n) })
      | none =>
          let io : Out :=
            { file := store io.file io.uio_offset (io.iov.take n)
              i_size := max io.i_size (io.uio_offset + n)
              uio_offset := io.uio_offset + n
              uio_resid := io.uio_resid - n
              iov := io.iov.drop n }
          if io.uio_resid = 0 then (none, io) else rwipOutLoop faults fuel (turn + 1) io

/-- `rwip` for a write to a regular file, as the inode of a pipe is one. -/
def rwipOut (rlim_fsize : Nat) (faults : Nat → Option Fault) (io : Out) : Option Errno × Out :=
  if io.uio_resid = 0 then (none, io)
  else if rlim_fsize < io.uio_offset + io.uio_resid then (some .efbig, io)
  else rwipOutLoop faults io.uio_resid 0 io

/-- The request of a read, with the bytes that it got. -/
structure In where
  uio_offset : Nat
  uio_resid : Nat
  got : List UInt8

/-- The loop of `rwip` for a read. -/
def rwipInLoop (file : Nat → UInt8) (i_size : Nat) (faults : Nat → Option Fault) :
    Nat → Nat → In → Option Errno × In
  | 0, _, io => (none, io)
  | fuel + 1, turn, io =>
      if i_size ≤ io.uio_offset then (none, io)
      else
        let n := min (min (DEV_BSIZE - io.uio_offset % DEV_BSIZE) io.uio_resid)
          (i_size - io.uio_offset)
        match faults turn with
        | some (.bmap error) => (some error, io)
        | some .buffer => (some .eio, io)
        | none =>
            let io : In :=
              { uio_offset := io.uio_offset + n
                uio_resid := io.uio_resid - n
                got := io.got ++ bytes file io.uio_offset n }
            if io.uio_resid = 0 then (none, io)
            else rwipInLoop file i_size faults fuel (turn + 1) io

/-- `rwip` for a read. -/
def rwipIn (file : Nat → UInt8) (i_size : Nat) (faults : Nat → Option Fault) (io : In) :
    Option Errno × In :=
  if io.uio_resid = 0 then (none, io) else rwipInLoop file i_size faults io.uio_resid 0 io

/-! ## Processes -/

/-- A write in progress. `put` are the bytes of `data` that it has stored. -/
structure Write where
  data : List UInt8
  nonblock : Bool
  c : Nat
  error : Option Errno
  uio_offset : Nat
  uio_resid : Nat
  iov : List UInt8
  put : List UInt8

/-- Where a process is. -/
inductive Control where
  | idle
  | readLock (count : Nat) (nonblock : Bool)
  | readSleep (count : Nat) (nonblock : Bool)
  | readTransfer (count uio_offset : Nat)
  | writeLock (w : Write)
  | writeSleep (w : Write)
  | writeTransfer (w : Write)

/-- A write that has returned to its caller, with an error or a count. -/
structure Finished where
  data : List UInt8
  put : List UInt8
  result : Except Errno Nat

structure Kernel (P : Type) where
  file : Nat → UInt8
  i_size : Nat
  i_count : Nat
  ilocked : Bool
  f_offset : Nat
  proc : P → Control
  stored : List UInt8
  obtained : List UInt8
  finished : List Finished

variable {P : Type} [DecidableEq P]

namespace Kernel

/-- A process comes to another point. -/
def goTo (k : Kernel P) (p : P) (c : Control) : Kernel P :=
  { k with proc := Function.update k.proc p c }

def unlock (k : Kernel P) : Kernel P := { k with ilocked := false }

/-- `loop:` of `readp`, with the inode locked, up to the transfer. -/
def readp (k : Kernel P) (p : P) (count : Nat) (nonblock : Bool) : Kernel P :=
  if k.i_size = 0 then
    if k.i_count ≠ 2 then k.unlock.goTo p .idle
    else if nonblock then k.unlock.goTo p .idle
    else k.unlock.goTo p (.readSleep count nonblock)
  else k.goTo p (.readTransfer count k.f_offset)

/-- `readp` from the transfer on. A reader has the bytes when its call returns a count. -/
def readTransfer (k : Kernel P) (p : P) (count uio_offset : Nat) (faults : Nat → Option Fault) :
    Kernel P :=
  let (error, io) := rwipIn k.file k.i_size faults ⟨uio_offset, count, []⟩
  let k := { k with
    f_offset := io.uio_offset
    obtained := if error = none then k.obtained ++ io.got else k.obtained }
  let k := if k.f_offset = k.i_size then { k with f_offset := 0, i_size := 0 } else k
  k.unlock.goTo p .idle

/-- The write returns to its caller. -/
def returnWrite (k : Kernel P) (p : P) (w : Write) (result : Except Errno Nat) : Kernel P :=
  { k.goTo p .idle with finished := ⟨w.data, w.put, result⟩ :: k.finished }

/-- `loop:` of `writep`, with the inode locked, up to the transfer. -/
def writeLoop (k : Kernel P) (p : P) (w : Write) : Kernel P :=
  if w.c = 0 then
    k.unlock.returnWrite p w (match w.error with
      | none => .ok w.data.length
      | some error => .error error)
  else if k.i_count ≠ 2 then k.unlock.returnWrite p w (.error .epipe)
  else if MAXPIPSIZ ≤ k.i_size then k.unlock.goTo p (.writeSleep w)
  else
    let uio_resid := min w.c MAXPIPSIZ
    k.goTo p (.writeTransfer
      { w with uio_offset := k.i_size, uio_resid := uio_resid, c := w.c - uio_resid })

/-- `writep` with the inode locked for the first time. -/
def writep (k : Kernel P) (p : P) (w : Write) : Kernel P :=
  if w.nonblock ∧ MAXPIPSIZ ≤ k.i_size + w.c then k.unlock.returnWrite p w (.error .ewouldblock)
  else k.writeLoop p w

/-- `writep` from the transfer on. -/
def writeTransfer (rlim_fsize : Nat) (k : Kernel P) (p : P) (w : Write)
    (faults : Nat → Option Fault) : Kernel P :=
  let (error, io) := rwipOut rlim_fsize faults ⟨k.file, k.i_size, w.uio_offset, w.uio_resid, w.iov⟩
  let moved := w.iov.take (w.iov.length - io.iov.length)
  { k with file := io.file, i_size := io.i_size, stored := k.stored ++ moved }.writeLoop p
    { w with
      error := error
      uio_offset := io.uio_offset
      uio_resid := io.uio_resid
      iov := io.iov
      put := w.put ++ moved }

/-- The rest of `rwuio` after a `longjmp` out of a write. -/
def interrupted (w : Write) (error : Errno) : Except Errno Nat :=
  if w.uio_resid = w.data.length then .error error else .ok (w.data.length - w.uio_resid)

end Kernel

/-! ## Runs -/

inductive Event (P : Type) where
  | read (p : P) (count : Nat) (nonblock : Bool)
  | write (p : P) (data : List UInt8) (nonblock : Bool)
  | run (p : P) (faults : Nat → Option Fault)
  | signal (p : P) (intr : Bool)
  | close

/-- What `tsleep` makes of a signal. -/
def interruption (intr : Bool) : Errno := if intr then .eintr else .erestart

namespace Kernel

/-- A pipe with both ends open. -/
def boot (file : Nat → UInt8) : Kernel P where
  file := file
  i_size := 0
  i_count := 2
  ilocked := false
  f_offset := 0
  proc _ := .idle
  stored := []
  obtained := []
  finished := []

/-- `ILOCK`: nothing happens while the inode is locked. -/
def locking (k : Kernel P) (next : Kernel P → Kernel P) : Option (Kernel P) :=
  if k.ilocked then none else some (next { k with ilocked := true })

def event (rlim_fsize : P → Nat) (k : Kernel P) : Event P → Option (Kernel P)
  | .read p count nonblock =>
      match k.proc p with
      | .idle => some (k.goTo p (.readLock count nonblock))
      | _ => none
  | .write p data nonblock =>
      match k.proc p with
      | .idle =>
          some (k.goTo p (.writeLock ⟨data, nonblock, data.length, none, 0, data.length, data, []⟩))
      | _ => none
  | .run p faults =>
      match k.proc p with
      | .idle => none
      | .readLock count nonblock => k.locking fun k => k.readp p count nonblock
      | .readSleep count nonblock => k.locking fun k => k.readp p count nonblock
      | .readTransfer count uio_offset => some (k.readTransfer p count uio_offset faults)
      | .writeLock w => k.locking fun k => k.writep p w
      | .writeSleep w => k.locking fun k => k.writeLoop p w
      | .writeTransfer w => some (writeTransfer (rlim_fsize p) k p w faults)
  | .signal p intr =>
      match k.proc p with
      | .readSleep _ _ => some (k.goTo p .idle)
      | .writeSleep w => some (k.returnWrite p w (interrupted w (interruption intr)))
      | _ => none
  | .close => some { k with i_count := k.i_count - 1 }

end Kernel

end DiscoBsd.Pipe
