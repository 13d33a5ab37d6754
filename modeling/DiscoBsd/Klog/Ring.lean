import DiscoBsd.Lib.Circular
import DiscoBsd.Lib.Memory
import Mathlib.Tactic.Linarith

/-!
# The kernel log

`/dev/klog` is a ring of `MSG_BSIZE` bytes with a write index `msg_bufx` and a read index `msg_bufr`.
Either may stand at `MSG_BSIZE` until it is used again, and equal indices mean an empty ring. Both
routines run at `splhigh`, so a call is one step; a reader of an empty ring sleeps, and looks again
when it wakes up.

The loops have fuel. Running out of it, or touching a byte outside of the ring, ends a call with
`none`.
-/

namespace DiscoBsd.Klog

open Lib

def MSG_MAGIC : Nat := 0x063061

def MSG_BSIZE : Nat := 2048

/-- The size of the buffer on the stack of `logread`. -/
def BUFSIZE : Nat := 128

/-- A `msgbuf`, with the overrun counter and the `LOG_RDWAIT` flag of its `logsoftc`. -/
structure Log where
  msg_magic : Nat
  msg_bufx : Nat
  msg_bufr : Nat
  msg_bufc : Nat → UInt8
  sc_overrun : Nat
  rdwait : Bool

namespace Log

/-- `loginit`. -/
def loginit (mp : Log) : Log := { mp with msg_magic := MSG_MAGIC, msg_bufx := 0, msg_bufr := 0 }

/-! ## Writing -/

/-- What `logwrt` finds at `again`: the write index, the room in front of it up to the end of the
ring or the reader, and the room for the writer in all. -/
structure Room where
  bufx : Nat
  infront : Int
  writer : Int

/-- The room from `bufx` on, with `infront` bytes up to the end of the ring. -/
def roomFrom (mp : Log) (bufx : Nat) (infront : Int) : Room :=
  let n : Int := mp.msg_bufr - bufx
  if n < 0 then ⟨bufx, infront, (MSG_BSIZE - bufx) + mp.msg_bufr⟩
  else if n = 0 then ⟨bufx, infront, MSG_BSIZE⟩
  else ⟨bufx, n, n⟩

def room (mp : Log) : Room :=
  let infront : Int := MSG_BSIZE - mp.msg_bufx
  if infront ≤ 0 then mp.roomFrom 0 (MSG_BSIZE - mp.msg_bufr) else mp.roomFrom mp.msg_bufx infront

/-- `bcopy` into the ring, and the write index behind it. -/
def copied (mp : Log) (bufx : Nat) (bytes : List UInt8) : Log :=
  { mp with msg_bufc := store mp.msg_bufc bufx bytes, msg_bufx := bufx + bytes.length }

/-- The unread data is thrown away and the overrun counted. -/
def overrun (mp : Log) : Log :=
  { mp with sc_overrun := mp.sc_overrun + 1, msg_bufx := mp.msg_bufr }

/-- `while (len)`; what does not fit counts an overrun and tries again. -/
def logwrtLoop : Nat → Log → List UInt8 → Option Log
  | 0, _, _ => none
  | fuel + 1, mp, buf =>
      if buf = [] then some mp
      else
        let room := mp.room
        if room.writer < buf.length then logwrtLoop fuel mp.overrun buf
        else
          let infront := min room.infront buf.length
          if 0 ≤ infront ∧ room.bufx + infront ≤ MSG_BSIZE then
            logwrtLoop fuel (mp.copied room.bufx (buf.take infront.toNat))
              (buf.drop infront.toNat)
          else none

/-- `logwrt`; -1 without effect when the log is not set up or the data too long. -/
def logwrt (mp : Log) (buf : List UInt8) : Option (Int × Log) :=
  if mp.msg_magic ≠ MSG_MAGIC ∨ MSG_BSIZE < buf.length then some (-1, mp)
  else do
    let mp ← logwrtLoop (buf.length + 2) mp buf
    return (0, mp)

/-! ## Reading -/

/-- `while (uio->uio_resid)`: the bytes moved to the user. -/
def logreadLoop : Nat → Log → Nat → Option (List UInt8 × Log)
  | 0, _, _ => none
  | fuel + 1, mp, resid =>
      if resid = 0 then some ([], mp)
      else
        let l : Int := mp.msg_bufx - mp.msg_bufr
        if l = 0 then some ([], mp)
        else
          let l := if l < 0 then (MSG_BSIZE : Int) - mp.msg_bufr else l
          if l = 0 then logreadLoop fuel { mp with msg_bufr := 0 } resid
          else
            let l := min (min l resid) BUFSIZE
            if 0 ≤ l ∧ mp.msg_bufr + l ≤ MSG_BSIZE then do
              let n := l.toNat
              let (rest, mp') ← logreadLoop fuel { mp with msg_bufr := mp.msg_bufr + n } (resid - n)
              return (bytes mp.msg_bufc mp.msg_bufr n ++ rest, mp')
            else none

/-- How a call of `logread` ends, or that it sleeps. -/
inductive Read where
  | sleep
  | EWOULDBLOCK
  | moved (bytes : List UInt8)

/-- `logread` of `resid` bytes, or its next look at the ring after a sleep. -/
def logread (mp : Log) (resid : Nat) (ndelay : Bool) : Option (Read × Log) :=
  if mp.msg_bufr = mp.msg_bufx then
    if ndelay then some (.EWOULDBLOCK, mp) else some (.sleep, { mp with rdwait := true })
  else do
    let (bytes, mp) ← logreadLoop (2 * resid + 2) { mp with rdwait := false } resid
    return (.moved bytes, mp)

/-- The answer of `logioctl` to `FIONREAD`. -/
def fionread (mp : Log) : Int :=
  let l : Int := mp.msg_bufx - mp.msg_bufr
  if l < 0 then l + MSG_BSIZE else l

/-! ## What is in the ring -/

/-- Both indices are in the ring or stand at its end. -/
structure Bounded (mp : Log) : Prop where
  bufx : mp.msg_bufx ≤ MSG_BSIZE
  bufr : mp.msg_bufr ≤ MSG_BSIZE

/-- The number of bytes a reader finds. -/
def unread (mp : Log) : Nat :=
  if mp.msg_bufr ≤ mp.msg_bufx then mp.msg_bufx - mp.msg_bufr
  else MSG_BSIZE - mp.msg_bufr + mp.msg_bufx

/-- The bytes a reader finds. -/
def pending (mp : Log) : List UInt8 := circRead MSG_BSIZE mp.msg_bufc mp.msg_bufr mp.unread

@[simp] theorem length_pending (mp : Log) : mp.pending.length = mp.unread := circRead_length ..

theorem Bounded.unread_le {mp : Log} (h : Bounded mp) : mp.unread ≤ MSG_BSIZE := by
  have hx := h.bufx
  have hr := h.bufr
  unfold unread
  split <;> omega

theorem Bounded.fionread {mp : Log} (h : Bounded mp) : mp.fionread = mp.unread := by
  have hr := h.bufr
  unfold Log.fionread unread
  dsimp only
  split <;> split <;> omega

theorem unread_eq_zero {mp : Log} (h : mp.msg_bufr = mp.msg_bufx) : mp.unread = 0 := by
  rw [unread, if_pos h.le, h, Nat.sub_self]

end Log

end DiscoBsd.Klog
