import DiscoBsd.Lib.Ring

/-!
# The buffer cache

Every buffer of the pool is on one hash chain and, unless it is busy, on one free list. Both
are circular doubly linked lists through the buffers; their heads are the hash table
`bufhash` and the queues `bfreelist`, and the queue `BQ_AGE` is also the head of the chain
of buffers that belong to no device. The definitions here are the pieces of code between
two places where a process may sleep; what the calls do is put together from them for one
process in `Bio.Calls` and for many in `Bio.Interleave`.

The contents of a block are of an arbitrary type, and a disk maps device and block number to
contents. The flags `B_PHYS`, `B_MAP`, `B_RAMREMAP` and the like, the transfer counts and the
accounting of `u_ru` play no part in the functions modelled here.
-/

namespace DiscoBsd.Bio

open Lib

/-- Number of hash chains. -/
def BUFHSZ : Nat := 16

/-- No device: `(dev_t)(-1)`. -/
def NODEV : Int := -1

/-- The queues of free buffers. -/
inductive Queue where
  | locked
  | lru
  | age
  deriving DecidableEq, Repr

/-- The heads of hash chains. -/
inductive Chain where
  | bufhash (index : Fin BUFHSZ)
  | bfreelist (queue : Queue)
  deriving DecidableEq

/-- `BUFHASH`: the sum of device and block number, modulo the number of chains. -/
def bufHash (dev blkno : Int) : Chain :=
  .bufhash ⟨((dev + blkno) % BUFHSZ).toNat, by
    have := Int.emod_nonneg (dev + blkno) (show (BUFHSZ : Int) ≠ 0 by decide)
    have := Int.emod_lt_of_pos (dev + blkno) (show (0 : Int) < BUFHSZ by decide)
    omega⟩

/-- The flags kept in `b_flags`. -/
structure Flags where
  read : Bool
  done : Bool
  error : Bool
  busy : Bool
  wanted : Bool
  age : Bool
  async : Bool
  delwri : Bool
  inval : Bool
  locked : Bool
  deriving DecidableEq, Repr

/-- No flag set. -/
def Flags.none : Flags :=
  ⟨false, false, false, false, false, false, false, false, false, false⟩

/-- A buffer: its flags, the block it stands for, and the contents at `b_addr`. -/
structure Buf (α : Type*) where
  flags : Flags
  dev : Int
  blkno : Int
  data : α

/-- The buffer pool with its lists, the `B_WANTED` flag of `bfreelist[0]`, and the disk. -/
structure Cache (α : Type*) where
  nbuf : Nat
  buf : Nat → Buf α
  hash : Links Chain Nat
  avail : Links Queue Nat
  wanted : Bool
  disk : Int → Int → α

variable {α : Type*}

/-- Change one buffer. -/
def Cache.modify (c : Cache α) (i : Nat) (f : Buf α → Buf α) : Cache α :=
  { c with buf := Function.update c.buf i (f (c.buf i)) }

/-- Change the flags of one buffer. -/
def Cache.setFlags (c : Cache α) (i : Nat) (f : Flags → Flags) : Cache α :=
  c.modify i fun bp => { bp with flags := f bp.flags }

/-- The buffer stands for the block. -/
def Buf.stands (bp : Buf α) (dev blkno : Int) : Bool :=
  bp.blkno = blkno && bp.dev = dev && !bp.flags.inval

/-- The loop of `getblk` along a hash chain: the buffer that stands for the block. -/
def search (c : Cache α) (dev blkno : Int) : Option Nat :=
  (c.hash.walk c.nbuf (c.hash.forw (.inl (bufHash dev blkno)))).find?
    fun i => (c.buf i).stands dev blkno

/-- Take a buffer off its free list and mark it busy. -/
def notavail (c : Cache α) (i : Nat) : Cache α :=
  { c with avail := c.avail.remove i }.setFlags i fun flags => { flags with busy := true }

/-- `brelse`, before the buffer is put on a list: a buffer with an error is no longer associated
with its block, unless it is locked. -/
def forget (bp : Buf α) : Buf α :=
  if bp.flags.error then
    if bp.flags.locked then { bp with flags := { bp.flags with error := false } }
    else { bp with dev := NODEV }
  else bp

/-- The free list a released buffer goes to, and whether it goes to the front. -/
def releaseQueue (flags : Flags) : Queue × Bool :=
  if flags.error || flags.inval then (.age, true)
  else if flags.locked then (.locked, false)
  else if flags.age then (.age, false)
  else (.lru, false)

/-- Release a buffer. -/
def brelse (c : Cache α) (i : Nat) : Cache α :=
  let c := { c with wanted := false }.modify i forget
  let (queue, front) := releaseQueue (c.buf i).flags
  { c with
    avail := if front then c.avail.insertHead i queue else c.avail.insertTail i queue }.setFlags i
      fun flags => { flags with wanted := false, busy := false, async := false, age := false }

/-- The buffer `getnewbuf` looks at: the first of `BQ_AGE`, else the first of `BQ_LRU`. -/
def victim (c : Cache α) : Option Nat :=
  match c.avail.forw (.inl .age) with
  | .inr i => some i
  | .inl _ =>
      match c.avail.forw (.inl .lru) with
      | .inr i => some i
      | .inl _ => none

/-- Move a buffer to another hash chain. -/
def rehash (c : Cache α) (i : Nat) (chain : Chain) : Cache α :=
  { c with hash := (c.hash.remove i).insertHead i chain }

/-- The end of `getnewbuf` and of `getblk`: buffer `i` stands for the block from now on. -/
def assign (c : Cache α) (i : Nat) (dev blkno : Int) : Cache α :=
  (rehash c i (bufHash dev blkno)).modify i fun bp =>
    { bp with flags := { Flags.none with busy := true }, dev := dev, blkno := blkno }

/-- The end of `getnewbuf` and of `geteblk`: buffer `i` stands for no block. -/
def assignEmpty (c : Cache α) (i : Nat) : Cache α :=
  (rehash c i (.bfreelist .age)).modify i fun bp =>
    { bp with flags := { Flags.none with busy := true, inval := true }, dev := NODEV }

/-- What a driver does with a buffer: read the block into it or write it out. -/
def transfer (c : Cache α) (i : Nat) : Cache α :=
  let bp := c.buf i
  if bp.flags.read then c.modify i fun bp => { bp with data := c.disk bp.dev bp.blkno }
  else
    let blocks := Function.update (c.disk bp.dev) bp.blkno bp.data
    { c with disk := Function.update c.disk bp.dev blocks }

/-- The flags of a buffer when `bwrite` hands it to the driver. -/
def writeFlags (flags : Flags) : Flags :=
  { flags with read := false, done := false, error := false, delwri := false }

/-- `binit` puts buffer `i` on the chain and the queue of unused buffers. -/
def binitBuf (c : Cache α) (i : Nat) : Cache α :=
  brelse ({ c with hash := c.hash.insertHead i (.bfreelist .age) }.modify i fun bp =>
    { bp with flags := { Flags.none with busy := true, inval := true }, dev := NODEV }) i

/-- The cache before `binit` has put its buffers on lists: every head stands alone. -/
def emptyCache (nbuf : Nat) (buf : Nat → Buf α) (disk : Int → Int → α) : Cache α where
  nbuf := nbuf
  buf := buf
  hash := ⟨id, id⟩
  avail := ⟨id, id⟩
  wanted := false
  disk := disk

/-- The cache of `nbuf` buffers that the system starts with; the buffers held `buf` before. -/
def binit (nbuf : Nat) (buf : Nat → Buf α) (disk : Int → Int → α) : Cache α :=
  (List.range nbuf).foldl binitBuf (emptyCache nbuf buf disk)

/-! ## Buffer cache calls of one process

The calls as one process sees them when every transfer succeeds. The drivers of the system
finish a transfer, and call `biodone`, before their strategy routine returns, so `biowait`
never sleeps. A call returns `none` where the process would sleep for ever: it asks for a
block whose buffer it holds itself, or for a buffer when it holds all of them.

A call that writes a buffer out takes the contents the process has stored in it.
-/

section

open Lib

variable {α : Type*}

/-- Transfer finished. Both callers hand the driver a buffer without `B_DONE`, so the panic on a
second `biodone` cannot happen. -/
def biodone (c : Cache α) (i : Nat) : Cache α :=
  let c := c.setFlags i fun flags => { flags with done := true }
  if (c.buf i).flags.async then brelse c i
  else c.setFlags i fun flags => { flags with wanted := false }

/-- The driver's strategy routine. -/
def strategy (c : Cache α) (i : Nat) : Cache α := biodone (transfer c i) i

/-- Write the buffer out and release it. -/
def bwrite (c : Cache α) (i : Nat) : Cache α :=
  let flags := (c.buf i).flags
  let c := strategy (c.setFlags i writeFlags) i
  if flags.async then
    -- released by `biodone`; the mark makes its next release a release to `BQ_AGE`
    if flags.delwri then c.setFlags i fun flags => { flags with age := true } else c
  else brelse c i

/-- Write the buffer out without waiting. -/
def bawrite (c : Cache α) (i : Nat) : Cache α :=
  bwrite (c.setFlags i fun flags => { flags with async := true }) i

/-- Release the buffer marked for writing when it is needed for another block; on a tape, write it
out at once. `tape` are the devices with `B_TAPE` in `bdevsw`. -/
def bdwrite (tape : Int → Bool) (c : Cache α) (i : Nat) : Cache α :=
  if tape (c.buf i).dev then bawrite c i
  else brelse (c.setFlags i fun flags => { flags with delwri := true, done := true }) i

/-- The loop of `getnewbuf`: a free buffer, after delayed writes in front of it are written out. -/
def getnewbuf : Nat → Cache α → Option (Nat × Cache α)
  | 0, _ => none
  | fuel + 1, c =>
      match victim c with
      | none => none
      | some i =>
          let c := notavail c i
          if (c.buf i).flags.delwri then getnewbuf fuel (bawrite c i) else some (i, c)

/-- The buffer for a block. -/
def getblk (c : Cache α) (dev blkno : Int) : Option (Nat × Cache α) :=
  match search c dev blkno with
  | some i => if (c.buf i).flags.busy then none else some (i, notavail c i)
  | none =>
      match getnewbuf (c.nbuf + 1) c with
      | none => none
      | some (i, c) => some (i, assign c i dev blkno)

/-- The buffer for a block, with the contents of the block. -/
def bread (c : Cache α) (dev blkno : Int) : Option (Nat × Cache α) :=
  match getblk c dev blkno with
  | none => none
  | some (i, c) =>
      if (c.buf i).flags.done || (c.buf i).flags.delwri then some (i, c)
      else some (i, strategy (c.setFlags i fun flags => { flags with read := true }) i)

/-- A buffer for no block. -/
def geteblk (c : Cache α) : Option (Nat × Cache α) :=
  match getnewbuf (c.nbuf + 1) c with
  | none => none
  | some (i, c) => some (i, assignEmpty c i)

/-- The first delayed write for a device on a free list. -/
def findDelayed (c : Cache α) (dev : Int) (queue : Queue) : Option Nat :=
  (c.avail.walk c.nbuf (c.avail.forw (.inl queue))).find?
    fun i => (c.buf i).flags.delwri && dev = (c.buf i).dev

/-- The loops of `bflush` over the free lists. -/
def nextDelayed (c : Cache α) (dev : Int) : Option Nat :=
  findDelayed c dev .locked <|> findDelayed c dev .lru <|> findDelayed c dev .age

/-- Write out all delayed writes for a device that are on the free lists. -/
def bflushLoop (dev : Int) : Nat → Cache α → Cache α
  | 0, c => c
  | fuel + 1, c =>
      match nextDelayed c dev with
      | none => c
      | some i =>
          bflushLoop dev fuel
            (bwrite (notavail (c.setFlags i fun flags => { flags with async := true }) i) i)

/-- `bflush`; each round leaves one delayed write less. -/
def bflush (c : Cache α) (dev : Int) : Cache α := bflushLoop dev (c.nbuf + 1) c

/-- Store new contents in a buffer. -/
def Cache.fill (c : Cache α) (i : Nat) (data : α) : Cache α :=
  c.modify i fun bp => { bp with data := data }

end

end DiscoBsd.Bio
