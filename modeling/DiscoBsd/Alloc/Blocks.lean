import Mathlib.Algebra.Group.Nat.Defs
import Mathlib.Data.Nat.Notation
import Mathlib.Logic.Function.Basic

/-!
# Free blocks of a file system

The superblock remembers up to `NICFREE` free block numbers; the rest of the free list is
kept in the free blocks themselves. Slot 0 of each table names the next block that holds
a table, and that block is itself free: `balloc` hands it out once its table is loaded, and
`free` stores a full table in the block that is being returned. `fs_nfree` and `fs_free`
have the layout of a `struct fblk`, and the source copies them as one.

A block is modelled by its first words read as a `struct fblk`; that is all the free list
looks at. Calls are not interleaved here, so no caller ever waits for `fs_flock`, and reads
and writes go to the current contents of a block.
-/

namespace DiscoBsd.Alloc

/-- Number of free blocks the superblock remembers. -/
def NICFREE : Nat := 200

/-- A table of free blocks: how many slots are in use, and the slots. -/
structure Fblk where
  dfNfree : Int
  dfFree : Nat → Nat

/-- The part of the superblock that the free list uses. The field `fblk` is `fs_nfree` with
`fs_free`. -/
structure Fs where
  fsIsize : Nat
  fsFsize : Nat
  fblk : Fblk
  fsFlock : Nat
  fsFmod : Nat
  fsTime : Nat
  fsTfree : Nat

/-- A mounted file system: the superblock in memory, its copy in block `SUPERB`, and the other
blocks. -/
structure Vol where
  fs : Fs
  superb : Fs
  block : Nat → Fblk

/-- Set `fs_nfree`. -/
def Fs.setNfree (fs : Fs) (nfree : Int) : Fs := { fs with fblk := { fs.fblk with dfNfree := nfree } }

/-- A block number outside the data area. -/
def badblock (fs : Fs) (bn : Nat) : Bool := bn < fs.fsIsize || bn ≥ fs.fsFsize

/-- What `balloc` leaves behind: the block, or nothing and `ENOSPC`; the file system; and the
messages printed. -/
structure Balloc where
  bno : Option Nat
  vol : Vol
  messages : List String

/-- The exit of `balloc` without a block. -/
def nospace (vol : Vol) (messages : List String) : Balloc where
  bno := none
  vol := { vol with fs := { vol.fs.setNfree 0 with fsTfree := 0 } }
  messages := messages ++ ["file system full", "write failed, file system full"]

/-- The loop that takes slots off the table, `nfree` of which are left, until one names a good
block: that block with the number of slots left, or nothing. -/
def takeFree (fs : Fs) : Nat → List String × Option (Nat × Nat)
  | 0 => ([], none)
  | nfree + 1 =>
      let bno := fs.fblk.dfFree nfree
      if bno = 0 then ([], none)
      else if badblock fs bno then
        let (messages, found) := takeFree fs nfree
        ("bad block" :: messages, found)
      else ([], some (bno, nfree))

/-- Load the table kept in block `bno` and write the superblock back. -/
def reload (time bno : Nat) (vol : Vol) : Vol :=
  let fs := { vol.fs with fblk := vol.block bno, fsFlock := vol.fs.fsFlock + 1, fsFmod := 0,
                          fsTime := time }
  { vol with fs := { fs with fsFlock := 0 }, superb := fs }

/-- The exit of `balloc` with block `bno`. -/
def handOut (clrbuf : Bool) (bno : Nat) (vol : Vol) (messages : List String) : Balloc where
  bno := some bno
  vol :=
    { vol with
      fs := { vol.fs with fsFmod := 1, fsTfree := (vol.fs.fsTfree + 2 ^ 32 - 1) % 2 ^ 32 }
      block := if clrbuf then Function.update vol.block bno ⟨0, fun _ => 0⟩ else vol.block }
  messages := messages

/-- Allocate a block. -/
def balloc (clrbuf : Bool) (time : Nat) (vol : Vol) : Balloc :=
  if vol.fs.fblk.dfNfree ≤ 0 then nospace vol []
  else if NICFREE < vol.fs.fblk.dfNfree then nospace vol ["bad free count"]
  else
    match takeFree vol.fs vol.fs.fblk.dfNfree.toNat with
    | (messages, none) => nospace vol messages
    | (messages, some (bno, nfree)) =>
        let vol := { vol with fs := vol.fs.setNfree nfree }
        if nfree = 0 then
          let vol := reload time bno vol
          if vol.fs.fblk.dfNfree ≤ 0 then nospace vol messages
          else handOut clrbuf bno vol messages
        else handOut clrbuf bno vol messages

/-- `if (fs_nfree <= 0)`: start a table with the end mark in slot 0. -/
def startTable (tbl : Fblk) : Fblk :=
  if tbl.dfNfree ≤ 0 then ⟨1, Function.update tbl.dfFree 0 0⟩ else tbl

/-- Return block `bno`. -/
def free (bno : Nat) (vol : Vol) : Vol :=
  if badblock vol.fs bno then vol
  else
    let tbl := startTable vol.fs.fblk
    -- a full table moves into the block that is being returned
    let full := (NICFREE : Int) ≤ tbl.dfNfree
    let nfree := if full then 0 else tbl.dfNfree
    { vol with
      block := if full then Function.update vol.block bno tbl else vol.block
      fs :=
        { vol.fs with
          fblk := ⟨nfree + 1, Function.update tbl.dfFree nfree.toNat bno⟩
          fsFlock := if full then 0 else vol.fs.fsFlock
          fsTfree := (vol.fs.fsTfree + 1) % 2 ^ 32
          fsFmod := 1 } }

end DiscoBsd.Alloc
