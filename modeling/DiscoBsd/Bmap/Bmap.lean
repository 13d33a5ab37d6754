import DiscoBsd.Alloc.FreeList
import DiscoBsd.Lib.Pointers

/-!
# The block map of a file

`bmap` of `sys/kern/ufs_bmap.c`: from a logical block of a file to the block of the file system that
holds it, through up to three levels of indirect blocks, with `balloc` for what is missing. An indirect
block holds `NINDIR` words, and a block of the free list is read as words too, so that the two
share one store.

Whether a block is written at once or later is not visible here, and reads do not fail.
-/

namespace DiscoBsd.Bmap

open Alloc
open Lib (Pointers.follow Pointers.blocks)

/-- Block addresses in an inode. -/
def NADDR : Nat := 7

/-- Words in an indirect block. -/
def NINDIR : Nat := 256

/-- `log2(NINDIR)`. -/
def NSHIFT : Nat := 8

/-- A word of a block. Word 0 is `df_nfree`, which is signed. -/
def word (b : Fblk) (i : Nat) : Nat :=
  if i = 0 then (b.dfNfree % 2 ^ 32).toNat else b.dfFree (i - 1)

def setWord (b : Fblk) (i value : Nat) : Fblk :=
  if i = 0 then { b with dfNfree := if value < 2 ^ 31 then value else (value : Int) - 2 ^ 32 }
  else { b with dfFree := Function.update b.dfFree (i - 1) value }

/-- The words of all blocks. -/
def words (vol : Vol) (bno i : Nat) : Nat := word (vol.block bno) i

/-- A file with its file system. `i_flag` is on once the inode has to be written; `rablock` is the
global variable. -/
structure File where
  vol : Vol
  i_addr : Nat → Nat
  i_flag : Bool
  rablock : Nat

/-- The errors of `bmap`. -/
inductive Errno where
  | EFBIG
  | ENOSPC
  deriving DecidableEq, Repr

/-- What `bmap` returns, with the error it sets. -/
structure Result where
  bn : Int
  error : Option Errno
  deriving DecidableEq, Repr

/-- `balloc` for this file. -/
def File.balloc (f : File) (clrbuf : Bool) (time : Nat) : Option Nat × File :=
  ((Alloc.balloc clrbuf time f.vol).bno, { f with vol := (Alloc.balloc clrbuf time f.vol).vol })

/-- `ip->i_addr[a] = nb`. -/
def File.setAddr (f : File) (a nb : Nat) : File :=
  { f with i_addr := Function.update f.i_addr a nb, i_flag := true }

/-- `bap[i] = nb` in an indirect block. -/
def File.setPointer (f : File) (bno i nb : Nat) : File :=
  { f with vol := { f.vol with
    block := Function.update f.vol.block bno (setWord (f.vol.block bno) i nb) } }

/-- The end of `bmap` for a direct block. -/
def File.readAhead (f : File) (i : Nat) : File :=
  if i < NADDR - 4 then { f with rablock := f.i_addr (i + 1) } else f

/-- Blocks 0 to `NADDR - 4` are direct blocks. -/
def direct (write clrbuf : Bool) (time i : Nat) (f : File) : Result × File :=
  if f.i_addr i = 0 then
    if write then
      match f.balloc clrbuf time with
      | (none, f) => (⟨-1, some .ENOSPC⟩, f)
      | (some nb, f) => (⟨nb, none⟩, (f.setAddr i nb).readAhead i)
    else (⟨-1, none⟩, f)
  else (⟨f.i_addr i, none⟩, f.readAhead i)

/-- The loop that determines how many levels of indirection: `j`, `sh` and the rest of the block
number. -/
def level : (j sh nb bn : Nat) → Option (Nat × Nat × Nat)
  | 0, _, _, _ => none
  | j + 1, sh, nb, bn =>
      let sh := sh + NSHIFT
      let nb := nb * 2 ^ NSHIFT
      if bn < nb then some (j + 1, sh, bn) else level j sh nb (bn - nb)

/-- The loop that fetches through the indirect blocks, with the given number of levels to go. -/
def fetch (write : Bool) (time bn : Nat) : (levels sh nb ra : Nat) → File → Result × File
  | 0, _, nb, ra, f => (⟨nb, none⟩, { f with rablock := ra })
  | levels + 1, sh, nb, ra, f =>
      let sh := sh - NSHIFT
      let i := bn / 2 ^ sh % NINDIR
      let child := words f.vol nb i
      let ra := if i < NINDIR - 1 then words f.vol nb (i + 1) else ra
      if child = 0 then
        if write then
          match f.balloc true time with
          | (none, f) => (⟨-1, some .ENOSPC⟩, f)
          | (some child, f) => fetch write time bn levels sh child ra (f.setPointer nb i child)
        else (⟨-1, none⟩, f)
      else fetch write time bn levels sh child ra f

/-- The first indirect block, and the rest. -/
def indirect (write : Bool) (time j sh bn : Nat) (f : File) : Result × File :=
  let nb := f.i_addr (NADDR - j)
  if nb = 0 then
    if write then
      match f.balloc true time with
      | (none, f) => (⟨-1, some .ENOSPC⟩, f)
      | (some nb, f) => fetch write time bn (4 - j) sh nb 0 (f.setAddr (NADDR - j) nb)
    else (⟨-1, none⟩, f)
  else fetch write time bn (4 - j) sh nb 0 f

/-- Logical block `bn` of a file; `write` is `B_WRITE`, and `clrbuf` is `B_CLRBUF`. -/
def bmap (write clrbuf : Bool) (time : Nat) (bn : Int) (f : File) : Result × File :=
  if bn < 0 then (⟨0, some .EFBIG⟩, f)
  else
    let f := { f with rablock := 0 }
    if bn < (NADDR - 3 : Nat) then direct write clrbuf time bn.toNat f
    else
      match level 3 0 1 (bn.toNat - (NADDR - 3)) with
      | none => (⟨0, some .EFBIG⟩, f)
      | some (j, sh, bn) => indirect write time j sh bn f

end DiscoBsd.Bmap
