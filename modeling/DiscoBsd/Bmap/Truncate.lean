import DiscoBsd.Bmap.Bmap

/-!
# Truncating a file

`itrunc` and `indirtrunc` of `sys/kern/ufs_inode.c`. An indirect block is copied, the pointers behind
the last one to be kept are cleared on the disk, and the blocks they name are passed to `free`
from the copy, the last one first. The list beside the volume records the calls of `free`.
`lastbn` is the index of the last block to be kept below an indirect block, and -1 for none.

Reads do not fail, and the time stamps of `iupdat` are left out.
-/

namespace DiscoBsd.Bmap

open Alloc

/-- Direct addresses in an inode. -/
def NDADDR : Nat := 4

def DEV_BSIZE : Nat := 1024

def MAXPIPSIZ : Nat := NDADDR * DEV_BSIZE

/-- A volume, and the blocks that were passed to `free`. -/
abbrev Disk := Vol × List Nat

/-- `free`. -/
def Disk.free (d : Disk) (bno : Nat) : Disk := (Alloc.free bno d.1, d.2 ++ [bno])

def Disk.write (d : Disk) (bno : Nat) (contents : Fblk) : Disk :=
  ({ d.1 with block := Function.update d.1.block bno contents }, d.2)

/-- Change every word of a block. -/
def mapWords (b : Fblk) (f : Nat → Nat → Nat) : Fblk :=
  setWord { b with dfFree := fun i => f (i + 1) (b.dfFree i) } 0 (f 0 (word b 0))

/-- `bzero` of the words of a block from an index on. -/
def zeroWords (b : Fblk) (index : Nat) : Fblk :=
  mapWords b fun i w => if i < index then w else 0

/-- `bzero` of the bytes of a block from an offset on. -/
def zeroBytes (b : Fblk) (offset : Nat) : Fblk :=
  mapWords b fun i w =>
    if 4 * i + 4 ≤ offset then w else if offset ≤ 4 * i then 0 else w % 2 ^ (8 * (offset - 4 * i))

/-- Byte `k` of a block. -/
def byteAt (b : Fblk) (k : Nat) : Nat := word b (k / 4) / 2 ^ (8 * (k % 4)) % 2 ^ 8

/-- A loop from `n - 1` down to `low`. -/
def downTo {σ : Type} (low : Nat) (f : Nat → σ → σ) : Nat → σ → σ
  | 0, s => s
  | n + 1, s => if low ≤ n then downTo low f n (f n s) else s

/-- Free the blocks of a single indirect block behind `last`. -/
def trsingle (cpy : Fblk) (last : Int) (d : Disk) : Disk :=
  downTo (last + 1).toNat (fun i d => if word cpy i = 0 then d else d.free (word cpy i)) NINDIR d

/-- The blocks below one pointer of an indirect block of the given level. -/
def factor (level : Nat) : Nat := NINDIR ^ level

/-- Release the blocks below the indirect block `bn` behind `lastbn`; the levels are 0 for `SINGLE`,
1 for `DOUBLE` and 2 for `TRIPLE`. -/
def indirtrunc : (level bn : Nat) → (lastbn : Int) → Disk → Disk
  | 0, bn, lastbn, d =>
      let cpy := d.1.block bn
      trsingle cpy lastbn (d.write bn (zeroWords cpy (lastbn + 1).toNat))
  | level + 1, bn, lastbn, d =>
      let last := if 0 < lastbn then lastbn / factor (level + 1) else lastbn
      let cpy := d.1.block bn
      let d := d.write bn (zeroWords cpy (last + 1).toNat)
      -- recursively free totally unused blocks
      let d := downTo (last + 1).toNat (fun i d =>
        if word cpy i = 0 then d
        else (indirtrunc level (word cpy i) (-1) d).free (word cpy i)) NINDIR d
      -- recursively free last partial block
      if 0 ≤ lastbn then
        let nb := word cpy last.toNat
        if nb = 0 then d else indirtrunc level nb (lastbn % factor (level + 1)) d
      else d

/-- `lastiblock`. -/
def lastiblock (lastblock : Int) : Nat → Int
  | 0 => lastblock - NDADDR
  | level + 1 => lastiblock lastblock level - NINDIR ^ (level + 1)

/-- The loop over the indirect blocks of the inode, with a flag for `goto done`. -/
def freeIndirect (i_addr : Nat → Nat) (lastblock : Int) : (levels : Nat) → Disk → Disk × Bool
  | 0, d => (d, false)
  | level + 1, d =>
      let bn := i_addr (NDADDR + level)
      let last := lastiblock lastblock level
      let d :=
        if bn = 0 then d
        else if last < 0 then (indirtrunc level bn (-1) d).free bn
        else indirtrunc level bn last d
      if 0 ≤ last then (d, true) else freeIndirect i_addr lastblock level d

/-- The addresses that the inode keeps. -/
def keptAddr (i_addr : Nat → Nat) (lastblock : Int) (a : Nat) : Nat :=
  if a < NDADDR then if lastblock < a then 0 else i_addr a
  else if lastiblock lastblock (a - NDADDR) < 0 then 0 else i_addr a

/-- The part of `itrunc` behind the partial block. -/
def release (lastblock : Int) (f : File) : File × List Nat :=
  let (d, done) := freeIndirect f.i_addr lastblock 3 (f.vol, [])
  let d :=
    if done then d
    else downTo (lastblock + 1).toNat (fun i d =>
      if f.i_addr i = 0 then d else d.free (f.i_addr i)) NDADDR d
  ({ f with vol := d.1, i_addr := keptAddr f.i_addr lastblock, i_flag := true }, d.2)

/-- An open file: its size, whether it is a pipe, and `u.u_error`. -/
structure Open where
  file : File
  i_size : Nat
  ipipe : Bool
  u_error : Option Errno

/-- `bzero (bp->b_addr + offset, DEV_BSIZE - offset)` in block `bn`. -/
def File.clearTail (f : File) (bn offset : Nat) : File :=
  { f with vol := { f.vol with
    block := Function.update f.vol.block bn (zeroBytes (f.vol.block bn) offset) } }

/-- Truncate a file to at most `length`, or lengthen it; with the blocks that are passed to `free`. -/
def itrunc (time length : Nat) (o : Open) : Open × List Nat :=
  let o := if o.ipipe then { o with i_size := MAXPIPSIZ } else o
  if o.ipipe = false ∧ o.i_size = length then
    ({ o with file := { o.file with i_flag := true } }, [])
  else if o.i_size < length then
    let r := bmap true true time ((length - 1) / DEV_BSIZE : Nat) o.file
    let o := { o with file := r.2, u_error := r.1.error.or o.u_error }
    if o.u_error.isSome ∨ r.1.bn < 0 then (o, [])
    else ({ o with i_size := length, file := { o.file with i_flag := true } }, [])
  else
    let lastblock : Int := ((length + DEV_BSIZE - 1) / DEV_BSIZE : Nat) - 1
    let offset := length % DEV_BSIZE
    if offset = 0 then
      let (f, freed) := release lastblock o.file
      ({ o with file := f, i_size := length }, freed)
    else
      let r := bmap true true time (length / DEV_BSIZE : Nat) o.file
      let o := { o with file := r.2, u_error := r.1.error.or o.u_error }
      if o.u_error.isSome ∨ r.1.bn < 0 then (o, [])
      else
        let (f, freed) := release lastblock (o.file.clearTail r.1.bn.toNat offset)
        ({ o with file := f, i_size := length }, freed)

end DiscoBsd.Bmap
