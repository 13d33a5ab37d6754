import DiscoBsd.Bmap.Truncate

/-!
# Reading a regular file

The read branch of `rwip` in `sys/kern/sys_inode.c` for a regular file, with `lseek` and the part
of `ino_rw` that carries the offset. `off_t` has 32 bits and a sign; `lblkno` shifts it as an
unsigned number. `moved` collects the bytes that `uiomove` hands to the caller, and `ahead` the
blocks for which `breada` started a transfer.

Transfers do not fail and are complete (`b_resid` is 0). The access time is left out.
-/

namespace DiscoBsd.Bmap

open Alloc

def DEV_BSHIFT : Nat := 10

/-- A value of type `off_t`. -/
def off_t (x : Int) : Int := (x + 2 ^ 31) % 2 ^ 32 - 2 ^ 31

/-- `blkoff`. -/
def blkoff (loc : Int) : Nat := (loc % DEV_BSIZE).toNat

/-- `lblkno`. -/
def lblkno (loc : Int) : Int := loc % 2 ^ 32 / 2 ^ DEV_BSHIFT

/-- A block of zeros. -/
def zeroBlock : Fblk := ⟨0, fun _ => 0⟩

/-- A read in progress: the inode, `struct uio`, and what the caller has got. -/
structure Reading where
  file : File
  i_size : Int
  i_lastr : Int
  ahead : List Nat
  uio_offset : Int
  uio_resid : Nat
  moved : List Nat
  u_error : Option Errno

/-- `uiomove (bp->b_addr + on, n, uio)`. -/
def Reading.uiomove (s : Reading) (b : Fblk) (on n : Nat) : Reading :=
  { s with
    moved := s.moved ++ (List.range' on n).map (byteAt b)
    uio_resid := s.uio_resid - n
    uio_offset := off_t (s.uio_offset + n) }

/-- `breada`. -/
def Reading.breada (s : Reading) (bn rablkno : Nat) : Fblk × Reading :=
  (s.file.vol.block bn, if rablkno = 0 then s else { s with ahead := s.ahead ++ [rablkno] })

/-- The buffer for logical block `lbn`, which is block `bn` of the device, or a hole. -/
def Reading.buffer (s : Reading) (lbn bn : Int) : Fblk × Reading :=
  if bn < 0 then (zeroBlock, s)
  else if s.i_lastr + 1 = lbn then s.breada bn.toNat s.file.rablock
  else (s.file.vol.block bn.toNat, s)

/-- `diff`: what is left of the file. -/
def Reading.diff (s : Reading) : Int := off_t (s.i_size - s.uio_offset)

/-- `n`: the bytes that are moved in one turn. -/
def Reading.n (s : Reading) : Nat :=
  let n := min (DEV_BSIZE - blkoff s.uio_offset) s.uio_resid
  if s.diff < n then s.diff.toNat else n

/-- One turn of the loop, with a flag for another one. -/
def readTurn (s : Reading) : Reading × Bool :=
  let lbn := lblkno s.uio_offset
  let on := blkoff s.uio_offset
  let n := s.n
  if s.diff ≤ 0 then (s, false)
  else
    let r := bmap false false 0 lbn s.file
    let s := { s with file := r.2, u_error := r.1.error.or s.u_error }
    if s.u_error.isSome then (s, false)
    else
      let b := s.buffer lbn r.1.bn
      let s := { b.2 with i_lastr := lbn }.uiomove b.1 on n
      (s, s.uio_resid ≠ 0 ∧ n ≠ 0)

/-- The loop. Every turn but the last one moves a byte. -/
def readLoop : Nat → Reading → Reading
  | 0, s => s
  | turns + 1, s => if (readTurn s).2 then readLoop turns (readTurn s).1 else (readTurn s).1

/-- `rwip` for `UIO_READ`. -/
def rwip (s : Reading) : Reading :=
  if s.uio_resid = 0 then s else readLoop s.uio_resid s

/-! ## An open file -/

/-- `sbase` of `lseek`. -/
inductive Whence where
  | L_SET
  | L_INCR
  | L_XTND
  deriving DecidableEq, Repr

/-- A file descriptor for a regular file. -/
structure Descriptor where
  file : File
  i_size : Int
  i_lastr : Int
  f_offset : Int

def lseek (fp : Descriptor) (off : Int) : Whence → Descriptor
  | .L_INCR => { fp with f_offset := off_t (fp.f_offset + off) }
  | .L_XTND => { fp with f_offset := off_t (off + fp.i_size) }
  | .L_SET => { fp with f_offset := off }

/-- `read`: what is moved, the error, and the descriptor afterwards. -/
def read (fp : Descriptor) (count : Nat) : List Nat × Option Errno × Descriptor :=
  let s := rwip ⟨fp.file, fp.i_size, fp.i_lastr, [], fp.f_offset, count, [], none⟩
  (s.moved, s.u_error,
    { fp with
      file := s.file
      i_lastr := s.i_lastr
      f_offset := off_t (fp.f_offset + (count - s.uio_resid : Nat)) })

end DiscoBsd.Bmap
