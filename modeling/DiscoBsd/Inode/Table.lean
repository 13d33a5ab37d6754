import DiscoBsd.Lib.Chains
import DiscoBsd.Lib.Steps
import DiscoBsd.Lib.TailQueue
import Mathlib.Data.List.FinRange

/-!
# The in-core inode table

`iget`, `igrab`, `iput`, `irele` and `iflush` of `sys/kern/ufs_inode.c` over a table of `n` slots, for any
number of processes. A process gives up the processor where the source sleeps: at a locked inode, in the
read of a new one, and in `irele` with the last reference, which writes the inode out.

`held` counts the references to a slot that somebody uses, apart from those of a process that is in one
of these sleeps. A slot is put back, locked, unlocked, mounted on or written to only by somebody with a
reference. The forward link of the free list shares its place with `i_lastr`, so that a slot in use may
have anything there.
-/

namespace DiscoBsd.Inode

open DiscoBsd.Lib

def INOHSZ : Nat := 16

def ROOTINO : Nat := 2

/-- `INOHASH`. -/
def INOHASH (dev ino : Nat) : Fin INOHSZ := ⟨(dev + ino) % INOHSZ, Nat.mod_lt _ (by decide)⟩

/-- The fields of a slot; `locked` and `mount` are bits of `i_flag`. -/
structure Slot where
  locked : Bool
  mount : Bool
  i_count : Nat
  i_dev : Nat
  i_number : Nat
  i_mode : Nat
  i_nlink : Nat
  i_rdev : Nat

/-- What `iget` takes from the inode on the disk. -/
structure Dinode where
  di_mode : Nat
  di_nlink : Nat
  di_rdev : Nat

/-- The table: the hash chains through `i_forw` and `i_back`, and the free list with `ifreeh`, `ifreet`,
`i_freef` and `i_freeb`. -/
structure Table (n : Nat) where
  chain : Links (Fin INOHSZ) (Fin n)
  free : TailQueue (Fin n)
  slot : Fin n → Slot

variable {n : Nat}

namespace Table

def modify (t : Table n) (ip : Fin n) (f : Slot → Slot) : Table n :=
  { t with slot := Function.update t.slot ip (f (t.slot ip)) }

/-- Put the next slot of the table on the free list that `ihinit` builds. -/
def append (free : TailQueue (Fin n)) (ip : Fin n) : TailQueue (Fin n) :=
  { free.setTarget free.last (some ip) with
    prev := Function.update free.prev ip (some free.last)
    last := some ip }

def ihinit : Table n where
  chain := ⟨id, id⟩
  free := (List.finRange n).foldl append ⟨none, none, fun _ => none, fun _ => none⟩
  slot _ := ⟨false, false, 0, 0, 0, 0, 0, 0⟩

/-- The slots on a hash chain, in order. -/
def onChain (t : Table n) (ih : Fin INOHSZ) : List (Fin n) :=
  t.chain.walk n (t.chain.forw (.inl ih))

/-- `ino == ip->i_number && dev == ip->i_dev`. -/
def isFor (t : Table n) (dev ino : Nat) (ip : Fin n) : Bool :=
  (t.slot ip).i_number = ino && (t.slot ip).i_dev = dev

def ifind (t : Table n) (dev ino : Nat) : Option (Fin n) :=
  (t.onChain (INOHASH dev ino)).find? (t.isFor dev ino)

/-- A reference to a slot that is not locked; without references it is on the free list. -/
def grab (t : Table n) (ip : Fin n) : Table n :=
  let t := if (t.slot ip).i_count = 0 then { t with free := t.free.remove ip } else t
  t.modify ip fun s => { s with i_count := s.i_count + 1, locked := true }

/-- The first slot of the free list becomes that of another inode. -/
def reuse (t : Table n) (ip : Fin n) (dev ino : Nat) : Table n :=
  { t with
    free := t.free.removeFirst ip
    chain := (t.chain.remove ip).insertHead ip (INOHASH dev ino) }.modify ip fun s =>
      { s with i_dev := dev, i_number := ino, locked := true, mount := false,
               i_count := s.i_count + 1 }

/-- The inode was read. -/
def fill (t : Table n) (ip : Fin n) (dp : Dinode) : Table n :=
  t.modify ip fun s =>
    { s with i_mode := dp.di_mode, i_nlink := dp.di_nlink, i_rdev := dp.di_rdev }

/-- The inode could not be read. -/
def discard (t : Table n) (ip : Fin n) : Table n :=
  { t with chain := (t.chain.remove ip).isolate ip }.modify ip fun s => { s with i_number := 0 }

/-- The end of `irele` with the last reference, behind `itrunc`, `ifree` and `IUPDAT`. -/
def putBack (fs_ronly : Nat → Bool) (t : Table n) (ip : Fin n) : Table n :=
  let t := t.modify ip fun s =>
    let s := if s.i_nlink = 0 ∧ fs_ronly s.i_dev = false then { s with i_mode := 0, i_rdev := 0 } else s
    { s with locked := false, mount := false, i_count := s.i_count - 1 }
  { t with free := t.free.insertTail ip }

/-- The loop of `iflush` over the table. -/
def iflushLoop (isBlk : Nat → Bool) (dev : Nat) : List (Fin n) → Int → Table n → Int × Table n
  | [], count, t => (count, t)
  | ip :: ips, count, t =>
      let s := t.slot ip
      if s.i_dev = dev then
        if s.i_count ≠ 0 then (-1, t)
        else iflushLoop isBlk dev ips count { t with chain := (t.chain.remove ip).isolate ip }
      else if s.i_count ≠ 0 ∧ isBlk s.i_mode ∧ s.i_rdev = dev then
        iflushLoop isBlk dev ips (count + 1) t
      else iflushLoop isBlk dev ips count t

/-- Remove any inodes in the cache belonging to `dev`. -/
def iflush (isBlk : Nat → Bool) (t : Table n) (dev : Nat) : Int × Table n :=
  iflushLoop isBlk dev (List.finRange n) 0 t

end Table

/-! ## Processes -/

/-- Where a process is: with the result of its last call, or at a place to sleep. -/
inductive Control (n : Nat) where
  | returned (result : Option (Fin n))
  | iget (dev ino : Nat)
  | reading (ip : Fin n)
  | igrab (ip : Fin n)
  | releasing (ip : Fin n) (result : Option (Fin n))

structure Kernel (n : Nat) (P : Type) where
  table : Table n
  proc : P → Control n
  held : Fin n → Nat
  m_dev : Fin n → Option Nat

inductive Event (n : Nat) (P : Type) where
  | iget (p : P) (dev ino : Nat)
  | igrab (p : P) (ip : Fin n)
  | iput (p : P) (ip : Fin n)
  | irele (p : P) (ip : Fin n)
  | run (p : P) (dp : Option Dinode)
  | iflush (dev : Nat)
  | reference (ip : Fin n)
  | ilock (ip : Fin n)
  | iunlock (ip : Fin n)
  | link (ip : Fin n) (nlink : Nat)
  | lastr (ip : Fin n) (value : Option (Fin n))
  | mount (ip : Fin n) (dev : Nat)
  | umount (ip : Fin n)

variable {P : Type} [DecidableEq P]

namespace Kernel

def goTo (k : Kernel n P) (p : P) (c : Control n) : Kernel n P :=
  { k with proc := Function.update k.proc p c }

/-- A call returns a slot, and with it a reference. -/
def give (k : Kernel n P) (p : P) (ip : Fin n) : Kernel n P :=
  { k with
    proc := Function.update k.proc p (.returned (some ip))
    held := Function.update k.held ip (k.held ip + 1) }

/-- `irele` with a reference that is no longer `held`. -/
def irele (k : Kernel n P) (p : P) (ip : Fin n) (result : Option (Fin n)) : Kernel n P :=
  if (k.table.slot ip).i_count = 1 then
    { k with table := k.table.modify ip fun s => { s with locked := true } }.goTo p
      (.releasing ip result)
  else
    { k with table := k.table.modify ip fun s => { s with i_count := s.i_count - 1 } }.goTo p
      (.returned result)

/-- `IUNLOCK`. -/
def unlock (k : Kernel n P) (ip : Fin n) : Kernel n P :=
  { k with table := k.table.modify ip fun s => { s with locked := false } }

/-- From `loop:` of `iget` to a place to sleep, or to a return. -/
def iget (k : Kernel n P) (p : P) (dev ino : Nat) : Option (Kernel n P) :=
  match k.table.ifind dev ino with
  | some ip =>
      if (k.table.slot ip).locked then some k
      else if (k.table.slot ip).mount then
        -- without an entry in the mount table: panic("no imt")
        (k.m_dev ip).map fun dev => k.goTo p (.iget dev ROOTINO)
      else some ({ k with table := k.table.grab ip }.give p ip)
  | none =>
      match k.table.free.first with
      | none => some (k.goTo p (.returned none))
      | some ip =>
          -- panic("free inode isn't")
          if (k.table.slot ip).i_count ≠ 0 then none
          else some ({ k with table := k.table.reuse ip dev ino }.goTo p (.reading ip))

def igrab (k : Kernel n P) (p : P) (ip : Fin n) : Kernel n P :=
  if (k.table.slot ip).locked then k else { k with table := k.table.grab ip }.give p ip

/-- `iget` after the read. -/
def read (k : Kernel n P) (p : P) (ip : Fin n) : Option Dinode → Kernel n P
  | some dp => { k with table := k.table.fill ip dp }.give p ip
  | none => ({ k with table := k.table.discard ip }.unlock ip).irele p ip none

def run (fs_ronly : Nat → Bool) (k : Kernel n P) (p : P) (dp : Option Dinode) :
    Option (Kernel n P) :=
  match k.proc p with
  | .returned _ => none
  | .iget dev ino => k.iget p dev ino
  | .reading ip => some (k.read p ip dp)
  | .igrab ip => some (k.igrab p ip)
  | .releasing ip result =>
      some ({ k with table := k.table.putBack fs_ronly ip }.goTo p (.returned result))

/-- Somebody with a reference does something. -/
def withHeld (k : Kernel n P) (ip : Fin n) (k' : Kernel n P) : Option (Kernel n P) :=
  if k.held ip = 0 then none else some k'

/-- A process with nothing to do makes a call. -/
def calling (k : Kernel n P) (p : P) (k' : Option (Kernel n P)) : Option (Kernel n P) :=
  match k.proc p with
  | .returned _ => k'
  | _ => none

/-- A reference is given up. -/
def drop (k : Kernel n P) (ip : Fin n) : Kernel n P :=
  { k with held := Function.update k.held ip (k.held ip - 1) }

def event (fs_ronly isBlk : Nat → Bool) (k : Kernel n P) : Event n P → Option (Kernel n P)
  | .iget p dev ino => k.calling p (some (k.goTo p (.iget dev ino)))
  | .igrab p ip => k.calling p (some (k.goTo p (.igrab ip)))
  | .iput p ip => k.calling p (k.withHeld ip (((k.drop ip).unlock ip).irele p ip none))
  | .irele p ip => k.calling p (k.withHeld ip ((k.drop ip).irele p ip none))
  | .run p dp => k.run fs_ronly p dp
  | .iflush dev => some { k with table := (k.table.iflush isBlk dev).2 }
  | .reference ip =>
      k.withHeld ip
        { k with
          table := k.table.modify ip fun s => { s with i_count := s.i_count + 1 }
          held := Function.update k.held ip (k.held ip + 1) }
  | .ilock ip =>
      if (k.table.slot ip).locked then none
      else k.withHeld ip { k with table := k.table.modify ip fun s => { s with locked := true } }
  | .iunlock ip => k.withHeld ip (k.unlock ip)
  | .link ip nlink =>
      k.withHeld ip { k with table := k.table.modify ip fun s => { s with i_nlink := nlink } }
  | .lastr ip value =>
      k.withHeld ip
        { k with table := { k.table with free :=
          { k.table.free with next := Function.update k.table.free.next ip value } } }
  | .mount ip dev =>
      k.withHeld ip
        { k with
          table := k.table.modify ip fun s => { s with mount := true }
          m_dev := Function.update k.m_dev ip (some dev) }
  | .umount ip =>
      some { k with
        table := k.table.modify ip fun s => { s with mount := false }
        m_dev := Function.update k.m_dev ip none }

def boot : Kernel n P where
  table := .ihinit
  proc _ := .returned none
  held _ := 0
  m_dev _ := none

end Kernel

end DiscoBsd.Inode
