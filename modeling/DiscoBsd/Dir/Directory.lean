import Mathlib.Logic.Function.Basic
import DiscoBsd.Lib.Bytes

/-!
# Directories

A directory is a file of `DIRBLKSIZ`-byte blocks, each filled with variable-length entries.
`namei` looks a component up and leaves in the `nameidata` what the modification that follows
needs: the slot for a new entry and the end of what is useful, or the entry and the distance to
the one before it. `direnter`, `dirremove` and `dirrewrite` use them.

The files are flat: `namei` and `direnter` work in the buffer of one block, at the offset of the
entry in it. A panic of `direnter` is `none`.
-/

namespace DiscoBsd.Dir

open Lib

/-- Size of a block of a directory, and of a block of the file system. -/
def DIRBLKSIZ : Nat := 1024

/-- Longest name of an entry. -/
def MAXNAMLEN : Nat := 63

/-- A name is a sequence of bytes. -/
abbrev Name := List UInt8

/-! ## Entries -/

/-- The fields of a `struct direct`; `d_namlen` is the length of the name. -/
@[ext] structure Entry where
  dIno : Nat
  dReclen : Nat
  dName : Name
deriving DecidableEq

/-- The `struct direct` at `p`: `d_ino`, `d_reclen`, `d_namlen` and then the name. -/
def entryAt (m : Bytes) (p : Nat) : Entry where
  dIno := get32 m p
  dReclen := get16 m (p + 4)
  dName := bytesAt m (p + 8) (get16 m (p + 6))

/-- `DIRSIZ`: the header, the name and a null, padded to a multiple of four. -/
def Entry.dirsiz (ep : Entry) : Nat := (8 + ep.dName.length + 1 + 3) / 4 * 4

/-- `ep->d_ino = ino`. -/
def setIno (m : Bytes) (p ino : Nat) : Bytes := put32 m p ino

/-- `ep->d_reclen = reclen`. -/
def setReclen (m : Bytes) (p reclen : Nat) : Bytes := put16 m (p + 4) reclen

/-- The component is copied to `d_name`, with its null, and counted in `d_namlen`. -/
def setName (m : Bytes) (name : Name) : Bytes :=
  put16 (putBytes m 8 (name ++ [0])) 6 name.length

/-- A directory: its file, and what of its inode is used here. -/
structure Directory where
  bytes : Bytes
  iSize : Nat
  iNlink : Nat

/-- What `namei` leaves for the modification that follows. -/
structure Nameidata where
  niEndoff : Nat
  niOffset : Nat
  niCount : Nat
  niDent : Bytes

/-- `roundup(x, DIRBLKSIZ)`. -/
def roundup (x : Nat) : Nat := (x + (DIRBLKSIZ - 1)) / DIRBLKSIZ * DIRBLKSIZ

/-! ## The search of `namei` -/

/-- How far the search for a slot has come. -/
inductive SlotStatus where
  | none | compact | found
deriving DecidableEq

/-- The variables of the search for a slot; `slotoffset` is `none` where the source has `-1`. -/
structure Slot where
  slotstatus : SlotStatus
  slotoffset : Option Nat
  slotsize : Nat
  slotfreespace : Nat

/-- The variables of the search. -/
structure Search where
  niOffset : Nat
  entryoffsetinblock : Nat
  enduseful : Nat
  prevoff : Nat
  slot : Slot

/-- At the start of a block the search for space starts again. -/
def Slot.atBlock (slot : Slot) (entryoffsetinblock : Nat) : Slot :=
  if slot.slotstatus = .none ∧ entryoffsetinblock % DIRBLKSIZ = 0 then
    { slot with slotoffset := none, slotfreespace := 0 }
  else slot

/-- The head of the loop, where a new block may start. -/
def Search.atBlock (s : Search) : Search :=
  let entryoffsetinblock := if s.niOffset % DIRBLKSIZ = 0 then 0 else s.entryoffsetinblock
  { s with
    entryoffsetinblock := entryoffsetinblock
    slot := s.slot.atBlock entryoffsetinblock }

/-- What an entry has to spare. -/
def Entry.spare (ep : Entry) : Nat :=
  if ep.dIno ≠ 0 then ep.dReclen - ep.dirsiz else ep.dReclen

/-- The entry's space is added to the slot, which starts at the first entry that has any. -/
def Slot.accumulate (slot : Slot) (slotneeded niOffset : Nat) (ep : Entry) : Slot :=
  let slotoffset := slot.slotoffset.getD niOffset
  let slot := { slot with
    slotfreespace := slot.slotfreespace + ep.spare
    slotoffset := some slotoffset }
  if slotneeded ≤ slot.slotfreespace then
    { slot with
      slotstatus := .compact
      slotsize := niOffset + ep.dReclen - slotoffset }
  else slot

/-- An entry is looked at for space. -/
def Slot.check (slot : Slot) (slotneeded niOffset : Nat) (ep : Entry) : Slot :=
  if slot.slotstatus = .found ∨ ep.spare = 0 then slot
  else if slotneeded ≤ ep.spare then
    { slot with
      slotstatus := .found
      slotoffset := some niOffset
      slotsize := ep.dReclen }
  else if slot.slotstatus = .none then slot.accumulate slotneeded niOffset ep
  else slot

/-- The entry at `ni_offset` is looked at for space. -/
def Search.checkSlot (s : Search) (slotneeded : Nat) (ep : Entry) : Search :=
  { s with slot := s.slot.check slotneeded s.niOffset ep }

/-- On to the next entry. -/
def Search.advance (s : Search) (ep : Entry) : Search :=
  { s with
    prevoff := s.niOffset
    niOffset := s.niOffset + ep.dReclen
    entryoffsetinblock := s.entryoffsetinblock + ep.dReclen
    enduseful := if ep.dIno ≠ 0 then s.niOffset + ep.dReclen else s.enduseful }

/-- A mangled entry: the rest of the block is skipped. -/
def Search.skip (s : Search) : Search :=
  let i := DIRBLKSIZ - s.entryoffsetinblock % DIRBLKSIZ
  { s with
    niOffset := s.niOffset + i
    entryoffsetinblock := s.entryoffsetinblock + i }

/-- How the loop ends: at an entry of the name, or at `endsearch`. -/
inductive Scan where
  | found (s : Search) (ep : Entry)
  | notfound (s : Search)

/-- `searchloop`. Every turn moves `ni_offset` on, so that `endsearch` turns are enough. -/
def searchloop (m : Bytes) (name : Name) (slotneeded endsearch : Nat) : Nat → Search → Scan
  | 0, s => .notfound s
  | fuel + 1, s =>
      if s.niOffset < endsearch then
        let s := s.atBlock
        let ep := entryAt m s.niOffset
        if ep.dReclen = 0 then searchloop m name slotneeded endsearch fuel s.skip
        else
          let s := s.checkSlot slotneeded ep
          if ep.dIno ≠ 0 ∧ ep.dName = name then .found s ep
          else searchloop m name slotneeded endsearch fuel (s.advance ep)
      else .notfound s

/-! ## `namei` on the last component -/

/-- What the caller of `namei` is going to do with the name. -/
inductive Nameiop where
  | lookup | create | delete
deriving DecidableEq

/-- What `namei` comes back with. -/
inductive Result where
  | found (ndp : Nameidata)
  | absent (ndp : Nameidata)
  | enoent

/-- The search starts; a slot is looked for when the name is to be created. -/
def Search.start (op : Nameiop) (niOffset : Nat) : Search where
  niOffset := niOffset
  entryoffsetinblock := niOffset % DIRBLKSIZ
  enduseful := 0
  prevoff := 0
  slot := ⟨if op = .create then .none else .found, none, 0, 0⟩

/-- Where a lookup starts: at the block of the last one, when it was in this directory. -/
def Directory.startOffset (d : Directory) (op : Nameiop) (ncache : Option Nat) : Option Nat :=
  if op ≠ .lookup then none
  else ncache.map fun prevoffset => if d.iSize < prevoffset then 0 else prevoffset

/-- The search, in two passes when it starts in the middle. -/
def Directory.search (d : Directory) (op : Nameiop) (name : Name) (dent : Bytes) (ncache : Option Nat) : Scan :=
  let slotneeded := (entryAt dent 0).dirsiz
  let endsearch := roundup d.iSize
  match d.startOffset op ncache with
  | none => searchloop d.bytes name slotneeded endsearch endsearch (.start op 0)
  | some prevoffset =>
      match searchloop d.bytes name slotneeded endsearch endsearch (.start op prevoffset) with
      | .found s ep => .found s ep
      | .notfound s =>
          searchloop d.bytes name slotneeded prevoffset prevoffset { s with niOffset := 0 }

/-- Where a new entry goes: in the slot, or in a fresh block at the end. -/
def Directory.newSlot (d : Directory) (s : Search) (dent : Bytes) : Nameidata :=
  if s.slot.slotstatus = .none then
    { niEndoff := roundup (roundup d.iSize)
      niOffset := roundup d.iSize
      niCount := 0
      niDent := dent }
  else
    let slotoffset := s.slot.slotoffset.getD 0
    { niEndoff := roundup (max s.enduseful (slotoffset + s.slot.slotsize))
      niOffset := slotoffset
      niCount := s.slot.slotsize
      niDent := dent }

/-- The entry that was found, with the distance to the one before it in the block. -/
def Search.foundEntry (s : Search) (ep : Entry) (dent : Bytes) : Nameidata where
  niEndoff := 0
  niOffset := s.niOffset
  niCount := if s.niOffset % DIRBLKSIZ = 0 then 0 else s.niOffset - s.prevoff
  niDent := setReclen (setIno dent 0 ep.dIno) 0 ep.dReclen

/-- The length of the directory reflects the presence of the entry. -/
def Directory.fixSize (d : Directory) (s : Search) (ep : Entry) : Directory :=
  if d.iSize < s.entryoffsetinblock + ep.dirsiz then
    { d with iSize := s.entryoffsetinblock + ep.dirsiz }
  else d

/-- `namei` at the last component of a path, in its directory. `dent` is what `ni_dent` held
before, and `ncache` the `nc_prevoffset` of the process when its last lookup was in this
directory. -/
def Directory.namei (d : Directory) (op : Nameiop) (name : Name) (dent : Bytes) (ncache : Option Nat) :
    Result × Directory × Option Nat :=
  let dent := setName dent name
  match d.search op name dent ncache with
  | .found s ep =>
      (.found (s.foundEntry ep dent), d.fixSize s ep,
        if op = .lookup then some (s.niOffset / DIRBLKSIZ * DIRBLKSIZ) else ncache)
  | .notfound s =>
      let ncache := if op = .lookup then d.startOffset op ncache else ncache
      if op = .create ∧ d.iNlink ≠ 0 then (.absent (d.newSlot s dent), d, ncache)
      else (.enoent, d, ncache)

/-! ## Modifications -/

/-- `rdwri(UIO_WRITE)`; a block that the file did not have is cleared first. -/
def Directory.rdwri (d : Directory) (buf : Bytes) (len offset : Nat) : Directory :=
  { d with
    bytes := bcopy buf 0 (fun a => if a < d.iSize then d.bytes a else 0) offset len
    iSize := max d.iSize (offset + len) }

/-- `itrunc`. -/
def Directory.itrunc (d : Directory) (length : Nat) : Directory := { d with iSize := length }

/-- The variables of the compaction. `ep` is the offset of the entry being completed. -/
structure Compact where
  bytes : Bytes
  ep : Nat
  dsize : Nat
  spacefree : Int
  loc : Nat

/-- The compaction starts at the first entry of the slot. -/
def Compact.start (m : Bytes) (dirbuf : Nat) : Compact :=
  let ep := entryAt m dirbuf
  { bytes := m
    ep := dirbuf
    dsize := ep.dirsiz
    spacefree := (ep.dReclen : Int) - ep.dirsiz
    loc := ep.dReclen }

/-- The entry at `ep` is trimmed, or overwritten when nothing is there. -/
def Compact.trim (c : Compact) : Compact :=
  if (entryAt c.bytes c.ep).dIno ≠ 0 then
    { c with
      bytes := setReclen c.bytes c.ep c.dsize
      ep := c.ep + c.dsize }
  else { c with spacefree := c.spacefree + c.dsize }

/-- The entry at `loc` slides down to `ep`. -/
def Compact.slide (c : Compact) (dirbuf : Nat) : Compact :=
  let nep := entryAt c.bytes (dirbuf + c.loc)
  { c with
    dsize := nep.dirsiz
    spacefree := c.spacefree + ((nep.dReclen : Int) - nep.dirsiz)
    loc := c.loc + nep.dReclen
    bytes := bcopy c.bytes (dirbuf + c.loc) c.bytes c.ep nep.dirsiz }

/-- The loop of the compaction; `none` when it has not ended after `fuel` turns. -/
def compactLoop (dirbuf niCount : Nat) : Nat → Compact → Option Compact
  | 0, _ => none
  | fuel + 1, c =>
      if c.loc < niCount then compactLoop dirbuf niCount fuel (c.trim.slide dirbuf)
      else some c

/-- The new entry is copied in behind the last one; `none` is `wdir: compact1` or
`wdir: compact2`. -/
def Compact.place (c : Compact) (dent : Bytes) (newentrysize : Nat) : Option Bytes :=
  if (entryAt c.bytes c.ep).dIno = 0 then
    if c.spacefree + c.dsize < newentrysize then none
    else
      let dent := setReclen dent 0 (c.spacefree + c.dsize).toNat
      some (bcopy dent 0 c.bytes c.ep newentrysize)
  else if c.spacefree < newentrysize then none
  else
    let dent := setReclen dent 0 c.spacefree.toNat
    some (bcopy dent 0 (setReclen c.bytes c.ep c.dsize) (c.ep + c.dsize) newentrysize)

/-- `direnter` when `namei` found space. -/
def Directory.enterSlot (d : Directory) (ndp : Nameidata) (dent : Bytes) : Option Directory := do
  let iSize := max d.iSize (ndp.niOffset + ndp.niCount)
  let c ← compactLoop ndp.niOffset ndp.niCount (ndp.niCount + 1) (.start d.bytes ndp.niOffset)
  let bytes ← c.place dent (entryAt dent 0).dirsiz
  let d := { d with bytes := bytes, iSize := iSize }
  if ndp.niEndoff ≠ 0 ∧ ndp.niEndoff < iSize then some (d.itrunc ndp.niEndoff) else some d

/-- `direnter`; `none` is a panic. -/
def Directory.direnter (d : Directory) (ino : Nat) (ndp : Nameidata) : Option Directory :=
  let dent := setIno ndp.niDent 0 ino
  if ndp.niCount = 0 then
    if ndp.niOffset % DIRBLKSIZ ≠ 0 then none
    else
      let dent := setReclen dent 0 DIRBLKSIZ
      let d := d.rdwri dent (entryAt dent 0).dirsiz ndp.niOffset
      some { d with iSize := roundup d.iSize }
  else d.enterSlot ndp dent

/-- `dirremove`. -/
def Directory.dirremove (d : Directory) (ndp : Nameidata) : Directory :=
  if ndp.niCount = 0 then
    let dent := setIno ndp.niDent 0 0
    d.rdwri dent (entryAt dent 0).dirsiz ndp.niOffset
  else
    let ep := ndp.niOffset - ndp.niCount
    { d with
      bytes := setReclen d.bytes ep
        ((entryAt d.bytes ep).dReclen + (entryAt ndp.niDent 0).dReclen) }

/-- `dirrewrite`. -/
def Directory.dirrewrite (d : Directory) (ino : Nat) (ndp : Nameidata) : Directory :=
  let dent := setIno ndp.niDent 0 ino
  d.rdwri dent (entryAt dent 0).dirsiz ndp.niOffset

end DiscoBsd.Dir
