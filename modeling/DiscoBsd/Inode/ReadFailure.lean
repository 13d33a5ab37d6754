import Mathlib.Algebra.GroupWithZero.Nat
import DiscoBsd.Alloc.Ialloc
import DiscoBsd.Bmap.Truncate
import DiscoBsd.Inode.Sound

/-!
# An inode that cannot be read

The part of `iget` in `sys/kern/ufs_inode.c` for an inode that is not in core, with `iput`, `irele` and
`iupdat` on its way out when the read fails. The slot that `iget` takes off the free list still has the
mode, the link count and the block addresses of the inode it stood for before. With a link count of
0 the release truncates a file and frees inode 0 of the file system that could not be read.

One process runs alone. Reads of indirect blocks do not fail; which blocks of the i-list can be read
is a parameter.
-/

namespace DiscoBsd.Inode

open DiscoBsd.Lib

/-- `itoo`: the place of an inode in its block. -/
def itoo (ino : Nat) : Nat := (ino + Alloc.INOPB - 1) % Alloc.INOPB

/-- The fields of an in-core inode that a `Slot` leaves out. `i_rdev` is the second address. -/
structure Contents where
  i_uid : Nat
  i_gid : Nat
  i_size : Nat
  i_addr : Nat → Nat
  i_flags : Nat
  i_atime : Nat
  i_mtime : Nat
  i_ctime : Nat

/-- A mounted file system, with both parts of its superblock. -/
structure FileSys where
  vol : Alloc.Vol
  ilist : Alloc.Ilist
  fs_ronly : Bool

/-- The inode table, and the file system that `iget` is called for. -/
structure Core (n : Nat) where
  table : Table n
  contents : Fin n → Contents
  fs : FileSys

/-- Word `j` of a dinode. -/
def dinodeWord (s : Slot) (c : Contents) (j : Nat) : Nat :=
  if j = 0 then s.i_mode % 2 ^ 16 + 2 ^ 16 * (s.i_nlink % 2 ^ 16)
  else if j = 1 then c.i_uid
  else if j = 2 then c.i_gid
  else if j = 3 then c.i_size
  else if j < 4 + Bmap.NADDR then c.i_addr (j - 4)
  else if j = 12 then c.i_flags
  else if j = 13 then c.i_atime
  else if j = 14 then c.i_mtime
  else c.i_ctime

/-- A block of the i-list with dinode `k` replaced, except for its reserved word. -/
def putDinode (b : Alloc.Fblk) (k : Nat) (s : Slot) (c : Contents) : Alloc.Fblk :=
  Bmap.mapWords b fun i w =>
    if 16 * k ≤ i ∧ i < 16 * k + 16 ∧ i ≠ 16 * k + 11 then dinodeWord s c (i - 16 * k) % 2 ^ 32 else w

/-- `iget` copies dinode `k` of a block. -/
def getDinode (b : Alloc.Fblk) (k : Nat) : Dinode × Contents :=
  let w := fun j => Bmap.word b (16 * k + j)
  (⟨w 0 % 2 ^ 16, w 0 / 2 ^ 16, w 5⟩,
    { i_uid := w 1, i_gid := w 2, i_size := w 3, i_addr := fun a => w (4 + a), i_flags := w 12,
      i_atime := w 13, i_mtime := w 14, i_ctime := w 15 })

variable {n : Nat}

namespace Core

def setContents (k : Core n) (ip : Fin n) (f : Contents → Contents) : Core n :=
  { k with contents := Function.update k.contents ip (f (k.contents ip)) }

/-- `iupdat` with `IUPD` and `ICHG` on. -/
def iupdat (time : Nat) (readable : Nat → Bool) (k : Core n) (ip : Fin n) : Core n :=
  let bno := Alloc.itod (k.table.slot ip).i_number
  if k.fs.fs_ronly = true ∨ readable bno = false then k
  else
    let k := k.setContents ip fun c => { c with i_mtime := time, i_ctime := time }
    let b := putDinode (k.fs.vol.block bno) (itoo (k.table.slot ip).i_number) (k.table.slot ip)
      (k.contents ip)
    { k with fs := { k.fs with vol := { k.fs.vol with
      block := Function.update k.fs.vol.block bno b } } }

/-- `itrunc (ip, 0, 0)`. -/
def itrunc (time : Nat) (readable : Nat → Bool) (k : Core n) (ip : Fin n) : Core n :=
  let c := k.contents ip
  let r := (Bmap.itrunc time 0 ⟨⟨k.fs.vol, c.i_addr, false, 0⟩, c.i_size, false, none⟩).1
  iupdat time readable
    ({ k with fs := { k.fs with vol := r.file.vol } }.setContents ip fun c =>
      { c with i_size := r.i_size, i_addr := r.file.i_addr }) ip

/-- `irele`, with neither `IUPD` nor `ICHG` on. -/
def irele (time : Nat) (readable : Nat → Bool) (k : Core n) (ip : Fin n) : Core n :=
  if (k.table.slot ip).i_count = 1 then
    let k :=
      if (k.table.slot ip).i_nlink = 0 ∧ k.fs.fs_ronly = false then
        let k := k.itrunc time readable ip
        let k := { k with table := k.table.modify ip fun s => { s with i_mode := 0, i_rdev := 0 } }
        let k := k.setContents ip fun c => { c with i_addr := Function.update c.i_addr 1 0 }
        iupdat time readable
          { k with fs := { k.fs with
            ilist := Alloc.ifree (k.table.slot ip).i_number k.fs.ilist } } ip
      else k
    { k with table := k.table.putBack (fun _ => k.fs.fs_ronly) ip }
  else { k with table := k.table.modify ip fun s => { s with i_count := s.i_count - 1 } }

def iput (time : Nat) (readable : Nat → Bool) (k : Core n) (ip : Fin n) : Core n :=
  irele time readable { k with table := k.table.modify ip fun s => { s with locked := false } } ip

/-- `iget` for an inode on no hash chain; `none` is `panic("free inode isn't")`. -/
def igetNew (time : Nat) (readable : Nat → Bool) (k : Core n) (dev ino : Nat) :
    Option (Option (Fin n) × Core n) :=
  match k.table.free.first with
  | none => some (none, k)
  | some ip =>
      if (k.table.slot ip).i_count ≠ 0 then none
      else
        let k := { k with table := k.table.reuse ip dev ino }
        if readable (Alloc.itod ino) then
          let r := getDinode (k.fs.vol.block (Alloc.itod ino)) (itoo ino)
          some (some ip, { k with table := k.table.fill ip r.1 }.setContents ip fun _ => r.2)
        else some (none, iput time readable { k with table := k.table.discard ip } ip)

/-! ## What a failed read leaves behind -/

/-- Nothing but the claimed slot has changed, and that is free again, on no hash chain. -/
structure Harmless (k k' : Core n) (ip : Fin n) : Prop where
  vol : k'.fs.vol = k.fs.vol
  ilist : k'.fs.ilist = k.fs.ilist
  others : ∀ jp, jp ≠ ip → k'.table.slot jp = k.table.slot jp ∧ k'.contents jp = k.contents jp
  back : ∃ chains free, k'.table.Lists chains free ∧ ip ∈ free ∧ ∀ ih, ip ∉ chains ih

theorem iupdat_ilist (time : Nat) (readable : Nat → Bool) (k : Core n) (ip : Fin n) :
    (iupdat time readable k ip).fs.ilist = k.fs.ilist := by
  unfold iupdat
  dsimp only
  split <;> rfl

theorem itrunc_ilist (time : Nat) (readable : Nat → Bool) (k : Core n) (ip : Fin n) :
    (k.itrunc time readable ip).fs.ilist = k.fs.ilist :=
  iupdat_ilist ..

/-- `ifree` always counts. -/
theorem ifree_ne (ino : Nat) (fs : Alloc.Ilist) : Alloc.ifree ino fs ≠ fs := by
  intro heq
  have htinode : (Alloc.ifree ino fs).fsTinode = (fs.fsTinode + 1) % 2 ^ 32 := by
    unfold Alloc.ifree
    dsimp only
    split
    · rfl
    · split
      · split <;> rfl
      · rfl
  rw [heq] at htinode
  omega

/-- The release of a slot whose inode has no links counts an inode. -/
theorem irele_ilist (time : Nat) (readable : Nat → Bool) {k : Core n} {ip : Fin n}
    (hcount : (k.table.slot ip).i_count = 1) (hnlink : (k.table.slot ip).i_nlink = 0)
    (hronly : k.fs.fs_ronly = false) : ∃ ino,
    (irele time readable k ip).fs.ilist = Alloc.ifree ino k.fs.ilist := by
  unfold irele
  rw [if_pos hcount]
  dsimp only
  rw [if_pos ⟨hnlink, hronly⟩, iupdat_ilist]
  refine ⟨_, congrArg (Alloc.ifree _) ?_⟩
  exact itrunc_ilist time readable k ip

/-- With links, or on a read-only file system, the slot is only put back. -/
theorem irele_putBack (time : Nat) (readable : Nat → Bool) {k : Core n} {ip : Fin n}
    (hcount : (k.table.slot ip).i_count = 1)
    (hkeep : ¬ ((k.table.slot ip).i_nlink = 0 ∧ k.fs.fs_ronly = false)) :
    irele time readable k ip =
      { k with table := k.table.putBack (fun _ => k.fs.fs_ronly) ip } := by
  unfold irele
  rw [if_pos hcount]
  dsimp only
  rw [if_neg hkeep]

/-- A failed read of an inode is harmless when the slot that is taken for it stood for an inode with
links, or the file system is read-only, and only then. -/
theorem iget_failure_harmless_iff (time : Nat) (readable : Nat → Bool) (k : Core n) (dev ino : Nat)
    (ip : Fin n) (hsound : k.table.Sound) (hnew : k.table.ifind dev ino = none)
    (hfirst : k.table.free.first = some ip) (hread : readable (Alloc.itod ino) = false) :
    ∃ k', igetNew time readable k dev ino = some (none, k') ∧
      (Harmless k k' ip ↔ 0 < (k.table.slot ip).i_nlink ∨ k.fs.fs_ronly = true) := by
  obtain ⟨chains, free, hlists⟩ := hsound
  have hcount : (k.table.slot ip).i_count = 0 := by
    refine (hlists.count ip).mp ?_
    rw [hlists.avail.first_eq] at hfirst
    exact List.mem_of_mem_head? hfirst
  obtain ⟨t, ht⟩ : ∃ t, t = ((k.table.reuse ip dev ino).discard ip).modify ip fun s =>
    { s with locked := false } := ⟨_, rfl⟩
  have hslot : t.slot ip = { k.table.slot ip with
      i_dev := dev, i_number := 0, locked := false, mount := false, i_count := 1 } := by
    rw [ht, Table.modify_self, Table.discard, Table.modify_self]
    show ({ (k.table.reuse ip dev ino).slot ip with i_number := 0, locked := false } : Slot) = _
    rw [Table.reuse, Table.modify_self]
    simp only [hcount]
  have hother : ∀ jp, jp ≠ ip → t.slot jp = k.table.slot jp := by
    intro jp hne
    rw [ht, Table.modify_of_ne _ hne, Table.discard, Table.modify_of_ne _ hne]
    show (k.table.reuse ip dev ino).slot jp = _
    exact Table.modify_of_ne _ hne _
  have hone : (t.slot ip).i_count = 1 := by rw [hslot]
  have hnlink : (t.slot ip).i_nlink = (k.table.slot ip).i_nlink := by rw [hslot]
  refine ⟨irele time readable { k with table := t } ip, ?_, ?_⟩
  · unfold igetNew
    rw [hfirst]
    dsimp only
    rw [if_neg (not_not.mpr hcount), if_neg (by rw [hread]; decide), ht]
    rfl
  · constructor
    · intro hharmless
      by_contra hnot
      obtain ⟨hzero, hronly⟩ := not_or.mp hnot
      obtain ⟨freed, hilist⟩ := irele_ilist time readable (k := { k with table := t }) hone
        (by rw [hnlink]; omega) (by simpa using hronly)
      exact ifree_ne freed k.fs.ilist (hilist.symm.trans hharmless.ilist)
    · intro hkeep
      rw [irele_putBack time readable (k := { k with table := t }) hone (by
        rw [hnlink]
        rintro ⟨hzero, hronly⟩
        rcases hkeep with hpos | hro
        · omega
        · exact absurd (hro.symm.trans hronly) (by decide))]
      obtain ⟨chains', free', hreused⟩ := hlists.reuse hfirst hnew
      have hlast : t.Lists (fun ih => (chains' ih).erase ip) free' := by
        rw [ht]
        exact (hreused.discarded ip).modify rfl rfl Iff.rfl
      have hback := hlast.returned (fun _ => k.fs.fs_ronly) hone
      refine ⟨rfl, rfl, fun jp hne => ⟨?_, rfl⟩, fun ih => (chains' ih).erase ip, free' ++ [ip],
        hback, List.mem_append_right _ (List.mem_singleton.mpr rfl), ?_⟩
      · show (t.putBack (fun _ => k.fs.fs_ronly) ip).slot jp = _
        exact (Function.update_of_ne hne _ _).trans (hother jp hne)
      · exact fun ih => (hreused.chain.rings.nodup ih).not_mem_erase

local instance oneNeZero : NeZero 1 := ⟨by decide⟩

/-- The table of one slot after the start of the system, but with a link count. -/
def oneSlot (nlink : Nat) : Core 1 where
  table := Table.ihinit.modify 0 fun s => { s with i_nlink := nlink }
  contents _ := ⟨0, 0, 0, fun _ => 0, 0, 0, 0, 0⟩
  fs :=
    { vol := ⟨⟨4, 100, ⟨0, fun _ => 0⟩, 0, 0, 0, 0⟩, ⟨4, 100, ⟨0, fun _ => 0⟩, 0, 0, 0, 0⟩,
        fun _ => Bmap.zeroWords ⟨0, fun _ => 0⟩ 0⟩
      ilist := ⟨4, 0, fun _ => 0, 0, 1, 0, 0, 0, []⟩
      fs_ronly := false }

theorem one_slot_sound (nlink : Nat) : (oneSlot nlink).table.Sound := by
  obtain ⟨chains, free, hlists⟩ := Table.sound_ihinit (n := 1)
  have hmodified : ((Table.ihinit (n := 1)).modify 0 fun s => { s with i_nlink := nlink }).Lists
      chains free := hlists.modify rfl rfl Iff.rfl
  exact ⟨chains, free, hmodified⟩

/-- With a link the slot is put back, and nothing else happens. -/
theorem iget_failure_one_slot : ∃ k', igetNew 7 (fun bno => bno ≠ 1) (oneSlot 1) 0 5 = some (none, k') ∧
    Harmless (oneSlot 1) k' 0 := by
  obtain ⟨k', hk', hiff⟩ := iget_failure_harmless_iff 7 (fun bno => bno ≠ 1) (oneSlot 1) 0 5 0
    (one_slot_sound 1) (by decide) (by decide) (by decide)
  exact ⟨k', hk', hiff.mpr (Or.inl (by decide))⟩

/-- Inode 5 cannot be read into a slot that was never used: the file system gets a free inode 0 and
the count of free inodes 1, and the last dinode of block 0 is written, which is no inode. -/
theorem iget_failure_frees_inode_zero :
    ((oneSlot 0).fs.ilist.fsNinode, (oneSlot 0).fs.ilist.fsTinode,
        Bmap.word ((oneSlot 0).fs.vol.block 0) 254) = (0, 0, 0) ∧
      (igetNew 7 (fun bno => bno ≠ 1) (oneSlot 0) 0 5).map
        (fun r => (r.1, r.2.fs.ilist.fsNinode, r.2.fs.ilist.fsInode 0, r.2.fs.ilist.fsTinode,
          Bmap.word (r.2.fs.vol.block 0) 254)) = some (none, 1, 0, 1, 7) := by
  decide +kernel

end Core

end DiscoBsd.Inode
