import DiscoBsd.Dir.Modify
import DiscoBsd.Lib.Steps

/-!
# Directories under `fsutil`

`fs_inode_by_name` of `tools/fsutil/inode.c` searches a directory from its first byte to its last
and makes a new entry behind the last one, or removes an entry by giving its space to the one
scanned before it. The kernel reads the result block by block. `readable_kept` shows that the
rules of the kernel are kept as long as no entry is removed that stands first in its block: the
entry scanned before such a one lies in another block, or is the entry itself.

A directory is flat here as it is in `Dir`: the blocks of the file one behind the other.
-/

namespace DiscoBsd.Fsutil

open Lib Dir

/-! ## The program -/

/-- The header of an entry, as `fs_inode_by_name` reads and writes it. -/
structure Dirent where
  inum : Nat
  reclen : Nat
  namlen : Nat
deriving DecidableEq

/-- A header is read. -/
def direntAt (m : Bytes) (offset : Nat) : Dirent where
  inum := get32 m offset
  reclen := get16 m (offset + 4)
  namlen := get16 m (offset + 6)

/-- A header is written. -/
def putDirent (m : Bytes) (offset : Nat) (dirent : Dirent) : Bytes :=
  put16 (put16 (put32 m offset dirent.inum) (offset + 4) dirent.reclen) (offset + 6) dirent.namlen

/-- How the search ends: at the offset of an entry of the name or behind the last entry, in both
cases with the offset scanned before and the last header read. -/
inductive Scan where
  | found (offset lastOffset : Nat) (dirent : Dirent)
  | absent (lastOffset : Nat) (dirent : Dirent)
deriving DecidableEq

/-- The search of a directory; `none` is a read behind its end, or a loop without end. -/
def scan (dir : Directory) (name : Name) : Nat → Nat → Nat → Dirent → Option Scan
  | 0, _, _, _ => none
  | fuel + 1, offset, lastOffset, last =>
    if offset < dir.iSize then
      if dir.iSize < offset + 8 then none
      else
        let dirent := direntAt dir.bytes offset
        if dirent.inum = 0 ∨ dirent.namlen ≠ name.length then
          scan dir name fuel (offset + dirent.reclen) offset dirent
        else if dir.iSize < offset + 8 + name.length then none
        else if bytesAt dir.bytes (offset + 8) name.length = name then
          some (.found offset lastOffset dirent)
        else scan dir name fuel (offset + dirent.reclen) offset dirent
    else some (.absent lastOffset last)

/-- `fs_inode_write` of a header. -/
def writeDirent (dir : Directory) (offset : Nat) (dirent : Dirent) : Directory :=
  { dir with bytes := putDirent dir.bytes offset dirent, iSize := max dir.iSize (offset + 8) }

/-- `fs_inode_write` of other bytes. -/
def writeBytes (dir : Directory) (offset : Nat) (data : List UInt8) : Directory :=
  { dir with
    bytes := putBytes dir.bytes offset data
    iSize := max dir.iSize (offset + data.length) }

/-- The new entry is written: its header, its name, a null; then the size is aligned. -/
def place (dir : Directory) (offset : Nat) (dirent : Dirent) (name : Name) : Directory :=
  let dir := writeDirent dir offset dirent
  let dir := writeBytes dir (offset + 8) name
  let dir := writeBytes dir (offset + 8 + name.length) [0]
  { dir with iSize := roundup dir.iSize }

/-- What the last entry does not need itself. -/
def Dirent.spare (dirent : Dirent) : Int := (dirent.reclen : Int) - 8 - (dirent.namlen + 4) / 4 * 4

/-- The tail of the two ways to make an entry. `avail` says whether a block could be allocated to
extend the directory. -/
def enter (dir : Directory) (lastOffset : Nat) (dirent : Dirent) (inum : Nat) (name : Name)
    (avail : Bool) : Option Directory :=
  let needed : Int := 8 + (name.length + 4) / 4 * 4
  if needed ≤ dirent.spare then
    let kept := dirent.reclen - dirent.spare.toNat
    let dir := writeDirent dir lastOffset { dirent with reclen := kept }
    some (place dir (lastOffset + kept) ⟨inum, dirent.spare.toNat, name.length⟩ name)
  else if avail then
    some (place dir (lastOffset + dirent.reclen) ⟨inum, DIRBLKSIZ, name.length⟩ name)
  else none

/-- The space of the entry found goes to the one scanned before it. -/
def remove (dir : Directory) (lastOffset : Nat) (dirent : Dirent) : Directory :=
  let reclen := dirent.reclen
  let dirent := direntAt dir.bytes lastOffset
  writeDirent dir lastOffset { dirent with reclen := (dirent.reclen + reclen) % 2 ^ 16 }

/-- What is asked for. The inode of a new file comes from `fs_inode_alloc`, which may fail. -/
inductive Op where
  | create (inum : Option Nat) (avail : Bool)
  | link (inum : Nat) (avail : Bool)
  | delete
deriving DecidableEq

/-- The value returned: 0, 1 or 2. -/
inductive Outcome where
  | failed | found | done
deriving DecidableEq

/-- `fs_inode_get`: is there such an inode? -/
def inodeGet (imax inum : Nat) : Bool := inum ≠ 0 ∧ inum ≤ imax

/-- A directory entry is made, and the outcome says whether it was. -/
def entered (dir : Directory) : Option Directory → Outcome × Directory
  | none => (.failed, dir)
  | some dir' => (.done, dir')

/-- `fs_inode_by_name` at the last component of a path, in its directory. `imax` is the number of
inodes, and `junk` what the local variable `dirent` holds before the first read. -/
def inodeByName (imax : Nat) (dir : Directory) (name : Name) (op : Op) (junk : Dirent) :
    Outcome × Directory :=
  match scan dir name (dir.iSize + 1) 0 0 junk, op with
  | none, _ => (.failed, dir)
  | some (.found _ lastOffset dirent), .delete =>
    if inodeGet imax dirent.inum then (.done, remove dir lastOffset dirent) else (.failed, dir)
  | some (.found _ _ dirent), _ => (if inodeGet imax dirent.inum then .found else .failed, dir)
  | some (.absent _ _), .delete => (.failed, dir)
  | some (.absent _ _), .create none _ => (.failed, dir)
  | some (.absent lastOffset dirent), .create (some inum) avail =>
    entered dir (enter dir lastOffset dirent inum name avail)
  | some (.absent lastOffset dirent), .link inum avail =>
    entered dir (enter dir lastOffset dirent inum name avail)

/-! ## Readable directories -/

/-- The kernel's rules for the blocks of a directory, which has one at least. -/
structure Readable (dir : Directory) : Prop where
  whole : dir.iSize % DIRBLKSIZ = 0
  pos : 0 < dir.iSize
  blocks : ∀ b < dir.iSize / DIRBLKSIZ, ValidBlock (dir.block b)

/-- The entries of the directory in one list. -/
structure Tiled (dir : Directory) (es : List Entry) : Prop where
  laid : Laid dir.bytes 0 es
  size : total es = dir.iSize
  whole : dir.iSize % DIRBLKSIZ = 0

variable {dir dir' : Directory} {m : Bytes} {p : Nat} {es before after : List Entry} {e : Entry}
  {name : Name}

theorem Readable.tiled (h : Readable dir) : Tiled dir dir.entries := by
  obtain ⟨hlaid, htotal⟩ := laid_blocks h.blocks
  refine ⟨hlaid, ?_, h.whole⟩
  rw [show dir.entries = (List.range (dir.iSize / DIRBLKSIZ)).flatMap dir.block from rfl, htotal]
  exact Nat.mul_div_cancel' (Nat.dvd_of_mod_eq_zero h.whole)

theorem Tiled.blocks (h : Tiled dir es) :
    (∀ b < dir.iSize / DIRBLKSIZ, ValidBlock (dir.block b)) ∧ dir.entries = es := by
  refine blocks_of_laid h.laid ?_
  rw [h.size, Nat.mul_div_cancel' (Nat.dvd_of_mod_eq_zero h.whole)]

theorem Tiled.readable (h : Tiled dir es) (hpos : 0 < dir.iSize) : Readable dir :=
  ⟨h.whole, hpos, h.blocks.1⟩

/-! ## Headers -/

/-- The header of an entry. -/
def header (e : Entry) : Dirent := ⟨e.dIno, e.dReclen, e.dName.length⟩

theorem direntAt_eq (h : entryAt m p = e) : direntAt m p = header e := by
  subst h
  simp [direntAt, header, entryAt]

/-- The comparison of the search finds the entries of the name. -/
theorem is_iff (h : entryAt m p = e) (name : Name) :
    e.Is name ↔ e.dIno ≠ 0 ∧ e.dName.length = name.length ∧ bytesAt m (p + 8) name.length = name := by
  have hname : bytesAt m (p + 8) e.dName.length = e.dName := by
    subst h
    simp [entryAt]
  constructor
  · rintro ⟨hlive, rfl⟩
    exact ⟨hlive, rfl, hname⟩
  · rintro ⟨hlive, hlength, hbytes⟩
    rw [hlength, hbytes] at hname
    exact ⟨hlive, hname.symm⟩

theorem putDirent_outside (m : Bytes) (dirent : Dirent) {a : Nat} (h : a < p ∨ p + 8 ≤ a) :
    putDirent m p dirent a = m a := by
  rw [putDirent, put16_outside _ (by omega), put16_outside _ (by omega), put32_outside _ (by omega)]

/-- A header is written in front of a name. -/
theorem entryAt_putDirent (m : Bytes) (p : Nat) {dirent : Dirent} (hinum : dirent.inum < 2 ^ 32)
    (hreclen : dirent.reclen < 2 ^ 16) (hnamlen : dirent.namlen < 2 ^ 16) :
    entryAt (putDirent m p dirent) p =
      ⟨dirent.inum, dirent.reclen, bytesAt m (p + 8) dirent.namlen⟩ := by
  have hino : get32 (putDirent m p dirent) p = dirent.inum := by
    rw [← get32_put32 m p hinum]
    apply get32_congr
    intro i hi
    rw [putDirent, put16_outside _ (by omega), put16_outside _ (by omega)]
  have hlen : get16 (putDirent m p dirent) (p + 4) = dirent.reclen := by
    rw [← get16_put16 (put32 m p dirent.inum) (p + 4) hreclen]
    apply get16_congr
    intro i hi
    rw [putDirent, put16_outside _ (by omega)]
  have hname : get16 (putDirent m p dirent) (p + 6) = dirent.namlen := get16_put16 _ _ hnamlen
  have hbytes : bytesAt (putDirent m p dirent) (p + 8) dirent.namlen =
      bytesAt m (p + 8) dirent.namlen :=
    bytesAt_congr fun i hi => putDirent_outside m dirent (by omega)
  simp only [entryAt, hino, hlen, hname, hbytes]

theorem entryAt_putDirent_resize (h : entryAt m p = e) {reclen : Nat} (hreclen : reclen < 2 ^ 16) :
    entryAt (putDirent m p ⟨e.dIno, reclen, e.dName.length⟩) p = e.resize reclen := by
  have hino : e.dIno < 2 ^ 32 := h ▸ get32_lt m p
  have hname : e.dName.length < 2 ^ 16 := h ▸ length_dName_lt m p
  rw [entryAt_putDirent m p hino hreclen hname]
  subst h
  simp [Entry.resize, entryAt]

/-- The header of the last entry scanned. -/
def lastHeader (junk : Dirent) (es : List Entry) : Dirent := (es.getLast?.map header).getD junk

/-- Where the search of the rest of a directory ends. -/
theorem scan_spec (seen : List Entry) {todo : List Entry} (name : Name) (junk : Dirent)
    (h : Tiled dir (seen ++ todo)) {fuel : Nat} (hfuel : todo.length < fuel) :
    (∃ as e bs, todo = as ++ e :: bs ∧ (∀ a ∈ as, ¬ a.Is name) ∧ e.Is name ∧
      scan dir name fuel (total seen) (total seen.dropLast) (lastHeader junk seen) =
        some (.found (total (seen ++ as)) (total (seen ++ as).dropLast) (header e))) ∨
    ((∀ a ∈ todo, ¬ a.Is name) ∧
      scan dir name fuel (total seen) (total seen.dropLast) (lastHeader junk seen) =
        some (.absent (total (seen ++ todo).dropLast) (lastHeader junk (seen ++ todo)))) := by
  induction todo generalizing seen fuel with
  | nil =>
    obtain ⟨fuel, rfl⟩ : ∃ k, fuel = k + 1 := ⟨fuel - 1, by simp at hfuel; omega⟩
    have hsize := h.size
    rw [List.append_nil] at hsize
    refine .inr ⟨nofun, ?_⟩
    rw [scan, if_neg (by omega), List.append_nil]
  | cons e todo ih =>
    obtain ⟨fuel, rfl⟩ : ∃ k, fuel = k + 1 := ⟨fuel - 1, by simp at hfuel; omega⟩
    obtain ⟨-, hentry, hfits, -⟩ := laid_append.mp h.laid
    rw [Nat.zero_add] at hentry
    have hdirent := direntAt_eq hentry
    have his := is_iff hentry name
    have hsize := h.size
    have hdirsiz := lt_dirsiz e
    have hfit := hfits.size
    simp only [total_append, total_cons] at hsize
    -- what the search does when this entry is not the one
    have hnext : ¬ e.Is name → (
        (∃ as e' bs, e :: todo = as ++ e' :: bs ∧ (∀ a ∈ as, ¬ a.Is name) ∧ e'.Is name ∧
          scan dir name fuel (total seen + e.dReclen) (total seen) (header e) =
            some (.found (total (seen ++ as)) (total (seen ++ as).dropLast) (header e'))) ∨
        ((∀ a ∈ e :: todo, ¬ a.Is name) ∧
          scan dir name fuel (total seen + e.dReclen) (total seen) (header e) =
            some (.absent (total (seen ++ e :: todo).dropLast)
              (lastHeader junk (seen ++ e :: todo))))) := by
      intro hnot
      have hseen : Tiled dir ((seen ++ [e]) ++ todo) := by simpa using h
      have hstep := ih (seen ++ [e]) hseen (by simpa using hfuel : todo.length < fuel)
      simp only [lastHeader, List.dropLast_concat, List.getLast?_concat, Option.map_some,
        Option.getD_some, total_append, total_cons, total_nil, Nat.add_zero, List.append_assoc,
        List.singleton_append] at hstep
      obtain ⟨as, e', bs, rfl, has, he', hscan⟩ | ⟨hnone, hscan⟩ := hstep
      · refine .inl ⟨e :: as, e', bs, rfl, ?_, he', ?_⟩
        · simpa [hnot] using has
        · rw [hscan]
          simp
      · refine .inr ⟨by simpa [hnot] using hnone, ?_⟩
        rw [hscan]
        simp [lastHeader]
    rw [scan, if_pos (by omega), if_neg (by omega)]
    simp only [hdirent, header]
    by_cases hskip : e.dIno = 0 ∨ e.dName.length ≠ name.length
    · rw [if_pos hskip]
      exact hnext fun hhit => by simp [hhit.1, hhit.2] at hskip
    · obtain ⟨hlive, hlength⟩ := not_or.mp hskip
      rw [not_not] at hlength
      rw [if_neg hskip, if_neg (by omega)]
      by_cases hbytes : bytesAt dir.bytes (total seen + 8) name.length = name
      · rw [if_pos hbytes]
        exact .inl ⟨[], e, todo, rfl, nofun, his.mpr ⟨hlive, hlength, hbytes⟩, by simp⟩
      · rw [if_neg hbytes]
        exact hnext fun hhit => hbytes (his.mp hhit).2.2

/-! ## One modification -/

/-- The entry behind the one scanned before is removed, when the two are in one block. -/
theorem Tiled.remove {e' : Entry} (h : Tiled dir (before ++ [e', e] ++ after))
    (hblock : total (before ++ [e']) % DIRBLKSIZ ≠ 0) :
    Tiled (remove dir (total before) (header e))
        (before ++ [e'.resize (e'.dReclen + e.dReclen)] ++ after) ∧
      (Fsutil.remove dir (total before) (header e)).iSize = dir.iSize := by
  have hle := h.laid.merged_le hblock
  have hlaid := h.laid
  rw [laid_append, laid_append, Nat.zero_add] at hlaid
  obtain ⟨⟨-, hentry', hfits', -⟩, -⟩ := hlaid
  have hdirent := direntAt_eq hentry'
  have hsize := h.size
  have hroom := hfits'.size
  have hdirsiz := lt_dirsiz e'
  simp only [DIRBLKSIZ] at hle
  simp only [total_append, total_cons, total_nil] at hsize
  have hiSize : (Fsutil.remove dir (total before) (header e)).iSize = dir.iSize := by
    show max dir.iSize (total before + 8) = dir.iSize
    omega
  have hbytes : (Fsutil.remove dir (total before) (header e)).bytes =
      putDirent dir.bytes (total before) ⟨e'.dIno, e'.dReclen + e.dReclen, e'.dName.length⟩ := by
    simp only [Fsutil.remove, writeDirent, hdirent, header]
    rw [Nat.mod_eq_of_lt (by omega)]
  refine ⟨⟨?_, ?_, ?_⟩, hiSize⟩
  · rw [hbytes]
    exact h.laid.merge hblock (entryAt_putDirent_resize hentry' (by omega))
      fun a ha => putDirent_outside _ _ ha
  · rw [hiSize, ← h.size]
    simp [Nat.add_assoc]
  · rw [hiSize]
    exact h.whole

theorem place_outside (dir : Directory) (dirent : Dirent) (name : Name) {a : Nat}
    (h : a < p ∨ p + 8 + name.length + 1 ≤ a) : (place dir p dirent name).bytes a = dir.bytes a := by
  show putBytes (putBytes (putDirent dir.bytes p dirent) (p + 8) name) _ [0] a = _
  rw [putBytes_outside _ (by simp; omega), putBytes_outside _ (by omega),
    putDirent_outside _ _ (by omega)]

/-- The new entry reads as what was asked for. -/
theorem entryAt_place (dir : Directory) (p : Nat) {inum reclen : Nat} (hinum : inum < 2 ^ 32)
    (hreclen : reclen < 2 ^ 16) (hname : name.length < 2 ^ 16) :
    entryAt (place dir p ⟨inum, reclen, name.length⟩ name).bytes p = ⟨inum, reclen, name⟩ := by
  have hentry := entryAt_putDirent dir.bytes p
    (show (⟨inum, reclen, name.length⟩ : Dirent).inum < 2 ^ 32 from hinum) hreclen hname
  simp only [entryAt, Entry.mk.injEq] at hentry
  obtain ⟨hino, hlen, -⟩ := hentry
  have hnamlen : get16 (putDirent dir.bytes p ⟨inum, reclen, name.length⟩) (p + 6) = name.length :=
    get16_put16 _ _ hname
  -- the name and its null are written behind the header
  have hhead (i : Nat) (hi : i < 8) : (place dir p ⟨inum, reclen, name.length⟩ name).bytes (p + i) =
      putDirent dir.bytes p ⟨inum, reclen, name.length⟩ (p + i) := by
    show putBytes (putBytes _ (p + 8) name) _ [0] (p + i) = _
    rw [putBytes_before _ (by omega), putBytes_before _ (by omega)]
    rfl
  have hbytes : bytesAt (place dir p ⟨inum, reclen, name.length⟩ name).bytes (p + 8) name.length =
      name := by
    refine (bytesAt_congr fun i hi => ?_).trans
      (bytesAt_putBytes (putDirent dir.bytes p ⟨inum, reclen, name.length⟩) (p + 8) name)
    exact putBytes_before _ (by omega)
  have hino' := (get32_congr fun i hi => hhead i (by omega)).trans hino
  have hlen' : get16 (place dir p ⟨inum, reclen, name.length⟩ name).bytes (p + 4) = reclen := by
    refine (get16_congr fun i hi => ?_).trans hlen
    rw [Nat.add_assoc]
    exact hhead (4 + i) (by omega)
  have hnamlen' : get16 (place dir p ⟨inum, reclen, name.length⟩ name).bytes (p + 6) =
      name.length := by
    refine (get16_congr fun i hi => ?_).trans hnamlen
    rw [Nat.add_assoc]
    exact hhead (6 + i) (by omega)
  simp only [entryAt, hino', hlen', hnamlen', hbytes]

theorem place_iSize (dir : Directory) (p : Nat) (dirent : Dirent) (name : Name) :
    (place dir p dirent name).iSize = roundup (max dir.iSize (p + 8 + name.length + 1)) := by
  show roundup (max (max (max dir.iSize (p + 8)) (p + 8 + name.length)) _) = _
  congr 1
  simp only [List.length_singleton]
  omega

theorem spare_header (e : Entry) : (header e).spare = (e.dReclen : Int) - e.dirsiz := by
  simp only [Dirent.spare, header, Entry.dirsiz]
  omega

theorem pairs_singleton {inum reclen : Nat} (hinum : inum ≠ 0) (name : Name) :
    pairs [⟨inum, reclen, name⟩] = [(name, inum)] := by
  rw [pairs_live hinum, pairs_nil]

/-- The new entry is made in the space of the last one. -/
theorem Tiled.split {inum : Nat} (h : Tiled dir (before ++ [e])) (hinum : inum < 2 ^ 32)
    (hroom : e.dirsiz + (8 + (name.length + 4) / 4 * 4) ≤ e.dReclen) :
    let dir' := place (writeDirent dir (total before) ⟨e.dIno, e.dirsiz, e.dName.length⟩)
      (total before + e.dirsiz) ⟨inum, e.dReclen - e.dirsiz, name.length⟩ name
    Tiled dir' (before ++ [e.resize e.dirsiz, ⟨inum, e.dReclen - e.dirsiz, name⟩]) ∧
      dir'.iSize = dir.iSize := by
  intro dir'
  obtain ⟨-, hentry, hfits, -⟩ := laid_append.mp h.laid
  rw [Nat.zero_add] at hentry
  have hblock := hfits.block
  have hwords := hfits.words
  have hmod := dirsiz_mod e
  have hdirsiz := lt_dirsiz e
  have hsize := h.size
  have hwhole := h.whole
  simp only [total_append, total_cons, total_nil, DIRBLKSIZ, Nat.zero_add] at hsize hblock hwhole
  have hiSize : dir'.iSize = dir.iSize := by
    show (place _ _ _ name).iSize = _
    rw [place_iSize]
    show roundup (max (max dir.iSize (total before + 8)) _) = _
    simp only [roundup, DIRBLKSIZ]
    omega
  have hlast : entryAt dir'.bytes (total before) = e.resize e.dirsiz := by
    rw [← entryAt_putDirent_resize hentry (by omega : e.dirsiz < 2 ^ 16)]
    symm
    apply entryAt_congr
    intro i hi
    rw [entryAt_putDirent_resize hentry (by omega), resize_dirsiz] at hi
    have hout : total before + i < total before + e.dirsiz := by omega
    show (writeDirent dir (total before) ⟨e.dIno, e.dirsiz, e.dName.length⟩).bytes _ = dir'.bytes _
    exact (place_outside _ _ name (.inl hout)).symm
  have hnew : entryAt dir'.bytes (total before + e.dirsiz) =
      ⟨inum, e.dReclen - e.dirsiz, name⟩ :=
    entryAt_place _ _ hinum (by omega) (by omega)
  have hbefore : Laid dir'.bytes 0 before := by
    refine (laid_append.mp h.laid).1.congr fun a _ ha => ?_
    show (place _ _ _ name).bytes a = _
    rw [place_outside _ _ name (by omega)]
    exact putDirent_outside _ _ (by omega)
  refine ⟨⟨laid_append.mpr ⟨hbefore, ?_, ⟨le_rfl, hmod, ?_⟩, ?_, ⟨?_, ?_, ?_⟩, trivial⟩, ?_, ?_⟩,
    hiSize⟩
  · rw [Nat.zero_add, hlast]
  · simp only [resize_dReclen, DIRBLKSIZ]
    omega
  · rw [Nat.zero_add, resize_dReclen, hnew]
  · simp only [Entry.dirsiz]
    omega
  · simp only
    omega
  · simp only [resize_dReclen, DIRBLKSIZ]
    omega
  · rw [hiSize, ← h.size]
    simp only [total_append, total_cons, total_nil, resize_dReclen]
    omega
  · rw [hiSize]
    exact h.whole

/-- The new entry is made in a block of its own. -/
theorem Tiled.extend {inum : Nat} (h : Tiled dir es) (hinum : inum < 2 ^ 32)
    (hname : name.length ≤ MAXNAMLEN) :
    let dir' := place dir (total es) ⟨inum, DIRBLKSIZ, name.length⟩ name
    Tiled dir' (es ++ [⟨inum, DIRBLKSIZ, name⟩]) ∧ dir'.iSize = dir.iSize + DIRBLKSIZ := by
  intro dir'
  have hsize := h.size
  have hwhole := h.whole
  simp only [MAXNAMLEN] at hname
  have hiSize : dir'.iSize = dir.iSize + DIRBLKSIZ := by
    show (place _ _ _ name).iSize = _
    rw [place_iSize]
    simp only [roundup, DIRBLKSIZ] at hwhole ⊢
    omega
  have hnew : entryAt dir'.bytes (total es) = ⟨inum, DIRBLKSIZ, name⟩ :=
    entryAt_place _ _ hinum (by simp [DIRBLKSIZ]) (by omega)
  have hbefore : Laid dir'.bytes 0 es :=
    h.laid.congr fun a _ ha => place_outside _ _ name (by omega)
  simp only [DIRBLKSIZ] at hwhole
  refine ⟨⟨laid_append.mpr ⟨hbefore, ?_, ⟨?_, ?_, ?_⟩, trivial⟩, ?_, ?_⟩, hiSize⟩
  · rw [Nat.zero_add, hnew]
  · simp only [Entry.dirsiz, DIRBLKSIZ]
    omega
  · simp [DIRBLKSIZ]
  · simp only [DIRBLKSIZ]
    omega
  · rw [hiSize, total_append, hsize, total_cons, total_nil, Nat.add_zero]
  · rw [hiSize]
    simp only [DIRBLKSIZ]
    omega

/-- The new entry is made, unless a block is needed for it and there is none. -/
theorem Tiled.enter {inum : Nat} (h : Tiled dir (before ++ [e])) (hpos : inum ≠ 0)
    (hinum : inum < 2 ^ 32) (hname : name.length ≤ MAXNAMLEN) (avail : Bool) :
    (enter dir (total before) (header e) inum name avail = none ∧ avail = false) ∨
      ∃ dir' es', Fsutil.enter dir (total before) (header e) inum name avail = some dir' ∧
        Tiled dir' es' ∧ dir.iSize ≤ dir'.iSize ∧
        pairs es' = pairs (before ++ [e]) ++ [(name, inum)] := by
  have hspare := spare_header e
  obtain ⟨-, -, hfits, -⟩ := laid_append.mp h.laid
  have hsize := hfits.size
  by_cases hroom : e.dirsiz + (8 + (name.length + 4) / 4 * 4) ≤ e.dReclen
  · have hkept : (header e).reclen - (header e).spare.toNat = e.dirsiz := by
      rw [hspare]
      simp only [header]
      omega
    have htoNat : (header e).spare.toNat = e.dReclen - e.dirsiz := by
      rw [hspare]
      omega
    obtain ⟨htiled, hiSize⟩ := h.split hinum hroom
    refine .inr ⟨_, _, ?_, htiled, hiSize.ge, ?_⟩
    · rw [Fsutil.enter, if_pos (by rw [hspare]; omega), hkept, htoNat]
      rfl
    · rw [pairs_append, pairs_append, pairs_resize]
      show _ ++ pairs ([e] ++ [_]) = _
      rw [pairs_append, pairs_singleton hpos, List.append_assoc]
  · have hneed : ¬ (8 + ((name.length : Int) + 4) / 4 * 4 ≤ (header e).spare) := by
      rw [hspare]
      omega
    cases avail with
    | false => exact .inl ⟨by simp [Fsutil.enter, hneed], rfl⟩
    | true =>
      obtain ⟨htiled, hiSize⟩ := h.extend hinum hname
      rw [total_append, total_cons, total_nil, Nat.add_zero] at htiled hiSize
      refine .inr ⟨_, _, ?_, htiled, by omega, ?_⟩
      · rw [Fsutil.enter, if_neg hneed, if_pos rfl]
        rfl
      · rw [pairs_append, pairs_singleton hpos]

/-! ## Runs -/

/-- A call with its outcome. -/
structure Call where
  name : Name
  op : Op
  junk : Dirent
  outcome : Outcome
deriving DecidableEq

/-- The inode that a call asks an entry for. -/
def Op.inum : Op → Option Nat
  | .create inum _ => inum
  | .link inum _ => some inum
  | .delete => none

/-- Could a block be allocated? -/
def Op.avail : Op → Bool
  | .create _ avail => avail
  | .link _ avail => avail
  | .delete => true

/-- What a call should do to the names in use and their inodes, in the order of the directory. -/
inductive Expected (imax : Nat) : List (Name × Nat) → Call → List (Name × Nat) → Prop where
  /-- A new name gets its inode. -/
  | made {ps name op junk inum} : name ∉ ps.map Prod.fst → op ≠ .delete → op.inum = some inum →
      Expected imax ps ⟨name, op, junk, .done⟩ (ps ++ [(name, inum)])
  /-- There is no inode or no block for a new name. -/
  | full {ps name op junk} : name ∉ ps.map Prod.fst → op ≠ .delete →
      op.inum = none ∨ op.avail = false → Expected imax ps ⟨name, op, junk, .failed⟩ ps
  /-- The name is in use. -/
  | present {ps name op junk inum} : ps.lookup name = some inum → op ≠ .delete →
      Expected imax ps ⟨name, op, junk, if inodeGet imax inum then .found else .failed⟩ ps
  /-- The name is removed. -/
  | removed {ps name junk inum} : ps.lookup name = some inum → inodeGet imax inum = true →
      Expected imax ps ⟨name, .delete, junk, .done⟩ (ps.eraseP fun pair => pair.1 = name)
  /-- The name is that of no inode. -/
  | dangling {ps name junk inum} : ps.lookup name = some inum → inodeGet imax inum = false →
      Expected imax ps ⟨name, .delete, junk, .failed⟩ ps
  /-- There is no such name. -/
  | missing {ps name junk} : name ∉ ps.map Prod.fst →
      Expected imax ps ⟨name, .delete, junk, .failed⟩ ps

instance (e : Entry) (name : Name) : Decidable (e.Is name) := inferInstanceAs (Decidable (_ ∧ _))

/-- The entry of the name that the search comes to does not stand first in its block. -/
def notFirst (imax : Nat) (dir : Directory) (name : Name) : Bool :=
  match dir.entries.find? fun e => e.Is name with
  | none => true
  | some e =>
    !inodeGet imax e.dIno ||
      total (dir.entries.takeWhile fun e => !decide (e.Is name)) % DIRBLKSIZ != 0

/-- A call with a name of a legal length and an inode number, that does not remove the first entry
of a block. -/
def Careful (imax : Nat) (dir : Directory) (call : Call) (dir' : Directory) : Prop :=
  call.name.length ≤ MAXNAMLEN ∧ (∀ inum, call.op.inum = some inum → inum ≠ 0 ∧ inum < 2 ^ 32) ∧
    (call.op = .delete → notFirst imax dir call.name = true) ∧
    inodeByName imax dir call.name call.op call.junk = (call.outcome, dir')

/-- The pairs around the entry that the search comes to. -/
theorem pairs_found {as : List Entry} (bs : List Entry) (has : ∀ a ∈ as, ¬ a.Is name) (he : e.Is name) :
    (pairs (as ++ e :: bs)).lookup name = some e.dIno ∧
      (pairs (as ++ e :: bs)).eraseP (fun pair => pair.1 = name) = pairs as ++ pairs bs := by
  have hnot := not_mem_pairs has
  have hpairs : pairs (as ++ e :: bs) = pairs as ++ (name, e.dIno) :: pairs bs := by
    rw [pairs_append, pairs_live he.1, he.2]
  have hskip (pair) (hpair : pair ∈ pairs as) : ¬ pair.1 = name :=
    fun heq => hnot (heq ▸ List.mem_map_of_mem hpair)
  rw [hpairs]
  constructor
  · have hnone : (pairs as).lookup name = none :=
      List.lookup_eq_none_iff.mpr fun pair hpair => by simpa using Ne.symm (hskip pair hpair)
    rw [List.lookup_append, hnone]
    simp
  · rw [List.eraseP_append_right _ (by simpa using hskip), List.eraseP_cons_of_pos (by simp)]

theorem notFirst_found {imax : Nat} {as bs : List Entry} (hes : dir.entries = as ++ e :: bs)
    (has : ∀ a ∈ as, ¬ a.Is name) (he : e.Is name) (hget : inodeGet imax e.dIno = true)
    (h : notFirst imax dir name = true) : total as % DIRBLKSIZ ≠ 0 := by
  have hfind : dir.entries.find? (fun e => decide (e.Is name)) = some e := by
    rw [hes, List.find?_append, List.find?_eq_none.mpr (by simpa using has)]
    simp [he]
  have htake : dir.entries.takeWhile (fun e => !decide (e.Is name)) = as := by
    rw [hes, List.takeWhile_append_of_pos (by simpa using has)]
    simp [he]
  simpa [notFirst, hfind, htake, hget] using h

theorem tail_ne_nil (h : Tiled dir es) (hpos : 0 < dir.iSize) :
    ∃ front last, es = front ++ [last] := by
  rcases List.eq_nil_or_concat' es with rfl | ⟨front, last, hes⟩
  · have hsize := h.size
    simp at hsize
    omega
  · exact ⟨front, last, hes⟩

theorem inodeByName_present {imax : Nat} {op : Op} {offset lastOffset : Nat} {dirent junk : Dirent}
    (hscan : scan dir name (dir.iSize + 1) 0 0 junk = some (.found offset lastOffset dirent))
    (hop : op ≠ .delete) : inodeByName imax dir name op junk =
      (if inodeGet imax dirent.inum then .found else .failed, dir) := by
  cases op with
  | create inum avail => simp only [inodeByName, hscan]
  | link inum avail => simp only [inodeByName, hscan]
  | delete => exact absurd rfl hop

/-- The name is new, and there is an inode for it. -/
theorem inodeByName_absent {imax : Nat} {op : Op} {lastOffset inum : Nat} {dirent junk : Dirent}
    (hscan : scan dir name (dir.iSize + 1) 0 0 junk = some (.absent lastOffset dirent))
    (hop : op.inum = some inum) : inodeByName imax dir name op junk =
      entered dir (enter dir lastOffset dirent inum name op.avail) := by
  cases op with
  | create inum' avail =>
    simp only [Op.inum] at hop
    subst hop
    simp only [inodeByName, hscan, Op.avail]
  | link inum' avail =>
    simp only [Op.inum, Option.some.injEq] at hop
    subst hop
    simp only [inodeByName, hscan, Op.avail]
  | delete => cases hop

/-- A call that comes to an entry of the name. -/
theorem Careful.found {imax : Nat} {call : Call} (hstep : Careful imax dir call dir')
    (h : Readable dir) {as bs : List Entry} (hes : dir.entries = as ++ e :: bs)
    (has : ∀ a ∈ as, ¬ a.Is call.name) (he : e.Is call.name)
    (hscan : scan dir call.name (dir.iSize + 1) 0 0 call.junk =
      some (.found (total as) (total as.dropLast) (header e))) :
    Readable dir' ∧ Expected imax (pairs dir.entries) call (pairs dir'.entries) := by
  obtain ⟨name, op, junk, outcome⟩ := call
  obtain ⟨-, -, hfirst, hcall⟩ := hstep
  simp only at has he hscan hfirst hcall
  obtain ⟨hlookup, herase⟩ := pairs_found bs has he
  rw [← hes] at hlookup herase
  by_cases hop : op = .delete
  · subst hop
    simp only [inodeByName, hscan] at hcall
    cases hget : inodeGet imax e.dIno with
    | false =>
      rw [if_neg (by simpa [header] using hget)] at hcall
      obtain ⟨rfl, rfl⟩ := Prod.mk.inj hcall
      exact ⟨h, .dangling hlookup hget⟩
    | true =>
      rw [if_pos (by simpa [header] using hget)] at hcall
      obtain ⟨rfl, rfl⟩ := Prod.mk.inj hcall
      have hblock := notFirst_found hes has he hget (hfirst rfl)
      -- the entry before it is in the same block
      obtain rfl | ⟨front, e', rfl⟩ := List.eq_nil_or_concat' as
      · simp at hblock
      have htiled := h.tiled
      have hsplit : dir.entries = front ++ [e', e] ++ bs := by simpa using hes
      rw [hsplit] at htiled
      obtain ⟨htiled', hiSize⟩ := htiled.remove hblock
      rw [List.dropLast_concat]
      refine ⟨htiled'.readable (by rw [hiSize]; exact h.pos), ?_⟩
      have hpairs : pairs (front ++ [e'.resize (e'.dReclen + e.dReclen)] ++ bs) =
          (pairs dir.entries).eraseP fun pair => pair.1 = name := by
        rw [herase, pairs_append, pairs_append, pairs_append, pairs_resize]
      rw [htiled'.blocks.2, hpairs]
      exact .removed hlookup hget
  · rw [inodeByName_present hscan hop] at hcall
    obtain ⟨rfl, rfl⟩ := Prod.mk.inj hcall
    exact ⟨h, .present hlookup hop⟩

/-- A call that comes to the end of the directory. -/
theorem Careful.absent {imax : Nat} {call : Call} (hstep : Careful imax dir call dir')
    (h : Readable dir) (hnone : ∀ a ∈ dir.entries, ¬ a.Is call.name)
    (hscan : scan dir call.name (dir.iSize + 1) 0 0 call.junk =
      some (.absent (total dir.entries.dropLast) (lastHeader call.junk dir.entries))) :
    Readable dir' ∧ Expected imax (pairs dir.entries) call (pairs dir'.entries) := by
  obtain ⟨name, op, junk, outcome⟩ := call
  obtain ⟨hname, hinum, -, hcall⟩ := hstep
  simp only at hnone hname hinum hscan hcall
  have hnew := not_mem_pairs hnone
  by_cases hop : op = .delete
  · subst hop
    simp only [inodeByName, hscan] at hcall
    obtain ⟨rfl, rfl⟩ := Prod.mk.inj hcall
    exact ⟨h, .missing hnew⟩
  cases hi : op.inum with
  | none =>
    cases op with
    | create inum avail =>
      simp only [Op.inum] at hi
      subst hi
      simp only [inodeByName, hscan] at hcall
      obtain ⟨rfl, rfl⟩ := Prod.mk.inj hcall
      exact ⟨h, .full hnew hop (.inl rfl)⟩
    | link inum avail => cases hi
    | delete => exact absurd rfl hop
  | some inum =>
    obtain ⟨hpos, hlt⟩ := hinum inum hi
    have htiled := h.tiled
    obtain ⟨front, last, hes⟩ := tail_ne_nil htiled h.pos
    rw [hes] at htiled hscan
    rw [List.dropLast_concat, lastHeader, List.getLast?_concat] at hscan
    rw [inodeByName_absent hscan hi] at hcall
    obtain ⟨hent, havail⟩ | ⟨dir₁, es', hent, htiled', hiSize, hpairs⟩ :=
      htiled.enter hpos hlt hname op.avail
    · simp only [Option.map_some, Option.getD_some, hent, entered] at hcall
      obtain ⟨rfl, rfl⟩ := Prod.mk.inj hcall
      exact ⟨h, .full hnew hop (.inr havail)⟩
    · simp only [Option.map_some, Option.getD_some, hent, entered] at hcall
      obtain ⟨rfl, rfl⟩ := Prod.mk.inj hcall
      have hold := h.pos
      refine ⟨htiled'.readable (by omega), ?_⟩
      rw [htiled'.blocks.2, hpairs, ← hes]
      exact .made hnew hop hi

/-- What a careful call does. -/
theorem Careful.spec {imax : Nat} {call : Call} (hstep : Careful imax dir call dir')
    (h : Readable dir) :
    Readable dir' ∧ Expected imax (pairs dir.entries) call (pairs dir'.entries) := by
  have htiled := h.tiled
  have hlength : dir.entries.length < dir.iSize + 1 := by
    have hlen := length_le_total htiled.laid.pos
    rw [htiled.size] at hlen
    omega
  obtain ⟨as, e, bs, hes, has, he, hscan⟩ | ⟨hnone, hscan⟩ :=
    scan_spec [] call.name call.junk htiled hlength
  · exact hstep.found h hes has he hscan
  · exact hstep.absent h hnone hscan

/-- In every run of careful calls the directory stays readable, and every call does to the names
what it should. -/
theorem readable_kept {imax : Nat} {calls : List Call} (h : Readable dir)
    (hrun : Steps (Careful imax) dir calls dir') :
    Readable dir' ∧ Steps (Expected imax) (pairs dir.entries) calls (pairs dir'.entries) := by
  induction hrun with
  | refl dir => exact ⟨h, .refl _⟩
  | cons hstep _ ih =>
    obtain ⟨hnext, hexpected⟩ := Careful.spec hstep h
    obtain ⟨hfinal, hrest⟩ := ih hnext
    exact ⟨hfinal, .cons hexpected hrest⟩

/-- An empty directory of one block, the root. -/
def rootDirectory : Directory where
  bytes := (place (place ⟨fun _ => 0, 0, 2⟩ 0 ⟨2, 12, 1⟩ [46]) 12 ⟨2, 1012, 2⟩ [46, 46]).bytes
  iSize := 1024
  iNlink := 2

theorem readable_rootDirectory : Readable rootDirectory := by
  refine ⟨rfl, by decide, fun b hb => ?_⟩
  obtain rfl : b = 0 := by
    simp only [rootDirectory, DIRBLKSIZ] at hb
    omega
  exact ⟨by decide, by decide, by decide⟩

/-- The directory after the calls of a list. -/
def afterCalls (imax : Nat) (dir : Directory) (calls : List Call) : Directory :=
  calls.foldl (fun dir call => (inodeByName imax dir call.name call.op call.junk).2) dir

/-- A file is created, gets a second name and loses the first one. -/
def renameCalls : List Call :=
  [⟨[120], .create (some 5) false, ⟨0, 0, 0⟩, .done⟩, ⟨[121], .link 5 false, ⟨0, 0, 0⟩, .done⟩,
    ⟨[120], .delete, ⟨0, 0, 0⟩, .done⟩]

theorem readable_kept_renamed :
    Readable (afterCalls 16 rootDirectory renameCalls) ∧
      pairs (afterCalls 16 rootDirectory renameCalls).entries = [([46], 2), ([46, 46], 2), ([121], 5)] ∧
      Steps (Expected 16) (pairs rootDirectory.entries) renameCalls
        (pairs (afterCalls 16 rootDirectory renameCalls).entries) := by
  have hrun : Steps (Careful 16) rootDirectory renameCalls (afterCalls 16 rootDirectory renameCalls) :=
    .cons ⟨by decide, by simp [Op.inum], nofun, Prod.ext (by decide +kernel) rfl⟩
      (.cons ⟨by decide, by simp [Op.inum], nofun, Prod.ext (by decide +kernel) rfl⟩
        (.cons ⟨by decide, by simp [Op.inum], fun _ => by decide +kernel,
          Prod.ext (by decide +kernel) rfl⟩ (.refl _)))
  obtain ⟨hreadable, hsteps⟩ := readable_kept readable_rootDirectory hrun
  exact ⟨hreadable, by decide +kernel, hsteps⟩

/-- A directory of two blocks, with a file in the second one. -/
def twoBlocks : Directory where
  bytes := (place rootDirectory 1024 ⟨5, 1024, 1⟩ [120]).bytes
  iSize := 2048
  iNlink := 2

/-- The only entry of the second block is removed, and the last one of the first block then reaches
over both. -/
theorem removal_crosses_block :
    Readable twoBlocks ∧
      (inodeByName 16 twoBlocks [120] .delete ⟨0, 0, 0⟩).1 = .done ∧
      entryAt (inodeByName 16 twoBlocks [120] .delete ⟨0, 0, 0⟩).2.bytes 12 =
        ⟨2, 2036, [46, 46]⟩ ∧
      ¬ Readable (inodeByName 16 twoBlocks [120] .delete ⟨0, 0, 0⟩).2 := by
  refine ⟨⟨rfl, by decide, fun b hb => ?_⟩, by decide +kernel, by decide +kernel, fun h => ?_⟩
  · obtain rfl | rfl : b = 0 ∨ b = 1 := by
      simp only [twoBlocks, DIRBLKSIZ] at hb
      omega
    all_goals exact ⟨by decide +kernel, by decide +kernel, by decide +kernel⟩
  · have hfull := (h.blocks 0 (by decide +kernel)).full
    revert hfull
    decide +kernel

end DiscoBsd.Fsutil
