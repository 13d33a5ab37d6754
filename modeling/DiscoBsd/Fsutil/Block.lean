import DiscoBsd.Alloc.FreeList

/-!
# The free-block list of `fsutil`

`fsutil` keeps the same list as the kernel, in a volume of its own: a table of up to `NICFREE`
block numbers in the superblock, the rest in the free blocks themselves, and block 0 at the
bottom of the last table. `Alloc.Chain` says what the kernel reads from it.

`fs_block_free` does not put the end mark back when the list has run empty, and `fs_block_alloc`
counts the mark as a block: `free_list_kept` shows that the list is kept exactly as long as no
block is asked for while there is none.
-/

namespace DiscoBsd.Fsutil

open Alloc (Fblk Chain stacked NICFREE length_le_fsize)

/-- Size of a block. -/
def BSDFS_BSIZE : Nat := 1024

/-- A volume: what of the superblock in memory the free list uses, and the blocks of the image,
each read as a table of free blocks. -/
structure Volume where
  isize : Nat
  fsize : Nat
  swapsz : Nat
  nfree : Nat
  free : Nat → Nat
  tfree : Nat
  image : Nat → Fblk

/-- The block of the image at `bnum * BSDFS_BSIZE`, a product of `unsigned int`. -/
def physical (bnum : Nat) : Nat := bnum * BSDFS_BSIZE % 2 ^ 32 / BSDFS_BSIZE

/-- `fs_read_block`; a read behind the end of the image fails. -/
def Volume.readBlock (fs : Volume) (bnum : Nat) : Option Fblk :=
  if bnum < fs.isize then none
  else if fs.fsize ≤ physical bnum then none
  else some (fs.image (physical bnum))

/-- `fs_write_block`, on a volume that is open for writing. -/
def Volume.writeBlock (fs : Volume) (bnum : Nat) (data : Fblk) : Option Volume :=
  if bnum < fs.isize then none
  else some { fs with image := Function.update fs.image (physical bnum) data }

/-- The table in the superblock, as the kernel reads it. -/
def Volume.table (fs : Volume) : Fblk := ⟨fs.nfree, fs.free⟩

/-- `bno` goes on top of the table. -/
def Volume.push (fs : Volume) (bno : Nat) : Volume :=
  { fs with
    free := Function.update fs.free fs.nfree bno
    nfree := fs.nfree + 1
    tfree := if bno ≠ 0 then (fs.tfree + 1) % 2 ^ 32 else fs.tfree }

/-- `fs_block_free`; `none` is a write error. -/
def Volume.blockFree (fs : Volume) (bno : Nat) : Option Volume :=
  if NICFREE ≤ fs.nfree then do
    let fs ← fs.writeBlock bno fs.table
    some ({ fs with nfree := 0 }.push bno)
  else some (fs.push bno)

/-- The top slot is taken off the table and counted. -/
def Volume.pop (fs : Volume) : Nat × Volume :=
  (fs.free (fs.nfree - 1),
    { fs with
      nfree := fs.nfree - 1
      tfree := (fs.tfree + 2 ^ 32 - 1) % 2 ^ 32
      free := Function.update fs.free (fs.nfree - 1) 0 })

/-- The table kept in a block becomes the table of the superblock. -/
def Volume.load (fs : Volume) (data : Fblk) : Volume :=
  { fs with
    nfree := (data.dfNfree % 2 ^ 32).toNat
    free := fun slot => if slot < NICFREE then data.dfFree slot else fs.free slot }

/-- The turns of `fs_block_alloc`; each takes one slot. -/
def Volume.allocLoop (fs : Volume) : Nat → Option Nat × Volume
  | 0 => (none, fs)
  | fuel + 1 =>
      if fs.nfree = 0 then (none, fs)
      else
        let (bno, fs) := fs.pop
        if fs.nfree = 0 then
          match fs.readBlock bno with
          | none => (none, fs)
          | some data => if bno = 0 then (fs.load data).allocLoop fuel else (some bno, fs.load data)
        else if bno = 0 then fs.allocLoop fuel
        else (some bno, fs)

/-- `fs_block_alloc`: the block, if there is one. -/
def Volume.blockAlloc (fs : Volume) : Option Nat × Volume := fs.allocLoop fs.nfree

/-- Blocks are freed one after the other. -/
def Volume.freeAll (fs : Volume) : List Nat → Option Volume
  | [] => some fs
  | bno :: rest => do
      let fs ← fs.blockFree bno
      fs.freeAll rest

/-- The list that `fs_create` builds, on a fresh superblock: the end mark, and then the blocks from
the last one down to the first behind the i-list and the swap area. -/
def create (isize fsize swapsz : Nat) (image : Nat → Fblk) : Option Volume := do
  let fs ← Volume.blockFree ⟨isize, fsize, swapsz, 0, fun _ => 0, 0, image⟩ 0
  fs.freeAll (List.range' (isize + swapsz) (fsize - (isize + swapsz))).reverse

/-! ## The list -/

/-- The table of the superblock and the tables behind it hold the free blocks, in the order in
which they are handed out. -/
structure Listed (fs : Volume) (blocks : List Nat) : Prop where
  chain : Chain fs.image fs.table blocks
  nodup : blocks.Nodup
  in_range : ∀ bno ∈ blocks, fs.isize ≤ bno ∧ bno < fs.fsize
  tfree : fs.tfree = blocks.length

/-- The volume has room for an i-list, and the offsets of its blocks fit in an `unsigned int`. -/
structure Volume.Small (fs : Volume) : Prop where
  isize : 0 < fs.isize
  fsize : fs.fsize ≤ 2 ^ 22

variable {fs fs' : Volume} {blocks : List Nat} {bno : Nat}

theorem physical_eq (h : bno < 2 ^ 22) : physical bno = bno := by
  simp only [physical, BSDFS_BSIZE]
  omega

/-- Only the slots in use matter. -/
theorem chain_of_agree {image : Nat → Fblk} {tbl tbl' : Fblk} (h : Chain image tbl blocks)
    (hnfree : tbl'.dfNfree = tbl.dfNfree)
    (hfree : ∀ slot : Nat, (slot : Int) < tbl.dfNfree → tbl'.dfFree slot = tbl.dfFree slot) :
    Chain image tbl' blocks := by
  cases h with
  | last _ nfree hn hlt hend =>
      have hslots : stacked tbl'.dfFree nfree = stacked tbl.dfFree nfree :=
        Alloc.stacked_congr fun slot _ hle => hfree slot (by omega)
      rw [← hslots]
      exact .last tbl' nfree (by omega) hlt (by rw [hfree 0 (by omega), hend])
  | link _ nfree hn hlt hlink hrest =>
      have hslots : stacked tbl'.dfFree nfree = stacked tbl.dfFree nfree :=
        Alloc.stacked_congr fun slot _ hle => hfree slot (by omega)
      have hzero : tbl'.dfFree 0 = tbl.dfFree 0 := hfree 0 (by omega)
      rw [← hslots, ← hzero]
      rw [← hzero] at hlink hrest
      exact .link tbl' nfree (by omega) hlt hlink hrest

theorem Listed.length_le (h : Listed fs blocks) : blocks.length ≤ fs.fsize :=
  length_le_fsize h.nodup fun bno hbno => (h.in_range bno hbno).2

theorem Listed.nfree_le (h : Listed fs blocks) : 0 < fs.nfree ∧ fs.nfree ≤ NICFREE := by
  obtain ⟨hpos, hle⟩ := h.chain.nfree_bounds
  simp only [Volume.table] at hpos hle
  omega

/-- The data area is the same. -/
def Volume.SameArea (fs fs' : Volume) : Prop :=
  fs'.isize = fs.isize ∧ fs'.fsize = fs.fsize ∧ fs'.swapsz = fs.swapsz

theorem Volume.Small.of_same (h : fs.Small) (hsame : fs.SameArea fs') : fs'.Small := by
  obtain ⟨hisize, hfsize, -⟩ := hsame
  exact ⟨hisize ▸ h.isize, hfsize ▸ h.fsize⟩

/-- `fs_block_free` pushes. -/
theorem Listed.blockFree (h : Listed fs blocks) (hsmall : fs.Small)
    (hrange : fs.isize ≤ bno ∧ bno < fs.fsize) (hnew : bno ∉ blocks) :
    ∃ fs', fs.blockFree bno = some fs' ∧ Listed fs' (bno :: blocks) ∧ fs.SameArea fs' ∧
      ∀ other, other ≠ bno → fs'.image other = fs.image other := by
  obtain ⟨hpos, hle⟩ := h.nfree_le
  have hisize := hsmall.isize
  have hfsize := hsmall.fsize
  have hne : bno ≠ 0 := by omega
  have hphysical := physical_eq (show bno < 2 ^ 22 by omega)
  have hnodup : (bno :: blocks).Nodup := List.nodup_cons.mpr ⟨hnew, h.nodup⟩
  have hall : ∀ other ∈ bno :: blocks, fs.isize ≤ other ∧ other < fs.fsize :=
    List.forall_mem_cons.mpr ⟨hrange, h.in_range⟩
  have htfree : (fs.tfree + 1) % 2 ^ 32 = (bno :: blocks).length := by
    have hlen := h.length_le
    rw [h.tfree, List.length_cons]
    omega
  unfold Volume.blockFree
  by_cases hfull : NICFREE ≤ fs.nfree
  · -- the full table moves into the block, which becomes slot 0 of the new one
    rw [if_pos hfull]
    unfold Volume.writeBlock
    rw [if_neg (by omega), hphysical]
    refine ⟨_, rfl, ⟨?_, hnodup, hall, ?_⟩, ⟨rfl, rfl, rfl⟩, fun other hother => ?_⟩
    · have hkept : Chain (Function.update fs.image bno fs.table) fs.table blocks := by
        refine h.chain.congr fun other hother => Function.update_of_ne ?_ _ _
        rintro rfl
        exact hnew hother
      have hslot : Function.update fs.free 0 bno 0 = bno := Function.update_self _ _ _
      have hlink : Chain (Function.update fs.image bno fs.table) ⟨((0 : Nat) : Int) + 1,
          Function.update fs.free 0 bno⟩ (stacked (Function.update fs.free 0 bno) 0 ++
            Function.update fs.free 0 bno 0 :: blocks) := by
        refine .link _ 0 rfl (by decide) (by simpa using hne) ?_
        show Chain _ (Function.update fs.image bno fs.table (Function.update fs.free 0 bno 0)) _
        rw [hslot, Function.update_self]
        exact hkept
      rw [hslot] at hlink
      exact hlink
    · show (if bno ≠ 0 then (fs.tfree + 1) % 2 ^ 32 else fs.tfree) = _
      rw [if_pos hne, htfree]
    · exact Function.update_of_ne hother _ _
  · rw [if_neg hfull]
    refine ⟨_, rfl, ⟨?_, hnodup, hall, ?_⟩, ⟨rfl, rfl, rfl⟩, fun _ _ => rfl⟩
    · obtain ⟨nfree, hnfree⟩ : ∃ n, fs.nfree = n + 1 := ⟨fs.nfree - 1, by omega⟩
      have hpush := h.chain.push (show fs.table.dfNfree = (nfree : Int) + 1 by
        simp only [Volume.table, hnfree]; push_cast; rfl) (by omega) bno
      refine chain_of_agree hpush ?_ fun slot _ => ?_
      · show ((fs.nfree + 1 : Nat) : Int) = (nfree : Int) + 1 + 1
        omega
      · show Function.update fs.free fs.nfree bno slot = Function.update fs.free (nfree + 1) bno slot
        rw [hnfree]
    · show (if bno ≠ 0 then (fs.tfree + 1) % 2 ^ 32 else fs.tfree) = _
      rw [if_pos hne, htfree]

/-- `fs_block_alloc` pops. -/
theorem Listed.blockAlloc (h : Listed fs (bno :: blocks)) (hsmall : fs.Small) :
    ∃ fs', fs.blockAlloc = (some bno, fs') ∧ Listed fs' blocks ∧ fs.SameArea fs' ∧
      fs'.image = fs.image := by
  obtain ⟨hpos, hle⟩ := h.nfree_le
  obtain ⟨nfree, hnfree⟩ : ∃ n, fs.nfree = n + 1 := ⟨fs.nfree - 1, by omega⟩
  obtain ⟨hlow, hhigh⟩ := h.in_range bno List.mem_cons_self
  have hisize := hsmall.isize
  have hfsize := hsmall.fsize
  have hne : bno ≠ 0 := by omega
  have hphysical := physical_eq (show bno < 2 ^ 22 by omega)
  have hnodup := (List.nodup_cons.mp h.nodup).2
  have hrange : ∀ other ∈ blocks, fs.isize ≤ other ∧ other < fs.fsize := fun other hother =>
    h.in_range other (List.mem_cons_of_mem _ hother)
  have htfree : (fs.tfree + 2 ^ 32 - 1) % 2 ^ 32 = blocks.length := by
    have hlen := h.length_le
    rw [List.length_cons] at hlen
    rw [h.tfree, List.length_cons]
    omega
  unfold Volume.blockAlloc
  rw [hnfree, Volume.allocLoop, if_neg (by omega)]
  simp only [Volume.pop, hnfree, Nat.add_sub_cancel]
  cases nfree with
  | zero =>
      -- the last slot is used up: its block holds the next table
      rcases h.chain.cases_one (by simp [Volume.table, hnfree]) with ⟨-, hnil⟩ | ⟨-, rest, hblocks, hrest⟩
      · cases hnil
      · injection hblocks with hbno hrest'
        subst hrest'
        have hslot : fs.free 0 = bno := hbno.symm
        have hrest' : Chain fs.image (fs.image bno) blocks := by
          rw [hbno]
          exact hrest
        obtain ⟨hpos', hle'⟩ := hrest'.nfree_bounds
        have hbound : (NICFREE : Int) < 2 ^ 32 := by decide
        rw [if_pos rfl, hslot]
        unfold Volume.readBlock
        simp only [hphysical, if_neg (show ¬ bno < fs.isize by omega),
          if_neg (show ¬ fs.fsize ≤ bno by omega), if_neg hne]
        refine ⟨_, rfl, ⟨?_, hnodup, hrange, htfree⟩, ⟨rfl, rfl, rfl⟩, rfl⟩
        refine chain_of_agree hrest' ?_ fun slot hslot => ?_
        · show (((fs.image bno).dfNfree % 2 ^ 32).toNat : Int) = (fs.image bno).dfNfree
          omega
        · show (if slot < NICFREE then (fs.image bno).dfFree slot else _) = _
          rw [if_pos (by omega)]
  | succ nfree =>
      obtain ⟨rest, hblocks, hrest⟩ := h.chain.pop (show fs.table.dfNfree = (nfree : Int) + 1 + 1 by
        simp only [Volume.table, hnfree]; push_cast; rfl)
      injection hblocks with hbno hrest'
      subst hrest'
      have hslot : fs.free (nfree + 1) = bno := hbno.symm
      rw [if_neg (by omega), hslot, if_neg hne]
      refine ⟨_, rfl, ⟨?_, hnodup, hrange, htfree⟩, ⟨rfl, rfl, rfl⟩, rfl⟩
      refine chain_of_agree hrest (by simp [Volume.table]) fun slot hslot' => ?_
      exact Function.update_of_ne (by simp only at hslot'; omega) _ _

/-- A table whose only slot is the end mark holds no block, and no other table does. -/
theorem Listed.nil_iff (h : Listed fs blocks) :
    blocks = [] ↔ fs.nfree = 1 ∧ fs.free 0 = 0 := by
  obtain ⟨hpos, hle⟩ := h.nfree_le
  constructor
  · rintro rfl
    have hone : fs.nfree = 1 := by
      by_contra hmore
      obtain ⟨rest, hnil, -⟩ := h.chain.pop
        (show fs.table.dfNfree = ((fs.nfree - 2 : Nat) : Int) + 1 + 1 by
          simp only [Volume.table]; omega)
      cases hnil
    rcases h.chain.cases_one (by simp [Volume.table, hone]) with ⟨hend, -⟩ | ⟨-, rest, hnil, -⟩
    · exact ⟨hone, hend⟩
    · cases hnil
  · rintro ⟨hone, hzero⟩
    rcases h.chain.cases_one (by simp [Volume.table, hone]) with ⟨-, hnil⟩ | ⟨hne, -⟩
    · exact hnil
    · exact absurd hzero hne

/-- On the empty list `fs_block_alloc` takes the end mark and counts it as a block. -/
theorem Listed.blockAlloc_nil (h : Listed fs []) (hsmall : fs.Small) :
    fs.blockAlloc.1 = none ∧ fs.blockAlloc.2.tfree = 2 ^ 32 - 1 ∧
      fs.SameArea fs.blockAlloc.2 := by
  obtain ⟨hone, hzero⟩ := h.nil_iff.mp rfl
  have hisize := hsmall.isize
  have htfree : fs.tfree = 0 := h.tfree
  unfold Volume.blockAlloc
  rw [hone, Volume.allocLoop, if_neg (by omega)]
  simp only [Volume.pop, hone, Nat.sub_self, if_true, hzero]
  unfold Volume.readBlock
  simp only [if_pos hisize]
  refine ⟨trivial, ?_, rfl, rfl, rfl⟩
  show (fs.tfree + 2 ^ 32 - 1) % 2 ^ 32 = 2 ^ 32 - 1
  omega

/-! ## The list of a new volume -/

/-- Freeing blocks that are not on the list puts them there. -/
theorem Listed.freeAll (h : Listed fs blocks) (hsmall : fs.Small) {more : List Nat}
    (hrange : ∀ bno ∈ more, fs.isize ≤ bno ∧ bno < fs.fsize) (hnodup : more.Nodup)
    (hnew : ∀ bno ∈ more, bno ∉ blocks) :
    ∃ fs', fs.freeAll more = some fs' ∧ Listed fs' (more.reverse ++ blocks) ∧ fs.SameArea fs' := by
  induction more generalizing fs blocks with
  | nil => exact ⟨fs, rfl, h, rfl, rfl, rfl⟩
  | cons bno more ih =>
      obtain ⟨hbno, hmore⟩ := List.forall_mem_cons.mp hrange
      obtain ⟨hfresh, hnodup'⟩ := List.nodup_cons.mp hnodup
      obtain ⟨fs1, hfree, hlisted, harea, -⟩ := h.blockFree hsmall hbno (hnew bno (by simp))
      obtain ⟨hisize, hfsize, hswapsz⟩ := harea
      obtain ⟨fs2, hrest, hlisted', harea'⟩ := ih hlisted
        (hsmall.of_same ⟨hisize, hfsize, hswapsz⟩) (by rw [hisize, hfsize]; exact hmore) hnodup' (by
          intro other hother hin
          rcases List.mem_cons.mp hin with rfl | hin
          · exact hfresh hother
          · exact hnew other (by simp [hother]) hin)
      refine ⟨fs2, ?_, ?_, harea'.1.trans hisize, harea'.2.1.trans hfsize, harea'.2.2.trans hswapsz⟩
      · rw [Volume.freeAll, hfree]
        exact hrest
      · simpa using hlisted'

/-- The list of a new volume holds all its data blocks. -/
theorem create_listed (isize fsize swapsz : Nat) (hisize : 0 < isize) (hfsize : fsize ≤ 2 ^ 22)
    (image : Nat → Fblk) :
    ∃ fs, create isize fsize swapsz image = some fs ∧
      Listed fs (List.range' (isize + swapsz) (fsize - (isize + swapsz))) ∧
      fs.isize = isize ∧ fs.fsize = fsize ∧ fs.swapsz = swapsz := by
  let fresh : Volume := ⟨isize, fsize, swapsz, 0, fun _ => 0, 0, image⟩
  have hmark : Listed (fresh.push 0) [] :=
    ⟨.last _ 0 rfl (by decide) (by simp [fresh, Volume.push, Volume.table]), List.nodup_nil, by simp,
      rfl⟩
  have hsmall : (fresh.push 0).Small := ⟨hisize, hfsize⟩
  have hrange : ∀ bno ∈ (List.range' (isize + swapsz) (fsize - (isize + swapsz))).reverse,
      (fresh.push 0).isize ≤ bno ∧ bno < (fresh.push 0).fsize := by
    intro bno hbno
    rw [List.mem_reverse, List.mem_range'_1] at hbno
    show isize ≤ bno ∧ bno < fsize
    omega
  obtain ⟨fs, hfree, hlisted, harea⟩ := hmark.freeAll hsmall hrange
    (List.nodup_reverse.mpr List.nodup_range') (by simp)
  refine ⟨fs, hfree, ?_, harea⟩
  simpa using hlisted

/-! ## Runs -/

/-- What happens to a volume: a block is asked for, an allocated one is returned, or its holder
stores something in it. -/
inductive Event where
  | alloc
  | free (bno : Nat)
  | store (bno : Nat) (data : Fblk)

/-- A volume and the blocks that are allocated. -/
structure State where
  vol : Volume
  used : List Nat

/-- One event; only allocated blocks are returned and stored into. -/
def State.step (st : State) : Event → Option State
  | .alloc => some ⟨st.vol.blockAlloc.2, st.vol.blockAlloc.1.toList ++ st.used⟩
  | .free bno =>
      if bno ∈ st.used then (st.vol.blockFree bno).map (⟨·, st.used.erase bno⟩) else none
  | .store bno data => if bno ∈ st.used then (st.vol.writeBlock bno data).map (⟨·, st.used⟩) else none

/-- The list is what it should be: its blocks are distinct, together with the allocated ones they
are the data blocks, and `nfree` and `tfree` are right. -/
def State.Sound (st : State) : Prop :=
  ∃ blocks : List Nat,
    (st.vol.nfree = 0 ∧ blocks = [] ∨ Chain st.vol.image st.vol.table blocks) ∧
    (blocks ++ st.used).Nodup ∧
    (∀ bno, bno ∈ blocks ++ st.used ↔
      st.vol.isize + st.vol.swapsz ≤ bno ∧ bno < st.vol.fsize) ∧
    st.vol.nfree ≤ NICFREE ∧ st.vol.tfree = blocks.length

/-- The list is sound all along, and every block that is handed out was not allocated. -/
def Kept (st : State) : List Event → Prop
  | [] => st.Sound
  | event :: events => st.Sound ∧
      (event = .alloc → ∀ bno, st.vol.blockAlloc.1 = some bno → bno ∉ st.used) ∧
      ∀ st', st.step event = some st' → Kept st' events

/-- There is nothing on the list but the end mark. -/
def Volume.exhausted (fs : Volume) : Prop := fs.nfree = 0 ∨ fs.nfree = 1 ∧ fs.free 0 = 0

/-- No block is asked for while there is none. -/
def Supplied (st : State) : List Event → Prop
  | [] => True
  | event :: events => (event = .alloc → ¬ st.vol.exhausted) ∧
      ∀ st', st.step event = some st' → Supplied st' events

/-- The free blocks and the allocated ones. -/
structure Balanced (st : State) (blocks : List Nat) : Prop where
  listed : Listed st.vol blocks
  small : st.vol.Small
  nodup : (blocks ++ st.used).Nodup
  all : ∀ bno, bno ∈ blocks ++ st.used ↔ st.vol.isize + st.vol.swapsz ≤ bno ∧ bno < st.vol.fsize

variable {st st' : State} {events : List Event}

theorem Balanced.sound (h : Balanced st blocks) : st.Sound :=
  ⟨blocks, Or.inr h.listed.chain, h.nodup, h.all, h.listed.nfree_le.2, h.listed.tfree⟩

theorem Balanced.exhausted_iff (h : Balanced st blocks) : st.vol.exhausted ↔ blocks = [] := by
  have hpos := h.listed.nfree_le.1
  rw [h.listed.nil_iff, Volume.exhausted]
  omega

/-- A block that is handed out was free. -/
theorem Balanced.alloc_fresh (h : Balanced st blocks) {bno : Nat}
    (halloc : st.vol.blockAlloc.1 = some bno) : bno ∉ st.used := by
  cases blocks with
  | nil =>
      rw [(h.listed.blockAlloc_nil h.small).1] at halloc
      cases halloc
  | cons top rest =>
      obtain ⟨fs', hpop, -⟩ := h.listed.blockAlloc h.small
      rw [hpop] at halloc
      cases halloc
      have hnodup := h.nodup
      rw [List.cons_append, List.nodup_cons, List.mem_append, not_or] at hnodup
      exact hnodup.1.2

theorem Balanced.alloc {top : Nat} (h : Balanced st (top :: blocks))
    (hstep : st.step .alloc = some st') : Balanced st' blocks := by
  obtain ⟨fs', hpop, hlisted, harea, -⟩ := h.listed.blockAlloc h.small
  obtain ⟨hisize, hfsize, hswapsz⟩ := harea
  simp only [State.step, hpop, Option.toList_some, List.singleton_append, Option.some.injEq]
    at hstep
  subst hstep
  have hperm : (blocks ++ top :: st.used).Perm (top :: blocks ++ st.used) := List.perm_middle
  refine ⟨hlisted, h.small.of_same ⟨hisize, hfsize, hswapsz⟩, hperm.nodup_iff.mpr h.nodup, ?_⟩
  intro bno
  show bno ∈ blocks ++ top :: st.used ↔ fs'.isize + fs'.swapsz ≤ bno ∧ bno < fs'.fsize
  rw [hperm.mem_iff, h.all, hisize, hfsize, hswapsz]

theorem Balanced.free {bno : Nat} (h : Balanced st blocks)
    (hstep : st.step (.free bno) = some st') : Balanced st' (bno :: blocks) := by
  simp only [State.step] at hstep
  split at hstep
  · next hused =>
    have hin := (h.all bno).mp (by simp [hused])
    have hnew : bno ∉ blocks := fun hin' =>
      (List.nodup_append.mp h.nodup).2.2 bno hin' bno hused rfl
    obtain ⟨fs', hfree, hlisted, harea, -⟩ := h.listed.blockFree h.small (by omega) hnew
    obtain ⟨hisize, hfsize, hswapsz⟩ := harea
    rw [hfree] at hstep
    simp only [Option.map_some, Option.some.injEq] at hstep
    subst hstep
    have hperm : (bno :: blocks ++ st.used.erase bno).Perm (blocks ++ st.used) := by
      have herase : st.used.Perm (bno :: st.used.erase bno) := List.perm_cons_erase hused
      exact (List.perm_middle.symm).trans (herase.symm.append_left blocks)
    refine ⟨hlisted, h.small.of_same ⟨hisize, hfsize, hswapsz⟩, hperm.nodup_iff.mpr h.nodup, ?_⟩
    intro other
    show other ∈ bno :: blocks ++ st.used.erase bno ↔
      fs'.isize + fs'.swapsz ≤ other ∧ other < fs'.fsize
    rw [hperm.mem_iff, h.all, hisize, hfsize, hswapsz]
  · cases hstep

theorem Balanced.store {bno : Nat} {data : Fblk} (h : Balanced st blocks)
    (hstep : st.step (.store bno data) = some st') : Balanced st' blocks := by
  simp only [State.step] at hstep
  split at hstep
  · next hused =>
    have hin := (h.all bno).mp (by simp [hused])
    have hfsize := h.small.fsize
    have hphysical := physical_eq (show bno < 2 ^ 22 by omega)
    unfold Volume.writeBlock at hstep
    rw [if_neg (by omega), hphysical] at hstep
    simp only [Option.map_some, Option.some.injEq] at hstep
    subst hstep
    have hchain : Chain (Function.update st.vol.image bno data) st.vol.table blocks := by
      refine h.listed.chain.congr fun other hother => Function.update_of_ne ?_ _ _
      rintro rfl
      exact (List.nodup_append.mp h.nodup).2.2 other hother other hused rfl
    exact ⟨⟨hchain, h.listed.nodup, h.listed.in_range, h.listed.tfree⟩,
      ⟨h.small.isize, h.small.fsize⟩, h.nodup, h.all⟩
  · cases hstep

/-- Asking for a block while there is none makes `tfree` wrong. -/
theorem Balanced.not_sound (h : Balanced st []) (hstep : st.step .alloc = some st') :
    ¬ st'.Sound := by
  obtain ⟨-, htfree, hisize, hfsize, -⟩ := h.listed.blockAlloc_nil h.small
  simp only [State.step, Option.some.injEq] at hstep
  subst hstep
  rintro ⟨blocks, -, hnodup, hall, -, hcount⟩
  simp only at hnodup hall hcount
  have hlen : blocks.length ≤ st.vol.blockAlloc.2.fsize :=
    length_le_fsize (List.nodup_append.mp hnodup).1 fun bno hbno =>
      ((hall bno).mp (by simp [hbno])).2
  have hsmall := h.small.fsize
  omega

/-- The list is kept exactly as long as no block is asked for while there is none. -/
theorem Balanced.kept_iff (h : Balanced st blocks) : Kept st events ↔ Supplied st events := by
  induction events generalizing st blocks with
  | nil => exact ⟨fun _ => trivial, fun _ => h.sound⟩
  | cons event events ih =>
      have hfresh : event = .alloc → ∀ bno, st.vol.blockAlloc.1 = some bno → bno ∉ st.used :=
        fun _ bno halloc => h.alloc_fresh halloc
      -- what remains is about the state after the event
      suffices hnext : (∀ st', st.step event = some st' → Kept st' events) ↔
          (event = .alloc → ¬ st.vol.exhausted) ∧
            ∀ st', st.step event = some st' → Supplied st' events by
        simp only [Kept, Supplied]
        rw [← hnext]
        exact ⟨fun hkept => hkept.2.2, fun hkept => ⟨h.sound, hfresh, hkept⟩⟩
      cases event with
      | alloc =>
          rw [h.exhausted_iff]
          cases blocks with
          | nil =>
              have hbad : ∀ events, ¬ Kept ⟨st.vol.blockAlloc.2, st.vol.blockAlloc.1.toList ++ st.used⟩
                  events := by
                intro events hkept
                refine h.not_sound rfl ?_
                cases events with
                | nil => exact hkept
                | cons _ _ => exact hkept.1
              exact ⟨fun hkept => absurd (hkept _ rfl) (hbad events), fun hsupplied => absurd rfl (hsupplied.1 rfl)⟩
          | cons top rest =>
              have hiff : ∀ st', st.step .alloc = some st' → (Kept st' events ↔ Supplied st' events) :=
                fun st' hstep => ih (h.alloc hstep)
              constructor
              · intro hkept
                exact ⟨by simp, fun st' hstep => (hiff st' hstep).mp (hkept st' hstep)⟩
              · intro hsupplied st' hstep
                exact (hiff st' hstep).mpr (hsupplied.2 st' hstep)
      | free bno =>
          constructor
          · intro hkept
            exact ⟨by simp, fun st' hstep => (ih (h.free hstep)).mp (hkept st' hstep)⟩
          · intro hsupplied st' hstep
            exact (ih (h.free hstep)).mpr (hsupplied.2 st' hstep)
      | store bno data =>
          constructor
          · intro hkept
            exact ⟨by simp, fun st' hstep => (ih (h.store hstep)).mp (hkept st' hstep)⟩
          · intro hsupplied st' hstep
            exact (ih (h.store hstep)).mpr (hsupplied.2 st' hstep)

/-- From the list that `fs_create` builds, on a volume of at most four gigabytes: the list is kept
through a run exactly when no block is asked for in it while there is none. -/
theorem free_list_kept (isize fsize swapsz : Nat) (image : Nat → Fblk) (hisize : 0 < isize)
    (hfsize : fsize ≤ 2 ^ 22) (events : List Event) :
    ∃ fs, create isize fsize swapsz image = some fs ∧
      (Kept ⟨fs, []⟩ events ↔ Supplied ⟨fs, []⟩ events) := by
  obtain ⟨fs, hcreate, hlisted, his, hfs, hsw⟩ :=
    create_listed isize fsize swapsz hisize hfsize image
  have hsmall : fs.Small := ⟨by omega, by omega⟩
  refine ⟨fs, hcreate, Balanced.kept_iff ⟨hlisted, hsmall, ?_, ?_⟩⟩
  · rw [List.append_nil]
    exact hlisted.nodup
  · intro bno
    rw [List.append_nil, List.mem_range'_1, his, hfs, hsw]
    omega

theorem free_list_kept_small : 0 < 2 ∧ 5 ≤ 2 ^ 22 ∧
    ∃ fs, create 2 5 0 (fun _ => ⟨0, fun _ => 0⟩) = some fs ∧
      (Kept ⟨fs, []⟩ [.alloc, .free 2, .alloc] ↔ Supplied ⟨fs, []⟩ [.alloc, .free 2, .alloc]) :=
  ⟨by decide, by decide, free_list_kept 2 5 0 (fun _ => ⟨0, fun _ => 0⟩) (by decide) (by decide)
    [.alloc, .free 2, .alloc]⟩

/-- A volume with blocks 2, 3 and 4: all are taken, a fourth one is asked for, and block 2 comes
back with contents that read as a table with block 3 in it. Block 3 is then handed out although it
is allocated. -/
theorem free_list_not_kept : ¬ ∀ events fs, create 2 5 0 (fun _ => ⟨0, fun _ => 0⟩) = some fs →
    Kept ⟨fs, []⟩ events := by
  intro h
  have hkept := h [.alloc, .alloc, .alloc, .alloc, .store 2 ⟨1, fun _ => 3⟩, .free 2, .alloc, .alloc]
    _ rfl
  obtain ⟨-, -, hkept⟩ := hkept
  obtain ⟨-, -, hkept⟩ := hkept _ rfl
  obtain ⟨-, -, hkept⟩ := hkept _ rfl
  obtain ⟨-, -, hkept⟩ := hkept _ rfl
  obtain ⟨-, -, hkept⟩ := hkept _ rfl
  obtain ⟨-, -, hkept⟩ := hkept _ rfl
  obtain ⟨-, -, hkept⟩ := hkept _ rfl
  exact (hkept _ rfl).2.1 rfl 3 rfl (by decide)

end DiscoBsd.Fsutil
