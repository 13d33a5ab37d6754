import DiscoBsd.Alloc.Blocks
import DiscoBsd.Alloc.Ialloc
import DiscoBsd.Lib.Bytes

/-!
# A mounted superblock

`mountfs` takes a superblock whose two magic words are right as it stands on the disk, counts
included. `balloc` and `free` look at `fs_nfree` before they use it as an index, whatever it is, and so
they do with a table that `balloc` loads; `ialloc` and `ifree` compare `fs_ninode` with one of its two
limits only. `mounted_safe_iff` says which superblocks can be used safely.

`getfs`, which would reset counts that are too large, is called when the system is shut down.
-/

namespace DiscoBsd.Alloc

open Lib

def FSMAGIC1 : Nat := 0x3C3C5346

def FSMAGIC2 : Nat := 0x53463E3E

/-- A word as an `int`. -/
def signed (word : Nat) : Int := if word < 2 ^ 31 then word else (word : Int) - 2 ^ 32

/-- What is mounted: block allocation and inode allocation work on the same superblock. The indices
at which `fs_free` was read or written are listed in `accessed`; those of `fs_inode` are in the
`Ilist`. -/
structure Mounted where
  vol : Vol
  accessed : List Int
  machine : Machine

/-- The free list of the superblock in a block: the words at the offsets of `fs_isize`, `fs_fsize`,
`fs_nfree`, `fs_free` and `fs_tfree`. -/
def fsOf (sb : Bytes) : Fs where
  fsIsize := get32 sb 4
  fsFsize := get32 sb 8
  fblk := ⟨signed (get32 sb 16), fun slot => get32 sb (20 + 4 * slot)⟩
  fsFlock := 0
  fsFmod := 1
  fsTime := get32 sb 968
  fsTfree := get32 sb 972

/-- `fs_ninode` of the superblock in a block. -/
def fsNinodeOf (sb : Bytes) : Int := signed (get32 sb 820)

/-- The table of inodes of the superblock in a block, as `mountfs` completes it. -/
def ilistOf (sb : Bytes) : Ilist where
  fsIsize := get32 sb 4
  fsNinode := fsNinodeOf sb
  fsInode := fun index => get32 sb (824 + 4 * index.toNat)
  fsIlock := 0
  fsLasti := 1
  fsNbehind := 0
  fsTinode := get32 sb 976
  fsFmod := 1
  accessed := []

/-- `mountfs` on a device with the given blocks, of which `sb` is block `SUPERB`, for writing; `none` is
`EINVAL`. There are `nproc` processes, none of them in `ialloc`. -/
def mountfs (sb : Bytes) (block : Nat → Fblk) (nproc : Nat) : Option Mounted :=
  if get32 sb 0 = FSMAGIC1 ∧ get32 sb 1020 = FSMAGIC2 then
    some ⟨⟨fsOf sb, fsOf sb, block⟩, [], ⟨ilistOf sb, List.replicate nproc .idle⟩⟩
  else none

/-! ## The indices of the free list -/

/-- The indices at which the loop of `balloc` reads. -/
def takeReads (fs : Fs) : Nat → List Int
  | 0 => []
  | nfree + 1 =>
      (nfree : Int) ::
        if fs.fblk.dfFree nfree = 0 then []
        else if badblock fs (fs.fblk.dfFree nfree) then takeReads fs nfree
        else []

/-- The indices at which `balloc` reads `fs_free`. -/
def ballocReads (vol : Vol) : List Int :=
  if vol.fs.fblk.dfNfree ≤ 0 then []
  else if NICFREE < vol.fs.fblk.dfNfree then []
  else takeReads vol.fs vol.fs.fblk.dfNfree.toNat

/-- The indices at which `free` writes `fs_free`. -/
def freeWrites (bno : Nat) (vol : Vol) : List Int :=
  if badblock vol.fs bno then []
  else
    let tbl := startTable vol.fs.fblk
    (if vol.fs.fblk.dfNfree ≤ 0 then [0] else []) ++
      [if (NICFREE : Int) ≤ tbl.dfNfree then 0 else tbl.dfNfree]

/-! ## What happens to a mounted file system -/

/-- A block is asked for or returned, somebody stores something in a block, or a process takes a step
of `ialloc` or `ifree`. -/
inductive Use where
  | balloc (clrbuf : Bool) (time : Nat)
  | free (bno : Nat)
  | store (bno : Nat) (contents : Fblk)
  | inode (pid : Nat) (action : Action)

/-- One event; no process starts to scan the i-list while another one scans it. -/
def Mounted.step (m : Mounted) : Use → Option Mounted
  | .balloc clrbuf time =>
      some { m with
        vol := (Alloc.balloc clrbuf time m.vol).vol
        accessed := ballocReads m.vol ++ m.accessed }
  | .free bno =>
      some { m with
        vol := Alloc.free bno m.vol
        accessed := freeWrites bno m.vol ++ m.accessed }
  | .store bno contents =>
      some { m with vol := { m.vol with block := Function.update m.vol.block bno contents } }
  | .inode pid action =>
      (m.machine.aloneStep (pid, action)).map fun machine => { m with machine := machine }

/-- Every index used so far is inside of its array. -/
def Mounted.Safe (m : Mounted) : Prop :=
  (∀ index ∈ m.accessed, 0 ≤ index ∧ index < NICFREE) ∧
    ∀ index ∈ m.machine.fs.accessed, 0 ≤ index ∧ index < NICINOD

/-! ## Indices in range -/

theorem takeReads_bounds (fs : Fs) {nfree : Nat} (h : nfree ≤ NICFREE) :
    ∀ index ∈ takeReads fs nfree, 0 ≤ index ∧ index < NICFREE := by
  induction nfree with
  | zero => simp [takeReads]
  | succ nfree ih =>
      rw [takeReads]
      refine List.forall_mem_cons.mpr ⟨by omega, ?_⟩
      split_ifs
      · simp
      · exact ih (by omega)
      · simp

theorem ballocReads_bounds (vol : Vol) :
    ∀ index ∈ ballocReads vol, 0 ≤ index ∧ index < NICFREE := by
  unfold ballocReads
  split_ifs with hempty hmany
  · simp
  · simp
  · exact takeReads_bounds vol.fs (by omega)

/-- So does `free`. -/
theorem freeWrites_bounds (bno : Nat) (vol : Vol) :
    ∀ index ∈ freeWrites bno vol, 0 ≤ index ∧ index < NICFREE := by
  have hsize : (0 : Int) < NICFREE := by decide
  have hpos : 0 ≤ (startTable vol.fs.fblk).dfNfree := by
    unfold startTable
    split
    · exact Int.one_nonneg
    · omega
  unfold freeWrites
  split_ifs with hbad hempty
  · simp
  all_goals
    intro index hindex
    simp only [List.cons_append, List.nil_append, List.mem_cons, List.not_mem_nil, or_false] at hindex
    omega

/-! ## Runs -/

/-- The free list is safe to use, and so is a table of inodes in bounds. -/
structure Mounted.Good (m : Mounted) : Prop where
  accessed : ∀ index ∈ m.accessed, 0 ≤ index ∧ index < NICFREE
  oneScan : OneScan m.machine

theorem Mounted.Good.step {m m' : Mounted} {use : Use} (h : m.Good) (hstep : m.step use = some m') :
    m'.Good := by
  obtain ⟨haccessed, hscan⟩ := h
  cases use with
  | balloc clrbuf time =>
      cases hstep
      refine ⟨fun index hindex => ?_, hscan⟩
      rcases List.mem_append.mp hindex with hnew | hold
      · exact ballocReads_bounds m.vol index hnew
      · exact haccessed index hold
  | free bno =>
      cases hstep
      refine ⟨fun index hindex => ?_, hscan⟩
      rcases List.mem_append.mp hindex with hnew | hold
      · exact freeWrites_bounds bno m.vol index hnew
      · exact haccessed index hold
  | store bno contents =>
      cases hstep
      exact ⟨haccessed, hscan⟩
  | inode pid action =>
      obtain ⟨machine, hmachine, rfl⟩ := Option.map_eq_some_iff.mp hstep
      refine ⟨haccessed, ?_⟩
      unfold Machine.aloneStep at hmachine
      split at hmachine
      · next halone => exact step_one_scan hscan hmachine halone
      · cases hmachine

/-- The step of the only process. -/
theorem step_single (vol : Vol) (accessed : List Int) {fs fs' : Ilist} {control control' : Control}
    {action : Action} (hlock : fs.fsIlock = 0) (hnext : next fs control action = some (fs', control')) :
    Steps.Of Mounted.step ⟨vol, accessed, ⟨fs, [control]⟩⟩ (.inode 0 action)
      ⟨vol, accessed, ⟨fs', [control']⟩⟩ := by
  have halone : Machine.aloneStep ⟨fs, [control]⟩ (0, action) = some ⟨fs', [control']⟩ := by
    unfold Machine.aloneStep
    rw [if_pos fun _ => hlock]
    simp [Machine.step, hnext]
  unfold Steps.Of Mounted.step
  simp only [halone, Option.map_some]

theorem next_pop {fs : Ilist} (hpos : 0 < fs.fsNinode) :
    ∃ control, next fs .looping .run = some (fs.pop.2, control) := by
  simp only [next, if_pos hpos]
  exact ⟨_, rfl⟩

/-- A superblock that `mountfs` takes is safe in every run of any number of processes, in which no
process starts to scan the i-list while another one scans it, exactly if its `fs_ninode` is in
bounds. -/
theorem mounted_safe_iff (sb : Bytes)
    (hmagic : get32 sb 0 = FSMAGIC1 ∧ get32 sb 1020 = FSMAGIC2) :
    (∀ block nproc m uses m', mountfs sb block nproc = some m →
      Steps (Steps.Of Mounted.step) m uses m' → m'.Safe) ↔
    0 ≤ fsNinodeOf sb ∧ fsNinodeOf sb ≤ NICINOD := by
  constructor
  · intro hsafe
    -- one process and one call are enough to leave the table
    have hfirst (uses : List Use) (m' : Mounted) := hsafe (fun _ => ⟨0, fun _ => 0⟩) 1 _ uses m'
      (if_pos hmagic)
    constructor
    · by_contra hnegative
      have hrun := hfirst [.inode 0 (.ifree 3)] _
        (.cons (step_single _ _ rfl rfl) (.refl _))
      have hpushed : fsNinodeOf sb ∈
          (ifree 3 (ilistOf sb)).accessed := by
        have hroom : ¬ (NICINOD : Int) ≤ (ilistOf sb).fsNinode := by
          have hsize : (0 : Int) ≤ NICINOD := by decide
          show ¬ (NICINOD : Int) ≤ fsNinodeOf sb
          omega
        simp only [ifree]
        rw [if_neg (by simp [ilistOf]), if_neg hroom]
        exact List.mem_cons_self
      exact hnegative (hrun.2 _ hpushed).1
    · by_contra hmany
      have hpos : 0 < fsNinodeOf sb := by
        have hsize : (0 : Int) ≤ NICINOD := by decide
        omega
      obtain ⟨control, hpop⟩ := next_pop (show 0 < (ilistOf sb).fsNinode from hpos)
      have hrun := hfirst [.inode 0 .ialloc, .inode 0 .run, .inode 0 .run] _
        (.cons (step_single _ _ rfl rfl) (.cons (step_single _ _ rfl rfl)
          (.cons (step_single _ _ rfl hpop) (.refl _))))
      have hindex : fsNinodeOf sb - 1 < NICINOD := (hrun.2 _ List.mem_cons_self).2
      omega
  · rintro ⟨hlow, hhigh⟩ block nproc m uses m' hmount hrun
    rw [mountfs, if_pos hmagic] at hmount
    cases hmount
    have hinit : Initial ⟨ilistOf sb, List.replicate nproc .idle⟩ :=
      ⟨fun control hcontrol => List.eq_of_mem_replicate hcontrol, rfl, ⟨hlow, hhigh⟩, rfl⟩
    have hgood : m'.Good :=
      hrun.invariant Mounted.Good (fun _ _ _ h hstep => h.step hstep) ⟨by simp, hinit.one_scan⟩
    exact ⟨hgood.accessed, hgood.oneScan.bounded.2.2⟩

/-! ## Two superblocks -/

/-- A superblock with the magic words, blocks 2 to 9, and the given count of inodes. -/
def superblock (ninode : Nat) : Bytes :=
  put32 (put32 (put32 (put32 (put32 (fun _ => 0) 0 FSMAGIC1) 4 2) 8 10) 820 ninode) 1020 FSMAGIC2

/-- `mountfs` takes a superblock that counts 1000 inodes, and the first `ialloc` reads `fs_inode[999]`. -/
theorem mounted_unsafe :
    ∃ m, mountfs (superblock 1000) (fun _ => ⟨0, fun _ => 0⟩) 1 = some m ∧
      ∃ m', Steps (Steps.Of Mounted.step) m [.inode 0 .ialloc, .inode 0 .run, .inode 0 .run] m' ∧
        999 ∈ m'.machine.fs.accessed ∧ ¬ m'.Safe := by
  have hpos : 0 < (ilistOf (superblock 1000)).fsNinode := by decide
  obtain ⟨control, hpop⟩ := next_pop hpos
  have hindex : (999 : Int) ∈ (ilistOf (superblock 1000)).pop.2.accessed := by decide
  refine ⟨_, if_pos (by decide), _, .cons (step_single _ _ rfl rfl) (.cons (step_single _ _ rfl rfl)
    (.cons (step_single _ _ rfl hpop) (.refl _))), hindex, fun hsafe => ?_⟩
  exact absurd (hsafe.2 999 hindex).2 (by decide)

/-- An empty table of inodes is safe. -/
theorem mounted_safe_empty :
    (get32 (superblock 0) 0 = FSMAGIC1 ∧ get32 (superblock 0) 1020 = FSMAGIC2) ∧
      ∀ block nproc m uses m', mountfs (superblock 0) block nproc = some m →
        Steps (Steps.Of Mounted.step) m uses m' → m'.Safe :=
  ⟨by decide, (mounted_safe_iff (superblock 0) (by decide)).mpr (by decide)⟩

end DiscoBsd.Alloc
