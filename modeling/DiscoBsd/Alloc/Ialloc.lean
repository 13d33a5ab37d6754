import Mathlib.Algebra.Group.Nat.Defs
import Mathlib.Data.Int.Order.Basic
import Mathlib.Logic.Function.Basic
import DiscoBsd.Lib.Steps

/-!
# Inode allocation under interleaving

`ialloc` pops inode numbers off the table `fs_inode` and refills it by a scan of the i-list
when it is empty; `ifree` pushes. A process loses the processor only where it sleeps: on
`fs_ilock` at the head of `ialloc`, in `iget`, in `iput` and in `bread`. The machine below
has one program point for each such place and for each label in between; a process that is
not asleep runs on until it is. `next` is one step of one process.

The refill scan is meant to run alone, under `fs_ilock`, but a process that comes back to
`loop` from `iput` does not look at `fs_ilock` again. `ialloc_second_scan` shows two scans
running the table over; `ialloc_run_bounded` shows that all is well as long as no scan
starts while another one runs.
-/

namespace DiscoBsd.Alloc

open Lib

/-- Number of inode numbers the superblock remembers. -/
def NICINOD : Nat := 32

/-- Inodes in a block of the i-list. -/
def INOPB : Nat := 16

/-- Inode number of the root of a file system. -/
def ROOTINO : Nat := 2

/-- `itod`: the block of the i-list that holds an inode. -/
def itod (ino : Nat) : Nat := (ino + INOPB - 1) / INOPB

/-- The part of the superblock that inode allocation uses. `accessed` lists the indices at which
`fs_inode` was read or written so far. -/
structure Ilist where
  fsIsize : Nat
  fsNinode : Int
  fsInode : Int → Nat
  fsIlock : Nat
  fsLasti : Nat
  fsNbehind : Nat
  fsTinode : Nat
  fsFmod : Nat
  accessed : List Int

/-- `ino = fs_inode[--fs_ninode]`. -/
def Ilist.pop (fs : Ilist) : Nat × Ilist :=
  (fs.fsInode (fs.fsNinode - 1),
    { fs with fsNinode := fs.fsNinode - 1, accessed := (fs.fsNinode - 1) :: fs.accessed })

/-- `fs_inode[fs_ninode++] = ino`. -/
def Ilist.push (fs : Ilist) (ino : Nat) : Ilist :=
  { fs with
    fsNinode := fs.fsNinode + 1
    fsInode := Function.update fs.fsInode fs.fsNinode ino
    accessed := fs.fsNinode :: fs.accessed }

/-- Where a process is. `idle` is outside `ialloc`; `waiting`, `getting`, `putting` and `reading`
are the sleeps on `fs_ilock`, in `iget`, `iput` and `bread`; `looping` and `fromTop` are the
labels `loop` and `fromtop`; `searching` is the head of the scan loop and `scanned` the point
behind it. -/
inductive Control where
  | idle
  | waiting
  | looping
  | getting (ino : Nat)
  | putting
  | fromTop
  | searching (first : Bool) (ino adr inobas : Nat)
  | reading (first : Bool) (ino adr : Nat)
  | scanned (first : Bool) (inobas : Nat)
  deriving DecidableEq, Repr

/-- The points at which other processes may run. -/
def Control.asleep : Control → Bool
  | .idle | .waiting | .getting _ | .putting | .reading _ _ _ => true
  | .looping | .fromTop | .searching _ _ _ _ | .scanned _ _ => false

/-- The points between `fs_ilock++` and `fs_ilock = 0`. -/
def Control.scanning : Control → Bool
  | .fromTop | .searching _ _ _ _ | .reading _ _ _ | .scanned _ _ => true
  | .idle | .waiting | .looping | .getting _ | .putting => false

/-- What `iget` found: no room in core, an unused inode, or one that is in use after all. -/
inductive Iget where
  | null
  | unused
  | inUse
  deriving DecidableEq, Repr

/-- One action of a process: calls and returns of the functions around `ialloc`, or just the next
stretch of code. `bread` returns an error, or a block of which the dinodes in the given
positions are unused and not in core. -/
inductive Action where
  | ialloc
  | ifree (ino : Nat)
  | run
  | igetReturns (result : Iget)
  | iputReturns
  | breadFails
  | breadReturns (usable : List Nat)
  deriving DecidableEq, Repr

/-- The loop over the dinodes of one block, with the inode number reached. -/
def scanBlock (usable : List Nat) : List Nat → Nat → Ilist → Nat × Ilist
  | [], ino, fs => (ino, fs)
  | i :: rest, ino, fs =>
      if i ∈ usable then
        let fs := fs.push ino
        if (NICINOD : Int) ≤ fs.fsNinode then (ino, fs)
        else scanBlock usable rest ((ino + 1) % 2 ^ 32) fs
      else scanBlock usable rest ((ino + 1) % 2 ^ 32) fs

/-- `ifree`, which does not sleep. -/
def ifree (ino : Nat) (fs : Ilist) : Ilist :=
  let fs := { fs with fsTinode := (fs.fsTinode + 1) % 2 ^ 32 }
  if fs.fsIlock ≠ 0 then fs
  else if (NICINOD : Int) ≤ fs.fsNinode then
    if ino < fs.fsLasti then { fs with fsNbehind := (fs.fsNbehind + 1) % 2 ^ 32 } else fs
  else { fs.push ino with fsFmod := 1 }

/-- One step of a process at the given point; `none` where the action does not belong there, or
the process is kept waiting. -/
def next (fs : Ilist) : Control → Action → Option (Ilist × Control)
  | .idle, .ialloc => some (fs, .waiting)
  | .idle, .ifree ino => some (ifree ino fs, .idle)
  | .waiting, .run => if fs.fsIlock = 0 then some (fs, .looping) else none
  | .looping, .run =>
      if 0 < fs.fsNinode then
        let (ino, fs) := fs.pop
        some (fs, if ino ≤ ROOTINO then .looping else .getting ino)
      else
        let fs := { fs with fsIlock := fs.fsIlock + 1 }
        some (fs, if fs.fsNbehind < 4 * NICINOD then
          .searching true fs.fsLasti (itod fs.fsLasti) 0 else .fromTop)
  | .getting _, .igetReturns .null => some (fs, .idle)
  | .getting _, .igetReturns .unused =>
      some ({ fs with fsFmod := 1, fsTinode := (fs.fsTinode + 2 ^ 32 - 1) % 2 ^ 32 }, .idle)
  | .getting _, .igetReturns .inUse => some (fs, .putting)
  -- the last `iput` of an inode without links frees it
  | .putting, .ifree ino => some (ifree ino fs, .putting)
  | .putting, .iputReturns => some (fs, .looping)
  | .fromTop, .run => some ({ fs with fsNbehind := 0 }, .searching false 1 1 0)
  | .searching first ino adr inobas, .run =>
      some (fs, if adr < fs.fsIsize then .reading first ino adr else .scanned first inobas)
  | .reading first ino adr, .breadFails =>
      some (fs, .searching first ((ino + INOPB) % 2 ^ 32) (adr + 1) ino)
  | .reading first ino adr, .breadReturns usable =>
      let (ino', fs) := scanBlock usable (List.range INOPB) ino fs
      some (fs, if (NICINOD : Int) ≤ fs.fsNinode then .scanned first ino
        else .searching first ino' (adr + 1) ino)
  | .scanned first inobas, .run =>
      if fs.fsNinode < NICINOD ∧ first then some (fs, .fromTop)
      else
        let fs := { fs with fsLasti := inobas, fsIlock := 0 }
        -- no inode free: `ENOSPC`
        some (fs, if 0 < fs.fsNinode then .looping else .idle)
  | _, _ => none

/-- The superblock and the processes. -/
structure Machine where
  fs : Ilist
  procs : List Control

/-- One step of process number `pid`. A process that is not asleep has the processor. -/
def Machine.step (m : Machine) : Nat × Action → Option Machine
  | (pid, action) => do
      let control ← m.procs[pid]?
      if (m.procs.eraseIdx pid).all Control.asleep then
        let (fs, control) ← next m.fs control action
        pure ⟨fs, m.procs.set pid control⟩
      else none

/-- Any number of processes outside `ialloc`, nobody holding `fs_ilock`, and a table in bounds. -/
structure Initial (m : Machine) : Prop where
  idle : ∀ control ∈ m.procs, control = .idle
  unlocked : m.fs.fsIlock = 0
  ninode : 0 ≤ m.fs.fsNinode ∧ m.fs.fsNinode ≤ NICINOD
  accessed : m.fs.accessed = []

/-- The step starts a scan: the table is empty at `loop`. -/
def Machine.refills (m : Machine) (label : Nat × Action) : Prop :=
  m.procs[label.1]? = some .looping ∧ m.fs.fsNinode ≤ 0

instance (m : Machine) (label : Nat × Action) : Decidable (m.refills label) :=
  inferInstanceAs (Decidable (_ ∧ _))

/-- A step that starts no scan while `fs_ilock` is held. -/
def Machine.aloneStep (m : Machine) (label : Nat × Action) : Option Machine :=
  if m.refills label → m.fs.fsIlock = 0 then m.step label else none

/-- The number of entries is in bounds, and so was every access to the table. -/
def Ilist.Bounded (fs : Ilist) : Prop :=
  0 ≤ fs.fsNinode ∧ fs.fsNinode ≤ NICINOD ∧
    ∀ index ∈ fs.accessed, 0 ≤ index ∧ index < NICINOD

/-- Three processes; the table holds one inode number, of an inode that is in use. -/
def threeProcs : Machine where
  fs := ⟨10, 1, fun _ => 5, 0, 1, 0, 0, 0, []⟩
  procs := [.idle, .idle, .idle]

/-- Process 1 pops the only number and sleeps in `iget`; process 0 finds the table empty and starts
a scan; process 1 finds its inode in use, comes back to `loop` and starts a second scan. Process 0
fills the table, unlocks it and takes a number; process 2 frees an inode, so that the table is
full again; and process 1, still scanning, stores behind it. -/
def secondScan : List (Nat × Action) :=
  [(1, .ialloc), (1, .run), (1, .run), (0, .ialloc), (0, .run), (0, .run), (0, .run),
    (1, .igetReturns .inUse), (1, .iputReturns), (1, .run), (1, .run),
    (0, .breadReturns [5, 6, 7, 8, 9, 10, 11, 12, 13, 14, 15]), (0, .run),
    (1, .breadReturns [5, 6, 7, 8, 9, 10, 11, 12, 13, 14, 15]), (1, .run),
    (0, .breadReturns (List.range 16)), (0, .run), (0, .run), (2, .ifree 40),
    (1, .breadReturns (List.range 16))]

/-- Two scans at once store behind the end of the table. -/
theorem ialloc_second_scan :
    Initial threeProcs ∧ ∃ m, Steps (Steps.Of Machine.step) threeProcs secondScan m ∧
      m.fs.fsNinode = 33 ∧ (32 : Int) ∈ m.fs.accessed ∧ ¬ m.fs.Bounded := by
  have hrun : (secondScan.foldlM Machine.step threeProcs).map
      (fun m => (m.fs.fsNinode, m.fs.accessed.head?)) = some (33, some 32) := by decide +kernel
  obtain ⟨m, hm, hvalues⟩ := Option.map_eq_some_iff.mp hrun
  obtain ⟨hninode, haccessed⟩ := Prod.mk.inj hvalues
  refine ⟨⟨by decide, rfl, by decide, rfl⟩, m, Steps.of_foldlM hm, hninode,
    List.mem_of_mem_head? (by simp [haccessed]), ?_⟩
  rintro ⟨-, hle, -⟩
  rw [hninode] at hle
  exact absurd hle (by decide)

/-! ## One scan at a time -/

/-- The points of a scan from which more numbers may be pushed. -/
def Control.pushing : Control → Bool
  | .fromTop | .searching _ _ _ _ | .reading _ _ _ => true
  | .idle | .waiting | .looping | .getting _ | .putting | .scanned _ _ => false

/-- Popping from a table with entries. -/
theorem Ilist.Bounded.pop {fs : Ilist} (h : fs.Bounded) (hpos : 0 < fs.fsNinode) :
    fs.pop.2.Bounded := by
  obtain ⟨hlow, hhigh, haccessed⟩ := h
  refine ⟨?_, ?_, List.forall_mem_cons.mpr ⟨⟨?_, ?_⟩, haccessed⟩⟩
  · show 0 ≤ fs.fsNinode - 1
    omega
  · show fs.fsNinode - 1 ≤ NICINOD
    omega
  · omega
  · omega

theorem Ilist.Bounded.push {fs : Ilist} (h : fs.Bounded) (hroom : fs.fsNinode < NICINOD)
    (ino : Nat) : (fs.push ino).Bounded := by
  obtain ⟨hlow, hhigh, haccessed⟩ := h
  refine ⟨?_, ?_, List.forall_mem_cons.mpr ⟨⟨hlow, hroom⟩, haccessed⟩⟩ <;>
    simp only [Ilist.push] <;> omega

/-- The loop over a block stops pushing when the table is full. -/
theorem scan_block_bounded (usable : List Nat) (positions : List Nat) (ino : Nat) {fs : Ilist}
    (h : fs.Bounded) (hroom : fs.fsNinode < NICINOD) :
    (scanBlock usable positions ino fs).2.Bounded ∧
      (scanBlock usable positions ino fs).2.fsIlock = fs.fsIlock := by
  induction positions generalizing ino fs with
  | nil => exact ⟨h, rfl⟩
  | cons i rest ih =>
      simp only [scanBlock]
      split
      · split
        · exact ⟨h.push hroom ino, rfl⟩
        · rename_i hmore
          exact ih _ (h.push hroom ino) (not_le.mp hmore)
      · exact ih _ h hroom

/-- `ifree` pushes only onto an unlocked table with room. -/
theorem ifree_bounded (ino : Nat) {fs : Ilist} (h : fs.Bounded) :
    (ifree ino fs).Bounded ∧ (ifree ino fs).fsIlock = fs.fsIlock ∧
      ((ifree ino fs).fsNinode ≤ fs.fsNinode ∨ fs.fsIlock = 0) := by
  unfold ifree
  dsimp only
  split
  · exact ⟨h, rfl, Or.inl le_rfl⟩
  · rename_i hlock
    split
    · split
      · exact ⟨h, rfl, Or.inl le_rfl⟩
      · exact ⟨h, rfl, Or.inl le_rfl⟩
    · rename_i hroom
      exact ⟨h.push (not_le.mp hroom) ino, rfl, Or.inr (not_not.mp hlock)⟩

/-- What one step of a process does, as far as bounds and lock go. -/
structure Stepped (fs : Ilist) (control : Control) (fs' : Ilist) (control' : Control) : Prop where
  bounded : fs'.Bounded
  room : control'.pushing → fs'.fsNinode < NICINOD
  -- the lock is taken, released or left alone together with the scan
  lock : control'.scanning = control.scanning ∧ fs'.fsIlock = fs.fsIlock ∨
    control = .looping ∧ fs.fsNinode ≤ 0 ∧ control'.scanning ∧ fs'.fsIlock = fs.fsIlock + 1 ∨
    control.scanning ∧ control'.scanning = false ∧ fs'.fsIlock = 0
  -- only a scan, or `ifree` on an unlocked table, adds numbers
  grows : fs'.fsNinode ≤ fs.fsNinode ∨ fs.fsIlock = 0 ∨ control.pushing

/-- A step that leaves table and lock alone. -/
theorem Stepped.still {fs fs' : Ilist} {control control' : Control} (hbounded : fs.Bounded)
    (hninode : fs'.fsNinode = fs.fsNinode) (haccessed : fs'.accessed = fs.accessed)
    (hlock : fs'.fsIlock = fs.fsIlock) (hscanning : control'.scanning = control.scanning)
    (hroom : control'.pushing → fs.fsNinode < NICINOD) : Stepped fs control fs' control' := by
  refine ⟨?_, ?_, Or.inl ⟨hscanning, hlock⟩, Or.inl (le_of_eq hninode)⟩
  · unfold Ilist.Bounded
    rw [hninode, haccessed]
    exact hbounded
  · rw [hninode]
    exact hroom

/-- Every step of a process keeps the bounds if a scan has room for its next number. -/
theorem next_stepped {fs fs' : Ilist} {control control' : Control} {action : Action}
    (hbounded : fs.Bounded) (hroom : control.pushing → fs.fsNinode < NICINOD)
    (hnext : next fs control action = some (fs', control')) :
    Stepped fs control fs' control' := by
  unfold next at hnext
  split at hnext
  -- `ialloc` is called
  · cases hnext
    exact .still hbounded rfl rfl rfl rfl (by simp [Control.pushing])
  -- `ifree` from outside
  · cases hnext
    rename_i ino
    obtain ⟨hb, hlock, hgrows⟩ := ifree_bounded ino hbounded
    exact ⟨hb, by simp [Control.pushing], Or.inl ⟨rfl, hlock⟩, hgrows.imp_right Or.inl⟩
  -- past `fs_ilock`
  · split at hnext
    · cases hnext
      exact .still hbounded rfl rfl rfl rfl (by simp [Control.pushing])
    · cases hnext
  -- `loop`
  · split at hnext
    · rename_i hpos
      cases hnext
      refine ⟨hbounded.pop hpos, ?_, Or.inl ⟨?_, rfl⟩, Or.inl ?_⟩
      · split <;> simp [Control.pushing]
      · split <;> rfl
      · show fs.fsNinode - 1 ≤ fs.fsNinode
        omega
    · rename_i hempty
      cases hnext
      refine ⟨hbounded, fun _ => ?_, Or.inr (Or.inl ⟨rfl, not_lt.mp hempty, ?_, rfl⟩),
        Or.inl le_rfl⟩
      · show fs.fsNinode < (NICINOD : Int)
        have : (0 : Int) < NICINOD := by decide
        omega
      · split <;> rfl
  -- `iget` returns
  · cases hnext
    exact .still hbounded rfl rfl rfl rfl (by simp [Control.pushing])
  · injection hnext with hnext
    injection hnext with hfs hcontrol
    subst hfs hcontrol
    exact .still hbounded rfl rfl rfl rfl (by simp [Control.pushing])
  · cases hnext
    exact .still hbounded rfl rfl rfl rfl (by simp [Control.pushing])
  -- `iput`
  · cases hnext
    rename_i ino
    obtain ⟨hb, hlock, hgrows⟩ := ifree_bounded ino hbounded
    exact ⟨hb, by simp [Control.pushing], Or.inl ⟨rfl, hlock⟩, hgrows.imp_right Or.inl⟩
  · cases hnext
    exact .still hbounded rfl rfl rfl rfl (by simp [Control.pushing])
  -- `fromtop`
  · cases hnext
    exact .still hbounded rfl rfl rfl rfl fun _ => hroom rfl
  -- the head of the scan loop
  · cases hnext
    refine .still hbounded rfl rfl rfl ?_ fun _ => hroom rfl
    split <;> rfl
  -- `bread` returns
  · cases hnext
    exact .still hbounded rfl rfl rfl rfl fun _ => hroom rfl
  · cases hnext
    rename_i first ino adr usable
    obtain ⟨hb, hlock⟩ := scan_block_bounded usable (List.range INOPB) ino hbounded (hroom rfl)
    refine ⟨hb, ?_, Or.inl ⟨?_, hlock⟩, Or.inr (Or.inr rfl)⟩
    · split
      · simp [Control.pushing]
      · rename_i hmore
        exact fun _ => not_le.mp hmore
    · split <;> rfl
  -- behind the scan loop
  · split at hnext
    · rename_i hagain
      cases hnext
      exact .still hbounded rfl rfl rfl rfl fun _ => hagain.1
    · cases hnext
      refine ⟨hbounded, ?_, Or.inr (Or.inr ⟨rfl, ?_, rfl⟩), Or.inl le_rfl⟩
      · split <;> simp [Control.pushing]
      · split <;> rfl
  · cases hnext

/-- The step of a machine is the step of one of its processes. -/
theorem Machine.step_cases {m m' : Machine} {pid : Nat} {action : Action}
    (hstep : m.step (pid, action) = some m') :
    ∃ control fs' control', m.procs[pid]? = some control ∧
      next m.fs control action = some (fs', control') ∧
      m' = ⟨fs', m.procs.set pid control'⟩ := by
  obtain ⟨control, hcontrol, hrest⟩ := Option.bind_eq_some_iff.mp hstep
  split at hrest
  · obtain ⟨⟨fs', control'⟩, hnext, hm'⟩ := Option.bind_eq_some_iff.mp hrest
    exact ⟨control, fs', control', hcontrol, hnext, (Option.some.inj hm').symm⟩
  · cases hrest

/-- Bounds hold, a scan that still pushes has room, and the lock is held exactly when there is a
scan, of which there is at most one. -/
structure OneScan (m : Machine) : Prop where
  bounded : m.fs.Bounded
  room : ∀ (pid : Nat) (control : Control), m.procs[pid]? = some control → control.pushing →
    m.fs.fsNinode < NICINOD
  locked : ∀ (pid : Nat) (control : Control), m.procs[pid]? = some control → control.scanning →
    m.fs.fsIlock ≠ 0
  unique : ∀ (pid qid : Nat) (control other : Control), m.procs[pid]? = some control →
    m.procs[qid]? = some other → control.scanning → other.scanning → pid = qid

theorem Control.scanning_of_pushing {control : Control} (h : control.pushing) :
    control.scanning := by
  cases control <;> simp_all [Control.pushing, Control.scanning]

/-- The processes after a step: the one that moved, and the others. -/
theorem get_set_cases {procs : List Control} {pid qid : Nat} {control' other : Control}
    (h : (procs.set pid control')[qid]? = some other) :
    qid = pid ∧ other = control' ∨ qid ≠ pid ∧ procs[qid]? = some other := by
  by_cases heq : qid = pid
  · subst heq
    rw [List.getElem?_set_self'] at h
    obtain ⟨_, _, hother⟩ := Option.map_eq_some_iff.mp h
    exact Or.inl ⟨rfl, hother.symm⟩
  · rw [List.getElem?_set_ne (Ne.symm heq)] at h
    exact Or.inr ⟨heq, h⟩

/-- A step that starts no scan beside another one keeps the invariant. -/
theorem step_one_scan {m m' : Machine} {pid : Nat} {action : Action} (h : OneScan m)
    (hstep : m.step (pid, action) = some m')
    (halone : m.refills (pid, action) → m.fs.fsIlock = 0) : OneScan m' := by
  obtain ⟨control, fs', control', hcontrol, hnext, rfl⟩ := Machine.step_cases hstep
  obtain ⟨hbounded, hroom, hlock, hgrows⟩ :=
    next_stepped h.bounded (h.room pid control hcontrol) hnext
  -- another scan keeps its room and its lock
  have hothers : ∀ (qid : Nat) (other : Control), qid ≠ pid → m.procs[qid]? = some other → other.scanning →
      fs'.fsIlock ≠ 0 ∧ control'.scanning = false ∧ fs'.fsNinode ≤ m.fs.fsNinode := by
    intro qid other hne hother hscan
    have hheld := h.locked qid other hother hscan
    have hnot : control.scanning = false := by
      by_contra hself
      exact hne (h.unique qid pid other control hother hcontrol hscan (by simpa using hself))
    refine ⟨?_, ?_, ?_⟩
    · rcases hlock with ⟨-, hsame⟩ | ⟨-, -, -, hsucc⟩ | ⟨hself, -, -⟩
      · rwa [hsame]
      · omega
      · simp [hnot] at hself
    · rcases hlock with ⟨hsame, -⟩ | ⟨rfl, hempty, -, -⟩ | ⟨hself, -, -⟩
      · rwa [hsame]
      · exact absurd (halone ⟨hcontrol, hempty⟩) hheld
      · simp [hnot] at hself
    · rcases hgrows with hle | hfree | hself
      · exact hle
      · exact absurd hfree hheld
      · have hself := Control.scanning_of_pushing hself
        simp [hnot] at hself
  refine ⟨hbounded, ?_, ?_, ?_⟩
  · intro qid other hother hpush
    rcases get_set_cases hother with ⟨rfl, rfl⟩ | ⟨hne, hother⟩
    · exact hroom hpush
    · have hle := (hothers qid other hne hother (Control.scanning_of_pushing hpush)).2.2
      have hold := h.room qid other hother hpush
      exact lt_of_le_of_lt hle hold
  · intro qid other hother hscan
    rcases get_set_cases hother with ⟨rfl, rfl⟩ | ⟨hne, hother⟩
    · rcases hlock with ⟨hsame, hkept⟩ | ⟨-, -, -, hsucc⟩ | ⟨-, hnot, -⟩
      · show fs'.fsIlock ≠ 0
        rw [hkept]
        exact h.locked qid control hcontrol (hsame ▸ hscan)
      · show fs'.fsIlock ≠ 0
        omega
      · simp [hnot] at hscan
    · exact (hothers qid other hne hother hscan).1
  · intro qid rid other third hother hthird hscan hscan'
    rcases get_set_cases hother with ⟨rfl, rfl⟩ | ⟨hne, hold⟩ <;>
      rcases get_set_cases hthird with ⟨rfl, rfl⟩ | ⟨hne', hold'⟩
    · rfl
    · simp [(hothers rid third hne' hold' hscan').2.1] at hscan
    · simp [(hothers qid other hne hold hscan).2.1] at hscan'
    · exact h.unique qid rid other third hold hold' hscan hscan'

/-- Nobody is in `ialloc`, and the table is in bounds. -/
theorem Initial.one_scan {m : Machine} (h : Initial m) : OneScan m := by
  have hnone : ∀ (pid : Nat) (control : Control), m.procs[pid]? = some control → control = .idle :=
    fun pid control hcontrol => h.idle control (List.mem_of_getElem? hcontrol)
  refine ⟨⟨h.ninode.1, h.ninode.2, by simp [h.accessed]⟩, ?_, ?_, ?_⟩
  · intro pid control hcontrol hpush
    rw [hnone pid control hcontrol] at hpush
    cases hpush
  · intro pid control hcontrol hscan
    rw [hnone pid control hcontrol] at hscan
    cases hscan
  · intro pid qid control other hcontrol _ hscan _
    rw [hnone pid control hcontrol] at hscan
    cases hscan

/-- For any number of processes and in every interleaving in which no process starts to refill the
table while `fs_ilock` is held, the number of entries stays in bounds and so does every access
to the table. -/
theorem ialloc_run_bounded {m m' : Machine} {labels : List (Nat × Action)} (hinit : Initial m)
    (hrun : Steps (Steps.Of Machine.aloneStep) m labels m') :
    0 ≤ m'.fs.fsNinode ∧ m'.fs.fsNinode ≤ NICINOD ∧
      ∀ index ∈ m'.fs.accessed, 0 ≤ index ∧ index < NICINOD := by
  have hinv : OneScan m' := by
    refine hrun.invariant OneScan ?_ hinit.one_scan
    rintro state ⟨pid, action⟩ next hgood hstep
    unfold Steps.Of Machine.aloneStep at hstep
    split at hstep
    · rename_i halone
      exact step_one_scan hgood hstep halone
    · cases hstep
  exact hinv.bounded

/-- A run in which process 0 refills the table while process 1 waits for it and process 2 frees an
inode. -/
theorem ialloc_run_bounded_three_procs :
    ∃ m', Steps (Steps.Of Machine.aloneStep) threeProcs
        [(0, .ialloc), (0, .run), (0, .run), (0, .igetReturns .inUse), (0, .iputReturns),
          (0, .run), (0, .run), (1, .ialloc), (2, .ifree 40), (0, .breadReturns [5, 6]),
          (0, .run)] m' ∧
      m'.fs.fsNinode ≤ NICINOD := by
  have hrun : ([(0, .ialloc), (0, .run), (0, .run), (0, .igetReturns .inUse), (0, .iputReturns),
      (0, .run), (0, .run), (1, .ialloc), (2, .ifree 40), (0, .breadReturns [5, 6]),
      (0, .run)].foldlM Machine.aloneStep threeProcs).isSome := by decide +kernel
  obtain ⟨m', hm'⟩ := Option.isSome_iff_exists.mp hrun
  have hsteps := Steps.of_foldlM hm'
  have hinit : Initial threeProcs := ⟨by decide, rfl, by decide, rfl⟩
  exact ⟨m', hsteps, (ialloc_run_bounded hinit hsteps).2.1⟩

end DiscoBsd.Alloc
