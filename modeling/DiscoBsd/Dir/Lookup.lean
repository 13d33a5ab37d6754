import DiscoBsd.Dir.Runs

/-!
# Lookups that start where the last one ended

A process remembers in `u_ncache` the block in which its last lookup of a last component ended. The
next lookup in the same directory starts there, goes on to the end, and then looks at what comes
before. Directories change in between, and may shrink below the block that is remembered.

`lookup_run` says that this is the same as one pass from the start, in every state that a run reaches.
-/

namespace DiscoBsd.Dir

open Lib

/-- `u.u_ncache`, where the last lookup of a process ended. -/
structure Ncache where
  ncPrevoffset : Nat
  ncInumber : Nat
  ncDev : Nat

/-- The directories by device and inode number, and the processes. -/
structure Processes where
  dir : Nat → Nat → Directory
  ncache : Nat → Ncache

/-- What happens: a component is looked up, for the process and with what its `ni_dent` holds; some
process changes a directory; or a process forks, and the child has a copy of `u`. -/
inductive Event where
  | lookup (pid dev ino : Nat) (name : Name) (dent : Bytes) (last : Bool)
  | change (dev ino : Nat) (d : Directory)
  | fork (pid child : Nat)

/-- The offset to start at, when the last lookup was in this directory. -/
def Ncache.offsetIn (nc : Ncache) (dev ino : Nat) : Option Nat :=
  if ino = nc.ncInumber ∧ dev = nc.ncDev then some nc.ncPrevoffset else none

/-- An offset behind the end of the directory is forgotten. -/
def Ncache.atStart (nc : Ncache) : Option Nat → Ncache
  | none => nc
  | some prevoffset => { nc with ncPrevoffset := prevoffset }

/-- `namei` with `LOOKUP` on one component: what it finds, the directory, and `u_ncache`. -/
def Directory.lookupIn (d : Directory) (dev ino : Nat) (name : Name) (dent : Bytes) (last : Bool)
    (nc : Ncache) : Result × Directory × Ncache :=
  let dent := setName dent name
  let ncache := nc.offsetIn dev ino
  let nc := nc.atStart (d.startOffset .lookup ncache)
  match d.search .lookup name dent ncache with
  | .found s ep =>
      (.found (s.foundEntry ep dent), d.fixSize s ep,
        if last then ⟨s.niOffset / DIRBLKSIZ * DIRBLKSIZ, ino, dev⟩ else nc)
  | .notfound _ => (.enoent, d, nc)

/-- A directory takes the place of one. -/
def Processes.setDir (s : Processes) (dev ino : Nat) (d : Directory) : Processes :=
  { s with dir := fun dev' ino' => if dev' = dev ∧ ino' = ino then d else s.dir dev' ino' }

def Processes.step (s : Processes) : Event → Processes
  | .lookup pid dev ino name dent last =>
      let (_, d, nc) := (s.dir dev ino).lookupIn dev ino name dent last (s.ncache pid)
      { s.setDir dev ino d with ncache := Function.update s.ncache pid nc }
  | .change dev ino d => s.setDir dev ino d
  | .fork pid child => { s with ncache := Function.update s.ncache child (s.ncache pid) }

/-- Changes leave valid directories. -/
def Event.Keeps : Event → Prop
  | .change _ _ d => d.Valid
  | _ => True

/-- The loop came to its end: at the name, or at `endsearch`. -/
def Scan.Ended (endsearch : Nat) : Scan → Prop
  | .found _ _ => True
  | .notfound s => endsearch ≤ s.niOffset

/-- Both passes of a lookup come to their end. -/
def Directory.Terminates (d : Directory) (name : Name) (dent : Bytes) (from' : Nat) : Prop :=
  let needed := (entryAt dent 0).dirsiz
  let first := searchloop d.bytes name needed (roundup d.iSize) (roundup d.iSize)
    (.start .lookup from')
  first.Ended (roundup d.iSize) ∧
    ∀ s, first = .notfound s →
      (searchloop d.bytes name needed from' from' { s with niOffset := 0 }).Ended from'

/-- What a search leads to. -/
def Scan.result (dent : Bytes) : Scan → Result
  | .found s ep => .found (s.foundEntry ep dent)
  | .notfound _ => .enoent

variable {d : Directory} {es : List Entry} {name : Name} {dent : Bytes} {ncache : Option Nat}
  {nc : Ncache} {dev ino : Nat}

/-! ## One lookup -/

theorem Ends.ended {Inv : List Entry → Search → Prop} {needed p endsearch : Nat}
    {seen todo : List Entry} {scan : Scan} (h : Ends Inv name needed seen todo p scan)
    (hend : p + total todo = endsearch) : scan.Ended endsearch := by
  cases h with
  | found => trivial
  | notfound _ _ hoffset =>
      show endsearch ≤ _
      omega

/-- From any block of the directory both passes end. -/
theorem Layout.terminates (h : Layout d es) {from' : Nat} (hblock : from' % DIRBLKSIZ = 0)
    (hle : from' ≤ d.iSize) : d.Terminates name dent from' := by
  obtain ⟨front, back, hes, hfront⟩ :=
    h.laid.split_at (Nat.zero_le from') (by rw [h.size]; omega) hblock
  rw [Nat.zero_add] at hfront
  subst hfront
  have hlaid := h.laid
  rw [hes, laid_append, Nat.zero_add] at hlaid
  have hsize : total front + total back = d.iSize := by
    rw [← h.size, hes, total_append]
  refine ⟨?_, fun s _ => ?_⟩
  · rw [roundup_eq h.whole]
    exact (ends_from (Position.of_start .lookup _) hlaid.2 hsize).ended hsize
  · have hposition : Position 0 [] { s with niOffset := 0 } :=
      ⟨rfl, fun hne => absurd (Nat.zero_mod _) hne, by simp⟩
    exact (ends_from hposition hlaid.1 (Nat.zero_add _)).ended (Nat.zero_add _)

/-- A search from any block finds the inode of the name. -/
theorem Layout.search_ino (h : Layout d es) (haligned : Aligned ncache) (name : Name) (dent : Bytes) :
    ((d.search .lookup name (setName dent name) ncache).result (setName dent name)).ino =
      d.contents name := by
  have hspec : Searched d es .lookup name (setName dent name)
      (d.search .lookup name (setName dent name) ncache) := h.search_spec haligned
  generalize d.search .lookup name (setName dent name) ncache = scan at hspec
  cases scan with
  | found s e => exact hspec.1.ino_eq h
  | notfound s => exact (h.contents_none hspec.1).symm

/-- What is remembered is the start of a block. -/
def Ncache.AtBlock (nc : Ncache) : Prop := nc.ncPrevoffset % DIRBLKSIZ = 0

theorem Ncache.AtBlock.aligned (h : nc.AtBlock) (dev ino : Nat) : Aligned (nc.offsetIn dev ino) := by
  intro prevoffset hin
  unfold Ncache.offsetIn at hin
  split at hin
  · obtain rfl : nc.ncPrevoffset = prevoffset := by simpa using hin
    exact h
  · simp at hin

/-- One component: the inode of the name, a directory that is the same, and the start of a block. -/
theorem Layout.lookupIn_spec (h : Layout d es) (dev ino : Nat) (name : Name) (dent : Bytes) (last : Bool)
    (hnc : nc.AtBlock) :
    (d.lookupIn dev ino name dent last nc).1.ino = d.contents name ∧
      (d.lookupIn dev ino name dent last nc).2.1 = d ∧
      (d.lookupIn dev ino name dent last nc).2.2.AtBlock := by
  have hino := h.search_ino (hnc.aligned dev ino) name dent
  have hspec : Searched d es .lookup name (setName dent name)
      (d.search .lookup name (setName dent name) (nc.offsetIn dev ino)) :=
    h.search_spec (hnc.aligned dev ino)
  have hstart : (nc.atStart (d.startOffset .lookup (nc.offsetIn dev ino))).AtBlock := by
    cases hoffset : d.startOffset .lookup (nc.offsetIn dev ino) with
    | none => exact hnc
    | some prevoffset => exact (startOffset_aligned (hnc.aligned dev ino) hoffset).2.1
  unfold Directory.lookupIn
  simp only
  generalize d.search .lookup name (setName dent name) (nc.offsetIn dev ino) = scan at hspec hino
  cases scan with
  | found s e =>
      refine ⟨hino, hspec.2, ?_⟩
      simp only
      split
      · exact Nat.mul_mod_left _ _
      · exact hstart
  | notfound s => exact ⟨hino, rfl, hstart⟩

/-! ## Runs -/

/-- Valid directories, and processes that remember starts of blocks. -/
structure Processes.Good (s : Processes) : Prop where
  valid : ∀ dev ino, (s.dir dev ino).Valid
  atBlock : ∀ pid, (s.ncache pid).AtBlock

theorem Processes.Good.setDir {s : Processes} (h : s.Good) {d : Directory} (hd : d.Valid) :
    (s.setDir dev ino d).Good := by
  refine ⟨fun dev' ino' => ?_, h.atBlock⟩
  show Directory.Valid (if dev' = dev ∧ ino' = ino then d else s.dir dev' ino')
  split
  · exact hd
  · exact h.valid dev' ino'

theorem Processes.Good.setNcache {s : Processes} (h : s.Good) {pid : Nat} (hnc : nc.AtBlock) :
    ({ s with ncache := Function.update s.ncache pid nc } : Processes).Good := by
  refine ⟨h.valid, fun pid' => ?_⟩
  by_cases hpid : pid' = pid
  · subst hpid
    simpa using hnc
  · simpa [Function.update_of_ne hpid] using h.atBlock pid'

theorem Processes.Good.step {s : Processes} (h : s.Good) {event : Event} (hkeeps : event.Keeps) :
    (s.step event).Good := by
  cases event with
  | lookup pid dev ino name dent last =>
      obtain ⟨-, hdir, hnc⟩ := (h.valid dev ino).layout.lookupIn_spec dev ino name dent last
        (h.atBlock pid)
      have hd : ((s.dir dev ino).lookupIn dev ino name dent last (s.ncache pid)).2.1.Valid := by
        rw [hdir]
        exact h.valid dev ino
      exact (h.setDir hd).setNcache hnc
  | change dev ino d => exact h.setDir hkeeps
  | fork pid child => exact h.setNcache (h.atBlock pid)

theorem Processes.Good.run {s : Processes} (h : s.Good) {events : List Event}
    (hkeeps : ∀ event ∈ events, event.Keeps) : (events.foldl Processes.step s).Good := by
  induction events generalizing s with
  | nil => exact h
  | cons event events ih =>
      obtain ⟨hevent, hevents⟩ := List.forall_mem_cons.mp hkeeps
      exact ih (h.step hevent) hevents

/-- The processes at the start, with a cleared `u`. -/
def Processes.boot (dir : Nat → Nat → Directory) : Processes := ⟨dir, fun _ => ⟨0, 0, 0⟩⟩

/-- In every state that lookups, changes of directories and forks lead to, every lookup comes to
its end, and finds what a scan from the start finds: the name if it is there, and its inode. -/
theorem lookup_run (dir : Nat → Nat → Directory) (hvalid : ∀ dev ino, (dir dev ino).Valid)
    (events : List Event) (hkeeps : ∀ event ∈ events, event.Keeps) (pid dev ino : Nat) (name : Name)
    (dent : Bytes) (last : Bool) :
    let s := events.foldl Processes.step (.boot dir)
    let d := s.dir dev ino
    let dent' := setName dent name
    (∀ from' ∈ d.startOffset .lookup ((s.ncache pid).offsetIn dev ino),
      d.Terminates name dent' from') ∧
    (d.lookupIn dev ino name dent last (s.ncache pid)).1.ino =
      ((d.search .lookup name dent' none).result dent').ino ∧
    (d.lookupIn dev ino name dent last (s.ncache pid)).1.ino = d.contents name := by
  intro s d dent'
  have hboot : (Processes.boot dir).Good := ⟨hvalid, fun _ => rfl⟩
  have hgood : s.Good := hboot.run hkeeps
  have hlayout := (hgood.valid dev ino).layout
  have hino : (d.lookupIn dev ino name dent last (s.ncache pid)).1.ino = d.contents name :=
    (hlayout.lookupIn_spec dev ino name dent last (hgood.atBlock pid)).1
  refine ⟨fun from' hfrom => ?_, ?_, hino⟩
  · obtain ⟨-, hmod, hle⟩ := startOffset_aligned ((hgood.atBlock pid).aligned dev ino) hfrom
    exact hlayout.terminates hmod hle
  · rw [hino]
    exact (hlayout.search_ino (fun _ hin => absurd hin (by simp)) name dent).symm

/-- The directory with a second block, in which `a` has inode 7. -/
def twoBlocks : Directory where
  bytes := fun p => if p < 1024 then smallDirectory.bytes p
    else [7, 0, 0, 0, 0, 4, 1, 0, 97, 0, 0, 0].getD (p - 1024) 0
  iSize := 2048
  iNlink := 2

theorem twoBlocks_layout :
    Layout twoBlocks [⟨5, 12, [46]⟩, ⟨2, 1012, [46, 46]⟩, ⟨7, 1024, [97]⟩] where
  laid := by
    refine ⟨by decide, ⟨by decide, by decide, by decide⟩, by decide, ⟨by decide, by decide, by decide⟩,
      by decide, ⟨by decide, by decide, by decide⟩, trivial⟩
  size := rfl
  whole := rfl
  names := by decide

/-- A child looks the parent directory up from the second block on, where its own parent found `a`. -/
theorem lookup_run_small :
    let s := [.lookup 1 0 5 [97] (fun _ => 0) true, .change 0 5 twoBlocks,
      .fork 1 2].foldl Processes.step (.boot fun _ _ => twoBlocks)
    (s.ncache 2).offsetIn 0 5 = some 1024 ∧
      ((s.dir 0 5).lookupIn 0 5 [46, 46] (fun _ => 0) true (s.ncache 2)).1.ino =
        (s.dir 0 5).contents [46, 46] := by
  have hvalid := twoBlocks_layout.valid
  refine ⟨by decide +kernel, ?_⟩
  exact (lookup_run (fun _ _ => twoBlocks) (fun _ _ => hvalid)
    [.lookup 1 0 5 [97] (fun _ => 0) true, .change 0 5 twoBlocks, .fork 1 2]
    (by simp [Event.Keeps, hvalid]) 2 0 5 [46, 46] (fun _ => 0) true).2.2

end DiscoBsd.Dir
