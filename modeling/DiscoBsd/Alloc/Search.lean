import DiscoBsd.Alloc.Ialloc
import Mathlib.Data.List.FinRange
import Mathlib.Data.List.Perm.Subperm
import Mathlib.Logic.Relation

/-!
# The search of inode allocation

One call of `ialloc` by a process that runs alone, with the in-core inodes it goes through: `iget`,
`iput` and the scan of the i-list with `bread` and `ifind`. Read `ialloc_search` first: the call
comes to an end, with an answer that fits the file system, unless it comes to one of two places it
does not leave. It sleeps for an inode that is locked, which may be the directory it is called for,
because a number may stand in `fs_inode` twice; or the reserved inodes are the only ones the scan
finds, and it drops and finds them again.

The contents of files (`itrunc`), the times and the messages are left out.
-/

namespace DiscoBsd.Alloc

/-- The part of a dinode that `ialloc` depends on. -/
structure Dinode where
  di_mode : Nat
  di_nlink : Nat

/-- An in-core inode. `hashed` is off for one that is on no hash chain, `mount` is the device that
is mounted on it, and `changed` stands for the flags at which `iupdat` writes. -/
structure Incore where
  i_dev : Nat
  i_number : Nat
  hashed : Bool
  locked : Bool
  mount : Option Nat
  changed : Bool
  i_count : Nat
  i_mode : Nat
  i_nlink : Nat

/-- What does not change during the call: the device of the parent directory, the blocks that can be
read, and the file systems that are read-only. -/
structure Site where
  dev : Nat
  readable : Nat → Nat → Bool
  fs_ronly : Nat → Bool

/-- The superblock, the in-core inodes with the free list, and the i-lists on the disks. -/
structure Store (n : Nat) where
  fs : Ilist
  inode : Fin n → Incore
  free : List (Fin n)
  disk : Nat → Nat → Dinode

variable {n : Nat}

namespace Store

/-- `ino == ip->i_number && dev == ip->i_dev`, for an inode on a hash chain. -/
def isFor (s : Store n) (dev ino : Nat) (ip : Fin n) : Bool :=
  (s.inode ip).hashed && ((s.inode ip).i_number = ino && (s.inode ip).i_dev = dev)

def ifind (s : Store n) (dev ino : Nat) : Option (Fin n) :=
  (List.finRange n).find? (s.isFor dev ino)

def modify (s : Store n) (ip : Fin n) (f : Incore → Incore) : Store n :=
  { s with inode := Function.update s.inode ip (f (s.inode ip)) }

/-- `iget` finds the inode in core. -/
def grab (s : Store n) (ip : Fin n) : Store n :=
  let s := if (s.inode ip).i_count = 0 then { s with free := s.free.erase ip } else s
  s.modify ip fun i => { i with i_count := i.i_count + 1, locked := true }

/-- `iget` takes the first inode of the free list for another one. -/
def recycle (s : Store n) (ip : Fin n) (dev ino : Nat) : Store n :=
  { s with free := s.free.tail }.modify ip fun i =>
    { i with i_dev := dev, i_number := ino, hashed := true, locked := true, mount := none,
             changed := false, i_count := i.i_count + 1 }

/-- `iget` copies what it read. -/
def fill (s : Store n) (ip : Fin n) (dp : Dinode) : Store n :=
  s.modify ip fun i => { i with i_mode := dp.di_mode, i_nlink := dp.di_nlink }

/-- `iget` could not read. -/
def discard (s : Store n) (ip : Fin n) : Store n :=
  s.modify ip fun i => { i with i_number := 0, hashed := false }

end Store

/-- `ifree` on the file system of an inode; only one superblock is looked at. -/
def Site.ifree (site : Site) (s : Store n) (dev ino : Nat) : Store n :=
  if dev = site.dev then { s with fs := Alloc.ifree ino s.fs } else s

/-- `iupdat`. -/
def Site.iupdat (site : Site) (s : Store n) (ip : Fin n) : Store n :=
  let i := s.inode ip
  if i.changed = true ∧ site.fs_ronly i.i_dev = false ∧
      site.readable i.i_dev (itod i.i_number) = true then
    { s with disk := fun dev ino =>
        if dev = i.i_dev ∧ ino = i.i_number then ⟨i.i_mode, i.i_nlink⟩ else s.disk dev ino }
  else s

/-- `iput`. -/
def Site.iput (site : Site) (s : Store n) (ip : Fin n) : Store n :=
  let i := s.inode ip
  if i.i_count = 1 then
    let s :=
      if i.i_nlink = 0 ∧ site.fs_ronly i.i_dev = false then
        site.ifree (s.modify ip fun i => { i with i_mode := 0, changed := true }) i.i_dev
          i.i_number
      else s
    let s := (site.iupdat s ip).modify ip fun i =>
      { i with locked := false, mount := none, changed := false, i_count := i.i_count - 1 }
    { s with free := s.free ++ [ip] }
  else s.modify ip fun i => { i with locked := false, i_count := i.i_count - 1 }

/-- The inode in position `i` of a block of the i-list. -/
def inodeAt (adr i : Nat) : Nat := INOPB * (adr - 1) + 1 + i

/-- The positions of the dinodes in a block that the scan takes, if it is at inode `ino` there. -/
def Site.usable (site : Site) (s : Store n) (adr ino : Nat) : List Nat :=
  (List.range INOPB).filter fun i =>
    (s.disk site.dev (inodeAt adr i)).di_mode = 0 ∧ s.ifind site.dev ((ino + i) % 2 ^ 32) = none

/-- The scan loop over the given number of blocks, which leaves `inobas` and the superblock. -/
def Site.scan (site : Site) (s : Store n) : (blocks ino adr inobas : Nat) → Ilist → Nat × Ilist
  | 0, _, _, inobas, fs => (inobas, fs)
  | blocks + 1, ino, adr, _, fs =>
      if site.readable site.dev adr then
        let (ino', fs) := scanBlock (site.usable s adr ino) (List.range INOPB) ino fs
        if (NICINOD : Int) ≤ fs.fsNinode then (ino, fs)
        else site.scan s blocks ino' (adr + 1) ino fs
      else site.scan s blocks ((ino + INOPB) % 2 ^ 32) (adr + 1) ino fs

/-- From `fromtop` on. -/
def Site.fromTop (site : Site) (s : Store n) (fs : Ilist) : Nat × Ilist :=
  site.scan s (fs.fsIsize - 1) 1 1 0 { fs with fsNbehind := 0 }

/-- The refill of `fs_inode`. -/
def Site.refill (site : Site) (s : Store n) : Store n :=
  let fs := { s.fs with fsIlock := s.fs.fsIlock + 1 }
  let (inobas, fs) :=
    if fs.fsNbehind < 4 * NICINOD then
      let (inobas, fs) :=
        site.scan s (fs.fsIsize - itod fs.fsLasti) fs.fsLasti (itod fs.fsLasti) 0 fs
      if fs.fsNinode < NICINOD then site.fromTop s fs else (inobas, fs)
    else site.fromTop s fs
  { s with fs := { fs with fsLasti := inobas, fsIlock := 0 } }

/-- Where `ialloc` is: at `loop`, or in `iget` for an inode. -/
inductive Point where
  | loop
  | iget (dev ino : Nat)
  deriving DecidableEq, Repr

/-- What `ialloc` returns; with `enospc` it sets that error, and `null` comes from `iget`. -/
inductive Result (n : Nat) where
  | inode (ip : Fin n)
  | null
  | enospc
  | panic

namespace Site

variable (site : Site)

/-- `iget` has returned an inode to `ialloc`. -/
def got (s : Store n) (ip : Fin n) : (Result n × Store n) ⊕ (Point × Store n) :=
  if (s.inode ip).i_mode = 0 then
    .inl (.inode ip, { s with fs := { s.fs with
      fsFmod := 1, fsTinode := (s.fs.fsTinode + 2 ^ 32 - 1) % 2 ^ 32 } })
  else .inr (.loop, site.iput s ip)

/-- One pass through `iget`, from its label `loop`. -/
def iget (s : Store n) (dev ino : Nat) : (Result n × Store n) ⊕ (Point × Store n) :=
  match s.ifind dev ino with
  | some ip =>
      -- asleep: the process looks again when it is woken up
      if (s.inode ip).locked then .inr (.iget dev ino, s)
      else
        match (s.inode ip).mount with
        | some mdev => .inr (.iget mdev ROOTINO, s)
        | none => site.got (s.grab ip) ip
  | none =>
      match s.free with
      | [] => .inl (.null, s)
      | ip :: _ =>
          if (s.inode ip).i_count ≠ 0 then .inl (.panic, s)
          else if site.readable dev (itod ino) then
            site.got ((s.recycle ip dev ino).fill ip (s.disk dev ino)) ip
          else .inl (.null, site.iput ((s.recycle ip dev ino).discard ip) ip)

/-- From the label `loop` of `ialloc`. -/
def loop (s : Store n) : (Result n × Store n) ⊕ (Point × Store n) :=
  if 0 < s.fs.fsNinode then
    let (ino, fs) := s.fs.pop
    .inr (if ino ≤ ROOTINO then .loop else .iget site.dev ino, { s with fs := fs })
  else
    let s := site.refill s
    if 0 < s.fs.fsNinode then .inr (.loop, s) else .inl (.enospc, s)

/-- The call goes on from a point, or returns. -/
def next : Point × Store n → (Result n × Store n) ⊕ (Point × Store n)
  | (.loop, s) => site.loop s
  | (.iget dev ino, s) => site.iget s dev ino

/-- The points the call comes to. -/
def Reaches : Point × Store n → Point × Store n → Prop :=
  Relation.ReflTransGen fun p q => site.next p = .inr q

/-- The call returns. -/
def Returns (p : Point × Store n) (r : Result n × Store n) : Prop :=
  ∃ q, site.Reaches p q ∧ site.next q = .inl r

end Site

/-! ## The table as a list -/

/-- The inode numbers in the table. -/
def Ilist.entries (fs : Ilist) : List Nat :=
  (List.range fs.fsNinode.toNat).map fun i : Nat => fs.fsInode i

theorem Ilist.length_entries (fs : Ilist) : fs.entries.length = fs.fsNinode.toNat := by
  simp [Ilist.entries]

/-- A push adds a number at the end. -/
theorem Ilist.entries_push {fs : Ilist} (h : 0 ≤ fs.fsNinode) (ino : Nat) :
    (fs.push ino).entries = fs.entries ++ [ino] := by
  obtain ⟨k, hk⟩ := Int.eq_ofNat_of_zero_le h
  have hsucc : (fs.push ino).fsNinode.toNat = k + 1 := by
    simp only [Ilist.push, hk]
    omega
  have hold : fs.fsNinode.toNat = k := by omega
  simp only [Ilist.entries, hsucc, hold, List.range_succ, List.map_append, List.map_cons,
    List.map_nil]
  congr 1
  · refine List.map_congr_left fun i hi => ?_
    have hlt := List.mem_range.mp hi
    exact Function.update_of_ne (by omega) _ _
  · simp [Ilist.push, hk]

/-- A pop takes the last number. -/
theorem Ilist.entries_pop {fs : Ilist} (h : 0 < fs.fsNinode) :
    fs.entries = fs.pop.2.entries ++ [fs.pop.1] := by
  obtain ⟨k, hk⟩ := Int.eq_succ_of_zero_lt h
  have hpred : fs.pop.2.fsNinode.toNat = k := by
    simp only [Ilist.pop, hk]
    omega
  have hold : fs.fsNinode.toNat = k + 1 := by omega
  simp only [Ilist.entries, hpred, hold, List.range_succ, List.map_append, List.map_cons,
    List.map_nil]
  simp [Ilist.pop, hk]

/-- Several pushes. -/
def Ilist.pushAll (fs : Ilist) (inos : List Nat) : Ilist :=
  inos.foldl Ilist.push fs

@[simp] theorem Ilist.pushAll_nil (fs : Ilist) : fs.pushAll [] = fs := rfl

theorem Ilist.pushAll_cons (fs : Ilist) (ino : Nat) (inos : List Nat) :
    fs.pushAll (ino :: inos) = (fs.push ino).pushAll inos := rfl

theorem Ilist.pushAll_append (fs : Ilist) (inos inos' : List Nat) :
    fs.pushAll (inos ++ inos') = (fs.pushAll inos).pushAll inos' :=
  List.foldl_append

/-- Pushing numbers changes nothing but the table. -/
theorem Ilist.pushAll_rest (fs : Ilist) (inos : List Nat) :
    (fs.pushAll inos).fsIsize = fs.fsIsize ∧
      (fs.pushAll inos).fsNinode = fs.fsNinode + inos.length := by
  induction inos generalizing fs with
  | nil => simp
  | cons ino inos ih =>
      obtain ⟨hisize, hninode⟩ := ih (fs.push ino)
      refine ⟨hisize, ?_⟩
      rw [Ilist.pushAll_cons, hninode]
      simp only [Ilist.push, List.length_cons]
      omega

theorem Ilist.entries_pushAll {fs : Ilist} (h : 0 ≤ fs.fsNinode) (inos : List Nat) :
    (fs.pushAll inos).entries = fs.entries ++ inos := by
  induction inos generalizing fs with
  | nil => simp
  | cons ino inos ih =>
      have hnext : 0 ≤ (fs.push ino).fsNinode := by
        simp only [Ilist.push]
        omega
      rw [Ilist.pushAll_cons, ih hnext, Ilist.entries_push h, List.append_assoc,
        List.singleton_append]

/-- The room in the table. -/
def Ilist.room (fs : Ilist) : Nat := (NICINOD - fs.fsNinode).toNat

/-! ## What a scan finds -/

/-- An inode that the scan may take. -/
def Site.Candidate (site : Site) (s : Store n) (ino : Nat) : Prop :=
  site.readable site.dev (itod ino) = true ∧ (s.disk site.dev ino).di_mode = 0 ∧
    s.ifind site.dev ino = none

instance (site : Site) (s : Store n) (ino : Nat) : Decidable (site.Candidate s ino) :=
  inferInstanceAs (Decidable (_ ∧ _))

/-- The candidates among the given number of inodes from one on. -/
def Site.found (site : Site) (s : Store n) (ino count : Nat) : List Nat :=
  (List.range' ino count).filter fun ino => site.Candidate s ino

theorem Site.mem_found {site : Site} {s : Store n} {first count ino : Nat} :
    ino ∈ site.found s first count ↔
      (first ≤ ino ∧ ino < first + count) ∧ site.Candidate s ino := by
  simp [Site.found, List.mem_range'_1]

theorem Site.found_add (site : Site) (s : Store n) (ino count count' : Nat) :
    site.found s ino (count + count') =
      site.found s ino count ++ site.found s (ino + count) count' := by
  simp only [Site.found]
  rw [← List.filter_append, List.range'_append_1]

theorem Site.nodup_found (site : Site) (s : Store n) (ino count : Nat) :
    (site.found s ino count).Nodup :=
  (List.nodup_range' ..).filter _

theorem itod_inodeAt {adr i : Nat} (hadr : 0 < adr) (hi : i < INOPB) :
    itod (inodeAt adr i) = adr := by
  simp only [itod, inodeAt, INOPB] at *
  omega

/-- The loop over the rest of a block pushes candidates until the table is full. -/
theorem scan_block_pushes {site : Site} {s : Store n} {adr : Nat} {usable : List Nat}
    (count i : Nat) {fs : Ilist} (hcount : i + count = INOPB) (hninode : 0 ≤ fs.fsNinode)
    (hroom : fs.fsNinode < NICINOD) (hfits : inodeAt adr INOPB < 2 ^ 32)
    (husable : ∀ j, j < INOPB → (j ∈ usable ↔ site.Candidate s (inodeAt adr j))) :
    (scanBlock usable (List.range' i count) (inodeAt adr i) fs).2 =
        fs.pushAll ((site.found s (inodeAt adr i) count).take fs.room) ∧
      ((scanBlock usable (List.range' i count) (inodeAt adr i) fs).2.fsNinode < NICINOD →
        (scanBlock usable (List.range' i count) (inodeAt adr i) fs).1 = inodeAt adr INOPB) := by
  induction count generalizing i fs with
  | zero =>
      obtain rfl : i = INOPB := by omega
      exact ⟨by simp [scanBlock, Site.found], fun _ => rfl⟩
  | succ count ih =>
      have hnext : (inodeAt adr i + 1) % 2 ^ 32 = inodeAt adr (i + 1) := by
        simp only [inodeAt, INOPB] at *
        omega
      have hfound : site.found s (inodeAt adr i) (count + 1) =
          (if site.Candidate s (inodeAt adr i) then [inodeAt adr i] else []) ++
            site.found s (inodeAt adr (i + 1)) count := by
        rw [Nat.add_comm, Site.found_add]
        congr 1
        simp [Site.found, List.filter_cons]
      rw [List.range'_succ, scanBlock, hnext, hfound]
      by_cases hcandidate : site.Candidate s (inodeAt adr i)
      · have hsucc : (fs.push (inodeAt adr i)).fsNinode = fs.fsNinode + 1 := rfl
        rw [if_pos ((husable i (by omega)).mpr hcandidate), if_pos hcandidate]
        dsimp only
        split
        · rename_i hfull
          have hone : fs.room = 1 := by
            simp only [Ilist.room]
            omega
          refine ⟨by simp [hone, Ilist.pushAll_cons], fun hless => ?_⟩
          exact absurd hless (by simpa using hfull)
        · rename_i hmore
          have hroom' : fs.room = (fs.push (inodeAt adr i)).room + 1 := by
            simp only [Ilist.room, hsucc]
            omega
          obtain ⟨hpushed, hino⟩ := ih (i + 1) (by omega) (by rw [hsucc]; omega)
            (not_le.mp hmore)
          refine ⟨?_, hino⟩
          rw [hpushed, hroom']
          rfl
      · rw [if_neg (mt (husable i (by omega)).mp hcandidate), if_neg hcandidate]
        exact ih (i + 1) (by omega) hninode hroom

/-- The scan of some blocks pushes candidates until the table is full, and stops in one of them. -/
theorem scan_pushes (site : Site) (s : Store n) (blocks adr inobas : Nat) (fs : Ilist)
    (hadr : 0 < adr) (hninode : 0 ≤ fs.fsNinode) (hroom : fs.fsNinode < NICINOD)
    (hfits : INOPB * (adr + blocks) ≤ 2 ^ 32) :
    (site.scan s blocks (inodeAt adr 0) adr inobas fs).2 =
        fs.pushAll ((site.found s (inodeAt adr 0) (INOPB * blocks)).take fs.room) ∧
      ((site.scan s blocks (inodeAt adr 0) adr inobas fs).1 = inobas ∧ blocks = 0 ∨
        ∃ a, adr ≤ a ∧ a < adr + blocks ∧
          (site.scan s blocks (inodeAt adr 0) adr inobas fs).1 = inodeAt a 0) := by
  induction blocks generalizing adr inobas fs with
  | zero => exact ⟨by simp [Site.scan, Site.found], Or.inl ⟨rfl, rfl⟩⟩
  | succ blocks ih =>
      have hnext : (inodeAt adr 0 + INOPB) % 2 ^ 32 = inodeAt (adr + 1) 0 := by
        simp only [inodeAt, INOPB] at *
        omega
      have hlast : inodeAt adr INOPB = inodeAt (adr + 1) 0 := by
        simp only [inodeAt, INOPB]
        omega
      have hfound : site.found s (inodeAt adr 0) (INOPB * (blocks + 1)) =
          site.found s (inodeAt adr 0) INOPB ++
            site.found s (inodeAt (adr + 1) 0) (INOPB * blocks) := by
        rw [Nat.mul_succ, Nat.add_comm, Site.found_add]
        congr 2
      have hstep : ∀ (inobas' : Nat) {fs' : Ilist}, 0 ≤ fs'.fsNinode → fs'.fsNinode < NICINOD →
          (site.scan s blocks (inodeAt (adr + 1) 0) (adr + 1) inobas' fs').2 =
              fs'.pushAll ((site.found s (inodeAt (adr + 1) 0) (INOPB * blocks)).take fs'.room) ∧
            (inobas' = inodeAt adr 0 → ∃ a, adr ≤ a ∧ a < adr + (blocks + 1) ∧
              (site.scan s blocks (inodeAt (adr + 1) 0) (adr + 1) inobas' fs').1 =
                inodeAt a 0) := by
        intro inobas' fs' hninode' hroom'
        obtain ⟨hpushed, hbase⟩ := ih (adr + 1) inobas' fs' (by omega) hninode' hroom'
          (by simp only [INOPB] at *; omega)
        refine ⟨hpushed, fun hinobas => ?_⟩
        rcases hbase with ⟨hsame, -⟩ | ⟨a, hlow, hhigh, ha⟩
        · exact ⟨adr, le_rfl, by omega, hsame.trans hinobas⟩
        · exact ⟨a, by omega, by omega, ha⟩
      rw [Site.scan, hfound]
      by_cases hread : site.readable site.dev adr = true
      · rw [if_pos hread]
        have husable : ∀ j, j < INOPB →
            (j ∈ site.usable s adr (inodeAt adr 0) ↔ site.Candidate s (inodeAt adr j)) := by
          intro j hj
          have hwrap : (inodeAt adr 0 + j) % 2 ^ 32 = inodeAt adr j := by
            simp only [inodeAt, INOPB] at *
            omega
          rw [Site.usable, List.mem_filter, List.mem_range, hwrap, Site.Candidate, itod_inodeAt hadr hj]
          simp only [hread, hj, true_and, decide_eq_true_iff]
        obtain ⟨hpushed, hino⟩ := scan_block_pushes INOPB 0 (by rfl) hninode hroom
          (by rw [hlast]; simp only [inodeAt, INOPB] at *; omega) husable
        rw [List.range_eq_range']
        rcases hscan : scanBlock (site.usable s adr (inodeAt adr 0)) (List.range' 0 INOPB)
          (inodeAt adr 0) fs with ⟨ino', fs'⟩
        rw [hscan] at hpushed hino
        dsimp only at hpushed hino ⊢
        have hcount := (fs.pushAll_rest
          ((site.found s (inodeAt adr 0) INOPB).take fs.room)).2
        rw [← hpushed, List.length_take] at hcount
        split
        · rename_i hfull
          have hle : fs.room ≤ (site.found s (inodeAt adr 0) INOPB).length := by
            simp only [Ilist.room] at *
            omega
          refine ⟨?_, Or.inr ⟨adr, le_rfl, by omega, rfl⟩⟩
          rw [hpushed, List.take_append_of_le_length hle]
        · rename_i hmore
          have hlt : (site.found s (inodeAt adr 0) INOPB).length ≤ fs.room := by
            simp only [Ilist.room] at *
            omega
          have hroom' : fs'.room = fs.room - (site.found s (inodeAt adr 0) INOPB).length := by
            simp only [Ilist.room] at *
            omega
          rw [hino (not_le.mp hmore), hlast]
          obtain ⟨hrest, hbase⟩ := hstep (inodeAt adr 0) (by omega) (not_le.mp hmore)
          refine ⟨?_, Or.inr (hbase rfl)⟩
          rw [hrest, hroom', hpushed, List.take_append, List.take_of_length_le hlt,
            Ilist.pushAll_append]
      · rw [if_neg hread, hnext]
        have hnone : site.found s (inodeAt adr 0) INOPB = [] := by
          refine List.eq_nil_iff_forall_not_mem.mpr fun ino hino => ?_
          obtain ⟨⟨hlow, hhigh⟩, hcandidate, -⟩ := Site.mem_found.mp hino
          have hblock : itod ino = adr := by
            simp only [itod, inodeAt, INOPB] at *
            omega
          rw [hblock] at hcandidate
          exact hread hcandidate
        rw [hnone, List.nil_append]
        obtain ⟨hrest, hbase⟩ := hstep (inodeAt adr 0) hninode hroom
        exact ⟨hrest, Or.inr (hbase rfl)⟩

/-! ## States and answers -/

/-- The superblock between calls. The file system has an i-list whose numbers fit `ino_t`, and the
rotor is the first inode of one of its blocks, as mounting and earlier calls leave it. -/
structure Ilist.Ready (fs : Ilist) : Prop where
  unlocked : fs.fsIlock = 0
  ninode : 0 ≤ fs.fsNinode ∧ fs.fsNinode ≤ NICINOD
  isize : 1 < fs.fsIsize ∧ INOPB * fs.fsIsize ≤ 2 ^ 32
  rotor : ∃ adr, 0 < adr ∧ adr < fs.fsIsize ∧ fs.fsLasti = inodeAt adr 0

/-- The root of a file system is in use, on the disk and in core, and is not mounted on. -/
def Store.RootInUse (s : Store n) (dev : Nat) : Prop :=
  (s.disk dev ROOTINO).di_mode ≠ 0 ∧ (s.disk dev ROOTINO).di_nlink ≠ 0 ∧
    ∀ ip, s.isFor dev ROOTINO ip →
      (s.inode ip).i_mode ≠ 0 ∧ (s.inode ip).i_nlink ≠ 0 ∧ (s.inode ip).mount = none

/-- The in-core inodes between calls: those of the free list have no references, and the root of
every mounted file system is in use. -/
structure Store.Tidy (s : Store n) : Prop where
  nodup : s.free.Nodup
  unused : ∀ ip ∈ s.free, (s.inode ip).i_count = 0
  roots : ∀ ip mdev, (s.inode ip).mount = some mdev → s.RootInUse mdev

/-- The inodes of the i-list are those below this one. -/
def Ilist.limit (fs : Ilist) : Nat := INOPB * (fs.fsIsize - 1) + 1

/-- What the caller of `ialloc` gets. The rotor is the first inode of a block of the i-list; an inode
is not reserved, and unused; and `ENOSPC` means that every inode that is not reserved is in use, or
in core, or in a block that cannot be read. -/
def Site.Answer (site : Site) : Result n × Store n → Prop
  | (r, s) =>
      (∃ adr, 0 < adr ∧ adr < s.fs.fsIsize ∧ s.fs.fsLasti = inodeAt adr 0) ∧
        match r with
        | .inode ip =>
            (s.inode ip).hashed = true ∧ (s.inode ip).i_dev = site.dev ∧
              ROOTINO < (s.inode ip).i_number ∧ (s.inode ip).i_mode = 0
        | .null => True
        | .enospc =>
            ∀ ino, ROOTINO < ino → ino < s.fs.limit →
              (s.disk site.dev ino).di_mode ≠ 0 ∨ s.ifind site.dev ino ≠ none ∨
                site.readable site.dev (itod ino) = false
        | .panic => False

/-- The table is empty, and the scan finds reserved inodes only. -/
def Site.OnlyReserved (site : Site) (s : Store n) : Prop :=
  s.fs.fsNinode ≤ 0 ∧ (∃ ino, 0 < ino ∧ ino ≤ ROOTINO ∧ site.Candidate s ino) ∧
    ∀ ino, ROOTINO < ino → ino < s.fs.limit → ¬ site.Candidate s ino

/-- The call does not come away from here: it sleeps for a locked inode, or it drops and finds the
reserved inodes again and again. -/
def Site.Stuck (site : Site) : Point × Store n → Prop
  | (.loop, s) => site.OnlyReserved s
  | (.iget dev ino, s) => ∃ ip, s.ifind dev ino = some ip ∧ (s.inode ip).locked = true

/-! ## The refill -/

/-- There are two reserved inodes. -/
theorem length_reserved {inos : List Nat} (hnodup : inos.Nodup)
    (h : ∀ ino ∈ inos, 0 < ino ∧ ino ≤ ROOTINO) : inos.length ≤ ROOTINO := by
  have hsub : inos ⊆ [1, 2] := by
    intro ino hino
    obtain ⟨hpos, hle⟩ := h ino hino
    simp only [ROOTINO] at hle
    simp only [List.mem_cons, List.not_mem_nil, or_false]
    omega
  exact (List.subperm_of_subset hnodup hsub).length_le

/-- Three or more of the candidates are enough to have one that is not reserved, if there is one. -/
theorem Site.take_found_unreserved {site : Site} {s : Store n} {count ino : Nat} (room : Nat)
    (hroom : ROOTINO < room) (hino : ino ∈ site.found s 1 count) (hunreserved : ROOTINO < ino) :
    ∃ ino ∈ (site.found s 1 count).take room, ROOTINO < ino := by
  by_contra hnone
  have hreserved : ∀ ino ∈ (site.found s 1 count).take room, 0 < ino ∧ ino ≤ ROOTINO := by
    intro ino' hino'
    refine ⟨(Site.mem_found.mp (List.mem_of_mem_take hino')).1.1, not_lt.mp fun hlt => ?_⟩
    exact hnone ⟨ino', hino', hlt⟩
  have hlength := length_reserved ((site.nodup_found s 1 count).sublist (List.take_sublist _ _))
    hreserved
  rw [List.length_take] at hlength
  rw [List.take_of_length_le (by omega)] at hreserved
  exact absurd (hreserved ino hino).2 (not_le.mpr hunreserved)

/-- What the refill of an empty table leaves. -/
structure Refilled (site : Site) (s : Store n) (fs : Ilist) : Prop where
  ready : fs.Ready
  isize : fs.fsIsize = s.fs.fsIsize
  candidates : ∀ ino ∈ fs.entries, (0 < ino ∧ ino < s.fs.limit) ∧ site.Candidate s ino
  -- nothing is left out if the table stays empty
  complete : fs.entries = [] → ∀ ino, 0 < ino → ino < s.fs.limit → ¬ site.Candidate s ino
  unreserved : ∀ ino, ROOTINO < ino → ino < s.fs.limit → site.Candidate s ino →
    ∃ ino ∈ fs.entries, ROOTINO < ino

/-- A scan has added as many of the numbers as there was room for. -/
structure Scanned (fs fs' : Ilist) (inos : List Nat) : Prop where
  isize : fs'.fsIsize = fs.fsIsize
  ninode : 0 ≤ fs'.fsNinode ∧ fs'.fsNinode ≤ NICINOD
  entries : fs'.entries = fs.entries ++ inos.take fs.room

theorem Scanned.of_pushes {fs fs' : Ilist} {inos : List Nat}
    (hninode : 0 ≤ fs.fsNinode ∧ fs.fsNinode ≤ NICINOD)
    (hpushed : fs' = fs.pushAll (inos.take fs.room)) : Scanned fs fs' inos := by
  obtain ⟨hisize, hcount⟩ := fs.pushAll_rest (inos.take fs.room)
  rw [← hpushed] at hisize hcount
  refine ⟨hisize, ?_, ?_⟩
  · rw [List.length_take] at hcount
    simp only [Ilist.room] at hcount
    omega
  · rw [hpushed, Ilist.entries_pushAll hninode.1]

/-- The scan from the top, with some entries in the table already. -/
theorem from_top_scanned (site : Site) (s : Store n) (fs : Ilist) (hisize : 1 < fs.fsIsize)
    (hfits : INOPB * fs.fsIsize ≤ 2 ^ 32) (hninode : 0 ≤ fs.fsNinode)
    (hroom : fs.fsNinode < NICINOD) :
    Scanned fs (site.fromTop s fs).2 (site.found s 1 (INOPB * (fs.fsIsize - 1))) ∧
      ∃ adr, 0 < adr ∧ adr < fs.fsIsize ∧ (site.fromTop s fs).1 = inodeAt adr 0 := by
  let top : Ilist := { fs with fsNbehind := 0 }
  have hstart : 0 ≤ top.fsNinode ∧ top.fsNinode ≤ NICINOD := ⟨hninode, le_of_lt hroom⟩
  obtain ⟨hpushed, hbase⟩ := scan_pushes site s (fs.fsIsize - 1) 1 0 top Nat.one_pos hninode
    hroom (by
      rw [Nat.add_sub_cancel' (le_of_lt hisize)]
      exact hfits)
  obtain ⟨hsame, hbounds, hentries⟩ := Scanned.of_pushes hstart hpushed
  refine ⟨⟨hsame, hbounds, hentries⟩, ?_⟩
  rcases hbase with ⟨-, hnone⟩ | ⟨adr, hlow, hhigh, hadr⟩
  · omega
  · exact ⟨adr, hlow, by omega, hadr⟩

/-- The scan from the rotor on, with an empty table. -/
theorem from_rotor_scanned (site : Site) (s : Store n) (fs : Ilist) {adr : Nat}
    (hfits : INOPB * fs.fsIsize ≤ 2 ^ 32) (hempty : fs.fsNinode = 0) (hadr : 0 < adr)
    (hlt : adr < fs.fsIsize) :
    Scanned fs (site.scan s (fs.fsIsize - adr) (inodeAt adr 0) adr 0 fs).2
        (site.found s (inodeAt adr 0) (INOPB * (fs.fsIsize - adr))) ∧
      ∃ a, 0 < a ∧ a < fs.fsIsize ∧
        (site.scan s (fs.fsIsize - adr) (inodeAt adr 0) adr 0 fs).1 = inodeAt a 0 := by
  have hbounds : 0 ≤ fs.fsNinode ∧ fs.fsNinode < NICINOD := by
    rw [hempty]
    decide
  obtain ⟨hpushed, hbase⟩ := scan_pushes site s (fs.fsIsize - adr) adr 0 fs hadr hbounds.1
    hbounds.2 (by
      rw [Nat.add_sub_cancel' (le_of_lt hlt)]
      exact hfits)
  refine ⟨.of_pushes ⟨hbounds.1, le_of_lt hbounds.2⟩ hpushed, ?_⟩
  rcases hbase with ⟨-, hnone⟩ | ⟨a, hlow, hhigh, ha⟩
  · omega
  · exact ⟨a, by omega, by omega, ha⟩

/-- The table after the refill of an empty one: full of candidates from the rotor on, or with what
the scan from the top added to some candidates. -/
theorem refill_entries (site : Site) {s : Store n} (h : s.fs.Ready) (hempty : s.fs.fsNinode = 0) :
    (site.refill s).fs.Ready ∧ (site.refill s).fs.fsIsize = s.fs.fsIsize ∧
      ∃ inos : List Nat, inos.Nodup ∧
        (∀ ino ∈ inos, ino ∈ site.found s 1 (INOPB * (s.fs.fsIsize - 1))) ∧
        (NICINOD ≤ inos.length ∧ (site.refill s).fs.entries = inos ∨
          inos.length < NICINOD ∧ (site.refill s).fs.entries = inos ++
            (site.found s 1 (INOPB * (s.fs.fsIsize - 1))).take (NICINOD - inos.length)) := by
  obtain ⟨-, -, ⟨hisize, hfits⟩, adr, hadr, hadrlt, hlasti⟩ := h
  let locked : Ilist := { s.fs with fsIlock := s.fs.fsIlock + 1 }
  have hnil : locked.entries = [] := by
    simp [Ilist.entries, locked, hempty]
  have hroom : locked.room = NICINOD := by
    simp [Ilist.room, locked, hempty]
  have hitod : itod locked.fsLasti = adr := by
    show itod s.fs.fsLasti = adr
    rw [hlasti]
    exact itod_inodeAt hadr (by decide)
  unfold Site.refill
  dsimp only
  split
  · obtain ⟨⟨hsize, hbounds, hentries⟩, hbase⟩ :=
      from_rotor_scanned site s locked hfits hempty hadr hadrlt
    have hscan : site.scan s (locked.fsIsize - itod locked.fsLasti) locked.fsLasti
        (itod locked.fsLasti) 0 locked =
          site.scan s (locked.fsIsize - adr) (inodeAt adr 0) adr 0 locked := by
      rw [hitod]
      show site.scan s _ s.fs.fsLasti _ _ _ = _
      rw [hlasti]
    rw [hnil, hroom, List.nil_append] at hentries
    have hsub : ∀ ino ∈ (site.found s (inodeAt adr 0)
        (INOPB * (locked.fsIsize - adr))).take NICINOD,
          ino ∈ site.found s 1 (INOPB * (s.fs.fsIsize - 1)) := by
      intro ino hino
      obtain ⟨hrange, hcandidate⟩ := Site.mem_found.mp (List.mem_of_mem_take hino)
      have hsize : locked.fsIsize = s.fs.fsIsize := rfl
      refine Site.mem_found.mpr ⟨?_, hcandidate⟩
      simp only [inodeAt, INOPB] at *
      omega
    have hnodup := (site.nodup_found s (inodeAt adr 0) (INOPB * (locked.fsIsize - adr))).sublist
      (List.take_sublist NICINOD _)
    rw [← hentries] at hsub hnodup
    rw [hscan]
    generalize site.scan s (locked.fsIsize - adr) (inodeAt adr 0) adr 0 locked = result at *
    obtain ⟨base, fs⟩ := result
    dsimp only at *
    have hlength := fs.length_entries
    split
    · rename_i hmore
      have hsize' : fs.fsIsize = s.fs.fsIsize := hsize
      obtain ⟨⟨hsame, htop, htopEntries⟩, htopBase⟩ := from_top_scanned site s fs
        (by omega) (by rw [hsize']; exact hfits) hbounds.1 hmore
      rw [hsize'] at hsame htopEntries htopBase
      have hleft : fs.room = NICINOD - fs.entries.length := by
        simp only [Ilist.room]
        omega
      rw [hleft] at htopEntries
      refine ⟨⟨rfl, htop, ?_, ?_⟩, hsame, fs.entries, hnodup, hsub, Or.inr ⟨by omega, ?_⟩⟩
      · dsimp only
        rw [hsame]
        exact ⟨hisize, hfits⟩
      · dsimp only
        rw [hsame]
        exact htopBase
      · exact htopEntries
    · rename_i hfull
      refine ⟨⟨rfl, hbounds, ?_, ?_⟩, hsize, fs.entries, hnodup, hsub, Or.inl ⟨by omega, rfl⟩⟩
      · dsimp only
        rw [hsize]
        exact ⟨hisize, hfits⟩
      · dsimp only
        rw [hsize]
        exact hbase
  · obtain ⟨⟨hsame, htop, htopEntries⟩, htopBase⟩ := from_top_scanned site s locked
      hisize hfits (le_of_eq hempty.symm) (by
        show s.fs.fsNinode < NICINOD
        rw [hempty]
        decide)
    rw [hnil, hroom, List.nil_append] at htopEntries
    refine ⟨⟨rfl, htop, ?_, ?_⟩, hsame, [], List.nodup_nil, by simp, Or.inr ⟨by decide, ?_⟩⟩
    · dsimp only
      rw [hsame]
      exact ⟨hisize, hfits⟩
    · dsimp only
      rw [hsame]
      exact htopBase
    · rw [List.nil_append]
      exact htopEntries

/-- What the refill of an empty table leaves. -/
theorem refill_refilled (site : Site) {s : Store n} (h : s.fs.Ready) (hempty : s.fs.fsNinode = 0) :
    Refilled site s (site.refill s).fs := by
  obtain ⟨hready, hisize, inos, hnodup, hsub, hentries⟩ := refill_entries site h hempty
  have hrange : ∀ ino, ino ∈ site.found s 1 (INOPB * (s.fs.fsIsize - 1)) ↔
      (0 < ino ∧ ino < s.fs.limit) ∧ site.Candidate s ino := by
    intro ino
    rw [Site.mem_found, Ilist.limit]
    exact and_congr_left fun _ => by omega
  refine ⟨hready, hisize, ?_, ?_, ?_⟩
  · intro ino hino
    refine (hrange ino).mp ?_
    rcases hentries with ⟨-, heq⟩ | ⟨-, heq⟩ <;> rw [heq] at hino
    · exact hsub ino hino
    · exact (List.mem_append.mp hino).elim (hsub ino) List.mem_of_mem_take
  · intro hnil ino hpos hlt hcandidate
    have hmem := (hrange ino).mpr ⟨⟨hpos, hlt⟩, hcandidate⟩
    rcases hentries with ⟨hfull, heq⟩ | ⟨hmore, heq⟩ <;> rw [heq] at hnil
    · rw [hnil] at hfull
      exact absurd hfull (by decide)
    · obtain ⟨rfl, htake⟩ := List.append_eq_nil_iff.mp hnil
      rcases List.take_eq_nil_iff.mp htake with hzero | hnone
      · exact absurd hzero (by decide)
      · rw [hnone] at hmem
        exact absurd hmem List.not_mem_nil
  · intro ino hunreserved hlt hcandidate
    have hmem := (hrange ino).mpr ⟨⟨Nat.zero_lt_of_lt hunreserved, hlt⟩, hcandidate⟩
    by_cases hsome : ∃ ino ∈ inos, ROOTINO < ino
    · obtain ⟨ino', hino', hlt'⟩ := hsome
      refine ⟨ino', ?_, hlt'⟩
      rcases hentries with ⟨-, heq⟩ | ⟨-, heq⟩ <;> rw [heq]
      · exact hino'
      · exact List.mem_append_left _ hino'
    · -- at most the two reserved inodes come from the rotor
      have hfew := length_reserved hnodup fun ino' hino' =>
        ⟨((hrange ino').mp (hsub ino' hino')).1.1, not_lt.mp fun hlt' => hsome ⟨ino', hino', hlt'⟩⟩
      rcases hentries with ⟨hfull, -⟩ | ⟨-, heq⟩
      · exact absurd (hfull.trans hfew) (by decide)
      · obtain ⟨ino', hino', hlt'⟩ := Site.take_found_unreserved (NICINOD - inos.length)
          (by simp only [NICINOD, ROOTINO] at *; omega) hmem hunreserved
        exact ⟨ino', by rw [heq]; exact List.mem_append_right _ hino', hlt'⟩

/-! ## The in-core inodes -/

theorem Store.isFor_iff {s : Store n} {dev ino : Nat} {ip : Fin n} :
    s.isFor dev ino ip = true ↔
      (s.inode ip).hashed = true ∧ (s.inode ip).i_number = ino ∧ (s.inode ip).i_dev = dev := by
  simp [Store.isFor]

@[simp] theorem Store.modify_same (s : Store n) (ip : Fin n) (f : Incore → Incore) :
    (s.modify ip f).inode ip = f (s.inode ip) :=
  Function.update_self ..

theorem Store.modify_other (s : Store n) {ip iq : Fin n} (f : Incore → Incore) (h : iq ≠ ip) :
    (s.modify ip f).inode iq = s.inode iq :=
  Function.update_of_ne h _ _

/-- What one in-core inode needs for the roots to stay in use: it is for the same inode or for none
that matters, and keeps its mode unless it has no links. -/
theorem Store.RootInUse.of_inodes {s t : Store n} {dev : Nat} (h : s.RootInUse dev)
    (hdisk : t.disk dev ROOTINO = s.disk dev ROOTINO ∨
      (t.disk dev ROOTINO).di_mode ≠ 0 ∧ (t.disk dev ROOTINO).di_nlink ≠ 0)
    (hinode : ∀ ip, t.isFor dev ROOTINO ip = true →
      s.isFor dev ROOTINO ip = true ∧ (t.inode ip).i_mode = (s.inode ip).i_mode ∧
          (t.inode ip).i_nlink = (s.inode ip).i_nlink ∧
          ((t.inode ip).mount = (s.inode ip).mount ∨ (t.inode ip).mount = none) ∨
        (t.inode ip).i_mode ≠ 0 ∧ (t.inode ip).i_nlink ≠ 0 ∧ (t.inode ip).mount = none) :
    t.RootInUse dev := by
  obtain ⟨hmode, hnlink, hincore⟩ := h
  have hdisk' : (t.disk dev ROOTINO).di_mode ≠ 0 ∧ (t.disk dev ROOTINO).di_nlink ≠ 0 := by
    rcases hdisk with heq | hne
    · rw [heq]
      exact ⟨hmode, hnlink⟩
    · exact hne
  refine ⟨hdisk'.1, hdisk'.2, fun ip hip => ?_⟩
  rcases hinode ip hip with ⟨hold, heqMode, heqNlink, hmount⟩ | hnew
  · obtain ⟨hm, hl, hnone⟩ := hincore ip hold
    refine ⟨heqMode ▸ hm, heqNlink ▸ hl, ?_⟩
    exact hmount.elim (fun heq => heq.trans hnone) id
  · exact hnew

/-- `iget` finds an inode in core. -/
theorem Store.Tidy.grab {s : Store n} (h : s.Tidy) (ip : Fin n) :
    (s.grab ip).Tidy ∧ ip ∉ (s.grab ip).free := by
  have hinode : ∀ iq, iq ≠ ip → (s.grab ip).inode iq = s.inode iq := by
    intro iq hne
    unfold Store.grab
    split <;> exact Store.modify_other _ _ hne
  have hself : (s.grab ip).inode ip =
      { s.inode ip with i_count := (s.inode ip).i_count + 1, locked := true } := by
    unfold Store.grab
    split <;> exact Store.modify_same ..
  have hfree : (s.grab ip).free ⊆ s.free ∧ (s.grab ip).free.Nodup ∧ ip ∉ (s.grab ip).free := by
    unfold Store.grab
    split
    · exact ⟨List.erase_subset, h.nodup.erase ip, h.nodup.not_mem_erase⟩
    · rename_i hcount
      exact ⟨List.Subset.refl _, h.nodup, fun hmem => hcount (h.unused ip hmem)⟩
  have hfields : ∀ iq, ((s.grab ip).inode iq).hashed = (s.inode iq).hashed ∧
      ((s.grab ip).inode iq).i_number = (s.inode iq).i_number ∧
      ((s.grab ip).inode iq).i_dev = (s.inode iq).i_dev ∧
      ((s.grab ip).inode iq).i_mode = (s.inode iq).i_mode ∧
      ((s.grab ip).inode iq).i_nlink = (s.inode iq).i_nlink ∧
      ((s.grab ip).inode iq).mount = (s.inode iq).mount := by
    intro iq
    by_cases heq : iq = ip
    · subst heq
      rw [hself]
      simp
    · rw [hinode iq heq]
      simp
  have hdisk : (s.grab ip).disk = s.disk := by
    unfold Store.grab
    split <;> rfl
  refine ⟨⟨hfree.2.1, ?_, ?_⟩, hfree.2.2⟩
  · intro iq hiq
    have hne : iq ≠ ip := fun heq => hfree.2.2 (heq ▸ hiq)
    rw [hinode iq hne]
    exact h.unused iq (hfree.1 hiq)
  · intro iq mdev hmount
    rw [(hfields iq).2.2.2.2.2] at hmount
    refine (h.roots iq mdev hmount).of_inodes (Or.inl (by rw [hdisk])) fun ir hir => Or.inl ?_
    obtain ⟨hhashed, hnumber, hdev, hmode, hnlink, hmounted⟩ := hfields ir
    rw [Store.isFor_iff, hhashed, hnumber, hdev, ← Store.isFor_iff] at hir
    exact ⟨hir, hmode, hnlink, Or.inl hmounted⟩

/-- `iget` takes the first free inode for another one and reads it. -/
theorem Store.Tidy.recycle {s : Store n} (h : s.Tidy) {ip : Fin n} {rest : List (Fin n)}
    (hfree : s.free = ip :: rest) (dev ino : Nat) :
    ((s.recycle ip dev ino).fill ip (s.disk dev ino)).Tidy ∧
      ip ∉ ((s.recycle ip dev ino).fill ip (s.disk dev ino)).free := by
  have hnodup := h.nodup
  rw [hfree] at hnodup
  obtain ⟨hnot, hrest⟩ := List.nodup_cons.mp hnodup
  have hfree' : ((s.recycle ip dev ino).fill ip (s.disk dev ino)).free = rest := by
    show s.free.tail = rest
    rw [hfree, List.tail_cons]
  have hother : ∀ iq, iq ≠ ip →
      ((s.recycle ip dev ino).fill ip (s.disk dev ino)).inode iq = s.inode iq := by
    intro iq hne
    unfold Store.fill Store.recycle
    rw [Store.modify_other _ _ hne, Store.modify_other _ _ hne]
  have hself : ((s.recycle ip dev ino).fill ip (s.disk dev ino)).inode ip =
      ⟨dev, ino, true, true, none, false, (s.inode ip).i_count + 1, (s.disk dev ino).di_mode,
        (s.disk dev ino).di_nlink⟩ := by
    unfold Store.fill Store.recycle
    rw [Store.modify_same, Store.modify_same]
  refine ⟨⟨?_, ?_, ?_⟩, ?_⟩
  · rw [hfree']
    exact hrest
  · intro iq hiq
    rw [hfree'] at hiq
    have hne : iq ≠ ip := fun heq => hnot (heq ▸ hiq)
    rw [hother iq hne]
    exact h.unused iq (by rw [hfree]; exact List.mem_cons_of_mem _ hiq)
  · intro iq mdev hmount
    have hne : iq ≠ ip := by
      rintro rfl
      rw [hself] at hmount
      cases hmount
    rw [hother iq hne] at hmount
    have hroot := h.roots iq mdev hmount
    refine hroot.of_inodes (Or.inl rfl) fun ir hir => ?_
    rw [Store.isFor_iff] at hir
    by_cases heq : ir = ip
    · subst heq
      rw [hself] at hir ⊢
      obtain ⟨-, rfl, rfl⟩ := hir
      exact Or.inr ⟨hroot.1, hroot.2.1, rfl⟩
    · rw [hother ir heq] at hir ⊢
      exact Or.inl ⟨Store.isFor_iff.mpr hir, rfl, rfl, Or.inl rfl⟩
  · rw [hfree']
    exact hnot

/-- What `iput` does to the state. -/
structure Released (site : Site) (s : Store n) (ip : Fin n) (t : Store n) : Prop where
  same : ∀ iq, (t.inode iq).hashed = (s.inode iq).hashed ∧
    (t.inode iq).i_number = (s.inode iq).i_number ∧ (t.inode iq).i_dev = (s.inode iq).i_dev ∧
    (t.inode iq).i_nlink = (s.inode iq).i_nlink
  mode : ∀ iq, (t.inode iq).i_mode = (s.inode iq).i_mode ∨ iq = ip ∧ (s.inode ip).i_nlink = 0
  mount : ∀ iq, (t.inode iq).mount = (s.inode iq).mount ∨ (t.inode iq).mount = none
  count : ∀ iq, iq ≠ ip → (t.inode iq).i_count = (s.inode iq).i_count
  free : t.free = s.free ∨ t.free = s.free ++ [ip] ∧ (t.inode ip).i_count = 0
  disk : ∀ dev ino, t.disk dev ino = s.disk dev ino ∨
    dev = (s.inode ip).i_dev ∧ ino = (s.inode ip).i_number ∧
      t.disk dev ino = ⟨(t.inode ip).i_mode, (t.inode ip).i_nlink⟩
  -- the number comes back into the table together with an unused inode in core
  fs : t.fs = s.fs ∨ (s.inode ip).i_nlink = 0 ∧ (s.inode ip).i_dev = site.dev ∧
    t.fs = Alloc.ifree (s.inode ip).i_number s.fs ∧ (t.inode ip).i_mode = 0 ∧
    (t.inode ip).mount = none ∧ (t.inode ip).locked = false

/-- `ifree` touches the superblock only. -/
theorem Site.ifree_rest (site : Site) (s : Store n) (dev ino : Nat) :
    (site.ifree s dev ino).inode = s.inode ∧ (site.ifree s dev ino).free = s.free ∧
      (site.ifree s dev ino).disk = s.disk ∧
      ((site.ifree s dev ino).fs = s.fs ∨
        dev = site.dev ∧ (site.ifree s dev ino).fs = Alloc.ifree ino s.fs) := by
  unfold Site.ifree
  split
  · exact ⟨rfl, rfl, rfl, Or.inr ⟨‹_›, rfl⟩⟩
  · exact ⟨rfl, rfl, rfl, Or.inl rfl⟩

/-- `iupdat` writes at most the inode it is called for. -/
theorem Site.iupdat_rest (site : Site) (s : Store n) (ip : Fin n) :
    (site.iupdat s ip).inode = s.inode ∧ (site.iupdat s ip).free = s.free ∧
      (site.iupdat s ip).fs = s.fs ∧ ∀ dev ino, (site.iupdat s ip).disk dev ino = s.disk dev ino ∨
        dev = (s.inode ip).i_dev ∧ ino = (s.inode ip).i_number ∧
          (site.iupdat s ip).disk dev ino = ⟨(s.inode ip).i_mode, (s.inode ip).i_nlink⟩ := by
  unfold Site.iupdat
  dsimp only
  split
  · refine ⟨rfl, rfl, rfl, fun dev ino => ?_⟩
    dsimp only
    split
    · rename_i hkey
      exact Or.inr ⟨hkey.1, hkey.2, rfl⟩
    · exact Or.inl rfl
  · exact ⟨rfl, rfl, rfl, fun _ _ => Or.inl rfl⟩

theorem iput_released (site : Site) (s : Store n) (ip : Fin n) :
    Released site s ip (site.iput s ip) := by
  unfold Site.iput
  dsimp only
  split
  · rename_i hone
    -- the inode before `iupdat`, with its links checked
    have hfreed : ∃ t : Store n,
        (if (s.inode ip).i_nlink = 0 ∧ site.fs_ronly (s.inode ip).i_dev = false then
          site.ifree (s.modify ip fun i => { i with i_mode := 0, changed := true })
            (s.inode ip).i_dev (s.inode ip).i_number
        else s) = t ∧ t.free = s.free ∧ t.disk = s.disk ∧
        (∀ iq, iq ≠ ip → t.inode iq = s.inode iq) ∧
        ((t.inode ip).hashed = (s.inode ip).hashed ∧
          (t.inode ip).i_number = (s.inode ip).i_number ∧
          (t.inode ip).i_dev = (s.inode ip).i_dev ∧ (t.inode ip).i_nlink = (s.inode ip).i_nlink ∧
          (t.inode ip).i_count = 1) ∧
        (t.inode ip = s.inode ip ∧ t.fs = s.fs ∨
          (t.inode ip).i_mode = 0 ∧ (s.inode ip).i_nlink = 0 ∧
            (t.fs = s.fs ∨ (s.inode ip).i_dev = site.dev ∧
              t.fs = Alloc.ifree (s.inode ip).i_number s.fs)) := by
      split
      · rename_i hlinks
        obtain ⟨hinode, hfree, hdisk, hfs⟩ := site.ifree_rest
          (s.modify ip fun i => { i with i_mode := 0, changed := true }) (s.inode ip).i_dev
          (s.inode ip).i_number
        refine ⟨_, rfl, hfree, hdisk, fun iq hne => ?_, ?_, Or.inr ⟨?_, hlinks.1, hfs⟩⟩
        · rw [hinode, Store.modify_other _ _ hne]
        · rw [hinode, Store.modify_same]
          exact ⟨rfl, rfl, rfl, rfl, hone⟩
        · rw [hinode, Store.modify_same]
      · exact ⟨s, rfl, rfl, rfl, fun _ _ => rfl, ⟨rfl, rfl, rfl, rfl, hone⟩, Or.inl ⟨rfl, rfl⟩⟩
    obtain ⟨t, hfreed, hfree, hdisk, hother, ⟨hhashed, hnumber, hdev, hnlink, hcount⟩, hmode⟩ :=
      hfreed
    rw [hfreed]
    obtain ⟨huInode, huFree, huFs, huDisk⟩ := site.iupdat_rest t ip
    have hlast : ∀ iq, iq ≠ ip → ((site.iupdat t ip).modify ip fun i =>
        { i with locked := false, mount := none, changed := false,
                 i_count := i.i_count - 1 }).inode iq = s.inode iq := by
      intro iq hne
      rw [Store.modify_other _ _ hne, huInode, hother iq hne]
    refine ⟨fun iq => ?_, fun iq => ?_, fun iq => ?_, fun iq hne => ?_, Or.inr ⟨?_, ?_⟩,
      fun dev ino => ?_, ?_⟩
    · by_cases heq : iq = ip
      · subst heq
        dsimp only
        rw [Store.modify_same, huInode]
        exact ⟨hhashed, hnumber, hdev, hnlink⟩
      · dsimp only
        rw [hlast iq heq]
        exact ⟨rfl, rfl, rfl, rfl⟩
    · by_cases heq : iq = ip
      · subst heq
        dsimp only
        rw [Store.modify_same, huInode]
        rcases hmode with ⟨hsame, -⟩ | ⟨-, hzero, -⟩
        · exact Or.inl (by rw [hsame])
        · exact Or.inr ⟨rfl, hzero⟩
      · dsimp only
        rw [hlast iq heq]
        exact Or.inl rfl
    · by_cases heq : iq = ip
      · subst heq
        dsimp only
        rw [Store.modify_same]
        exact Or.inr rfl
      · dsimp only
        rw [hlast iq heq]
        exact Or.inl rfl
    · dsimp only
      rw [hlast iq hne]
    · show (site.iupdat t ip).free ++ [ip] = s.free ++ [ip]
      rw [huFree, hfree]
    · dsimp only
      rw [Store.modify_same, huInode]
      simp [hcount]
    · dsimp only
      rw [Store.modify_same, huInode]
      rcases huDisk dev ino with heq | ⟨hd, hi, heq⟩
      · exact Or.inl (heq.trans (by rw [hdisk]))
      · exact Or.inr ⟨hd.trans hdev, hi.trans hnumber, heq⟩
    · dsimp only
      rw [Store.modify_same, huInode]
      show (site.iupdat t ip).fs = s.fs ∨ _
      rw [huFs]
      rcases hmode with ⟨-, hsame⟩ | ⟨hzero, hlinks, hsame | ⟨hd, heq⟩⟩
      · exact Or.inl hsame
      · exact Or.inl hsame
      · exact Or.inr ⟨hlinks, hd, huFs.trans heq, hzero, rfl, rfl⟩
  · refine ⟨fun iq => ?_, fun iq => ?_, fun iq => ?_, fun iq hne => ?_, Or.inl rfl,
      fun dev ino => Or.inl rfl, Or.inl rfl⟩
    · by_cases heq : iq = ip
      · subst heq
        rw [Store.modify_same]
        exact ⟨rfl, rfl, rfl, rfl⟩
      · rw [Store.modify_other _ _ heq]
        exact ⟨rfl, rfl, rfl, rfl⟩
    · by_cases heq : iq = ip
      · subst heq
        rw [Store.modify_same]
        exact Or.inl rfl
      · rw [Store.modify_other _ _ heq]
        exact Or.inl rfl
    · by_cases heq : iq = ip
      · subst heq
        rw [Store.modify_same]
        exact Or.inl rfl
      · rw [Store.modify_other _ _ heq]
        exact Or.inl rfl
    · rw [Store.modify_other _ _ hne]

theorem Released.isFor_eq {site : Site} {s t : Store n} {ip : Fin n} (h : Released site s ip t)
    (dev ino : Nat) (iq : Fin n) : t.isFor dev ino iq = s.isFor dev ino iq := by
  obtain ⟨hhashed, hnumber, hdev, -⟩ := h.same iq
  simp only [Store.isFor, hhashed, hnumber, hdev]

/-- `iput` of an inode on a hash chain. -/
theorem Released.tidy {site : Site} {s t : Store n} {ip : Fin n} (h : Released site s ip t)
    (hs : s.Tidy) (hfree : ip ∉ s.free) (hhashed : (s.inode ip).hashed = true) : t.Tidy := by
  refine ⟨?_, ?_, ?_⟩
  · rcases h.free with heq | ⟨heq, -⟩ <;> rw [heq]
    · exact hs.nodup
    · exact List.nodup_append.mpr ⟨hs.nodup, List.nodup_singleton ip, fun iq hiq ir hir =>
        fun heq' => hfree (List.mem_singleton.mp hir ▸ heq' ▸ hiq)⟩
  · intro iq hiq
    by_cases heq : iq = ip
    · subst heq
      rcases h.free with hsame | ⟨-, hcount⟩
      · rw [hsame] at hiq
        exact absurd hiq hfree
      · exact hcount
    · rw [h.count iq heq]
      refine hs.unused iq ?_
      rcases h.free with hsame | ⟨happ, -⟩
      · rwa [hsame] at hiq
      · rw [happ] at hiq
        exact (List.mem_append.mp hiq).resolve_right fun hlast => heq (List.mem_singleton.mp hlast)
  · intro iq mdev hmount
    have hold : (s.inode iq).mount = some mdev := by
      rcases h.mount iq with heq | hnone
      · rwa [heq] at hmount
      · rw [hnone] at hmount
        cases hmount
    have hroot := hs.roots iq mdev hold
    have hmode : ∀ ir, s.isFor mdev ROOTINO ir = true →
        (t.inode ir).i_mode = (s.inode ir).i_mode := by
      intro ir hir
      rcases h.mode ir with hsame | ⟨rfl, hlinks⟩
      · exact hsame
      · exact absurd hlinks (hroot.2.2 ir hir).2.1
    refine hroot.of_inodes ?_ fun ir hir => Or.inl ?_
    · rcases h.disk mdev ROOTINO with hsame | ⟨hdev, hnumber, hwritten⟩
      · exact Or.inl hsame
      · have hip : s.isFor mdev ROOTINO ip = true :=
          Store.isFor_iff.mpr ⟨hhashed, hnumber.symm, hdev.symm⟩
        rw [hwritten, hmode ip hip, (h.same ip).2.2.2]
        exact Or.inr ⟨(hroot.2.2 ip hip).1, (hroot.2.2 ip hip).2.1⟩
    · rw [h.isFor_eq] at hir
      exact ⟨hir, hmode ir hir, (h.same ir).2.2.2, h.mount ir⟩

theorem Store.isFor_of_ifind {s : Store n} {dev ino : Nat} {ip : Fin n}
    (h : s.ifind dev ino = some ip) : s.isFor dev ino ip = true :=
  List.find?_some h

theorem Store.ifind_congr {s t : Store n} (h : ∀ dev ino ip, t.isFor dev ino ip = s.isFor dev ino ip)
    (dev ino : Nat) : t.ifind dev ino = s.ifind dev ino := by
  have heq : t.isFor dev ino = s.isFor dev ino := funext (h dev ino)
  simp only [Store.ifind, heq]

theorem Store.ifind_grab (s : Store n) (ip : Fin n) (dev ino : Nat) :
    (s.grab ip).ifind dev ino = s.ifind dev ino := by
  refine Store.ifind_congr (fun dev ino iq => ?_) dev ino
  unfold Store.grab Store.isFor
  by_cases heq : iq = ip
  · subst heq
    split <;> simp
  · split <;> rw [Store.modify_other _ _ heq]

/-- The inode that was read is the only one in core for its number. -/
theorem Store.ifind_recycle {s : Store n} {dev ino : Nat} (h : s.ifind dev ino = none) (ip : Fin n)
    (dp : Dinode) : ((s.recycle ip dev ino).fill ip dp).ifind dev ino = some ip := by
  have hself : ((s.recycle ip dev ino).fill ip dp).isFor dev ino ip = true := by
    unfold Store.isFor Store.fill Store.recycle
    rw [Store.modify_same, Store.modify_same]
    simp
  have hother : ∀ iq, iq ≠ ip → ((s.recycle ip dev ino).fill ip dp).isFor dev ino iq ≠ true := by
    intro iq hne hiq
    unfold Store.isFor Store.fill Store.recycle at hiq
    rw [Store.modify_other _ _ hne, Store.modify_other _ _ hne] at hiq
    exact List.find?_eq_none.mp h iq (List.mem_finRange iq) hiq
  cases hfind : ((s.recycle ip dev ino).fill ip dp).ifind dev ino with
  | none => exact absurd hself (List.find?_eq_none.mp hfind ip (List.mem_finRange ip))
  | some iq =>
      by_cases heq : iq = ip
      · rw [heq]
      · exact absurd (Store.isFor_of_ifind hfind) (hother iq heq)

/-! ## The table -/

theorem Ilist.Ready.of_table {fs fs' : Ilist} (h : fs.Ready) (hlock : fs'.fsIlock = fs.fsIlock)
    (hisize : fs'.fsIsize = fs.fsIsize) (hlasti : fs'.fsLasti = fs.fsLasti)
    (hninode : 0 ≤ fs'.fsNinode ∧ fs'.fsNinode ≤ NICINOD) : fs'.Ready := by
  refine ⟨hlock.trans h.unlocked, hninode, ?_, ?_⟩
  · rw [hisize]
    exact h.isize
  · rw [hisize, hlasti]
    exact h.rotor

/-- What `ifree` does on an unlocked superblock. -/
theorem ifree_unlocked {fs : Ilist} (hunlocked : fs.fsIlock = 0) (ino : Nat) :
    (Alloc.ifree ino fs).fsIlock = fs.fsIlock ∧ (Alloc.ifree ino fs).fsIsize = fs.fsIsize ∧
      (Alloc.ifree ino fs).fsLasti = fs.fsLasti ∧
      ((NICINOD : Int) ≤ fs.fsNinode ∧ (Alloc.ifree ino fs).fsNinode = fs.fsNinode ∨
        fs.fsNinode < NICINOD ∧ (Alloc.ifree ino fs).fsNinode = fs.fsNinode + 1 ∧
          (Alloc.ifree ino fs).fsInode = Function.update fs.fsInode fs.fsNinode ino) := by
  unfold Alloc.ifree
  dsimp only
  generalize (fs.fsTinode + 1) % 2 ^ 32 = tinode
  generalize (fs.fsNbehind + 1) % 2 ^ 32 = nbehind
  rw [if_neg (not_not.mpr hunlocked)]
  split
  · rename_i hfull
    split <;> exact ⟨rfl, rfl, rfl, Or.inl ⟨hfull, rfl⟩⟩
  · rename_i hroom
    exact ⟨rfl, rfl, rfl, Or.inr ⟨not_le.mp hroom, rfl, rfl⟩⟩

/-- `ifree` keeps the superblock ready, and the number it adds comes out again first. -/
theorem Ilist.Ready.ifree {fs : Ilist} (h : fs.Ready) (ino : Nat) :
    (Alloc.ifree ino fs).Ready ∧ (fs.fsNinode < NICINOD →
      (Alloc.ifree ino fs).fsNinode = fs.fsNinode + 1 ∧ (Alloc.ifree ino fs).pop.1 = ino) := by
  obtain ⟨hlock, hisize, hlasti, htable⟩ := ifree_unlocked h.unlocked ino
  have hninode := h.ninode
  refine ⟨h.of_table hlock hisize hlasti ?_, fun hroom => ?_⟩
  · rcases htable with ⟨-, heq⟩ | ⟨hroom, heq, -⟩ <;> rw [heq] <;> omega
  · rcases htable with ⟨hfull, -⟩ | ⟨-, heq, hinode⟩
    · exact absurd hfull (not_le.mpr hroom)
    · refine ⟨heq, ?_⟩
      simp [Ilist.pop, heq, hinode]

theorem Ilist.Ready.pop {fs : Ilist} (h : fs.Ready) (hpos : 0 < fs.fsNinode) : fs.pop.2.Ready := by
  refine ⟨h.unlocked, ?_, h.isize, h.rotor⟩
  show 0 ≤ fs.fsNinode - 1 ∧ fs.fsNinode - 1 ≤ NICINOD
  have hle := h.ninode.2
  omega

/-- The call is back at `loop`. The table is as before, or an unused inode that is in core has come
back to it. -/
def Site.Continues (site : Site) (s : Store n) (ino : Nat) (t : Store n) : Prop :=
  t.Tidy ∧ (t.fs = s.fs ∨ t.fs = Alloc.ifree ino s.fs ∧ ROOTINO < ino ∧
    ∃ ip, t.ifind site.dev ino = some ip ∧ (t.inode ip).i_mode = 0 ∧ (t.inode ip).mount = none ∧
      (t.inode ip).locked = false)

section
variable {site : Site} {s : Store n} {dev ino : Nat}

variable (site) in
theorem got_unused {ip : Fin n} (h : (s.inode ip).i_mode = 0) :
    ∃ tinode, site.got s ip =
      .inl (.inode ip, { s with fs := { s.fs with fsFmod := 1, fsTinode := tinode } }) :=
  ⟨_, if_pos h⟩

theorem got_used {ip : Fin n} (h : (s.inode ip).i_mode ≠ 0) :
    site.got s ip = .inr (.loop, site.iput s ip) :=
  if_neg h

variable (site) in
/-- What `ialloc` does with an inode: it is unused and has the right number, or goes back. -/
theorem got_next {ip : Fin n} (hs : s.Tidy) (hready : s.fs.Ready) (hfree : ip ∉ s.free)
    (hfind : s.ifind dev ino = some ip)
    (hkind : dev = site.dev ∧ ROOTINO < ino ∨
      (s.inode ip).i_mode ≠ 0 ∧ (s.inode ip).i_nlink ≠ 0) :
    (∃ r, site.got s ip = .inl r ∧ site.Answer r) ∨
      ∃ t, site.got s ip = .inr (.loop, t) ∧ site.Continues s ino t := by
  obtain ⟨hhashed, hnumber, hdev⟩ := Store.isFor_iff.mp (Store.isFor_of_ifind hfind)
  by_cases hmode : (s.inode ip).i_mode = 0
  · obtain ⟨tinode, hgot⟩ := got_unused site hmode
    refine Or.inl ⟨_, hgot, hready.rotor, hhashed, ?_⟩
    rcases hkind with ⟨hd, hi⟩ | ⟨hne, -⟩
    · exact ⟨hdev.trans hd, hnumber ▸ hi, hmode⟩
    · exact absurd hmode hne
  · have hreleased := iput_released site s ip
    refine Or.inr ⟨_, got_used hmode, hreleased.tidy hs hfree hhashed, ?_⟩
    rcases hreleased.fs with hsame | ⟨hlinks, hd, hfs, hmode, hmount, hlocked⟩
    · exact Or.inl hsame
    · rw [hnumber] at hfs
      refine Or.inr ⟨hfs, ?_, ip, ?_, hmode, hmount, hlocked⟩
      · rcases hkind with ⟨-, hi⟩ | ⟨-, hne⟩
        · exact hi
        · exact absurd hlinks hne
      rw [Store.ifind_congr hreleased.isFor_eq, ← hd, hdev]
      exact hfind

/-- One pass through `iget`. -/
theorem iget_next (hs : s.Tidy) (hready : s.fs.Ready)
    (hkind : dev = site.dev ∧ ROOTINO < ino ∨ s.RootInUse dev ∧ ino = ROOTINO) :
    site.Stuck (.iget dev ino, s) ∨ (∃ r, site.iget s dev ino = .inl r ∧ site.Answer r) ∨
      (∃ mdev, site.iget s dev ino = .inr (.iget mdev ROOTINO, s) ∧ s.RootInUse mdev ∧
        dev = site.dev ∧ ROOTINO < ino) ∨
      ∃ t, site.iget s dev ino = .inr (.loop, t) ∧ site.Continues s ino t := by
  unfold Site.iget
  cases hfind : s.ifind dev ino with
  | some ip =>
      dsimp only
      split
      · rename_i hlocked
        exact Or.inl ⟨ip, hfind, hlocked⟩
      · right
        cases hmount : (s.inode ip).mount with
        | some mdev =>
            refine Or.inr (Or.inl ⟨mdev, rfl, hs.roots ip mdev hmount, ?_⟩)
            rcases hkind with hkind | ⟨hroot, rfl⟩
            · exact hkind
            · have hnone := (hroot.2.2 ip (Store.isFor_of_ifind hfind)).2.2
              rw [hmount] at hnone
              cases hnone
        | none =>
            obtain ⟨htidy, hfree⟩ := hs.grab ip
            have hfs : (s.grab ip).fs = s.fs := by
              unfold Store.grab
              split <;> rfl
            have hgrabbed : ((s.grab ip).inode ip).i_mode = (s.inode ip).i_mode ∧
                ((s.grab ip).inode ip).i_nlink = (s.inode ip).i_nlink := by
              unfold Store.grab
              split <;> simp
            have hnext := got_next site htidy (hfs ▸ hready) hfree
              ((s.ifind_grab ip dev ino).trans hfind) (hkind.imp_right fun hroot => by
                obtain ⟨⟨-, -, hincore⟩, rfl⟩ := hroot
                obtain ⟨hm, hl, -⟩ := hincore ip (Store.isFor_of_ifind hfind)
                rw [hgrabbed.1, hgrabbed.2]
                exact ⟨hm, hl⟩)
            unfold Site.Continues at hnext
            rw [hfs] at hnext
            exact hnext.imp_right Or.inr
  | none =>
      right
      dsimp only
      cases hfree : s.free with
      | nil => exact Or.inl ⟨_, rfl, hready.rotor, trivial⟩
      | cons ip rest =>
          have hcount := hs.unused ip (by rw [hfree]; exact List.mem_cons_self)
          dsimp only
          rw [if_neg (not_not.mpr hcount)]
          split
          · obtain ⟨htidy, hnot⟩ := hs.recycle hfree dev ino
            have hself : ((s.recycle ip dev ino).fill ip (s.disk dev ino)).inode ip =
                ⟨dev, ino, true, true, none, false, (s.inode ip).i_count + 1,
                  (s.disk dev ino).di_mode, (s.disk dev ino).di_nlink⟩ := by
              unfold Store.fill Store.recycle
              rw [Store.modify_same, Store.modify_same]
            have hnext := got_next site htidy hready hnot
              (Store.ifind_recycle hfind ip (s.disk dev ino)) (hkind.imp_right fun hroot => by
                obtain ⟨⟨hm, hl, -⟩, rfl⟩ := hroot
                rw [hself]
                exact ⟨hm, hl⟩)
            exact hnext.imp_right Or.inr
          · refine Or.inl ⟨_, rfl, ?_, trivial⟩
            rcases (iput_released site ((s.recycle ip dev ino).discard ip) ip).fs with
              heq | ⟨-, -, heq, -⟩ <;> rw [heq]
            · exact hready.rotor
            · exact (hready.ifree _).1.rotor

end

/-! ## Runs -/

section
variable {site : Site} {s : Store n}

theorem Site.Returns.of_reaches {p q : Point × Store n} {r : Result n × Store n}
    (hreach : site.Reaches p q) (hreturn : site.Returns q r) : site.Returns p r := by
  obtain ⟨q', hq', hr⟩ := hreturn
  exact ⟨q', hreach.trans hq', hr⟩

variable (site) in
theorem loop_pop (hpos : 0 < s.fs.fsNinode) :
    site.next (.loop, s) = .inr (if s.fs.pop.1 ≤ ROOTINO then .loop
      else .iget site.dev s.fs.pop.1, { s with fs := s.fs.pop.2 }) :=
  if_pos hpos

/-- What `iget` ends the call with. -/
theorem iget_answer {dev ino : Nat} {r : Result n × Store n} (hs : s.Tidy) (hready : s.fs.Ready)
    (hkind : dev = site.dev ∧ ROOTINO < ino ∨ s.RootInUse dev ∧ ino = ROOTINO)
    (hr : site.iget s dev ino = .inl r) : site.Answer r := by
  rcases iget_next hs hready hkind with
    ⟨ip, hfind, hlocked⟩ | ⟨r', hr', hanswer⟩ | ⟨mdev, hmdev, -⟩ | ⟨t, ht, -⟩
  · unfold Site.iget at hr
    rw [hfind] at hr
    dsimp only at hr
    rw [if_pos hlocked] at hr
    cases hr
  · cases hr.symm.trans hr'
    exact hanswer
  · cases hr.symm.trans hmdev
  · cases hr.symm.trans ht

variable (site) in
/-- An unused inode that is in core can be allocated. -/
theorem iget_unused {dev ino : Nat} {ip : Fin n} (hfind : s.ifind dev ino = some ip)
    (hmode : (s.inode ip).i_mode = 0) (hmount : (s.inode ip).mount = none)
    (hlocked : (s.inode ip).locked = false) : ∃ r, site.iget s dev ino = .inl r := by
  have hunused : ((s.grab ip).inode ip).i_mode = 0 := by
    unfold Store.grab
    split <;> simpa using hmode
  obtain ⟨tinode, hgot⟩ := got_unused site hunused
  unfold Site.iget
  rw [hfind]
  dsimp only
  rw [if_neg (by simp [hlocked]), hmount]
  exact ⟨_, hgot⟩

/-- An inode that the scan takes can be allocated, if there is room in core. -/
theorem iget_candidate (hs : s.Tidy) {ino : Nat} (h : site.Candidate s ino) :
    ∃ r, site.iget s site.dev ino = .inl r := by
  obtain ⟨hread, hmode, hfind⟩ := h
  unfold Site.iget
  rw [hfind]
  cases hfree : s.free with
  | nil => exact ⟨_, rfl⟩
  | cons ip rest =>
      have hcount := hs.unused ip (by rw [hfree]; exact List.mem_cons_self)
      have hunused : (((s.recycle ip site.dev ino).fill ip
          (s.disk site.dev ino)).inode ip).i_mode = 0 := by
        unfold Store.fill Store.recycle
        rw [Store.modify_same, Store.modify_same]
        exact hmode
      obtain ⟨tinode, hgot⟩ := got_unused site hunused
      dsimp only
      rw [if_neg (not_not.mpr hcount), if_pos hread, hgot]
      exact ⟨_, rfl⟩

variable (site) in
/-- A table in which every number is reserved or one of an inode that can be allocated, and not all
are reserved. -/
theorem loop_fresh (hs : s.Tidy) (hready : s.fs.Ready)
    (hentries : ∀ ino ∈ s.fs.entries, ino ≤ ROOTINO ∨ site.Candidate s ino)
    (hsome : ∃ ino ∈ s.fs.entries, ROOTINO < ino) :
    ∃ r, site.Returns (.loop, s) r ∧ site.Answer r := by
  obtain ⟨count, hcount⟩ : ∃ count, s.fs.fsNinode.toNat = count := ⟨_, rfl⟩
  induction count generalizing s with
  | zero =>
      obtain ⟨ino, hino, -⟩ := hsome
      have hlength := s.fs.length_entries
      rw [hcount] at hlength
      rw [List.length_eq_zero_iff.mp hlength] at hino
      cases hino
  | succ count ih =>
      have hpos : 0 < s.fs.fsNinode := by omega
      have hpop := Ilist.entries_pop hpos
      have hstep := loop_pop site hpos
      by_cases hreserved : s.fs.pop.1 ≤ ROOTINO
      · rw [if_pos hreserved] at hstep
        obtain ⟨r, hreturn, hanswer⟩ := ih (s := { s with fs := s.fs.pop.2 })
          ⟨hs.nodup, hs.unused, hs.roots⟩ (hready.pop hpos)
          (fun ino hino => hentries ino (by rw [hpop]; exact List.mem_append_left _ hino)) (by
            obtain ⟨ino, hino, hlt⟩ := hsome
            rw [hpop] at hino
            rcases List.mem_append.mp hino with hold | hlast
            · exact ⟨ino, hold, hlt⟩
            · rw [List.mem_singleton.mp hlast] at hlt
              exact absurd hreserved (not_le.mpr hlt)) (by
            show (s.fs.fsNinode - 1).toNat = count
            omega)
        exact ⟨r, hreturn.of_reaches (.single hstep), hanswer⟩
      · rw [if_neg hreserved] at hstep
        have hcandidate := (hentries s.fs.pop.1 (by
          rw [hpop]
          exact List.mem_append_right _ List.mem_cons_self)).resolve_left hreserved
        have htidy : Store.Tidy { s with fs := s.fs.pop.2 } := ⟨hs.nodup, hs.unused, hs.roots⟩
        obtain ⟨r, hr⟩ := iget_candidate htidy hcandidate
        refine ⟨r, ⟨_, .single hstep, hr⟩, ?_⟩
        exact iget_answer htidy (hready.pop hpos) (Or.inl ⟨rfl, not_le.mp hreserved⟩) hr

variable (site) in
theorem loop_refill (hempty : s.fs.fsNinode = 0) :
    site.next (.loop, s) = if 0 < (site.refill s).fs.fsNinode then .inr (.loop, site.refill s)
      else .inl (.enospc, site.refill s) := by
  show site.loop s = _
  unfold Site.loop
  rw [if_neg (by omega)]

variable (site) in
/-- An empty table: the call ends, or only reserved inodes are there to be found. -/
theorem loop_empty (hs : s.Tidy) (hready : s.fs.Ready) (hempty : s.fs.fsNinode = 0) :
    (∃ r, site.Returns (.loop, s) r ∧ site.Answer r) ∨ site.OnlyReserved s := by
  obtain ⟨hready', hisize, hcandidates, hcomplete, hunreserved⟩ :=
    refill_refilled site hready hempty
  have hstep := loop_refill site hempty
  have hlength := (site.refill s).fs.length_entries
  have hlimit : (site.refill s).fs.limit = s.fs.limit := by
    unfold Ilist.limit
    rw [hisize]
  by_cases hpos : 0 < (site.refill s).fs.fsNinode
  · rw [if_pos hpos] at hstep
    by_cases hsome : ∃ ino ∈ (site.refill s).fs.entries, ROOTINO < ino
    · obtain ⟨r, hreturn, hanswer⟩ := loop_fresh site (s := site.refill s)
        ⟨hs.nodup, hs.unused, hs.roots⟩ hready' (fun ino hino => Or.inr (hcandidates ino hino).2)
        hsome
      exact Or.inl ⟨r, hreturn.of_reaches (.single hstep), hanswer⟩
    · right
      obtain ⟨ino, hino⟩ := List.exists_mem_of_length_pos (l := (site.refill s).fs.entries)
        (by omega)
      refine ⟨le_of_eq hempty, ⟨ino, (hcandidates ino hino).1.1, ?_, (hcandidates ino hino).2⟩, ?_⟩
      · exact not_lt.mp fun hlt => hsome ⟨ino, hino, hlt⟩
      · exact fun ino' hlow hhigh hcandidate => hsome (hunreserved ino' hlow hhigh hcandidate)
  · rw [if_neg hpos] at hstep
    refine Or.inl ⟨_, ⟨_, .refl, hstep⟩, hready'.rotor, fun ino hlow hhigh => ?_⟩
    rw [hlimit] at hhigh
    have hnone := hcomplete (List.length_eq_zero_iff.mp (by omega)) ino
      (Nat.zero_lt_of_lt hlow) hhigh
    by_contra hall
    push Not at hall
    exact hnone ⟨by simpa using hall.2.2, hall.1, hall.2.1⟩

variable (site) in
/-- From `loop` the call ends with an answer, or comes to a place it does not leave. -/
theorem loop_ends (hs : s.Tidy) (hready : s.fs.Ready) :
    (∃ r, site.Returns (.loop, s) r ∧ site.Answer r) ∨
      ∃ p, site.Reaches (.loop, s) p ∧ site.Stuck p ∧ p.2.fs.Ready := by
  obtain ⟨count, hcount⟩ : ∃ count, s.fs.fsNinode.toNat = count := ⟨_, rfl⟩
  induction count generalizing s with
  | zero =>
      have hninode := hready.ninode
      rcases loop_empty site hs hready (by omega) with hends | honly
      · exact Or.inl hends
      · exact Or.inr ⟨_, .refl, honly, hready⟩
  | succ count ih =>
      have hpos : 0 < s.fs.fsNinode := by omega
      have hstep := loop_pop site hpos
      have htidy : Store.Tidy { s with fs := s.fs.pop.2 } := ⟨hs.nodup, hs.unused, hs.roots⟩
      have hready' := hready.pop hpos
      have hcount' : (s.fs.pop.2.fsNinode).toNat = count := by
        show (s.fs.fsNinode - 1).toNat = count
        omega
      have hless : s.fs.pop.2.fsNinode < NICINOD := by
        show s.fs.fsNinode - 1 < NICINOD
        have hle := hready.ninode.2
        omega
      -- back at `loop` after the number has been looked at
      have hcontinues : ∀ {ino : Nat} {t : Store n},
          site.Continues { s with fs := s.fs.pop.2 } ino t →
          site.Reaches (.loop, s) (.loop, t) →
          (∃ r, site.Returns (.loop, s) r ∧ site.Answer r) ∨
            ∃ p, site.Reaches (.loop, s) p ∧ site.Stuck p ∧ p.2.fs.Ready := by
        rintro ino t ⟨ht, hfs⟩ hreach
        rcases hfs with hsame | ⟨hback, hunreserved, ip, hfind, hmode, hmount, hlocked⟩
        · rcases ih ht (hsame ▸ hready') (by rw [hsame]; exact hcount') with
            ⟨r, hreturn, hanswer⟩ | ⟨p, hp, hstuck⟩
          · exact Or.inl ⟨r, hreturn.of_reaches hreach, hanswer⟩
          · exact Or.inr ⟨p, hreach.trans hp, hstuck⟩
        · -- the number that came back is the next one to be taken
          obtain ⟨hfree, hlast⟩ := hready'.ifree ino
          obtain ⟨hninode, hino⟩ := hlast hless
          have hback' : t.fs = ifree ino s.fs.pop.2 := hback
          rw [← hback'] at hfree hninode hino
          have hpos' : 0 < t.fs.fsNinode := by
            have hlow := hready'.ninode.1
            omega
          have hstep' := loop_pop site hpos'
          rw [hino, if_neg (not_le.mpr hunreserved)] at hstep'
          obtain ⟨r, hr⟩ := iget_unused site (s := { t with fs := t.fs.pop.2 }) hfind
            hmode hmount hlocked
          refine Or.inl ⟨r, ⟨_, hreach.trans (.single hstep'), hr⟩, ?_⟩
          exact iget_answer (s := { t with fs := t.fs.pop.2 })
            ⟨ht.nodup, ht.unused, ht.roots⟩ (hfree.pop hpos')
            (Or.inl ⟨rfl, hunreserved⟩) hr
      by_cases hreserved : s.fs.pop.1 ≤ ROOTINO
      · rw [if_pos hreserved] at hstep
        rcases ih htidy hready' hcount' with ⟨r, hreturn, hanswer⟩ | ⟨p, hp, hstuck⟩
        · exact Or.inl ⟨r, hreturn.of_reaches (.single hstep), hanswer⟩
        · exact Or.inr ⟨p, .head hstep hp, hstuck⟩
      · rw [if_neg hreserved] at hstep
        rcases iget_next htidy hready' (Or.inl ⟨rfl, not_le.mp hreserved⟩) with
          hstuck | ⟨r, hr, hanswer⟩ | ⟨mdev, hcross, hroot, -, -⟩ | ⟨t, ht, hcont⟩
        · exact Or.inr ⟨_, .single hstep, hstuck, hready'⟩
        · exact Or.inl ⟨r, ⟨_, .single hstep, hr⟩, hanswer⟩
        · -- the inode is mounted on: on to the root of the other file system
          have hreach : site.Reaches (.loop, s) (.iget mdev ROOTINO, _) :=
            Relation.ReflTransGen.tail (.single hstep) hcross
          rcases iget_next htidy hready' (Or.inr ⟨hroot, rfl⟩) with
            hstuck | ⟨r, hr, hanswer⟩ | ⟨mdev', -, -, -, hlt⟩ | ⟨t, ht, hcont⟩
          · exact Or.inr ⟨_, hreach, hstuck, hready'⟩
          · exact Or.inl ⟨r, ⟨_, hreach, hr⟩, hanswer⟩
          · exact absurd hlt (lt_irrefl _)
          · exact hcontinues hcont (hreach.tail ht)
        · exact hcontinues hcont (Relation.ReflTransGen.tail (.single hstep) ht)

/-- From an empty table with only reserved inodes to be found, the call stays at `loop`. -/
theorem only_reserved_step (honly : site.OnlyReserved s) {fs : Ilist} (hready : fs.Ready)
    (hisize : fs.fsIsize = s.fs.fsIsize) (hentries : ∀ ino ∈ fs.entries, ino ≤ ROOTINO) :
    ∃ fs' : Ilist, site.next (.loop, { s with fs := fs }) = .inr (.loop, { s with fs := fs' }) ∧
      fs'.Ready ∧ fs'.fsIsize = s.fs.fsIsize ∧ ∀ ino ∈ fs'.entries, ino ≤ ROOTINO := by
  obtain ⟨-, ⟨ino, hpos, hle, hcandidate⟩, hnone⟩ := honly
  have hlimit : ∀ {fs' : Ilist}, fs'.fsIsize = s.fs.fsIsize → fs'.limit = s.fs.limit := by
    intro fs' h
    unfold Ilist.limit
    rw [h]
  by_cases hpop : 0 < fs.fsNinode
  · have hlist := Ilist.entries_pop hpop
    have hlast : fs.pop.1 ≤ ROOTINO := hentries _ (by
      rw [hlist]
      exact List.mem_append_right _ List.mem_cons_self)
    have hstep := loop_pop site (s := { s with fs := fs }) hpop
    rw [if_pos hlast] at hstep
    refine ⟨fs.pop.2, hstep, hready.pop hpop, hisize, fun ino' hino' => hentries ino' ?_⟩
    rw [hlist]
    exact List.mem_append_left _ hino'
  · have hninode := hready.ninode
    have hempty : fs.fsNinode = 0 := by omega
    obtain ⟨hready', hisize', hcandidates, hcomplete, -⟩ :=
      refill_refilled site (s := { s with fs := fs }) hready hempty
    have hstep := loop_refill site (s := { s with fs := fs }) hempty
    have hsize : (site.refill { s with fs := fs }).fs.fsIsize = s.fs.fsIsize :=
      hisize'.trans hisize
    have hbelow : ino < fs.limit := by
      have hblocks := hready.isize.1
      simp only [Ilist.limit, INOPB, ROOTINO] at *
      omega
    have hsome : 0 < (site.refill { s with fs := fs }).fs.fsNinode := by
      by_contra hzero
      have hlength := (site.refill { s with fs := fs }).fs.length_entries
      exact hcomplete (List.length_eq_zero_iff.mp (by omega)) ino hpos hbelow hcandidate
    rw [if_pos hsome] at hstep
    refine ⟨(site.refill { s with fs := fs }).fs, hstep, hready', hsize, fun ino' hino' => ?_⟩
    obtain ⟨⟨-, hhigh⟩, hcandidate'⟩ := hcandidates ino' hino'
    refine not_lt.mp fun hlt => hnone ino' hlt ?_ hcandidate'
    rwa [← hlimit hisize]

/-- A call that is stuck does not return. -/
theorem stuck_forever {p q : Point × Store n} (hstuck : site.Stuck p) (hready : p.2.fs.Ready)
    (hreach : site.Reaches p q) (r : Result n × Store n) : site.next q ≠ .inl r := by
  obtain ⟨point, s⟩ := p
  cases point with
  | loop =>
      have hnil : s.fs.entries = [] := by
        have hlength := s.fs.length_entries
        have hempty : s.fs.fsNinode ≤ 0 := hstuck.1
        exact List.length_eq_zero_iff.mp (by omega)
      have hstays : ∃ fs : Ilist, q = (.loop, { s with fs := fs }) ∧ fs.Ready ∧
          fs.fsIsize = s.fs.fsIsize ∧ ∀ ino ∈ fs.entries, ino ≤ ROOTINO := by
        induction hreach with
        | refl => exact ⟨s.fs, rfl, hready, rfl, by simp [hnil]⟩
        | tail _ hstep ih =>
            obtain ⟨fs, rfl, hfs, hisize, hentries⟩ := ih
            obtain ⟨fs', hnext, hfs', hisize', hentries'⟩ :=
              only_reserved_step hstuck hfs hisize hentries
            rw [hnext] at hstep
            exact ⟨fs', (Sum.inr.inj hstep).symm, hfs', hisize', hentries'⟩
      obtain ⟨fs, rfl, hfs, hisize, hentries⟩ := hstays
      obtain ⟨fs', hnext, -⟩ := only_reserved_step hstuck hfs hisize hentries
      rw [hnext]
      exact Sum.inr_ne_inl
  | iget dev ino =>
      obtain ⟨ip, hfind, hlocked⟩ := hstuck
      have hsleeps : site.next (.iget dev ino, s) = .inr (.iget dev ino, s) := by
        show site.iget s dev ino = _
        unfold Site.iget
        rw [hfind]
        dsimp only
        rw [if_pos hlocked]
      have hstays : q = (.iget dev ino, s) := by
        induction hreach with
        | refl => rfl
        | tail _ hstep ih =>
            rw [ih, hsleeps] at hstep
            exact (Sum.inr.inj hstep).symm
      rw [hstays, hsleeps]
      exact Sum.inr_ne_inl

/-- A call that returns does not come to a place where it is stuck, and returns one thing only. -/
theorem Site.Returns.unique {p : Point × Store n} {r : Result n × Store n}
    (h : site.Returns p r) :
    (∀ r', site.Returns p r' → r' = r) ∧
      ∀ q, site.Reaches p q → site.Stuck q → q.2.fs.Ready → False := by
  obtain ⟨last, hlast, hr⟩ := h
  have hstop : ∀ q, site.Reaches last q → q = last := by
    intro q hq
    rcases hq.cases_head with heq | ⟨next, hnext, -⟩
    · exact heq.symm
    · rw [hr] at hnext
      cases hnext
  have htotal : ∀ q, site.Reaches p q → site.Reaches q last := by
    intro q hq
    rcases Relation.ReflTransGen.total_of_right_unique
      (fun _ _ _ h₁ h₂ => Sum.inr.inj (h₁.symm.trans h₂)) hlast hq with hforth | hback
    · rw [hstop q hforth]
      exact .refl
    · exact hback
  refine ⟨?_, fun q hq hstuck hready => stuck_forever hstuck hready (htotal q hq) r hr⟩
  rintro r' ⟨last', hlast', hr'⟩
  rcases (htotal last' hlast').cases_head with heq | ⟨next, hnext, -⟩
  · rw [heq, hr] at hr'
    exact (Sum.inl.inj hr').symm
  · rw [hr'] at hnext
    cases hnext

end

/-- For every i-list, table, rotor and set of in-core inodes, `ialloc` returns, or it comes to a
locked inode that it sleeps for, or to an empty table while the reserved inodes are the only ones
the scan finds; and what it returns fits the file system. -/
theorem ialloc_search (site : Site) {s : Store n} (hs : s.Tidy) (hready : s.fs.Ready) :
    ((∃ r, site.Returns (.loop, s) r) ∨ ∃ p, site.Reaches (.loop, s) p ∧ site.Stuck p) ∧
      ∀ r, site.Returns (.loop, s) r → site.Answer r := by
  rcases loop_ends site hs hready with ⟨r, hreturn, hanswer⟩ | ⟨p, hp, hstuck, hp'⟩
  · refine ⟨Or.inl ⟨r, hreturn⟩, fun r' hr' => ?_⟩
    rw [hreturn.unique.1 r' hr']
    exact hanswer
  · exact ⟨Or.inr ⟨p, hp, hstuck⟩, fun r hr => (hr.unique.2 p hp hstuck hp').elim⟩

/-- A run of the call, as far as the fuel goes. -/
def Site.run (site : Site) : Nat → Point × Store n → Option (Result n × Store n)
  | 0, _ => none
  | fuel + 1, p =>
      match site.next p with
      | .inl r => some r
      | .inr q => site.run fuel q

theorem Site.returns_of_run {site : Site} {fuel : Nat} {p : Point × Store n}
    {r : Result n × Store n} (h : site.run fuel p = some r) : site.Returns p r := by
  induction fuel generalizing p with
  | zero => cases h
  | succ fuel ih =>
      unfold Site.run at h
      cases hnext : site.next p with
      | inl r' =>
          rw [hnext] at h
          cases h
          exact ⟨p, .refl, hnext⟩
      | inr q =>
          rw [hnext] at h
          exact (ih h).of_reaches (.single hnext)

/-- One block of inodes, all of them in use but number 3; one in-core inode. -/
def oneUnused (inode : Incore) (free : List (Fin 1)) (ninode : Int) : Store 1 where
  fs := ⟨2, ninode, fun _ => 5, 0, 1, 0, 0, 0, []⟩
  inode _ := inode
  free := free
  disk _ ino := if ino = 3 then ⟨0, 0⟩ else ⟨1, 1⟩

/-- One file system that can be read and written. -/
def oneSite : Site := ⟨0, fun _ _ => true, fun _ => false⟩

theorem oneUnused_ready (inode : Incore) (free : List (Fin 1)) {ninode : Int}
    (h : 0 ≤ ninode ∧ ninode ≤ NICINOD) : (oneUnused inode free ninode).fs.Ready := by
  refine ⟨rfl, h, ⟨?_, ?_⟩, 1, Nat.one_pos, ?_, rfl⟩
  · show 1 < 2
    decide
  · show 16 * 2 ≤ 2 ^ 32
    decide
  · show 1 < 2
    decide

theorem oneUnused_tidy {inode : Incore} {free : List (Fin 1)} (ninode : Int) (hnodup : free.Nodup)
    (hfree : ∀ ip ∈ free, inode.i_count = 0) (hmount : inode.mount = none) :
    (oneUnused inode free ninode).Tidy := by
  refine ⟨hnodup, hfree, fun ip mdev h => ?_⟩
  have hnone : some mdev = none := h.symm.trans hmount
  cases hnone

/-- With the in-core inode free for use, the call finds inode 3. -/
theorem ialloc_search_one :
    ∃ r, oneSite.Returns (.loop, oneUnused ⟨0, 9, true, false, none, false, 0, 1, 1⟩ [0] 0) r ∧
      oneSite.Answer r := by
  have hrun : (oneSite.run 9 (.loop, oneUnused ⟨0, 9, true, false, none, false, 0, 1, 1⟩
      [0] 0)).isSome := by decide +kernel
  obtain ⟨r, hr⟩ := Option.isSome_iff_exists.mp hrun
  have hreturns := Site.returns_of_run hr
  exact ⟨r, hreturns, (ialloc_search oneSite (oneUnused_tidy 0 (by decide) (fun _ _ => rfl) rfl)
    (oneUnused_ready _ _ (by decide))).2 r hreturns⟩

/-- Inode 3 is not in use, but still in core. -/
def cachedUnused : Store 1 := oneUnused ⟨0, 3, true, false, none, false, 0, 0, 0⟩ [0] 0

/-- The table holds number 5, of an inode that the caller has locked. -/
def lockedParent : Store 1 := oneUnused ⟨0, 5, true, true, none, false, 1, 1, 1⟩ [] 1

/-- `ENOSPC` although inode 3 is not in use; and a call that does not return. -/
theorem ialloc_incomplete :
    (cachedUnused.Tidy ∧ cachedUnused.fs.Ready ∧
      ∃ r, oneSite.Returns (.loop, cachedUnused) (.enospc, r) ∧ (r.disk 0 3).di_mode = 0 ∧
        (r.inode 0).i_mode = 0) ∧
      lockedParent.Tidy ∧ lockedParent.fs.Ready ∧
        ∀ r, ¬ oneSite.Returns (.loop, lockedParent) r := by
  refine ⟨⟨oneUnused_tidy 0 (by decide) (fun _ _ => rfl) rfl, oneUnused_ready _ _ (by decide), ?_⟩,
    oneUnused_tidy 1 (by decide) (by simp) rfl, oneUnused_ready _ _ (by decide), ?_⟩
  · have hrun : ((oneSite.run 9 (.loop, cachedUnused)).any fun r =>
        (match r.1 with | .enospc => true | _ => false) && ((r.2.disk 0 3).di_mode == 0) &&
          ((r.2.inode 0).i_mode == 0)) = true := by
      decide +kernel
    cases hsome : oneSite.run 9 (.loop, cachedUnused) with
    | none =>
        rw [hsome] at hrun
        cases hrun
    | some r =>
        obtain ⟨result, t⟩ := r
        rw [hsome] at hrun
        cases result <;> simp at hrun
        exact ⟨t, Site.returns_of_run hsome, hrun⟩
  · rintro r hreturn
    have hstep : oneSite.next (.loop, lockedParent) =
        .inr (.iget 0 5, { lockedParent with fs := lockedParent.fs.pop.2 }) := rfl
    refine hreturn.unique.2 _ (.single hstep) ⟨0, by decide, rfl⟩ ?_
    exact (oneUnused_ready _ _ (by decide)).pop (by decide)

end DiscoBsd.Alloc
