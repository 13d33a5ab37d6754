import DiscoBsd.Dir.Directory
import DiscoBsd.Lib.Refs

/-!
# Paths

`sys/kern/ufs_namei.c` walks a path from one directory to the next. Here a file system is its
table of inodes: what each one is, its `i_nlink` and, for a directory, its entries as a finite map
from names to inodes (`Dir` shows that the bytes of a directory are that). A walk ends at the
directory of the last component; it also says which directories it went through.

There is one file system and nothing is mounted on it. The limits on the lengths of names and
paths are left out, and so is I/O that fails; either makes a call fail.
-/

namespace DiscoBsd.Ufs

open Lib

/-- A name is a sequence of bytes. -/
abbrev Name := Dir.Name

/-- The name `.`. -/
def dot : Name := [46]

/-- The name `..`. -/
def dotdot : Name := [46, 46]

/-- The text of a path, as the names between its slashes; an empty last name stands for a slash at
the end. -/
structure Path where
  absolute : Bool
  comps : List Name
deriving DecidableEq

/-- What an inode is; `free` is a mode of 0, and `other` everything that is no directory and no
symbolic link. -/
inductive Format where
  | free
  | other
  | dir
  | lnk (path : Path)
deriving DecidableEq

/-- The table of inodes, field by field. -/
structure Fs (Ino : Type) where
  fmt : Ino → Format
  nlink : Ino → Nat
  dents : Ino → Edges Name Ino

/-- The process that makes a call: where its paths start, and what it may do. The answers of
`access` and of the other checks of modes, flags and owners are functions of the inodes. -/
structure Caller (Ino : Type) where
  cdir : Ino
  rdir : Option Ino
  suser : Bool
  exec : Ino → Bool
  write : Ino → Bool
  /-- `IMMUTABLE` or `APPEND`. -/
  frozen : Ino → Bool
  /-- `APPEND`. -/
  append : Ino → Bool
  /-- In a directory with `ISVTX` an entry of another owner may not be changed. -/
  sticky : Ino → Ino → Bool

/-- Most symbolic links in a path. -/
def MAXSYMLINKS : Nat := 8

variable {Ino : Type} [DecidableEq Ino]

/-- The inode of a name in a directory. -/
def Fs.lookup (fs : Fs Ino) (dp : Ino) (name : Name) : Option Ino := (fs.dents dp).lookup name

/-- The next inode of a walk: above its root directory a process does not get. -/
def Fs.child (fs : Fs Ino) (c : Caller Ino) (dp : Ino) (name : Name) : Option Ino :=
  (fs.lookup dp name).map fun ip => if name = dotdot ∧ c.rdir = some dp then dp else ip

/-- A symbolic link takes the place of what was walked of the path. An empty one leaves the slash
behind it in front. -/
def Path.join (link : Path) (rest : List Name) : Path :=
  if rest = [] then link
  else ⟨link.absolute || link.comps = [], link.comps.filter (· ≠ []) ++ rest⟩

/-- Where a walk ends: at the last name, in its directory, or at a directory without a name. -/
inductive Target (Ino : Type) where
  | name (dp : Ino) (name : Name)
  | self (dp : Ino)
deriving DecidableEq

/-- The directory that a walk ends in. -/
def Target.dp : Target Ino → Ino
  | .name dp _ => dp
  | .self dp => dp

/-- A walk: the directories it went through, and its end. -/
structure Walk (Ino : Type) where
  through : List Ino
  target : Target Ino
deriving DecidableEq

/-- A directory that the walk came through before. -/
def Walk.behind (w : Walk Ino) (dp : Ino) : Walk Ino := ⟨dp :: w.through, w.target⟩

/-- The names of a path, one after the other. `jump` goes on with the path of a symbolic link;
a link in the last place is followed if `follow` says so. -/
def steps (fs : Fs Ino) (c : Caller Ino) (follow : Bool) (jump : Ino → Path → Option (Walk Ino)) :
    Ino → List Name → Option (Walk Ino)
  | dp, [] => if fs.fmt dp = .dir ∧ c.exec dp then some ⟨[dp], .self dp⟩ else none
  | dp, name :: rest =>
    if fs.fmt dp = .dir ∧ c.exec dp then
      if name = [] then some ⟨[dp], .self dp⟩
      else if rest = [] ∧ follow = false then some ⟨[dp], .name dp name⟩
      else
        match fs.child c dp name with
        | none => if rest = [] then some ⟨[dp], .name dp name⟩ else none
        | some ip =>
          match fs.fmt ip with
          | .lnk path => (jump dp (path.join rest)).map (·.behind dp)
          | _ =>
            if rest = [] then some ⟨[dp], .name dp name⟩
            else (steps fs c follow jump ip rest).map (·.behind dp)
    else none

/-- Where a path starts. -/
def Caller.start (c : Caller Ino) (root dp : Ino) (path : Path) : Ino :=
  if path.absolute then c.rdir.getD root else dp

/-- A walk with a budget of symbolic links. -/
def walk (fs : Fs Ino) (root : Ino) (c : Caller Ino) (follow : Bool) :
    Nat → Ino → Path → Option (Walk Ino)
  | 0, _, _ => none
  | budget + 1, dp, path =>
    steps fs c follow (walk fs root c follow budget) (c.start root dp path) path.comps

/-- The directory of the last component, for a call that creates or deletes. -/
def Fs.parent (fs : Fs Ino) (root : Ino) (c : Caller Ino) (path : Path) :
    Option (List Ino × Ino × Name) :=
  match walk fs root c false (MAXSYMLINKS + 1) c.cdir path with
  | some ⟨through, .name dp name⟩ => some (through, dp, name)
  | _ => none

/-- The inode of a path, with symbolic links followed. -/
def Fs.namei (fs : Fs Ino) (root : Ino) (c : Caller Ino) (path : Path) : Option Ino :=
  match walk fs root c true (MAXSYMLINKS + 1) c.cdir path with
  | some ⟨_, .name dp name⟩ => fs.child c dp name
  | some ⟨_, .self dp⟩ => some dp
  | none => none

/-! ## What a walk depends on -/

variable {fs fs' : Fs Ino} {root : Ino} {c : Caller Ino} {dp ip : Ino} {name : Name} {w : Walk Ino}

theorem steps_through {follow : Bool} {jump : Ino → Path → Option (Walk Ino)} {comps : List Name}
    (h : steps fs c follow jump dp comps = some w) :
    dp ∈ w.through ∧ fs.fmt dp = .dir := by
  cases comps with
  | nil =>
    simp only [steps, Option.ite_none_right_eq_some, Option.some.injEq] at h
    obtain ⟨⟨hdir, -⟩, rfl⟩ := h
    exact ⟨List.mem_singleton_self dp, hdir⟩
  | cons name rest =>
    simp only [steps, Option.ite_none_right_eq_some] at h
    obtain ⟨⟨hdir, -⟩, h⟩ := h
    refine ⟨?_, hdir⟩
    split at h
    · cases h
      exact List.mem_singleton_self dp
    · split at h
      · cases h
        exact List.mem_singleton_self dp
      · split at h
        · split at h
          · cases h
            exact List.mem_singleton_self dp
          · cases h
        · split at h
          · obtain ⟨w', -, rfl⟩ := Option.map_eq_some_iff.mp h
            exact List.mem_cons_self
          · split at h
            · cases h
              exact List.mem_singleton_self dp
            · obtain ⟨w', -, rfl⟩ := Option.map_eq_some_iff.mp h
              exact List.mem_cons_self

/-- One file system looks like another to a walk that does not go through certain directories:
what leads from the others to the others is the same. -/
structure Alike (fs fs' : Fs Ino) (avoid : Ino → Prop) : Prop where
  fmt : fs'.fmt = fs.fmt
  dir : ∀ ip, avoid ip → fs.fmt ip = .dir
  lookup : ∀ dp name ip, fs.lookup dp name = some ip → ¬ avoid dp → ¬ avoid ip ∨ name = dotdot →
    fs'.lookup dp name = some ip

theorem Alike.child {avoid : Ino → Prop} (h : Alike fs fs' avoid)
    (hchild : fs.child c dp name = some ip) (hdp : ¬ avoid dp) (hip : ¬ avoid ip) :
    fs'.child c dp name = some ip := by
  obtain ⟨ip', hlookup, heq⟩ := Option.map_eq_some_iff.mp hchild
  have hname : ¬ avoid ip' ∨ name = dotdot := by
    by_cases hdots : name = dotdot
    · exact .inr hdots
    · rw [if_neg fun hand => hdots hand.1] at heq
      exact .inl (heq ▸ hip)
  rw [Fs.child, h.lookup dp name ip' hlookup hdp hname]
  exact congrArg some heq

theorem Alike.steps {avoid : Ino → Prop} (h : Alike fs fs' avoid)
    {jump jump' : Ino → Path → Option (Walk Ino)}
    (hjump : ∀ dp path w, jump dp path = some w → (∀ v ∈ w.through, ¬ avoid v) →
      jump' dp path = some w)
    {comps : List Name} (hsteps : steps fs c false jump dp comps = some w)
    (havoid : ∀ v ∈ w.through, ¬ avoid v) : steps fs' c false jump' dp comps = some w := by
  induction comps generalizing dp w with
  | nil =>
    rw [Ufs.steps, h.fmt]
    exact hsteps
  | cons name rest ih =>
    have hthis := havoid dp (steps_through hsteps).1
    simp only [Ufs.steps, Option.ite_none_right_eq_some] at hsteps
    obtain ⟨hdir, hsteps⟩ := hsteps
    simp only [Ufs.steps, h.fmt, if_pos hdir]
    by_cases hempty : name = []
    · rw [if_pos hempty] at hsteps ⊢
      exact hsteps
    rw [if_neg hempty] at hsteps ⊢
    by_cases hlast : rest = []
    · rw [if_pos ⟨hlast, trivial⟩] at hsteps ⊢
      exact hsteps
    rw [if_neg fun hand => hlast hand.1] at hsteps ⊢
    cases hchild : fs.child c dp name with
    | none =>
      rw [hchild] at hsteps
      simp only [if_neg hlast] at hsteps
      cases hsteps
    | some ip =>
      rw [hchild] at hsteps
      simp only [if_neg hlast] at hsteps
      have hip : ¬ avoid ip := by
        intro hav
        rw [h.dir ip hav] at hsteps
        obtain ⟨w', hw', rfl⟩ := Option.map_eq_some_iff.mp hsteps
        exact havoid ip (List.mem_cons_of_mem _ (steps_through hw').1) hav
      rw [h.child hchild hthis hip]
      simp only [if_neg hlast]
      split at hsteps
      · obtain ⟨w', hw', rfl⟩ := Option.map_eq_some_iff.mp hsteps
        rw [hjump _ _ _ hw' fun v hv => havoid v (List.mem_cons_of_mem _ hv)]
        rfl
      · obtain ⟨w', hw', rfl⟩ := Option.map_eq_some_iff.mp hsteps
        rw [ih hw' fun v hv => havoid v (List.mem_cons_of_mem _ hv)]
        rfl

theorem Alike.walk {avoid : Ino → Prop} (h : Alike fs fs' avoid) {budget : Nat} {path : Path}
    (hwalk : walk fs root c false budget dp path = some w)
    (havoid : ∀ v ∈ w.through, ¬ avoid v) : walk fs' root c false budget dp path = some w := by
  induction budget generalizing dp path w with
  | zero => cases hwalk
  | succ budget ih =>
    simp only [Ufs.walk] at hwalk ⊢
    exact h.steps (fun dp path w hw hv => ih hw hv) hwalk havoid

/-- The directory of the last component is found again. -/
theorem Alike.parent {avoid : Ino → Prop} (h : Alike fs fs' avoid) {path : Path}
    {through : List Ino} (hparent : fs.parent root c path = some (through, dp, name))
    (havoid : ∀ v ∈ through, ¬ avoid v) : fs'.parent root c path = some (through, dp, name) := by
  simp only [Fs.parent] at hparent ⊢
  split at hparent
  · rename_i hwalk
    simp only [Option.some.injEq, Prod.mk.injEq] at hparent
    obtain ⟨rfl, rfl, rfl⟩ := hparent
    rw [h.walk hwalk havoid]
  · cases hparent

/-- A walk ends in a directory that it went through. -/
def EndsInDir (fs : Fs Ino) (w : Walk Ino) : Prop :=
  fs.fmt w.target.dp = .dir ∧ w.target.dp ∈ w.through

omit [DecidableEq Ino] in
theorem EndsInDir.behind (h : EndsInDir fs w) (dp : Ino) : EndsInDir fs (w.behind dp) :=
  ⟨h.1, List.mem_cons_of_mem _ h.2⟩

theorem steps_endsInDir {follow : Bool} {jump : Ino → Path → Option (Walk Ino)}
    (hjump : ∀ dp path w, jump dp path = some w → EndsInDir fs w)
    {comps : List Name} (h : steps fs c follow jump dp comps = some w) : EndsInDir fs w := by
  induction comps generalizing dp w with
  | nil =>
    simp only [steps, Option.ite_none_right_eq_some, Option.some.injEq] at h
    obtain ⟨⟨hdir, -⟩, rfl⟩ := h
    exact ⟨hdir, List.mem_singleton_self dp⟩
  | cons name rest ih =>
    have hhere : fs.fmt dp = .dir := (steps_through h).2
    have hself : EndsInDir fs ⟨[dp], .self dp⟩ := ⟨hhere, List.mem_singleton_self dp⟩
    have hname : EndsInDir fs ⟨[dp], .name dp name⟩ := ⟨hhere, List.mem_singleton_self dp⟩
    simp only [steps, Option.ite_none_right_eq_some] at h
    obtain ⟨-, h⟩ := h
    split at h
    · cases h
      exact hself
    · split at h
      · cases h
        exact hname
      · split at h
        · split at h
          · cases h
            exact hname
          · cases h
        · split at h
          · obtain ⟨w', hw', rfl⟩ := Option.map_eq_some_iff.mp h
            exact (hjump _ _ _ hw').behind dp
          · split at h
            · cases h
              exact hname
            · obtain ⟨w', hw', rfl⟩ := Option.map_eq_some_iff.mp h
              exact (ih hw').behind dp

theorem walk_endsInDir {follow : Bool} {budget : Nat} {path : Path}
    (h : walk fs root c follow budget dp path = some w) : EndsInDir fs w := by
  induction budget generalizing dp path w with
  | zero => cases h
  | succ budget ih => exact steps_endsInDir (fun dp path w hw => ih hw) h

/-- The last component is looked up in a directory. -/
theorem parent_dir {path : Path} {through : List Ino}
    (h : fs.parent root c path = some (through, dp, name)) :
    fs.fmt dp = .dir ∧ dp ∈ through := by
  simp only [Fs.parent] at h
  split at h
  · rename_i hwalk
    simp only [Option.some.injEq, Prod.mk.injEq] at h
    obtain ⟨rfl, rfl, rfl⟩ := h
    exact walk_endsInDir hwalk
  · cases h

/-- The inode of a path is a directory, or has a name. -/
theorem namei_spec {path : Path} (h : fs.namei root c path = some ip) :
    fs.fmt ip = .dir ∨ ∃ dp name, fs.lookup dp name = some ip := by
  simp only [Fs.namei] at h
  split at h
  · rename_i dp name hwalk
    obtain ⟨ip', hlookup, rfl⟩ := Option.map_eq_some_iff.mp h
    split
    · exact .inl (walk_endsInDir hwalk).1
    · exact .inr ⟨dp, name, hlookup⟩
  · rename_i dp hwalk
    cases h
    exact .inl (walk_endsInDir hwalk).1
  · cases h

/-- The entries are all that a walk sees. -/
theorem parent_congr (hfmt : fs'.fmt = fs.fmt) (hdents : fs'.dents = fs.dents) (path : Path) :
    fs'.parent root c path = fs.parent root c path := by
  have hsteps (jump : Ino → Path → Option (Walk Ino)) (comps : List Name) (dp : Ino) :
      steps fs' c false jump dp comps = steps fs c false jump dp comps := by
    induction comps generalizing dp with
    | nil => simp only [steps, hfmt]
    | cons name rest ih => simp only [steps, Fs.child, Fs.lookup, hfmt, hdents, ih]
  have hwalk (budget : Nat) (dp : Ino) (path : Path) :
      walk fs' root c false budget dp path = walk fs root c false budget dp path := by
    induction budget generalizing dp path with
    | zero => rfl
    | succ budget ih =>
      have hjump : walk fs' root c false budget = walk fs root c false budget := by
        funext dp path
        exact ih dp path
      simp only [walk, hjump, hsteps]
  simp only [Fs.parent, hwalk]

end DiscoBsd.Ufs
