import DiscoBsd.Ufs.Namei

/-!
# The calls that change directories

`link`, `unlink`, `mkdir`, `rmdir` and `rename` of `sys/kern/ufs_syscalls.c`, each as a function
that gives the file system behind it, or `none` when the call fails or panics. `i_nlink` is an
unsigned short.
-/

namespace DiscoBsd.Ufs

open Lib

variable {Ino : Type} [DecidableEq Ino] [Fintype Ino]

/-- Go on if the condition holds. -/
def check (p : Prop) [Decidable p] : Option Unit := if p then some () else none

omit [DecidableEq Ino] [Fintype Ino] in
@[simp] theorem check_eq_some {p : Prop} [Decidable p] {u : Unit} : check p = some u ↔ p := by
  simp [check]

/-! ## What the calls are made of -/

/-- `ip->i_nlink++`. -/
def Fs.bump (fs : Fs Ino) (ip : Ino) : Fs Ino :=
  { fs with nlink := Function.update fs.nlink ip ((fs.nlink ip + 1) % 2 ^ 16) }

/-- `ip->i_nlink--`. -/
def Fs.drop (fs : Fs Ino) (ip : Ino) : Fs Ino :=
  { fs with nlink := Function.update fs.nlink ip ((fs.nlink ip + (2 ^ 16 - 1)) % 2 ^ 16) }

/-- `direnter` and `dirrewrite`: the name gets the inode. -/
def Fs.enter (fs : Fs Ino) (dp : Ino) (name : Name) (ip : Ino) : Fs Ino :=
  { fs with dents := Function.update fs.dents dp ((fs.dents dp).insert name ip) }

/-- `dirremove`. -/
def Fs.remove (fs : Fs Ino) (dp : Ino) (name : Name) : Fs Ino :=
  { fs with dents := Function.update fs.dents dp ((fs.dents dp).erase name) }

/-- `itrunc` of a directory to nothing. -/
def Fs.itrunc (fs : Fs Ino) (ip : Ino) : Fs Ino :=
  { fs with dents := Function.update fs.dents ip ∅ }

/-- `dirempty`: nothing but `.` and a `..` that leads to the parent. -/
def Fs.dirempty (fs : Fs Ino) (ip parent : Ino) : Bool :=
  (fs.dents ip).entries.all fun e => e.1 = dot ∨ (e.1 = dotdot ∧ e.2 = parent)

/-- The loop of `checkpath`: the way up from a directory does not meet `source`. -/
def Fs.checkpathLoop (fs : Fs Ino) (root source : Ino) : Nat → Ino → Bool
  | 0, _ => false
  | fuel + 1, ip =>
    if fs.fmt ip ≠ .dir then false
    else
      match fs.lookup ip dotdot with
      | none => false
      | some up =>
        if up = source then false
        else if up = root then true
        else fs.checkpathLoop root source fuel up

/-- `checkpath`. A way up that is longer than there are inodes goes round for ever. -/
def Fs.checkpath (fs : Fs Ino) (root source target : Ino) : Bool :=
  if target = source then false
  else if target = root then true
  else fs.checkpathLoop root source (Fintype.card Ino + 1) target

omit [Fintype Ino] in
/-- `namei` for a call that deletes: the entry, which the caller may remove. -/
def Fs.source (fs : Fs Ino) (root : Ino) (c : Caller Ino) (path : Path) :
    Option (Ino × Name × Ino) := do
  let (_, dp, name) ← fs.parent root c path
  let ip ← fs.lookup dp name
  check (c.write dp ∧ (dp ≠ ip → ¬ c.sticky dp ip))
  return (dp, name, ip)

/-! ## The calls -/

/-- `link`. -/
def Fs.link (fs : Fs Ino) (root : Ino) (c : Caller Ino) (target linkname : Path) :
    Option (Fs Ino) := do
  let ip ← fs.namei root c target
  check (fs.fmt ip = .dir → c.suser)
  check (¬ c.frozen ip)
  let fs := fs.bump ip
  let (_, dp, name) ← fs.parent root c linkname
  check (fs.lookup dp name = none)
  check (fs.nlink dp ≠ 0 ∧ c.write dp)
  return fs.enter dp name ip

/-- `unlink`. -/
def Fs.unlink (fs : Fs Ino) (root : Ino) (c : Caller Ino) (fname : Path) : Option (Fs Ino) := do
  let (dp, name, ip) ← fs.source root c fname
  check (fs.fmt ip = .dir → c.suser)
  check (¬ c.frozen ip ∧ ¬ c.append dp)
  return (fs.remove dp name).drop ip

/-- The new directory of `mkdir`, with its two entries. -/
def Fs.virgin (fs : Fs Ino) (ip dp : Ino) : Fs Ino where
  fmt := Function.update fs.fmt ip .dir
  nlink := Function.update fs.nlink ip 2
  dents := Function.update fs.dents ip ((AList.singleton dotdot dp).insert dot ip)

/-- `mkdir`, with the inode that `ialloc` found free. -/
def Fs.mkdir (fs : Fs Ino) (root : Ino) (c : Caller Ino) (path : Path) (new : Ino) :
    Option (Fs Ino) := do
  let (_, dp, name) ← fs.parent root c path
  check (fs.lookup dp name = none)
  check (fs.nlink dp ≠ 0 ∧ c.write dp)
  check (fs.fmt new = .free)
  return ((fs.virgin new dp).bump dp).enter dp name new

/-- `rmdir`. -/
def Fs.rmdir (fs : Fs Ino) (root : Ino) (c : Caller Ino) (path : Path) : Option (Fs Ino) := do
  let (dp, name, ip) ← fs.source root c path
  check (dp ≠ ip ∧ fs.fmt ip = .dir)
  check (fs.nlink ip = 2 ∧ fs.dirempty ip dp)
  check (¬ c.append dp ∧ ¬ c.frozen ip)
  return ((((fs.remove dp name).drop dp).drop ip).drop ip).itrunc ip

/-- The second step of `rename` on a name that exists: its entry is rewritten, and the inode it
had loses the link; a directory loses its own `.` too, and then has none left. -/
def Fs.replace (fs : Fs Ino) (dp : Ino) (name : Name) (ip xp : Ino) : Option (Fs Ino) :=
  let fs := (fs.enter dp name ip).drop xp
  if fs.fmt ip = .dir then
    let fs := fs.drop xp
    if fs.nlink xp = 0 then some (fs.itrunc xp) else none
  else some fs

/-- The third step of `rename`: the entry of the source is looked up again and removed. `moved` is
the new parent of a directory that got one. A file may be gone by then, a directory may not. -/
def Fs.unlinkSource (fs : Fs Ino) (root : Ino) (c : Caller Ino) (src : Path) (ip : Ino)
    (moved : Option Ino) : Option (Fs Ino) :=
  match fs.source root c src with
  | none => if fs.fmt ip = .dir then none else some fs
  | some (dp, name, xp) =>
    if xp ≠ ip then if fs.fmt ip = .dir then none else some fs
    else
      match moved with
      | none => some ((fs.remove dp name).drop ip)
      | some newparent =>
        let fs := fs.drop dp
        let fs := if fs.lookup ip dotdot = none then fs else fs.enter ip dotdot newparent
        some ((fs.remove dp name).drop ip)

/-- `rename`. When a directory gets a new parent, `namei` is called once more for the target and
finds the same again. -/
def Fs.rename (fs : Fs Ino) (root : Ino) (c : Caller Ino) (src dst : Path) : Option (Fs Ino) := do
  let (dp, name, ip) ← fs.source root c src
  check (¬ c.frozen ip ∧ ¬ c.append dp)
  check (fs.fmt ip = .dir → name ≠ dot ∧ name ≠ dotdot ∧ dp ≠ ip)
  let fs := fs.bump ip
  let (_, dp', name') ← fs.parent root c dst
  check (c.write dp')
  let moved := if fs.fmt ip = .dir ∧ dp ≠ dp' then some dp' else none
  check (moved ≠ none → c.write ip ∧ fs.checkpath root ip dp')
  match fs.child c dp' name' with
  | none =>
    check (fs.nlink dp' ≠ 0)
    let fs := if moved ≠ none then fs.bump dp' else fs
    (fs.enter dp' name' ip).unlinkSource root c src ip moved
  | some xp =>
    check (xp ≠ dp')
    check (¬ c.frozen xp ∧ ¬ c.append dp')
    if xp = ip then return fs.drop ip
    else
      check (¬ c.sticky dp' xp)
      check (if fs.fmt xp = .dir then fs.dirempty xp dp' ∧ fs.nlink xp ≤ 2 ∧ fs.fmt ip = .dir
        else fs.fmt ip ≠ .dir)
      let fs ← fs.replace dp' name' ip xp
      fs.unlinkSource root c src ip moved

end DiscoBsd.Ufs
