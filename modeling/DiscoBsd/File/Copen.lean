import DiscoBsd.File.Descriptors

/-!
# The open system call

`copen` from its first line to its last, with the inodes: `vn_open`, the duplicate-descriptor protocol
of `/dev/fd` and the lock that may be asked for. Errors are the numbers of `errno.h`. What the path
leads to, what the inode allows and what the device answers is in `Answers`; `namei` hands over a
reference to the inode it found, or to the directory in which a file may be made.
-/

namespace DiscoBsd.File.Open

open DiscoBsd.File

/-- An error number. -/
abbrev Error := { e : Nat // e ≠ 0 }

def EPERM : Error := ⟨1, by decide⟩

def ENOENT : Error := ⟨2, by decide⟩

def EINTR : Error := ⟨4, by decide⟩

def ENXIO : Error := ⟨6, by decide⟩

def EBADF : Error := ⟨9, by decide⟩

def EACCES : Error := ⟨13, by decide⟩

def EEXIST : Error := ⟨17, by decide⟩

def ENODEV : Error := ⟨19, by decide⟩

def EISDIR : Error := ⟨21, by decide⟩

def ENFILE : Error := ⟨23, by decide⟩

def EMFILE : Error := ⟨24, by decide⟩

def EOPNOTSUPP : Error := ⟨45, by decide⟩

def O_CREAT : BitVec 32 := 0x0200

def O_TRUNC : BitVec 32 := 0x0400

def O_EXCL : BitVec 32 := 0x0800

/-- `FFLAGS`: from the mode of the call to the flags of the kernel. -/
def FFLAGS (mode : BitVec 32) : BitVec 32 := mode + 1

/-- The types of inodes in `i_mode`. -/
inductive Fmt where
  | IFCHR | IFDIR | IFBLK | IFREG | IFLNK | IFSOCK
deriving DecidableEq

/-- What `namei` finds: an inode, that the last component is missing in a directory where it may be
made, or an error. -/
inductive Namei (Ino : Type) where
  | found (ip : Ino)
  | absent (pdir : Ino)
  | failed (error : Error)

/-- How the open routine of a device ends; `fdopen` is the one of `/dev/fd`. -/
inductive Device where
  | opened
  | failed (error : Error)
  | fdopen (minor : Nat)
  | interrupted

/-- All that a call finds outside of the tables. -/
structure Answers (Ino : Type) where
  namei : Namei Ino
  /-- `maknode`: the new inode, or why there is none. -/
  maknode : Except Error Ino
  /-- The type of the inode, a new one's according to the mode it is made with. -/
  fmt : Fmt
  /-- `ip->i_flags & APPEND`. -/
  append : Bool
  /-- `access(ip, IREAD)` and `access(ip, IWRITE)`. -/
  readable : Option Error
  writable : Option Error
  device : Device
  ino_lock : Option Error

/-- The tables, with the inodes of the open files and the number of references to each inode. -/
structure State (NFILE nproc : Nat) (Ino : Type) where
  k : Kernel NFILE nproc
  f_data : Fin NFILE → Option Ino
  i_count : Ino → Nat

variable {NFILE nproc : Nat} {Ino : Type} [DecidableEq Ino]

namespace State

/-- A reference to an inode more. -/
def igrab (s : State NFILE nproc Ino) (ip : Ino) : State NFILE nproc Ino :=
  { s with i_count := Function.update s.i_count ip (s.i_count ip + 1) }

/-- A reference to an inode less: `iput` and `irele`. -/
def irele (s : State NFILE nproc Ino) (ip : Ino) : State NFILE nproc Ino :=
  { s with i_count := Function.update s.i_count ip (s.i_count ip - 1) }

def withKernel (s : State NFILE nproc Ino) (k : Kernel NFILE nproc) : State NFILE nproc Ino :=
  { s with k := k }

/-! ## `vn_open` -/

/-- The inode of the call, with the flags that are left; a missing file is made when it may be. -/
def lookup (s : State NFILE nproc Ino) (a : Answers Ino) (fmode : BitVec 32) :
    Except Error (Ino × BitVec 32) × State NFILE nproc Ino :=
  if fmode &&& O_CREAT ≠ 0 then
    match a.namei with
    | .failed error => (.error error, s)
    | .absent pdir =>
        let s := s.igrab pdir
        -- `maknode` and `direnter` put the directory back
        match a.maknode with
        | .error error => (.error error, s.irele pdir)
        | .ok ip => (.ok (ip, fmode &&& ~~~O_TRUNC), (s.irele pdir).igrab ip)
    | .found ip =>
        let s := s.igrab ip
        if fmode &&& O_EXCL ≠ 0 then (.error EEXIST, s.irele ip)
        else (.ok (ip, fmode &&& ~~~O_CREAT), s)
  else
    match a.namei with
    | .failed error => (.error error, s)
    | .absent _ => (.error ENOENT, s)
    | .found ip => (.ok (ip, fmode), s.igrab ip)

/-- The checks of an inode before it is opened. -/
def check (a : Answers Ino) (fmode : BitVec 32) : Option Error :=
  if a.fmt = .IFSOCK then some EOPNOTSUPP
  else if a.append ∧ fmode &&& (FWRITE ||| O_APPEND) = FWRITE then some EPERM
  else if fmode &&& O_CREAT = 0 then
    if fmode &&& FREAD ≠ 0 ∧ a.readable.isSome then a.readable
    else if fmode &&& (FWRITE ||| O_TRUNC) ≠ 0 then
      if a.fmt = .IFDIR then some EISDIR else a.writable
    else none
  else none

/-- `openi`: the error, and `u_dupfd`. Only devices have an open routine. -/
def openi (a : Answers Ino) (u_dupfd : Int) : Option Error × Int :=
  if a.fmt = .IFCHR ∨ a.fmt = .IFBLK then
    match a.device with
    | .opened => (none, u_dupfd)
    | .failed error => (some error, u_dupfd)
    | .fdopen minor => (some ENODEV, minor)
    | .interrupted => (some EINTR, u_dupfd)
  else (none, u_dupfd)

/-- `vn_open`: the inode or the error, and `u_dupfd`. -/
def vn_open (s : State NFILE nproc Ino) (a : Answers Ino) (fmode : BitVec 32) (u_dupfd : Int) :
    Except Error Ino × Int × State NFILE nproc Ino :=
  match s.lookup a fmode with
  | (.error error, s) => (.error error, u_dupfd, s)
  | (.ok (ip, fmode), s) =>
      match check a fmode with
      | some error => (.error error, u_dupfd, s.irele ip)
      | none =>
          match openi a u_dupfd with
          | (some error, u_dupfd) => (.error error, u_dupfd, s.irele ip)
          | (none, u_dupfd) => (.ok ip, u_dupfd, s)

/-! ## `copen` -/

/-- `dupfdopen`, with the number it returns. -/
def dupfdopen (k : Kernel NFILE nproc) (p : Fin nproc) (indx : Fin NOFILE) (dfd : Int)
    (mode : BitVec 32) (error : Error) : Nat × Kernel NFILE nproc :=
  match k.getf p dfd with
  | none => (EBADF, k)
  | some (fd, wfp) =>
      if (k.u p).u_ofile indx = some wfp then (EBADF, k)
      else if error = ENODEV then
        if (mode &&& (FREAD ||| FWRITE)) ||| k.f_flag wfp ≠ k.f_flag wfp then (EACCES, k)
        else
          (0, (k.onUser p fun u =>
            ((u.put indx (some wfp)).setFlags indx (u.u_pofile fd)).raiseLastfile indx).setCount wfp
              (k.f_count wfp + 1))
      else (error, k)

/-- The entry given up, and its inode. -/
def closef (s : State NFILE nproc Ino) (fp : Fin NFILE) : State NFILE nproc Ino :=
  let s' := s.withKernel (s.k.closef (some fp))
  if 1 < s.k.f_count fp then s'
  else
    match s.f_data fp with
    | none => s'
    | some ip => { s'.irele ip with f_data := Function.update s.f_data fp none }

/-- The end of `copen` when `vn_open` has failed. -/
def unopened (s : State NFILE nproc Ino) (p : Fin nproc) (indx : Fin NOFILE) (fp : Fin NFILE)
    (flags : BitVec 32) (error : Error) (u_dupfd : Int) : Nat × State NFILE nproc Ino :=
  let s := s.withKernel (s.k.setCount fp 0)
  if (error = ENODEV ∨ error = ENXIO) ∧ 0 ≤ u_dupfd then
    let (value, k) := dupfdopen s.k p indx u_dupfd flags error
    -- (error = dupfdopen(indx,u.u_dupfd,flags,error) == 0)
    let error := if value = 0 then 1 else 0
    if error ≠ 0 then (0, s.withKernel (k.onUser p (User.rval indx)))
    else (error, s.withKernel (k.onUser p (User.put indx none)))
  else (error, s.withKernel (s.k.onUser p (User.put indx none)))

/-- The end of `copen` when there is an inode: the lock is taken that the mode asks for. -/
def opened (s : State NFILE nproc Ino) (p : Fin nproc) (indx : Fin NOFILE) (fp : Fin NFILE)
    (flags : BitVec 32) (a : Answers Ino) (ip : Ino) : Nat × State NFILE nproc Ino :=
  let s := { s with f_data := Function.update s.f_data fp (some ip) }
  if flags &&& (O_EXLOCK ||| O_SHLOCK) ≠ 0 then
    match a.ino_lock with
    | none =>
        let bit := if flags &&& O_EXLOCK ≠ 0 then O_EXLOCK else O_SHLOCK
        (0, s.withKernel { s.k with
          f_flag := Function.update s.k.f_flag fp (s.k.f_flag fp ||| bit) })
    | some error =>
        let s := s.closef fp
        (error, s.withKernel (s.k.onUser p (User.put indx none)))
  else (0, s)

/-- The entry gets the flags of the call. -/
def entered (s : State NFILE nproc Ino) (k : Kernel NFILE nproc) (fp : Fin NFILE)
    (flags : BitVec 32) : State NFILE nproc Ino :=
  { s.withKernel { k with f_flag := Function.update k.f_flag fp (flags &&& FMASK) } with
    f_data := Function.update s.f_data fp none }

/-- `copen` of a process, and what it returns; `open` puts that into `u_error`. -/
def copen (s : State NFILE nproc Ino) (p : Fin nproc) (mode : BitVec 32) (a : Answers Ino) :
    Nat × State NFILE nproc Ino :=
  match s.k.falloc p with
  | (none, k) => (if (s.k.ufalloc p 0).1 = none then EMFILE else ENFILE, s.withKernel k)
  | (some (indx, fp), k) =>
      let flags := FFLAGS mode
      match (s.entered k fp flags).vn_open a flags (-indx - 1) with
      | (.error error, u_dupfd, s) => s.unopened p indx fp flags error u_dupfd
      | (.ok ip, _, s) => s.opened p indx fp flags a ip

end State

end DiscoBsd.File.Open
