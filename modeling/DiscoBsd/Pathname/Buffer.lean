import DiscoBsd.Dir.Directory
import DiscoBsd.Lib.ForwardCopy

/-!
# The path of a lookup

`namei` walks a path in a buffer of `MAXPATHLEN` bytes on its stack. At a symbolic link the unread
rest of the path is moved up or down in the buffer to make room for the text of the link, which is
then put in front of it. The rest is moved with `bcopy`, which goes forward in bytes, words or larger
chunks as the addresses and the machine have it.

The stack around the buffer is part of the memory, and a lookup that leaves the buffer is `astray`.
Directories, formats and accesses are those of an arbitrary tree of inodes.
-/

namespace DiscoBsd.Pathname

open Lib
open Dir (Name Nameiop MAXNAMLEN)

def MAXPATHLEN : Nat := 256

def MAXSYMLINKS : Nat := 8

def slash : UInt8 := 47

def dotdot : Name := [46, 46]

/-- The machines, each with a `bcopy` of its own. -/
inductive Port where
  | gba | stm32 | pic32

/-- The chunks of `bcopy` on the GBA: bytes up to a word, 32 bytes at a time, words, bytes. -/
def gbaChunks (src dst nbytes : Nat) : List Nat :=
  if src % 4 ≠ dst % 4 then List.replicate nbytes 1
  else
    let head := min nbytes ((4 - src % 4) % 4)
    let left := nbytes - head
    List.replicate head 1 ++ List.replicate (left / 32) 32 ++ List.replicate (left % 32 / 4) 4 ++
      List.replicate (left % 4) 1

/-- The chunks of the `bcopy` in C: words when both ends are aligned and there are enough of them. -/
def wordChunks (src dst nbytes : Nat) : List Nat :=
  if 16 ≤ nbytes ∧ src % 4 = 0 ∧ dst % 4 = 0 then
    List.replicate (nbytes / 4) 4 ++ List.replicate (nbytes % 4) 1
  else List.replicate nbytes 1

/-- The chunks in which `nbytes` bytes are copied from address `src` to address `dst`. -/
def Port.chunks : Port → Nat → Nat → Nat → List Nat
  | gba => gbaChunks
  | stm32 => wordChunks
  | pic32 => wordChunks

inductive Errno where
  | ENOENT | EACCES | ENOTDIR | EISDIR | EINVAL | ENAMETOOLONG | ELOOP
deriving DecidableEq, Repr

inductive Format where
  | dir
  | lnk (text : List UInt8)
  | other
deriving DecidableEq

/-- The inodes. `access` is what `access(dp, IEXEC)` fails with, and `mountedOn` the directory that the
root of a mounted file system covers. -/
structure Tree (Ino : Type) where
  rootdir : Ino
  format : Ino → Format
  lookup : Ino → Name → Option Ino
  access : Ino → Option Errno
  mountedOn : Ino → Option Ino

/-- What the caller asks for, and its root directory. -/
structure Request (Ino : Type) where
  op : Nameiop
  lockparent : Bool
  follow : Bool
  rdir : Option Ino

/-- The labels of `namei`, with the inode at `haveino`. -/
inductive Control (Ino : Type) where
  | dirloop
  | dirloop2
  | haveino (ip : Ino)
deriving DecidableEq

/-- The variables of `namei`; `cp` is an offset in the buffer. -/
structure State (Ino : Type) where
  path : Bytes
  cp : Nat
  nlink : Nat
  dp : Ino
  control : Control Ino

/-- How a lookup ends. At the last component a call that creates or deletes goes on with the directory
and what the name is there, if anything. -/
inductive Outcome (Ino : Type) where
  | found (ip : Ino)
  | last (dp : Ino) (ip : Option Ino)
  | error (e : Errno)
deriving DecidableEq

inductive Next (Ino : Type) where
  | go (s : State Ino)
  | done (outcome : Outcome Ino)
  | astray

/-! ## Reading the path -/

/-- The end of a component. -/
def endsAt (path : Bytes) (cp : Nat) : Prop := path cp = 0 ∨ path cp = slash

instance (path : Bytes) (cp : Nat) : Decidable (endsAt path cp) := inferInstanceAs (Decidable (_ ∨ _))

/-- `while (*cp == '/') cp++`, with `left` bytes of the buffer left. -/
def skipSlashes (path : Bytes) : Nat → Nat → Option Nat
  | 0, _ => none
  | left + 1, cp => if path cp = slash then skipSlashes path left (cp + 1) else some cp

/-- `strlen(cp)`, with `left` bytes of the buffer left. -/
def strlen (path : Bytes) : Nat → Nat → Option Nat
  | 0, _ => none
  | left + 1, cp => if path cp = 0 then some 0 else (strlen path left (cp + 1)).map (· + 1)

inductive Component where
  | name (name : Name) (cp : Nat)
  | error (e : Errno)
  | astray

/-- A byte that a name must not have. -/
def badByte (op : Nameiop) (c : UInt8) : Prop := 128 ≤ c ∧ (c = 175 ∨ op ≠ .delete)

instance (op : Nameiop) (c : UInt8) : Decidable (badByte op c) := inferInstanceAs (Decidable (_ ∧ _))

def Component.cons (c : UInt8) : Component → Component
  | .name rest cp => .name (c :: rest) cp
  | .error e => .error e
  | .astray => .astray

/-- The component at `cp` is copied to `ni_dent`, which has room for so many more bytes. -/
def component (path : Bytes) (op : Nameiop) : Nat → Nat → Component
  | 0, cp =>
      if MAXPATHLEN ≤ cp then .astray
      else if endsAt path cp then .name [] cp
      else .error .ENAMETOOLONG
  | room + 1, cp =>
      if MAXPATHLEN ≤ cp then .astray
      else if endsAt path cp then .name [] cp
      else if badByte op (path cp) then .error .EINVAL
      else (component path op room (cp + 1)).cons (path cp)

/-! ## The walk -/

variable {Ino : Type}

/-- The directory to start in behind the slashes at the front of the path. -/
def Request.root (req : Request Ino) (tree : Tree Ino) : Ino := req.rdir.getD tree.rootdir

/-- A path that starts with slashes starts at the root, another one in `dp`. -/
def startIn (tree : Tree Ino) (req : Request Ino) (path : Bytes) (nlink : Nat) (dp : Ino) : Next Ino :=
  if path 0 = slash then
    match skipSlashes path MAXPATHLEN 0 with
    | none => .astray
    | some cp => .go ⟨path, cp, nlink, req.root tree, .dirloop⟩
  else .go ⟨path, 0, nlink, dp, .dirloop⟩

/-- `copystr`, and the start of the walk. -/
def start (tree : Tree Ino) (req : Request Ino) (cdir : Ino) (stack : Bytes) (dirp : List UInt8) : Next Ino :=
  if MAXPATHLEN ≤ dirp.length then .done (.error .ENOENT)
  else startIn tree req (putBytes stack 0 (dirp ++ [0])) 0 cdir

namespace State

/-- A component was read, up to `cp`, and is looked up. -/
def enter [DecidableEq Ino] (tree : Tree Ino) (req : Request Ino) (s : State Ino) (name : Name) (cp : Nat) : Next Ino :=
  if name = [] then
    if req.op ≠ .lookup ∨ req.lockparent then .done (.error .EISDIR) else .done (.found s.dp)
  else
    match tree.lookup s.dp name with
    | none => if req.op = .create ∧ s.path cp = 0 then .done (.last s.dp none) else .done (.error .ENOENT)
    | some ip =>
        if req.op = .delete ∧ s.path cp = 0 then .done (.last s.dp (some ip))
        else
          let above := name = dotdot ∧ req.rdir = some s.dp
          match if name = dotdot ∧ ¬ above ∧ ip = s.dp then tree.mountedOn s.dp else none with
          -- back over `..`, in the directory that the file system is mounted on
          | some up => .go { s with cp := cp - 2, dp := up, control := .dirloop2 }
          | none =>
              let ip := if above then s.dp else ip
              if req.op = .create ∧ req.lockparent ∧ s.path cp = 0 then
                if ip = s.dp then .done (.error .EISDIR) else .done (.last s.dp (some ip))
              else .go { s with cp := cp, control := .haveino ip }

/-- The text of a symbolic link that is to be followed. -/
def link (tree : Tree Ino) (req : Request Ino) (s : State Ino) : Option (List UInt8) :=
  match s.control with
  | .haveino ip =>
      match tree.format ip with
      | .lnk text => if req.follow ∨ s.path s.cp = slash then some text else none
      | _ => none
  | _ => none

/-- The buffer with the text of a link and the rest of the path behind it. -/
def substitute (port : Port) (addr : Nat) (s : State Ino) (text : List UInt8) (pathlen : Nat) : Bytes :=
  putBytes (copyChunks s.path s.cp text.length
    (port.chunks (addr + s.cp) (addr + text.length) pathlen)) 0 text

/-- The rest of the path with its null, if it ends in the buffer. -/
def pathlen (s : State Ino) : Option Nat := (strlen s.path (MAXPATHLEN - s.cp) s.cp).map (· + 1)

/-- The text and the rest of the path fit; the sum is one of `u_int`. -/
def fits (text : List UInt8) (pathlen : Nat) : Prop := (text.length + pathlen) % 2 ^ 32 < MAXPATHLEN - 1

instance (text : List UInt8) (pathlen : Nat) : Decidable (fits text pathlen) :=
  inferInstanceAs (Decidable (_ < _))

/-- A symbolic link is expanded. -/
def expand (port : Port) (addr : Nat) (tree : Tree Ino) (req : Request Ino) (s : State Ino)
    (text : List UInt8) : Next Ino :=
  match s.pathlen with
  | none => .astray
  | some pathlen =>
      if ¬ fits text pathlen then .done (.error .ENAMETOOLONG)
      else if MAXSYMLINKS < s.nlink + 1 then .done (.error .ELOOP)
      else startIn tree req (s.substitute port addr text pathlen) (s.nlink + 1) s.dp

/-- On to the next component, or back to the caller. -/
def proceed (s : State Ino) (ip : Ino) : Next Ino :=
  if s.path s.cp = slash then
    match skipSlashes s.path (MAXPATHLEN - s.cp) s.cp with
    | none => .astray
    | some cp => .go { s with cp := cp, dp := ip, control := .dirloop }
  else .done (.found ip)

/-- From one label of `namei` to the next, with the buffer at address `addr`. -/
def step [DecidableEq Ino] (port : Port) (addr : Nat) (tree : Tree Ino) (req : Request Ino) (s : State Ino) :
    Next Ino :=
  match s.control with
  | .dirloop =>
      if tree.format s.dp ≠ .dir then .done (.error .ENOTDIR)
      else
        match tree.access s.dp with
        | some e => .done (.error e)
        | none => .go { s with control := .dirloop2 }
  | .dirloop2 =>
      match component s.path req.op MAXNAMLEN s.cp with
      | .name name cp => s.enter tree req name cp
      | .error e => .done (.error e)
      | .astray => .astray
  | .haveino ip =>
      match s.link tree req with
      | some text => s.expand port addr tree req text
      | none => s.proceed ip

/-- The text and the length of the rest, where a link is about to be expanded. -/
def expansion (tree : Tree Ino) (req : Request Ino) (s : State Ino) : Option (List UInt8 × Nat) := do
  let text ← s.link tree req
  let pathlen ← s.pathlen
  if fits text pathlen ∧ s.nlink + 1 ≤ MAXSYMLINKS then some (text, pathlen) else none

/-- The links that are expanded when the step is done. -/
def links (tree : Tree Ino) (req : Request Ino) (s : State Ino) : Nat :=
  if (s.expansion tree req).isSome then s.nlink + 1 else s.nlink

/-- The expansion, if there is one, moves the rest of the path without overwriting a byte of it before
it is read. -/
def Clear (port : Port) (addr : Nat) (tree : Tree Ino) (req : Request Ino) (s : State Ino) : Prop :=
  ∀ text pathlen, s.expansion tree req = some (text, pathlen) →
    Unclobbered s.path s.cp text.length (port.chunks (addr + s.cp) (addr + text.length) pathlen)

/-- A step of a lookup, and whether it expands a link. -/
def Step [DecidableEq Ino] (port : Port) (addr : Nat) (tree : Tree Ino) (req : Request Ino) (s : State Ino)
    (expands : Bool) (s' : State Ino) : Prop :=
  s.step port addr tree req = .go s' ∧ expands = (s.expansion tree req).isSome

end State

end DiscoBsd.Pathname
