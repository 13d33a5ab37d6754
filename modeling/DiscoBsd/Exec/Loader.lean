import Mathlib.Data.Nat.Notation

/-!
# Loading an executable

`exec_aout_check` and `exec_elf_check` with `exec_estab` and `exec_clear`, as `exec_check` tries them on
the first 64 bytes of a file, for the two user windows that the kernel has. Addresses and lengths are
numbers below `2 ^ 32`, and `wrap` stands where the arithmetic of the source can leave that range. Reading
the file does not fail. A file for the third handler, a script, is sent on to its interpreter, which is
an executable of its own.
-/

namespace DiscoBsd.Exec

/-- Unsigned arithmetic of 32 bits. -/
def wrap (n : Nat) : Nat := n % 4294967296

def NBPW : Nat := 4

def SSIZE : Nat := 2048

def MAXBSIZE : Nat := 1024

def NO_ADDR : Nat := 4294967295

def user_data_start : Nat := 0x02001800

/-- `roundup(x, NBPW)`. -/
def roundup (x : Nat) : Nat := wrap (x + (NBPW - 1)) / NBPW * NBPW

/-- The user window: 64K, or 249K on an EverDrive. -/
inductive Window where
  | plain
  | everdrive
  deriving DecidableEq

def Window.MAXMEM : Window → Nat
  | plain => 64 * 1024
  | everdrive => 249 * 1024

def Window.user_data_end (w : Window) : Nat := user_data_start + w.MAXMEM

inductive Errno where
  | ENOEXEC
  | ENOMEM
  deriving DecidableEq

/-! ## The file -/

/-- What `exec_save_args` saved, in buffers of six blocks. -/
structure Args where
  argc : Nat
  envc : Nat
  argbc : Nat
  envbc : Nat
  fits : NBPW * argc + argbc + NBPW * envc + envbc ≤ 6 * MAXBSIZE

/-- A program header. -/
structure Phdr where
  p_type : Nat
  p_vaddr : Nat
  p_filesz : Nat
  p_memsz : Nat
  p_flags : Nat
  vaddr_lt : p_vaddr < 4294967296
  filesz_lt : p_filesz < 4294967296
  memsz_lt : p_memsz < 4294967296

/-- A file: the bytes at its start, of which `hdr_len` were there to read, and the program header at
`e_phoff`. -/
structure Image where
  hdr : Nat → UInt8
  hdr_len : Nat
  ph : Phdr
  args : Args
  uid : Nat
  gid : Nat

namespace Image

/-- An `unsigned short` of the header. -/
def half (img : Image) (off : Nat) : Nat := (img.hdr off).toNat + 256 * (img.hdr (off + 1)).toNat

/-- An `unsigned` of the header. -/
def word (img : Image) (off : Nat) : Nat := img.half off + 65536 * img.half (off + 2)

def a_midmag (img : Image) : Nat := img.word 0

def a_text (img : Image) : Nat := img.word 4

def a_data (img : Image) : Nat := img.word 8

def a_bss (img : Image) : Nat := img.word 12

def a_entry (img : Image) : Nat := img.word 28

/-- `N_GETMAGIC`. -/
def magic (img : Image) : Nat := img.a_midmag % 65536

/-- `N_GETMID`. -/
def mid (img : Image) : Nat := img.a_midmag / 65536 % 1024

/-- `N_GETFLAG`, which shifts to the left. -/
def flag (img : Image) : Nat := wrap (img.a_midmag / 67108864 * 67108864 * 67108864)

def e_type (img : Image) : Nat := img.half 16

def e_machine (img : Image) : Nat := img.half 18

def e_version (img : Image) : Nat := img.word 20

def e_entry (img : Image) : Nat := img.word 24

def e_phoff (img : Image) : Nat := img.word 28

def e_phentsize (img : Image) : Nat := img.half 42

def e_phnum (img : Image) : Nat := img.half 44

def e_shentsize (img : Image) : Nat := img.half 46

def e_shnum (img : Image) : Nat := img.half 48

end Image

def OMAGIC : Nat := 0o407

def elfident : List UInt8 := [0x7f, 69, 76, 70, 1, 1, 1, 0, 0]

/-- The header of an `a.out` file that the handler takes. -/
def Image.IsAout (img : Image) : Prop :=
  32 ≤ img.hdr_len ∧ img.mid = 0 ∧ img.flag = 0 ∧ img.magic = OMAGIC

/-- The header of an ELF file with one segment, for everything. -/
def Image.IsElf (img : Image) : Prop :=
  52 ≤ img.hdr_len ∧ (∀ i < 9, elfident[i]? = some (img.hdr i)) ∧ img.e_type = 2 ∧
    img.e_machine = 40 ∧ img.e_version = 1 ∧ img.e_phentsize = 32 ∧ img.e_phoff ≠ 0 ∧
    img.e_phnum ≠ 0 ∧ img.e_shnum ≠ 0 ∧ img.e_shentsize = 40 ∧ 32 * img.e_phnum ≤ MAXBSIZE ∧
    img.e_phnum = 1 ∧ img.ph.p_type = 1 ∧ img.ph.p_flags = 7

instance (img : Image) : Decidable img.IsAout := inferInstanceAs (Decidable (_ ∧ _))

instance (img : Image) : Decidable img.IsElf := inferInstanceAs (Decidable (_ ∧ _))

/-! ## The process -/

/-- A section in memory. -/
structure Memsect where
  vaddr : Nat
  len : Nat
  deriving DecidableEq

/-- The sections of `exec_params`. -/
structure Params where
  text : Memsect
  data : Memsect
  bss : Memsect
  heap : Memsect
  stack : Memsect
  deriving DecidableEq

/-- The calling process: its sizes, its credentials, whether it runs in its parent's memory, where it
goes on, and the ranges of memory that were loaded or cleared. -/
structure Process where
  pr_scale : Nat
  SVFORK : Bool
  p_dsize : Nat
  p_daddr : Nat
  p_ssize : Nat
  p_saddr : Nat
  u_tsize : Nat
  u_dsize : Nat
  u_ssize : Nat
  traced : Bool
  uid : Nat
  gid : Nat
  svuid : Nat
  svgid : Nat
  sigtrap : Bool
  pc : Nat
  touched : List Memsect
  deriving DecidableEq

/-- How a call of a handler ends. -/
inductive Outcome where
  | failed (error : Errno) (p : Process)
  | loaded (epp : Params) (p : Process)
  deriving DecidableEq

/-- A range of memory is loaded or cleared. -/
def Process.touch (p : Process) (s : Memsect) : Process := { p with touched := s :: p.touched }

/-- `exec_estab`: an error, or the sizes of the new image. -/
def exec_estab (w : Window) (epp : Params) (p : Process) : Option Errno × Process :=
  if epp.text.vaddr ≠ NO_ADDR ∨ epp.data.vaddr = NO_ADDR ∨ epp.data.vaddr ≠ user_data_start ∨
      epp.stack.vaddr ≠ wrap (w.user_data_end + 4294967296 - epp.stack.len) then (some .ENOMEM, p)
  else if wrap (epp.text.len + epp.data.len + epp.bss.len + epp.heap.len + epp.stack.len) >
      w.MAXMEM then (some .ENOMEM, p)
  else if roundup (wrap (epp.data.vaddr + epp.data.len)) ≠ roundup epp.bss.vaddr then
    (some .ENOMEM, p)
  else
    (none,
      { p with
        pr_scale := 0
        SVFORK := false
        p_dsize := wrap (epp.data.len + epp.bss.len)
        p_daddr := epp.data.vaddr
        p_ssize := epp.stack.len
        p_saddr := epp.stack.vaddr })

/-- `exec_clear`. -/
def exec_clear (img : Image) (epp : Params) (p : Process) : Process :=
  let p := if epp.bss.len > 0 then p.touch epp.bss else p
  let p := if epp.heap.len > 0 then p.touch epp.heap else p
  let p := p.touch epp.stack
  let p := if p.traced then { p with sigtrap := true } else { p with uid := img.uid, gid := img.gid }
  { p with
    svuid := p.uid
    svgid := p.gid
    u_tsize := epp.text.len
    u_dsize := wrap (epp.data.len + epp.bss.len)
    u_ssize := epp.stack.len }

/-- The length of the stack of an `a.out` file. -/
def Args.stack (args : Args) : Nat :=
  wrap (SSIZE + roundup (args.argbc + args.envbc) + (args.argc + args.envc + 4) * NBPW)

/-- The sections of an `a.out` file of type `OMAGIC`, whose text counts as data. -/
def Image.aoutParams (img : Image) (w : Window) : Params :=
  let a_data := wrap (img.a_data + img.a_text)
  let bss := wrap (user_data_start + a_data)
  { text := ⟨NO_ADDR, 0⟩
    data := ⟨user_data_start, a_data⟩
    bss := ⟨bss, img.a_bss⟩
    heap := ⟨wrap (bss + img.a_bss), 0⟩
    stack := ⟨wrap (w.user_data_end + 4294967296 - img.args.stack), img.args.stack⟩ }

/-- The entry point is among the data; the low bit is the flag of Thumb code. -/
def Params.entryInside (epp : Params) (entry : Nat) : Prop :=
  epp.data.vaddr ≤ entry / 2 * 2 ∧ entry / 2 * 2 < wrap (epp.data.vaddr + epp.data.len)

instance (epp : Params) (entry : Nat) : Decidable (epp.entryInside entry) :=
  inferInstanceAs (Decidable (_ ∧ _))

/-- `exec_aout_check`. What `exec_estab` returns is not looked at. -/
def exec_aout_check (w : Window) (img : Image) (p : Process) : Outcome :=
  if ¬ img.IsAout then .failed .ENOEXEC p
  else
    let epp := img.aoutParams w
    if ¬ epp.entryInside img.a_entry then .failed .ENOEXEC p
    else if epp.heap.vaddr > epp.stack.vaddr then .failed .ENOMEM p
    else
      let p := (exec_estab w epp p).2
      let p := exec_clear img epp (p.touch ⟨epp.data.vaddr, epp.data.len⟩)
      .loaded epp { p with pc := img.a_entry }

/-- The sections of an ELF file of one segment. The arguments are not saved yet. -/
def Image.elfParams (img : Image) (w : Window) : Params :=
  let len := SSIZE + 4 * NBPW
  let bss := wrap (img.ph.p_vaddr + img.ph.p_filesz)
  { text := ⟨NO_ADDR, 0⟩
    data := ⟨img.ph.p_vaddr, wrap (bss + 4294967296 - img.ph.p_vaddr)⟩
    bss := ⟨bss, wrap (img.ph.p_memsz + 4294967296 - img.ph.p_filesz)⟩
    heap := ⟨wrap (img.ph.p_vaddr + img.ph.p_memsz), 0⟩
    stack := ⟨wrap (w.user_data_end + 4294967296 - len), len⟩ }

/-- The check before the segment is loaded. -/
def Params.mayLoad (epp : Params) (ph : Phdr) : Prop :=
  (epp.data.vaddr ≠ NO_ADDR ∧ ph.p_vaddr ≥ epp.data.vaddr ∧
    wrap (ph.p_vaddr + ph.p_filesz) ≤ wrap (epp.data.vaddr + epp.data.len)) ∧
    ¬ (ph.p_filesz ≥ ph.p_memsz ∨ ph.p_filesz = 0)

instance (epp : Params) (ph : Phdr) : Decidable (epp.mayLoad ph) :=
  inferInstanceAs (Decidable (_ ∧ _))

/-- `exec_elf_check`. -/
def exec_elf_check (w : Window) (img : Image) (p : Process) : Outcome :=
  if ¬ img.IsElf then .failed .ENOEXEC p
  else
    let epp := img.elfParams w
    match exec_estab w epp p with
    | (some error, p) => .failed error p
    | (none, p) =>
        if ¬ epp.mayLoad img.ph then .failed .ENOEXEC p
        else
          let p := exec_clear img epp (p.touch ⟨img.ph.p_vaddr, img.ph.p_filesz⟩)
          .loaded epp { p with pc := img.e_entry }

/-- `exec_check`: another handler is tried after `ENOEXEC`. -/
def exec_check (w : Window) (img : Image) (p : Process) : Outcome :=
  match exec_aout_check w img p with
  | .failed .ENOEXEC p => exec_elf_check w img p
  | outcome => outcome

end DiscoBsd.Exec
