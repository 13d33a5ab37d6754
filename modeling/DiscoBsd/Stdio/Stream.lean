import DiscoBsd.Stdio.File

/-!
# Buffered streams

The runtime's `stdio`: a stream with its one buffer, which is read from or written to as the counter,
the pointer and the flags say. `mem` says whether `malloc` finds room for a buffer, and `slot` whether
the stream's slot has one from earlier. Pointers are offsets in the buffer.
-/

namespace DiscoBsd.Stdio

open Lib

def BUFSIZ : Nat := 1024

def EOF : Int := -1

/-- A `struct _iobuf` with its flags, its buffer and the file that its descriptor has open. `base` says
whether `_base` is set. -/
structure Stream where
  cnt : Int
  ptr : Nat
  base : Bool
  bufsiz : Nat
  ioread : Bool
  iowrt : Bool
  ioeof : Bool
  ioerr : Bool
  iorw : Bool
  buffer : Nat → UInt8
  slot : Bool
  fd : Fd

/-- `_getbuf`. -/
def _getbuf (mem : Bool) (p : Stream) : Option Stream :=
  if p.slot = true ∨ mem = true then
    some { p with slot := true, base := true, ptr := 0, bufsiz := BUFSIZ }
  else none

/-- `_flush`. -/
def _flush (p : Stream) : Int × Stream :=
  let n := p.ptr
  let p := { p with ptr := 0, cnt := p.bufsiz }
  if n > 0 then
    let written := p.fd.write (bytes p.buffer 0 n)
    if written.1 then (0, { p with fd := written.2 })
    else (EOF, { p with fd := written.2, ioerr := true })
  else (0, p)

/-- `fflush`. -/
def fflush (p : Stream) : Int × Stream :=
  if p.iowrt = true ∧ p.base = true then _flush p else (0, p)

/-- A byte is put into an empty buffer. -/
def Stream.putFirst (c : UInt8) (p : Stream) : Stream :=
  { p with
    buffer := Function.update p.buffer p.ptr c
    ptr := p.ptr + 1
    cnt := p.bufsiz - 1 }

/-- `_flsbuf`. -/
def _flsbuf (mem : Bool) (c : UInt8) (p : Stream) : Int × Stream :=
  let p := if p.iorw then { p with ioread := false, iowrt := true } else p
  if p.iowrt = false then (EOF, p)
  else if p.base = false then
    match _getbuf mem p with
    | none => (EOF, p)
    | some p => (c.toNat, p.putFirst c)
  else if p.ptr > 0 then
    let flushed := _flush p
    if flushed.1 = EOF then (EOF, flushed.2) else (c.toNat, flushed.2.putFirst c)
  else (c.toNat, p.putFirst c)

/-- The buffer is filled. -/
def Stream.fill (p : Stream) : Int × Stream :=
  match p.fd.read p.bufsiz with
  | (some (c :: cs), d) =>
      (c.toNat, { p with fd := d, buffer := store p.buffer 0 (c :: cs), cnt := cs.length, ptr := 1 })
  | (some [], d) => (EOF, { p with fd := d, ioeof := true, cnt := 0 })
  | (none, d) => (EOF, { p with fd := d, ioerr := true, cnt := 0 })

/-- `_filbuf`. -/
def _filbuf (mem : Bool) (p : Stream) : Int × Stream :=
  let p := if p.iorw then { p with iowrt := false, ioread := true } else p
  if p.ioread = false then (EOF, p)
  else if p.base = false then
    match _getbuf mem p with
    | none => (EOF, p)
    | some p => p.fill
  else p.fill

/-- `fputc`. -/
def fputc (mem : Bool) (c : UInt8) (p : Stream) : Int × Stream :=
  let p := { p with cnt := int (p.cnt - 1) }
  if p.cnt < 0 then _flsbuf mem c p
  else (c.toNat, { p with buffer := Function.update p.buffer p.ptr c, ptr := p.ptr + 1 })

/-- `fgetc`. -/
def fgetc (mem : Bool) (p : Stream) : Int × Stream :=
  let p := { p with cnt := int (p.cnt - 1) }
  if p.cnt < 0 then _filbuf mem p else ((p.buffer p.ptr).toNat, { p with ptr := p.ptr + 1 })

/-- `fputs`. -/
def fputs (mem : Bool) : List UInt8 → Stream → Int × Stream
  | [], p => (0, p)
  | c :: cs, p =>
      if (fputc mem c p).1 = EOF then (EOF, (fputc mem c p).2) else fputs mem cs (fputc mem c p).2

/-- `ftell`. -/
def ftell (p : Stream) : Int × Stream :=
  let pos := (p.fd.lseek 0 1).1
  let p := { p with fd := (p.fd.lseek 0 1).2 }
  if pos < 0 then (-1, p)
  else if p.ioread = true ∧ p.base = true ∧ p.cnt > 0 then (int (pos - p.cnt), p)
  else if p.iowrt = true ∧ p.base = true then (int (pos + p.ptr), p)
  else (pos, p)

/-- The end of `fseek`. -/
def Stream.seek (off : Int) (whence : Nat) (p : Stream) : Int × Stream :=
  let p := { p with ioeof := false }
  let p := if p.iorw then { p with ioread := false, iowrt := false } else p
  (if (p.fd.lseek off whence).1 < 0 then -1 else 0, { p with fd := (p.fd.lseek off whence).2 })

/-- `fseek`. -/
def fseek (off : Int) (whence : Nat) (p : Stream) : Int × Stream :=
  if p.iowrt then
    if (fflush p).1 = EOF then (-1, (fflush p).2) else (fflush p).2.seek off whence
  else if p.ioread then
    Stream.seek (if whence = 1 ∧ p.cnt > 0 then int (off - p.cnt) else off) whence
      { p with cnt := 0, ptr := 0 }
  else p.seek off whence

/-- `fgetpos`, with the position. -/
def fgetpos (p : Stream) : Int × Stream := ftell p

/-- `fsetpos`. -/
def fsetpos (pos : Int) (p : Stream) : Int × Stream := fseek pos 0 p

/-- `fopen` of a file that may exist. The slot of the stream may have a buffer, with something in it. -/
def fopen (mode : List Char) (existing : Option File) (slot : Bool) (buffer : Nat → UInt8) :
    Option Stream :=
  let rw := mode.contains '+'
  let stream (ioread iowrt : Bool) (file : File) (append : Bool) : Stream :=
    { cnt := 0
      ptr := 0
      base := false
      bufsiz := 0
      ioread := ioread && !rw
      iowrt := iowrt && !rw
      ioeof := false
      ioerr := false
      iorw := rw
      buffer := buffer
      slot := slot
      fd :=
        { file := file
          f_offset := 0
          readable := ioread || rw
          writable := iowrt || rw
          append := append } }
  match mode.head? with
  | some 'r' => existing.map fun file => stream true false file false
  | some 'w' => some (stream false true (File.ofList []) false)
  | some 'a' => some (stream false true (existing.getD (File.ofList [])) true)
  | _ => none

/-- The file that `fclose` leaves. -/
def fclose (p : Stream) : File := (fflush p).2.fd.file

/-- The file that `exit` leaves. -/
def exit (p : Stream) : File := if p.iowrt then (fflush p).2.fd.file else p.fd.file

end DiscoBsd.Stdio
