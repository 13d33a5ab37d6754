import DiscoBsd.Lib.Memory

/-!
# Files and descriptors

A regular file with its size and its bytes, and a descriptor that has one open: `read`, `write` and
`lseek` as the kernel does them. Each call of `stdio` done directly on the descriptor is what a stream
without a buffer does.
-/

namespace DiscoBsd.Stdio

open Lib

/-- Arithmetic of an `int`. -/
def int (n : Int) : Int := (n + 2147483648) % 4294967296 - 2147483648

/-- `n` is a file position. -/
def IsPos (n : Int) : Prop := 0 ≤ n ∧ n < 2147483648

theorem int_of_isPos {n : Int} (h : IsPos n) : int n = n := by
  obtain ⟨hlow, hhigh⟩ := h
  rw [int]
  omega

/-- A regular file. Behind its end there is nothing but zeros. -/
@[ext] structure File where
  size : Nat
  data : Nat → UInt8
  hole : ∀ i, size ≤ i → data i = 0

/-- What is in a file. -/
def File.contents (f : File) : List UInt8 := bytes f.data 0 f.size

/-- A file with some bytes. -/
def File.ofList (cs : List UInt8) : File where
  size := cs.length
  data := fun i => cs.getD i 0
  hole := fun i hi => by rw [List.getD, List.getElem?_eq_none hi, Option.getD_none]

/-- Bytes are written at an offset. What lies between the end and the offset reads as zeros. -/
def File.write (f : File) (off : Nat) (cs : List UInt8) : File where
  size := max f.size (off + cs.length)
  data := store f.data off cs
  hole := fun i hi => by rw [store_of_ge (by omega), f.hole i (by omega)]

theorem File.write_append (f : File) (off : Nat) (cs cs' : List UInt8) :
    f.write off (cs ++ cs') = (f.write off cs).write (off + cs.length) cs' := by
  ext
  · simp only [File.write, List.length_append]
    omega
  · simp only [File.write, store_append]

/-- An open file. -/
@[ext] structure Fd where
  file : File
  f_offset : Int
  readable : Bool
  writable : Bool
  append : Bool

/-- `read`, with what was read. -/
def Fd.read (n : Nat) (d : Fd) : Option (List UInt8) × Fd :=
  if d.readable = true ∧ 0 ≤ d.f_offset then
    let count := min n (d.file.size - d.f_offset.toNat)
    (some (bytes d.file.data d.f_offset.toNat count), { d with f_offset := d.f_offset + count })
  else (none, d)

/-- Where `write` writes. -/
def Fd.writeOffset (d : Fd) : Int := if d.append then d.file.size else d.f_offset

/-- `write`, with whether it wrote all. -/
def Fd.write (cs : List UInt8) (d : Fd) : Bool × Fd :=
  if d.writable = true ∧ 0 ≤ d.writeOffset then
    (true,
      { d with
        file := d.file.write d.writeOffset.toNat cs
        f_offset := d.writeOffset + cs.length })
  else (false, d)

/-- `lseek`, with the new offset or -1. -/
def Fd.lseek (off : Int) (whence : Nat) (d : Fd) : Int × Fd :=
  match whence with
  | 0 => (int off, { d with f_offset := int off })
  | 1 => (int (d.f_offset + off), { d with f_offset := int (d.f_offset + off) })
  | 2 => (int (off + d.file.size), { d with f_offset := int (off + d.file.size) })
  | _ => (-1, d)

/-! ## Without a buffer -/

/-- A byte is read. -/
def Fd.fgetc (d : Fd) : Int × Fd :=
  match d.read 1 with
  | (some (c :: _), d) => (c.toNat, d)
  | (_, d) => (-1, d)

/-- A byte is written. -/
def Fd.fputc (c : UInt8) (d : Fd) : Int × Fd :=
  if (d.write [c]).1 then (c.toNat, (d.write [c]).2) else (-1, (d.write [c]).2)

/-- A string is written, up to an error. -/
def Fd.fputs : List UInt8 → Fd → Int × Fd
  | [], d => (0, d)
  | c :: cs, d => if (d.fputc c).1 = -1 then (-1, (d.fputc c).2) else Fd.fputs cs (d.fputc c).2

/-- The offset is set. -/
def Fd.fseek (off : Int) (whence : Nat) (d : Fd) : Int × Fd :=
  (if (d.lseek off whence).1 < 0 then -1 else 0, (d.lseek off whence).2)

/-- The offset is told. -/
def Fd.ftell (d : Fd) : Int × Fd :=
  (if (d.lseek 0 1).1 < 0 then -1 else (d.lseek 0 1).1, (d.lseek 0 1).2)

/-! ## Writing in parts -/

theorem Fd.writeOffset_write {cs : List UInt8} {d : Fd} (hpos : 0 ≤ d.writeOffset)
    (hw : d.writable = true) (happend : d.append = true → cs ≠ []) :
    (d.write cs).2.writeOffset = d.writeOffset + cs.length := by
  rw [Fd.write, if_pos ⟨hw, hpos⟩]
  rw [Fd.writeOffset] at hpos ⊢
  dsimp only
  cases ha : d.append with
  | false =>
      rw [if_neg Bool.false_ne_true, Fd.writeOffset, ha, if_neg Bool.false_ne_true]
  | true =>
      rw [if_pos rfl, Fd.writeOffset, ha, if_pos rfl]
      have hne := List.length_pos_iff.mpr (happend ha)
      simp only [File.write]
      omega

/-- Two writes one after the other are one. -/
theorem Fd.write_append {cs cs' : List UInt8} {d : Fd} (hpos : 0 ≤ d.writeOffset)
    (hw : d.writable = true) (hcs : cs ≠ []) :
    (d.write (cs ++ cs')) = ((d.write cs).2.write cs') := by
  have hoffset := Fd.writeOffset_write hpos hw fun _ => hcs
  have hw' : (d.write cs).2.writable = true := by
    rw [Fd.write, if_pos ⟨hw, hpos⟩]
    exact hw
  rw [Fd.write.eq_1 (cs ++ cs'), if_pos ⟨hw, hpos⟩, Fd.write.eq_1 cs', hoffset, if_pos ⟨hw', by omega⟩]
  have hnat : (d.writeOffset + cs.length).toNat = d.writeOffset.toNat + cs.length := by omega
  rw [hnat, Fd.write, if_pos ⟨hw, hpos⟩]
  dsimp only
  rw [File.write_append, List.length_append]
  congr 2
  push_cast
  omega

end DiscoBsd.Stdio
