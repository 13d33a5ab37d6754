import Mathlib.Algebra.Group.Nat.Defs
import Mathlib.Logic.Function.Basic

/-!
# Copies from and to user memory

`baduaddr`, `copyin` and `copyout` with addresses and sizes of 32 bits. The copies look at the first and at
the last byte only. `copyin_safe_iff` and `copyout_safe_iff` say when that is enough: a range that goes
around the address space may begin and end in the window and leave it in between.
-/

namespace DiscoBsd.Kern

/-- A machine address. -/
abbrev Caddr := BitVec 32

abbrev Memory := Caddr → BitVec 8

/-- `__user_data_start`. -/
def userDataStart : Caddr := 0x02001800#32

/-- The end of the user memory window, `__user_data_end`: the window has 64 KiB, or 249 KiB. -/
structure Window where
  stop : Caddr
  size : stop = userDataStart + 65536#32 ∨ stop = userDataStart + 254976#32

inductive CopyError where
  | EFAULT
  deriving DecidableEq

/-- `baduaddr`. -/
def baduaddr (w : Window) (addr : Caddr) : Bool :=
  !(decide (userDataStart ≤ addr) && decide (addr < w.stop))

/-- `bcopy`: byte by byte, forward. -/
def bcopy (source dest : Caddr) : Nat → Memory → Memory
  | 0, m => m
  | n + 1, m => bcopy (source + 1) (dest + 1) n (Function.update m dest (m source))

/-- `copyout`. -/
def copyout (w : Window) (source dest : Caddr) (nbytes : BitVec 32) (m : Memory) :
    Option CopyError × Memory :=
  if baduaddr w dest || baduaddr w (dest + nbytes - 1) then (some .EFAULT, m)
  else (none, bcopy source dest nbytes.toNat m)

/-- `copyin`. -/
def copyin (w : Window) (source dest : Caddr) (nbytes : BitVec 32) (m : Memory) :
    Option CopyError × Memory :=
  if baduaddr w source || baduaddr w (source + nbytes - 1) then (some .EFAULT, m)
  else (none, bcopy source dest nbytes.toNat m)

/-- Every byte of a range is in the window. -/
def Window.Inside (w : Window) (addr : Caddr) (nbytes : BitVec 32) : Prop :=
  ∀ i < nbytes.toNat, userDataStart ≤ addr + BitVec.ofNat 32 i ∧ addr + BitVec.ofNat 32 i < w.stop

variable {w : Window} {addr source dest : Caddr} {nbytes : BitVec 32} {m : Memory}

theorem Window.stop_toNat (w : Window) : w.stop.toNat = 33626112 ∨ w.stop.toNat = 33815552 := by
  rcases w.size with h | h
  · rw [h]
    exact Or.inl (by decide)
  · rw [h]
    exact Or.inr (by decide)

theorem baduaddr_eq_false : baduaddr w addr = false ↔ userDataStart ≤ addr ∧ addr < w.stop := by
  simp [baduaddr]

/-- The check of both ends, as `copyin` and `copyout` make it. -/
def endsBad (w : Window) (addr : Caddr) (nbytes : BitVec 32) : Bool :=
  baduaddr w addr || baduaddr w (addr + nbytes - 1)

theorem endsBad_eq_false : endsBad w addr nbytes = false ↔
    (33560576 ≤ addr.toNat ∧ addr.toNat < w.stop.toNat) ∧
      33560576 ≤ (addr.toNat + nbytes.toNat + 4294967295) % 4294967296 ∧
      (addr.toNat + nbytes.toNat + 4294967295) % 4294967296 < w.stop.toNat := by
  unfold endsBad
  rw [Bool.or_eq_false_iff, baduaddr_eq_false, baduaddr_eq_false]
  simp only [BitVec.le_def, BitVec.lt_def, BitVec.toNat_sub, BitVec.toNat_add]
  have hstart : userDataStart.toNat = 33560576 := by decide
  rw [hstart]
  have hlast : (2 ^ 32 - (1 : BitVec 32).toNat + (addr.toNat + nbytes.toNat) % 2 ^ 32) % 2 ^ 32 =
      (addr.toNat + nbytes.toNat + 4294967295) % 4294967296 := by
    have hone : (1 : BitVec 32).toNat = 1 := by decide
    omega
  rw [hlast]

theorem inside_iff : w.Inside addr nbytes ↔ ∀ i < nbytes.toNat,
    33560576 ≤ (addr.toNat + i) % 4294967296 ∧ (addr.toNat + i) % 4294967296 < w.stop.toNat := by
  have hstart : userDataStart.toNat = 33560576 := by decide
  unfold Window.Inside
  refine forall₂_congr fun i hi => ?_
  have hoffset : (addr + BitVec.ofNat 32 i).toNat = (addr.toNat + i) % 4294967296 := by
    rw [BitVec.toNat_add, BitVec.toNat_ofNat]
    omega
  rw [BitVec.le_def, BitVec.lt_def, hoffset, hstart]

/-- The check of the ends is enough for a range that does not come back to the window. -/
theorem inside_of_ends (hends : endsBad w addr nbytes = false)
    (hshort : addr.toNat + nbytes.toNat ≤ 2 ^ 32 + userDataStart.toNat) : w.Inside addr nbytes := by
  have hstart : userDataStart.toNat = 33560576 := by decide
  obtain ⟨⟨hlow, hhigh⟩, hlow', hhigh'⟩ := endsBad_eq_false.mp hends
  have haddr := addr.isLt
  rw [hstart] at hshort
  rw [inside_iff]
  intro i hi
  omega

/-- A range that comes back passes the check, and leaves the window. -/
theorem ends_of_around (hbad : baduaddr w addr = false)
    (hlong : 2 ^ 32 + userDataStart.toNat < addr.toNat + nbytes.toNat) :
    endsBad w addr nbytes = false ∧ ¬ w.Inside addr nbytes := by
  have hstart : userDataStart.toNat = 33560576 := by decide
  obtain ⟨hlow, hhigh⟩ := baduaddr_eq_false.mp hbad
  rw [BitVec.le_def, hstart] at hlow
  rw [BitVec.lt_def] at hhigh
  rw [hstart] at hlong
  have hsize := nbytes.isLt
  have hstop := w.stop.isLt
  constructor
  · rw [endsBad_eq_false]
    omega
  · rw [inside_iff]
    intro hinside
    have hnext := hinside (w.stop.toNat - addr.toNat) (by omega)
    omega

/-- The call has failed with `EFAULT` and copied nothing, or the whole range is in the window. -/
def CopySafe (w : Window) (addr : Caddr) (nbytes : BitVec 32) (m : Memory)
    (result : Option CopyError × Memory) : Prop :=
  result = (some .EFAULT, m) ∨ w.Inside addr nbytes

/-- The ranges that do not come back to the window. -/
def NotAround (w : Window) (addr : Caddr) (nbytes : BitVec 32) : Prop :=
  baduaddr w addr = true ∨ addr.toNat + nbytes.toNat ≤ 2 ^ 32 + userDataStart.toNat

theorem copySafe_iff (copied : Memory) :
    CopySafe w addr nbytes m
        (if endsBad w addr nbytes then (some .EFAULT, m) else (none, copied)) ↔
      NotAround w addr nbytes := by
  unfold CopySafe NotAround
  cases hends : endsBad w addr nbytes with
  | true =>
      refine iff_of_true (Or.inl (if_pos rfl)) ?_
      by_contra hnot
      obtain ⟨hbad, hlong⟩ := not_or.mp hnot
      have hpass := ends_of_around ((Bool.not_eq_true _).mp hbad) (Nat.not_le.mp hlong)
      rw [hpass.1] at hends
      cases hends
  | false =>
      have hbad : baduaddr w addr = false := (Bool.or_eq_false_iff.mp hends).1
      rw [if_neg (by decide), hbad]
      constructor
      · rintro (hcopied | hinside)
        · cases hcopied
        · right
          by_contra hlong
          exact (ends_of_around hbad (Nat.not_le.mp hlong)).2 hinside
      · rintro (hbad' | hshort)
        · cases hbad'
        · exact Or.inr (inside_of_ends hends hshort)

theorem copyin_safe_iff (w : Window) (source dest : Caddr) (nbytes : BitVec 32) (m : Memory) :
    CopySafe w source nbytes m (copyin w source dest nbytes m) ↔ NotAround w source nbytes :=
  copySafe_iff _

theorem copyout_safe_iff (w : Window) (source dest : Caddr) (nbytes : BitVec 32) (m : Memory) :
    CopySafe w dest nbytes m (copyout w source dest nbytes m) ↔ NotAround w dest nbytes :=
  copySafe_iff _

end DiscoBsd.Kern
