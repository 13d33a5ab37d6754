import DiscoBsd.Pipe.Pipe

/-!
# What a transfer of a pipe moves

A write appends a prefix of its bytes to the file, a read takes a prefix of what the file still has.
`firstFault` gives the fault that a transfer meets, if any; without one the whole request is moved.
-/

namespace DiscoBsd.Pipe

open DiscoBsd.Lib

/-- The first fault of a number of turns. -/
def firstFault (faults : Nat → Option Fault) : Nat → Nat → Option Fault
  | _, 0 => none
  | turn, turns + 1 =>
      match faults turn with
      | some fault => some fault
      | none => firstFault faults (turn + 1) turns

/-- The number of blocks that a range of bytes touches. -/
def blocks (offset n : Nat) : Nat :=
  if n = 0 then 0 else (offset % DEV_BSIZE + n + (DEV_BSIZE - 1)) / DEV_BSIZE

theorem blocks_zero (offset : Nat) : blocks offset 0 = 0 := rfl

/-- After the part in its first block, a range has one block less. -/
theorem blocks_succ {offset n : Nat} (h : 0 < n) :
    blocks offset n =
      blocks (offset + min (DEV_BSIZE - offset % DEV_BSIZE) n)
        (n - min (DEV_BSIZE - offset % DEV_BSIZE) n) + 1 := by
  rw [blocks, if_neg (Nat.ne_of_gt h), blocks]
  by_cases hrest : n - min (DEV_BSIZE - offset % DEV_BSIZE) n = 0
  · rw [if_pos hrest]
    simp only [DEV_BSIZE] at hrest ⊢
    omega
  · rw [if_neg hrest]
    simp only [DEV_BSIZE] at hrest ⊢
    omega

theorem firstFault_of_none {faults : Nat → Option Fault} {turn turns : Nat}
    (h : faults turn = none) :
    firstFault faults turn (turns + 1) = firstFault faults (turn + 1) turns := by
  rw [firstFault, h]

theorem firstFault_of_some {faults : Nat → Option Fault} {turn turns : Nat} {fault : Fault}
    (h : faults turn = some fault) : firstFault faults turn (turns + 1) = some fault := by
  rw [firstFault, h]

/-! ## Writing -/

namespace Out

/-- A request that has appended its next bytes to the file. -/
def moved (io : Out) (m : Nat) : Out where
  file := store io.file io.uio_offset (io.iov.take m)
  i_size := io.uio_offset + m
  uio_offset := io.uio_offset + m
  uio_resid := io.uio_resid - m
  iov := io.iov.drop m

theorem moved_zero {io : Out} (h : io.i_size = io.uio_offset) : io.moved 0 = io := by
  cases io
  cases h
  rfl

theorem moved_moved {io : Out} {m : Nat} (h : m ≤ io.iov.length) (m' : Nat) :
    (io.moved m).moved m' = io.moved (m + m') := by
  have hlength : (io.iov.take m).length = m := List.length_take_of_le h
  have hfile := store_append io.file io.uio_offset (io.iov.take m) ((io.iov.drop m).take m')
  rw [← List.take_add, hlength] at hfile
  simp only [moved, hfile, List.drop_drop, Nat.add_assoc, Nat.sub_add_eq]

end Out

/-- A loop that meets no unreadable buffer moves a prefix, and stops short of the whole exactly when
it meets a fault. -/
theorem rwipOutLoop_moved {faults : Nat → Option Fault} (fuel turn : Nat) {io : Out}
    (hsize : io.i_size = io.uio_offset) (hlength : io.uio_resid ≤ io.iov.length)
    (hpos : 0 < io.uio_resid) (hfuel : io.uio_resid ≤ fuel)
    (hbuffer : firstFault faults turn (blocks io.uio_offset io.uio_resid) ≠ some .buffer) :
    ∃ m, m ≤ io.uio_resid ∧ (rwipOutLoop faults fuel turn io).2 = io.moved m ∧
      ((rwipOutLoop faults fuel turn io).1 = none ↔
        firstFault faults turn (blocks io.uio_offset io.uio_resid) = none) ∧
      ((rwipOutLoop faults fuel turn io).1 = none → m = io.uio_resid) := by
  induction fuel generalizing turn io with
  | zero => omega
  | succ fuel ih =>
      rw [blocks_succ hpos] at hbuffer ⊢
      rw [rwipOutLoop]
      generalize hn : min (DEV_BSIZE - io.uio_offset % DEV_BSIZE) io.uio_resid = n at hbuffer ⊢
      have hle : n ≤ io.uio_resid := by omega
      have hone : 0 < n := by
        have := Nat.mod_lt io.uio_offset (show 0 < DEV_BSIZE by decide)
        omega
      cases hfault : faults turn with
      | some fault =>
          rw [firstFault_of_some hfault] at hbuffer ⊢
          cases fault with
          | buffer => exact absurd rfl hbuffer
          | bmap error => exact ⟨0, Nat.zero_le _, (io.moved_zero hsize).symm, by simp, by simp⟩
      | none =>
          rw [firstFault_of_none hfault] at hbuffer ⊢
          have hmax : max io.i_size (io.uio_offset + n) = io.uio_offset + n := by omega
          simp only [hmax]
          split
          · rename_i hresid
            have hrest : io.uio_resid - n = 0 := hresid
            refine ⟨n, hle, rfl, ?_, fun _ => by omega⟩
            rw [hrest, blocks_zero]
            exact ⟨fun _ => rfl, fun _ => rfl⟩
          · rename_i hresid
            have hrest : 0 < io.uio_resid - n := Nat.pos_of_ne_zero hresid
            have hsize' : (io.moved n).i_size = (io.moved n).uio_offset := rfl
            have hlength' : (io.moved n).uio_resid ≤ (io.moved n).iov.length := by
              simp only [Out.moved, List.length_drop]
              omega
            have hfuel' : (io.moved n).uio_resid ≤ fuel := by
              simp only [Out.moved]
              omega
            obtain ⟨m, hm, hmoved, hnone, hall⟩ := ih (turn + 1) hsize' hlength' hrest hfuel' hbuffer
            simp only [Out.moved] at hm hall
            exact ⟨n + m, by omega, hmoved.trans (Out.moved_moved (by omega) m), hnone,
              fun h => by have := hall h; omega⟩

/-- A write that the limit and every block allow. -/
def Fits (rlim_fsize offset n : Nat) (faults : Nat → Option Fault) : Prop :=
  offset + n ≤ rlim_fsize ∧ firstFault faults 0 (blocks offset n) = none

/-- A write that comes to a buffer that cannot be read. -/
def Unreadable (rlim_fsize offset n : Nat) (faults : Nat → Option Fault) : Prop :=
  offset + n ≤ rlim_fsize ∧ firstFault faults 0 (blocks offset n) = some .buffer

theorem rwipOut_moved {rlim_fsize : Nat} {faults : Nat → Option Fault} (io : Out)
    (hsize : io.i_size = io.uio_offset) (hlength : io.uio_resid ≤ io.iov.length)
    (hpos : 0 < io.uio_resid)
    (hread : ¬ Unreadable rlim_fsize io.uio_offset io.uio_resid faults) :
    ∃ m, m ≤ io.uio_resid ∧ (rwipOut rlim_fsize faults io).2 = io.moved m ∧
      ((rwipOut rlim_fsize faults io).1 = none ↔
        Fits rlim_fsize io.uio_offset io.uio_resid faults) ∧
      ((rwipOut rlim_fsize faults io).1 = none → m = io.uio_resid) := by
  rw [rwipOut, if_neg (Nat.ne_of_gt hpos)]
  split
  · rename_i hlimit
    refine ⟨0, Nat.zero_le _, (io.moved_zero hsize).symm, ?_, by simp⟩
    exact iff_of_false (by simp) fun hfits => absurd hfits.1 (by omega)
  · rename_i hlimit
    have hle : io.uio_offset + io.uio_resid ≤ rlim_fsize := by omega
    obtain ⟨m, hm, hmoved, hnone, hall⟩ := rwipOutLoop_moved io.uio_resid 0 hsize hlength hpos
      (Nat.le_refl _) fun hbuffer => hread ⟨hle, hbuffer⟩
    exact ⟨m, hm, hmoved, hnone.trans ⟨fun h => ⟨hle, h⟩, And.right⟩, hall⟩

/-- A write that fits is moved as a whole. -/
theorem rwipOut_of_fits {rlim_fsize : Nat} {faults : Nat → Option Fault} {io : Out}
    (hsize : io.i_size = io.uio_offset) (hlength : io.uio_resid ≤ io.iov.length)
    (hpos : 0 < io.uio_resid) (hfits : Fits rlim_fsize io.uio_offset io.uio_resid faults) :
    rwipOut rlim_fsize faults io = (none, io.moved io.uio_resid) := by
  have hread : ¬ Unreadable rlim_fsize io.uio_offset io.uio_resid faults := by
    intro hunreadable
    rw [Unreadable, hfits.2] at hunreadable
    exact nomatch hunreadable.2
  obtain ⟨m, -, hmoved, hnone, hall⟩ := rwipOut_moved io hsize hlength hpos hread
  have hok := hnone.mpr hfits
  rw [hall hok] at hmoved
  exact Prod.ext hok hmoved

/-! ## Reading -/

namespace In

/-- A request that has got the next bytes of the file. -/
def moved (file : Nat → UInt8) (io : In) (m : Nat) : In where
  uio_offset := io.uio_offset + m
  uio_resid := io.uio_resid - m
  got := io.got ++ bytes file io.uio_offset m

theorem moved_zero (file : Nat → UInt8) (io : In) : io.moved file 0 = io := by
  simp only [moved, bytes, List.append_nil, Nat.add_zero, Nat.sub_zero]

theorem moved_moved (file : Nat → UInt8) (io : In) (m m' : Nat) :
    (io.moved file m).moved file m' = io.moved file (m + m') := by
  simp only [moved, bytes_add, List.append_assoc, Nat.add_assoc, Nat.sub_add_eq]

end In

/-- A loop moves a part of what the file still has, nothing if the first turn meets a fault, and
fails exactly when some turn does. -/
theorem rwipInLoop_moved (file : Nat → UInt8) {i_size : Nat} (faults : Nat → Option Fault)
    (fuel turn : Nat) {io : In} (hoffset : io.uio_offset ≤ i_size) (hfuel : io.uio_resid ≤ fuel)
    (hpos : 0 < io.uio_resid) :
    ∃ m, io.uio_offset + m ≤ i_size ∧
      (rwipInLoop file i_size faults fuel turn io).2 = io.moved file m ∧
      ((rwipInLoop file i_size faults fuel turn io).1 = none ↔
        firstFault faults turn
          (blocks io.uio_offset (min io.uio_resid (i_size - io.uio_offset))) = none) ∧
      (faults turn ≠ none → m = 0) := by
  induction fuel generalizing turn io with
  | zero => omega
  | succ fuel ih =>
      rw [rwipInLoop]
      split
      · rename_i hend
        have hrest : min io.uio_resid (i_size - io.uio_offset) = 0 := by omega
        rw [hrest, blocks_zero]
        exact ⟨0, hoffset, (io.moved_zero file).symm, ⟨fun _ => rfl, fun _ => rfl⟩, fun _ => rfl⟩
      · rename_i hmore
        have hrest : 0 < min io.uio_resid (i_size - io.uio_offset) := by omega
        rw [blocks_succ hrest, ← Nat.min_assoc]
        generalize hn : min (min (DEV_BSIZE - io.uio_offset % DEV_BSIZE) io.uio_resid)
          (i_size - io.uio_offset) = n
        have hle : io.uio_offset + n ≤ i_size := by omega
        cases hfault : faults turn with
        | some fault =>
            rw [firstFault_of_some hfault]
            cases fault with
            | bmap error => exact ⟨0, hoffset, (io.moved_zero file).symm, by simp, fun _ => rfl⟩
            | buffer => exact ⟨0, hoffset, (io.moved_zero file).symm, by simp, fun _ => rfl⟩
        | none =>
            rw [firstFault_of_none hfault]
            dsimp only
            split
            · rename_i hresid
              have hzero : min io.uio_resid (i_size - io.uio_offset) - n = 0 := by omega
              rw [hzero, blocks_zero]
              exact ⟨n, hle, rfl, ⟨fun _ => rfl, fun _ => rfl⟩, fun h => absurd rfl h⟩
            · rename_i hresid
              have hoffset' : (io.moved file n).uio_offset ≤ i_size := hle
              have hone : 0 < n := by
                have := Nat.mod_lt io.uio_offset (show 0 < DEV_BSIZE by decide)
                omega
              have hfuel' : (io.moved file n).uio_resid ≤ fuel := by
                simp only [In.moved]
                omega
              obtain ⟨m, hm, hmoved, hnone, -⟩ :=
                ih (turn + 1) hoffset' hfuel' (Nat.pos_of_ne_zero hresid)
              have hmin : min (io.moved file n).uio_resid (i_size - (io.moved file n).uio_offset) =
                  min io.uio_resid (i_size - io.uio_offset) - n := by
                simp only [In.moved]
                omega
              rw [hmin] at hnone
              refine ⟨n + m, ?_, hmoved.trans (io.moved_moved file n m), hnone,
                fun h => absurd rfl h⟩
              simp only [In.moved] at hm
              omega

/-- A read that comes to a fault after its first block. -/
def Broken (offset n : Nat) (faults : Nat → Option Fault) : Prop :=
  faults 0 = none ∧ firstFault faults 0 (blocks offset n) ≠ none

theorem rwipIn_moved (file : Nat → UInt8) {i_size : Nat} {faults : Nat → Option Fault} (io : In)
    (hoffset : io.uio_offset ≤ i_size)
    (hwhole : ¬ Broken io.uio_offset (min io.uio_resid (i_size - io.uio_offset)) faults) :
    ∃ m, io.uio_offset + m ≤ i_size ∧
      (rwipIn file i_size faults io).2 = io.moved file m ∧
      ((rwipIn file i_size faults io).1 = none ∨ m = 0) := by
  rw [rwipIn]
  split
  · exact ⟨0, hoffset, (io.moved_zero file).symm, .inl rfl⟩
  · rename_i hresid
    obtain ⟨m, hm, hmoved, hnone, hfault⟩ := rwipInLoop_moved file faults io.uio_resid 0 hoffset
      (Nat.le_refl _) (Nat.pos_of_ne_zero hresid)
    refine ⟨m, hm, hmoved, ?_⟩
    by_cases hfirst : faults 0 = none
    · exact .inl (hnone.mpr (by_contra fun h => hwhole ⟨hfirst, h⟩))
    · exact .inr (hfault hfirst)

end DiscoBsd.Pipe
