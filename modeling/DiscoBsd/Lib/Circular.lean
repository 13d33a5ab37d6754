import Mathlib.Data.List.Basic
import Mathlib.Data.Nat.ModEq
import Mathlib.Logic.Function.Basic

/-!
# Circular buffers

A circular buffer of `size` cells is read and written from a start position on, modulo its size.
`circRead_write` says what is read after a write behind the part that is in use, and
`circRead_slice` that a part of what is read is what is read of a part.
-/

namespace DiscoBsd.Lib

variable {α : Type*}

/-- Read `n` cells from `start` on. -/
def circRead (size : Nat) (ring : Nat → α) (start n : Nat) : List α :=
  (List.range n).map fun i => ring ((start + i) % size)

/-- Write the items from `start` on. -/
def circWrite (size : Nat) (ring : Nat → α) (start : Nat) : List α → Nat → α
  | [] => ring
  | item :: items =>
      circWrite size (Function.update ring (start % size) item) (start + 1) items

@[simp] theorem circRead_length (size : Nat) (ring : Nat → α) (start n : Nat) :
    (circRead size ring start n).length = n := by
  simp [circRead]

theorem circRead_zero (size : Nat) (ring : Nat → α) (start : Nat) :
    circRead size ring start 0 = [] := rfl

theorem circRead_succ (size : Nat) (ring : Nat → α) (start n : Nat) :
    circRead size ring start (n + 1) =
      ring (start % size) :: circRead size ring (start + 1) n := by
  unfold circRead
  rw [List.range_succ_eq_map, List.map_cons, List.map_map]
  congr 1
  refine List.map_congr_left fun i _ => ?_
  simp only [Function.comp_apply]
  congr 2
  omega

theorem circRead_congr {size start n : Nat} {ring ring' : Nat → α}
    (h : ∀ i < n, ring' ((start + i) % size) = ring ((start + i) % size)) :
    circRead size ring' start n = circRead size ring start n :=
  List.map_congr_left fun i hi => h i (List.mem_range.mp hi)

/-- Reading on. -/
theorem circRead_add (size : Nat) (ring : Nat → α) (start m n : Nat) :
    circRead size ring start (m + n) =
      circRead size ring start m ++ circRead size ring (start + m) n := by
  induction m generalizing start with
  | zero => simp [circRead_zero]
  | succ m ih =>
      rw [show m + 1 + n = (m + n) + 1 by omega, circRead_succ, circRead_succ, ih (start + 1)]
      simp only [List.cons_append]
      rw [show start + 1 + m = start + (m + 1) by omega]

theorem circRead_mod (size : Nat) (ring : Nat → α) (start n : Nat) :
    circRead size ring (start % size) n = circRead size ring start n := by
  unfold circRead
  refine List.map_congr_left fun i _ => ?_
  rw [Nat.mod_add_mod]

theorem circRead_slice {size start n off len : Nat} (ring : Nat → α) (hlen : off + len ≤ n) :
    circRead size ring (start + off) len =
      ((circRead size ring start n).drop off).take len := by
  obtain ⟨rest, rfl⟩ := Nat.exists_eq_add_of_le hlen
  rw [circRead_add size ring start (off + len) rest, circRead_add size ring start off len,
    List.append_assoc, List.drop_left' (circRead_length _ _ _ _),
    List.take_left' (circRead_length _ _ _ _)]

/-- Only the cells of the buffer matter for a write. -/
theorem circWrite_congr {size start : Nat} {ring ring' : Nat → α} {items : List α}
    (h : ∀ i < size, ring' i = ring i) {i : Nat} (hi : i < size) :
    circWrite size ring' start items i = circWrite size ring start items i := by
  induction items generalizing ring ring' start with
  | nil => exact h i hi
  | cons item items ih =>
      refine ih fun j hj => ?_
      by_cases heq : j = start % size
      · rw [heq, Function.update_self, Function.update_self]
      · rw [Function.update_of_ne heq, Function.update_of_ne heq, h j hj]

/-- A write leaves the cells before it alone, unless it comes round to them. -/
theorem circRead_write_before {size start n : Nat} (ring : Nat → α) {items : List α}
    (hroom : n + items.length ≤ size) :
    circRead size (circWrite size ring (start + n) items) start n = circRead size ring start n := by
  induction items generalizing ring n with
  | nil => rfl
  | cons item items ih =>
      have hroom' : n + 1 + items.length ≤ size := by
        simp only [List.length_cons] at hroom
        omega
      have hih := ih (Function.update ring ((start + n) % size) item) hroom'
      rw [circRead_add, circRead_add size _ start n 1] at hih
      rw [circWrite, Nat.add_assoc, (List.append_inj hih (by simp)).1]
      unfold circRead
      refine List.map_congr_left fun i hi => ?_
      rw [Function.update_of_ne]
      intro heq
      have hi := List.mem_range.mp hi
      have hmod : i % size = n % size := Nat.ModEq.add_left_cancel' start heq
      rw [Nat.mod_eq_of_lt (by omega), Nat.mod_eq_of_lt (by omega)] at hmod
      omega

/-- What was written is read back. -/
theorem circRead_write_self {size start : Nat} (ring : Nat → α) {items : List α}
    (hroom : items.length ≤ size) :
    circRead size (circWrite size ring start items) start items.length = items := by
  induction items generalizing ring start with
  | nil => rfl
  | cons item items ih =>
      have hroom' : items.length + 1 ≤ size := hroom
      rw [circWrite, List.length_cons, circRead_succ, ih _ (by omega)]
      congr 1
      have hkept : circRead size (circWrite size (Function.update ring (start % size) item)
          (start + 1) items) start 1 =
            circRead size (Function.update ring (start % size) item) start 1 :=
        circRead_write_before _ (by omega)
      rw [circRead_succ, circRead_succ] at hkept
      rw [(List.cons.inj hkept).1, Function.update_self]

theorem circRead_write {size start n : Nat} (ring : Nat → α) {items : List α}
    (hroom : n + items.length ≤ size) :
    circRead size (circWrite size ring (start + n) items) start (n + items.length) =
      circRead size ring start n ++ items := by
  rw [circRead_add, circRead_write_before ring hroom, circRead_write_self ring (by omega)]

end DiscoBsd.Lib
