import Mathlib.Logic.Function.Basic
import Mathlib.Tactic.Common

/-!
# Runs of bytes in a memory

A memory gives a byte for every address. `bytes` reads a run and `store` writes one; the lemmas say
how runs are put together and what a write leaves alone.
-/

namespace DiscoBsd.Lib

/-- The `n` bytes from an address on. -/
def bytes (memory : Nat → UInt8) (a : Nat) : Nat → List UInt8
  | 0 => []
  | n + 1 => memory a :: bytes memory (a + 1) n

/-- The memory with a run of bytes written to an address. -/
def store (memory : Nat → UInt8) (a : Nat) : List UInt8 → Nat → UInt8
  | [] => memory
  | c :: cs => store (Function.update memory a c) (a + 1) cs

theorem bytes_length (memory : Nat → UInt8) (a n : Nat) : (bytes memory a n).length = n := by
  induction n generalizing a with
  | zero => rfl
  | succ n ih => rw [bytes, List.length_cons, ih]

theorem bytes_add (memory : Nat → UInt8) (a n m : Nat) :
    bytes memory a (n + m) = bytes memory a n ++ bytes memory (a + n) m := by
  induction n generalizing a with
  | zero => simp [bytes]
  | succ n ih =>
      rw [Nat.add_right_comm, bytes, bytes, ih, List.cons_append]
      congr 3
      omega

theorem bytes_congr {memory memory' : Nat → UInt8} {a n : Nat}
    (h : ∀ b, a ≤ b → b < a + n → memory' b = memory b) :
    bytes memory' a n = bytes memory a n := by
  induction n generalizing a with
  | zero => rfl
  | succ n ih =>
      rw [bytes, bytes, h a (Nat.le_refl a) (by omega), ih fun b hb hlt => h b (by omega) (by omega)]

theorem store_of_lt {memory : Nat → UInt8} {a x : Nat} {cs : List UInt8} (h : x < a) :
    store memory a cs x = memory x := by
  induction cs generalizing memory a with
  | nil => rfl
  | cons c cs ih =>
      rw [store, ih (by omega), Function.update_of_ne (by omega)]

theorem store_of_ge {memory : Nat → UInt8} {a x : Nat} {cs : List UInt8}
    (h : a + cs.length ≤ x) : store memory a cs x = memory x := by
  induction cs generalizing memory a with
  | nil => rfl
  | cons c cs ih =>
      rw [List.length_cons] at h
      rw [store, ih (by omega), Function.update_of_ne (by omega)]

theorem store_append (memory : Nat → UInt8) (a : Nat) (cs cs' : List UInt8) :
    store memory a (cs ++ cs') = store (store memory a cs) (a + cs.length) cs' := by
  induction cs generalizing memory a with
  | nil => rfl
  | cons c cs ih =>
      rw [List.cons_append, store, ih, store, List.length_cons]
      congr 1
      omega

theorem bytes_store (memory : Nat → UInt8) (a : Nat) (cs : List UInt8) :
    bytes (store memory a cs) a cs.length = cs := by
  induction cs generalizing memory a with
  | nil => rfl
  | cons c cs ih =>
      rw [List.length_cons, bytes, store, ih, store_of_lt (by omega), Function.update_self]

/-- A run that was copied from elsewhere. -/
theorem store_bytes {memory data : Nat → UInt8} {a b n i : Nat} (hi : i < n) :
    store memory a (bytes data b n) (a + i) = data (b + i) := by
  induction n generalizing memory a b i with
  | zero => exact absurd hi (Nat.not_lt_zero i)
  | succ n ih =>
      rw [bytes, store]
      cases i with
      | zero => rw [store_of_lt (by omega), Nat.add_zero, Nat.add_zero, Function.update_self]
      | succ i =>
          have hnext : store (Function.update memory a (data b)) (a + 1) (bytes data (b + 1) n)
              (a + 1 + i) = data (b + 1 + i) := ih (by omega)
          rw [Nat.add_right_comm a, Nat.add_right_comm b] at hnext
          exact hnext

theorem bytes_update (memory : Nat → UInt8) (a n : Nat) (c : UInt8) :
    bytes (Function.update memory (a + n) c) a (n + 1) = bytes memory a n ++ [c] := by
  have hsame : bytes (Function.update memory (a + n) c) a n = bytes memory a n :=
    bytes_congr fun b _ hb => Function.update_of_ne (by omega) ..
  rw [bytes_add, hsame, bytes, bytes, Function.update_self]

end DiscoBsd.Lib
