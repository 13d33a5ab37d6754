import Mathlib.Algebra.GroupWithZero.Nat
import Mathlib.Algebra.BigOperators.Group.List.Basic

/-!
# Moving data from user space

A write request is the list of the buffers that are still to be copied in; `uio_resid` is their
total length, as `rwuio` sets it up. `uiomove` copies the next bytes into the kernel.
-/

namespace DiscoBsd.Kern

/-- `uio_resid`. -/
def resid (uio : List (List UInt8)) : Nat := (uio.map List.length).sum

theorem resid_eq (uio : List (List UInt8)) : resid uio = uio.flatten.length := by
  rw [resid, List.length_flatten]

/-- Copy `n` bytes in, or what is left. A buffer that is used up is skipped, here at once and in the
source by the next turn of the loop. -/
def uiomove (n : Nat) : List (List UInt8) → List UInt8 × List (List UInt8)
  | [] => ([], [])
  | iov :: uio =>
      if n = 0 ∨ resid (iov :: uio) = 0 then ([], iov :: uio)
      else if n < iov.length then (iov.take n, iov.drop n :: uio)
      else
        let rest := uiomove (n - iov.length) uio
        (iov ++ rest.1, rest.2)

/-- The bytes come from the front, in order, and as many as were asked for or are left. -/
theorem uiomove_spec (n : Nat) (uio : List (List UInt8)) :
    (uiomove n uio).1 ++ (uiomove n uio).2.flatten = uio.flatten ∧
      (uiomove n uio).1.length = min n (resid uio) := by
  induction uio generalizing n with
  | nil => simp [uiomove, resid]
  | cons iov uio ih =>
      rw [uiomove]
      split
      · rename_i hnone
        refine ⟨rfl, ?_⟩
        rw [List.length_nil]
        omega
      · rename_i hsome
        rw [resid, List.map_cons, List.sum_cons] at hsome ⊢
        split
        · simp only [List.flatten_cons]
          rw [← List.append_assoc, List.take_append_drop]
          refine ⟨rfl, ?_⟩
          rw [List.length_take]
          omega
        · obtain ⟨hflat, hlength⟩ := ih (n - iov.length)
          rw [resid] at hlength
          simp only [List.flatten_cons, List.append_assoc, List.length_append, hflat, hlength]
          refine ⟨trivial, ?_⟩
          omega

theorem resid_uiomove (n : Nat) (uio : List (List UInt8)) :
    resid (uiomove n uio).2 + (uiomove n uio).1.length = resid uio := by
  have h := congrArg List.length (uiomove_spec n uio).1
  rw [List.length_append] at h
  rw [resid_eq, resid_eq]
  omega

end DiscoBsd.Kern
