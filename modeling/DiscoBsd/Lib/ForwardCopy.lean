import DiscoBsd.Lib.Bytes

/-!
# Copies that go forward

A copy routine reads and writes one chunk after the other, from the low end up; the bytes of a chunk
are all read before any of them is written. When the ranges overlap, a byte may be overwritten before
it is read. `copyChunks_apply` gives what is copied, `copyChunks_exact` when that is the source.
-/

namespace DiscoBsd.Lib

/-- Copy the chunks, one after the other, from `src` to `dst`. -/
def copyChunks (m : Bytes) (src dst : Nat) : List Nat → Bytes
  | [] => m
  | k :: ks => copyChunks (bcopy m src m dst k) (src + k) (dst + k) ks

/-- Where the chunk starts that byte `i` is in. -/
def chunkStart : List Nat → Nat → Nat
  | [], _ => 0
  | k :: ks, i => if i < k then 0 else k + chunkStart ks (i - k)

variable {m : Bytes} {src dst a i : Nat} {ks : List Nat}

theorem chunkStart_le (ks : List Nat) (i : Nat) : chunkStart ks i ≤ i := by
  induction ks generalizing i with
  | nil => exact Nat.zero_le i
  | cons k ks ih =>
      rw [chunkStart]
      split
      · exact Nat.zero_le i
      · have hrest := ih (i - k)
        omega

theorem copyChunks_outside (h : a < dst ∨ dst + ks.sum ≤ a) : copyChunks m src dst ks a = m a := by
  induction ks generalizing m src dst with
  | nil => rfl
  | cons k ks ih =>
      rw [List.sum_cons] at h
      rw [copyChunks, ih (by omega), bcopy_outside _ _ _ _ (by omega)]

/-- Byte `i` of the copy: what was copied over byte `i` of the source, if that came before. -/
theorem copyChunks_apply (m : Bytes) (src dst : Nat) {ks : List Nat} {i : Nat} (h : i < ks.sum) :
    copyChunks m src dst ks (dst + i) =
      if dst ≤ src + i ∧ src + i < dst + chunkStart ks i then copyChunks m src dst ks (src + i)
      else m (src + i) := by
  induction ks generalizing m src dst i with
  | nil => simp at h
  | cons k ks ih =>
      rw [List.sum_cons] at h
      rw [copyChunks, chunkStart]
      by_cases hk : i < k
      · rw [if_pos hk, if_neg (by omega), copyChunks_outside (by omega),
          bcopy_inside _ _ _ _ hk]
      · obtain ⟨j, rfl⟩ : ∃ j, i = k + j := ⟨i - k, by omega⟩
        have hnext := ih (bcopy m src m dst k) (src + k) (dst + k) (show j < ks.sum by omega)
        rw [Nat.add_assoc, Nat.add_assoc] at hnext
        rw [if_neg hk, Nat.add_sub_cancel_left, hnext]
        have hassoc : dst + k + chunkStart ks j = dst + (k + chunkStart ks j) := by omega
        rw [hassoc]
        by_cases hinside : dst ≤ src + (k + j) ∧ src + (k + j) < dst + (k + chunkStart ks j)
        · rw [if_pos hinside]
          split
          · rfl
          · -- the first chunk was copied over it
            rw [copyChunks_outside (by omega)]
        · rw [if_neg hinside, if_neg (by omega), bcopy_outside _ _ _ _ (by omega)]

/-- No byte changes by being overwritten before it is read. -/
def Unclobbered (m : Bytes) (src dst : Nat) (ks : List Nat) : Prop :=
  ∀ i j, i < ks.sum → j < chunkStart ks i → dst + j = src + i → m (src + i) = m (src + j)

/-- The copy is the source exactly when no byte of it is clobbered. -/
theorem copyChunks_exact :
    (∀ i < ks.sum, copyChunks m src dst ks (dst + i) = m (src + i)) ↔ Unclobbered m src dst ks := by
  constructor
  · intro hexact i j hi hj heq
    have hle := chunkStart_le ks i
    have hcopied := copyChunks_apply m src dst hi
    rw [hexact i hi, if_pos (by omega), ← heq, hexact j (by omega)] at hcopied
    rw [← heq]
    exact hcopied
  · intro hsame i
    induction i using Nat.strong_induction_on with
    | h i ih =>
        intro hi
        have hle := chunkStart_le ks i
        rw [copyChunks_apply m src dst hi]
        split
        · next hover =>
          obtain ⟨j, hj⟩ : ∃ j, dst + j = src + i := ⟨src + i - dst, by omega⟩
          rw [← hj, ih j (by omega) (by omega), hj]
          exact (hsame i j hi (by omega) hj).symm
        · rfl

theorem Unclobbered.of_apart (h : dst ≤ src ∨ src + ks.sum ≤ dst) : Unclobbered m src dst ks := by
  intro i j hi hj heq
  have hle := chunkStart_le ks i
  omega

end DiscoBsd.Lib
