import Mathlib.Data.List.Basic
import Mathlib.Tactic.Ring

/-!
# Byte memories

A memory is a function from addresses to bytes. Sixteen and thirty-two bit words are stored
with the low byte first, `bcopy` copies a range and allows the two ranges to overlap, and
`bytesAt` reads a range as a list. Each write has one lemma for the range that it writes and
one for what lies outside.
-/

namespace DiscoBsd.Lib

/-- A memory, or a file, as a function from addresses to bytes. -/
abbrev Bytes := Nat → UInt8

/-- The sixteen-bit word at `p`. -/
def get16 (m : Bytes) (p : Nat) : Nat :=
  (m p).toNat + 2 ^ 8 * (m (p + 1)).toNat

/-- The thirty-two-bit word at `p`. -/
def get32 (m : Bytes) (p : Nat) : Nat :=
  get16 m p + 2 ^ 16 * get16 m (p + 2)

/-- The bytes of `data` are written from `p` on. -/
def putBytes (m : Bytes) (p : Nat) (data : List UInt8) : Bytes :=
  fun a => if p ≤ a then data.getD (a - p) (m a) else m a

/-- A sixteen-bit word is written at `p`. -/
def put16 (m : Bytes) (p value : Nat) : Bytes :=
  putBytes m p [UInt8.ofNat value, UInt8.ofNat (value / 2 ^ 8)]

/-- A thirty-two-bit word is written at `p`. -/
def put32 (m : Bytes) (p value : Nat) : Bytes :=
  putBytes m p [UInt8.ofNat value, UInt8.ofNat (value / 2 ^ 8), UInt8.ofNat (value / 2 ^ 16),
    UInt8.ofNat (value / 2 ^ 24)]

/-- The `n` bytes of `src` from `sp` on are copied to `dp`. -/
def bcopy (src : Bytes) (sp : Nat) (dst : Bytes) (dp n : Nat) : Bytes :=
  fun a => if dp ≤ a ∧ a < dp + n then src (sp + (a - dp)) else dst a

/-- The `n` bytes from `p` on. -/
def bytesAt (m : Bytes) (p n : Nat) : List UInt8 :=
  (List.range n).map fun i => m (p + i)

variable {m m' : Bytes} {p q n : Nat}

/-! ## Reads depend on what they read -/

theorem get16_congr (h : ∀ i < 2, m (p + i) = m' (q + i)) : get16 m p = get16 m' q := by
  have h0 := h 0 (by omega)
  have h1 := h 1 (by omega)
  simp only [Nat.add_zero] at h0
  rw [get16, get16, h0, h1]

theorem get32_congr (h : ∀ i < 4, m (p + i) = m' (q + i)) : get32 m p = get32 m' q := by
  have hlow : get16 m p = get16 m' q := get16_congr fun i hi => h i (by omega)
  have hhigh : get16 m (p + 2) = get16 m' (q + 2) := by
    apply get16_congr
    intro i hi
    rw [Nat.add_assoc, Nat.add_assoc]
    exact h (2 + i) (by omega)
  rw [get32, get32, hlow, hhigh]

theorem bytesAt_congr (h : ∀ i < n, m (p + i) = m' (q + i)) :
    bytesAt m p n = bytesAt m' q n := by
  apply List.map_congr_left
  intro i hi
  exact h i (List.mem_range.mp hi)

@[simp] theorem bytesAt_length : (bytesAt m p n).length = n := by
  simp [bytesAt]

theorem get16_lt (m : Bytes) (p : Nat) : get16 m p < 2 ^ 16 := by
  have hlow := (m p).toNat_lt
  have hhigh := (m (p + 1)).toNat_lt
  unfold get16
  omega

theorem get32_lt (m : Bytes) (p : Nat) : get32 m p < 2 ^ 32 := by
  have hlow := get16_lt m p
  have hhigh := get16_lt m (p + 2)
  unfold get32
  omega

/-! ## Writes -/

theorem putBytes_before (data : List UInt8) (h : q < p) : putBytes m p data q = m q := by
  unfold putBytes
  rw [if_neg (by omega)]

theorem putBytes_after (data : List UInt8) (h : p + data.length ≤ q) :
    putBytes m p data q = m q := by
  unfold putBytes
  rw [if_pos (by omega), List.getD_eq_getElem?_getD, List.getElem?_eq_none (by omega)]
  rfl

theorem putBytes_outside (data : List UInt8) (h : q < p ∨ p + data.length ≤ q) :
    putBytes m p data q = m q := by
  cases h with
  | inl h => exact putBytes_before data h
  | inr h => exact putBytes_after data h

theorem putBytes_inside (data : List UInt8) {i : Nat} (h : i < data.length) :
    putBytes m p data (p + i) = data[i] := by
  unfold putBytes
  rw [if_pos (by omega), Nat.add_sub_cancel_left, List.getD_eq_getElem?_getD,
    List.getElem?_eq_getElem h]
  rfl

theorem bytesAt_putBytes (m : Bytes) (p : Nat) (data : List UInt8) :
    bytesAt (putBytes m p data) p data.length = data := by
  apply List.ext_getElem (by simp)
  intro i hi hi'
  simp only [bytesAt, List.getElem_map, List.getElem_range]
  exact putBytes_inside data hi'

theorem putBytes_cons (m : Bytes) (p : Nat) (byte : UInt8) (data : List UInt8) :
    putBytes (putBytes m p [byte]) (p + 1) data = putBytes m p (byte :: data) := by
  funext q
  by_cases hbefore : q < p
  · rw [putBytes_before _ hbefore, putBytes_before _ (by omega), putBytes_before _ hbefore]
  obtain ⟨i, rfl⟩ := Nat.exists_eq_add_of_le (Nat.le_of_not_lt hbefore)
  cases i with
  | zero =>
      rw [putBytes_before _ (by omega)]
      have hfirst : putBytes m p (byte :: data) (p + 0) = byte :=
        putBytes_inside (byte :: data) (Nat.succ_pos _)
      rw [hfirst]
      exact putBytes_inside [byte] Nat.one_pos
  | succ i =>
      by_cases hinside : i < data.length
      · rw [show p + (i + 1) = p + 1 + i by omega, putBytes_inside _ hinside,
          show p + 1 + i = p + (i + 1) by omega, putBytes_inside _ (by simpa using hinside)]
        rfl
      · rw [putBytes_after _ (by omega), putBytes_after _ (by simp), putBytes_after]
        rw [List.length_cons]
        omega

theorem put16_outside (value : Nat) (h : q < p ∨ p + 2 ≤ q) : put16 m p value q = m q :=
  putBytes_outside _ h

theorem put32_outside (value : Nat) (h : q < p ∨ p + 4 ≤ q) : put32 m p value q = m q :=
  putBytes_outside _ h

theorem get16_put16 (m : Bytes) (p : Nat) {value : Nat} (h : value < 2 ^ 16) :
    get16 (put16 m p value) p = value := by
  have h0 := putBytes_inside (m := m) (p := p)
    [UInt8.ofNat value, UInt8.ofNat (value / 2 ^ 8)] (i := 0) (by simp)
  have h1 := putBytes_inside (m := m) (p := p)
    [UInt8.ofNat value, UInt8.ofNat (value / 2 ^ 8)] (i := 1) (by simp)
  simp only [Nat.add_zero, List.getElem_cons_zero] at h0
  simp only [List.getElem_cons_succ, List.getElem_cons_zero] at h1
  rw [get16, put16, h0, h1, UInt8.toNat_ofNat', UInt8.toNat_ofNat']
  omega

theorem get32_put32 (m : Bytes) (p : Nat) {value : Nat} (h : value < 2 ^ 32) :
    get32 (put32 m p value) p = value := by
  have hbyte : ∀ i (hi : i < 4), put32 m p value (p + i) =
      [UInt8.ofNat value, UInt8.ofNat (value / 2 ^ 8), UInt8.ofNat (value / 2 ^ 16),
        UInt8.ofNat (value / 2 ^ 24)][i] := fun i hi => putBytes_inside _ hi
  have h0 := hbyte 0 (by omega)
  have h1 := hbyte 1 (by omega)
  have h2 := hbyte 2 (by omega)
  have h3 := hbyte 3 (by omega)
  simp only [Nat.add_zero, List.getElem_cons_zero, List.getElem_cons_succ] at h0 h1 h2 h3
  rw [get32, get16, get16, h0, h1, h2, h3, UInt8.toNat_ofNat', UInt8.toNat_ofNat',
    UInt8.toNat_ofNat', UInt8.toNat_ofNat']
  omega

theorem bcopy_inside (src : Bytes) (sp : Nat) (dst : Bytes) (dp : Nat) {i : Nat} (h : i < n) :
    bcopy src sp dst dp n (dp + i) = src (sp + i) := by
  unfold bcopy
  rw [if_pos (by omega), Nat.add_sub_cancel_left]

theorem bcopy_outside (src : Bytes) (sp : Nat) (dst : Bytes) (dp : Nat)
    (h : q < dp ∨ dp + n ≤ q) : bcopy src sp dst dp n q = dst q := by
  unfold bcopy
  rw [if_neg (by omega)]

end DiscoBsd.Lib
