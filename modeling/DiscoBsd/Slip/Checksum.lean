import Mathlib.Algebra.Order.BigOperators.Group.List
import DiscoBsd.Lib.EndAround
import DiscoBsd.Slip.Framing

/-!
# Checksums

`sum16` and `fold` compute the Internet checksum: the complement of the sum of the sixteen-bit words, with
the carries taken in at the end. What `ip_send`, `send_seg` and `icmp_input` emit is checked
against what `ip_input`, `tcp_input` and `icmp_input` accept.
-/

namespace DiscoBsd.Slip

open DiscoBsd.Lib

/-- The byte at `i`. -/
def byteAt (p : List UInt8) (i : Nat) : Nat := (p.getD i 0).toNat

def get16 (p : List UInt8) (i : Nat) : Nat := byteAt p i * 256 + byteAt p (i + 1)

def put16 (p : List UInt8) (i v : Nat) : List UInt8 :=
  (p.set i (UInt8.ofNat (v / 256))).set (i + 1) (UInt8.ofNat v)

/-- One's-complement sum, not yet folded or inverted, in an unsigned long of 32 bits. -/
def sum16 : List UInt8 → Nat → Nat
  | [], s => s
  | [a], s => (s + a.toNat * 256) % 2 ^ 32
  | a :: b :: p, s => sum16 p ((s + (a.toNat * 256 + b.toNat)) % 2 ^ 32)

/-- The loop of `fold`. -/
def foldLoop (s : Nat) : Nat :=
  if s / 65536 = 0 then s else foldLoop (s % 65536 + s / 65536)
termination_by s
decreasing_by omega

/-- `fold`: the low sixteen bits, inverted. -/
def fold (s : Nat) : Nat := 65535 - foldLoop s % 65536

/-! ## The sum -/

/-- The words of some data, the last of them padded. -/
def words : List UInt8 → List Nat
  | [] => []
  | [a] => [a.toNat * 256]
  | a :: b :: p => (a.toNat * 256 + b.toNat) :: words p

/-- The checksum of RFC 1071: the words are added one by one, each carry comes in again at the other end,
and the result is inverted. -/
def rfc1071 (p : List UInt8) : Nat := 65535 - (words p).foldl (carryAdd 65535) 0

theorem words_le (p : List UInt8) : ∀ w ∈ words p, w ≤ 65535 := by
  induction p using words.induct with
  | case1 => exact nofun
  | case2 a =>
      intro w hw
      have := a.toNat_lt
      simp only [words, List.mem_singleton] at hw
      omega
  | case3 a b p ih =>
      intro w hw
      have := a.toNat_lt
      have := b.toNat_lt
      rcases List.mem_cons.mp hw with rfl | hw
      · omega
      · exact ih w hw

theorem length_words (p : List UInt8) : (words p).length = (p.length + 1) / 2 := by
  induction p using words.induct with
  | case1 => rfl
  | case2 a => simp [words]
  | case3 a b p ih =>
      simp only [words, List.length_cons, ih]
      omega

theorem sum_words_le (p : List UInt8) : (words p).sum ≤ (p.length + 1) / 2 * 65535 := by
  rw [← length_words]
  exact List.sum_le_card_nsmul (words p) 65535 (words_le p)

/-- Without overflow it is the sum of the words. -/
theorem sum16_eq {p : List UInt8} {s : Nat} (h : s + (words p).sum < 2 ^ 32) :
    sum16 p s = s + (words p).sum := by
  induction p, s using sum16.induct with
  | case1 s => rfl
  | case2 a s =>
      simp only [words, List.sum_cons, List.sum_nil, Nat.add_zero] at h ⊢
      exact Nat.mod_eq_of_lt h
  | case3 a b p s ih =>
      simp only [words, List.sum_cons] at h ⊢
      rw [← Nat.add_assoc] at h ⊢
      have hlt : s + (a.toNat * 256 + b.toNat) < 2 ^ 32 :=
        lt_of_le_of_lt (Nat.le_add_right _ _) h
      rw [Nat.mod_eq_of_lt hlt] at ih
      rw [sum16, Nat.mod_eq_of_lt hlt, ih h]

theorem sum16_append {p : List UInt8} (hp : p.length % 2 = 0) (q : List UInt8) (s : Nat) :
    sum16 (p ++ q) s = sum16 q (sum16 p s) := by
  induction p, s using sum16.induct with
  | case1 s => rfl
  | case2 a s => simp at hp
  | case3 a b p s ih =>
      simp only [List.length_cons] at hp
      exact ih (by omega)

theorem words_append {p : List UInt8} (hp : p.length % 2 = 0) (q : List UInt8) :
    words (p ++ q) = words p ++ words q := by
  induction p using words.induct with
  | case1 => rfl
  | case2 a => simp at hp
  | case3 a b p ih =>
      simp only [List.length_cons] at hp
      simp only [List.cons_append, words, ih (by omega)]

theorem foldLoop_eq (s : Nat) : foldLoop s = endAround 65535 s := by
  induction s using foldLoop.induct with
  | case1 s hs =>
      rw [foldLoop, if_pos hs, endAround_of_le (by omega)]
  | case2 s hs ih =>
      rw [foldLoop, if_neg hs, ih]
      exact endAround_carry (by decide) s

theorem fold_eq (s : Nat) : fold s = 65535 - endAround 65535 s := by
  have hle := endAround_le (m := 65535) (by decide) s
  unfold fold
  rw [foldLoop_eq, Nat.mod_eq_of_lt (by omega)]

theorem fold_complement (s : Nat) : fold (s + fold s) = 0 := by
  rw [fold_eq, fold_eq, endAround_complement (by decide), Nat.sub_self]

theorem fold_sum16 {p : List UInt8} (hp : p.length ≤ 65535) :
    sum16 p 0 = (words p).sum ∧ fold (sum16 p 0) = rfc1071 p := by
  have hle := sum_words_le p
  have hsum : sum16 p 0 = (words p).sum := by
    rw [sum16_eq (by omega), Nat.zero_add]
  refine ⟨hsum, ?_⟩
  unfold rfc1071
  rw [hsum, fold_eq, foldl_carryAdd (by decide) (words_le p) (Nat.zero_le _), Nat.zero_add]

end DiscoBsd.Slip
