import DiscoBsd.Asm.Encode
import DiscoBsd.Lib.Armv4

/-!
# What the assembled words say

The words that `encode` puts together, decoded as ARMv4 instructions, for values that fit in their
fields.
-/

namespace DiscoBsd.Asm

open Lib Lib.Armv4

variable {v cc op s rn rd rm rs off : Int} {shift low width : Nat}

/-! ## Fields -/

theorem bits_within (h0 : 0 ≤ v) (hlow : low ≤ shift) (h : v * 2 ^ shift < 2 ^ (low + width))
    (hword : low + width ≤ 32) : field (bits v shift) low width = v.toNat * 2 ^ (shift - low) :=
  field_within h0 hlow h hword

theorem bits_below (h0 : 0 ≤ v) (h : v * 2 ^ shift < 2 ^ low) (hword : low ≤ 32) :
    field (bits v shift) low width = 0 :=
  field_below h0 h hword

theorem bits_above (h0 : 0 ≤ v) (h : v * 2 ^ shift < 2 ^ 32) (hlow : low + width ≤ shift) :
    field (bits v shift) low width = 0 :=
  field_above h0 h hlow

theorem bits_zero (shift : Nat) : bits 0 shift = 0 := by
  show (0 : Word) <<< shift = 0
  exact BitVec.zero_shiftLeft shift

theorem or_lt {a b : Word} {n : Nat} (ha : a.toNat < 2 ^ n) (hb : b.toNat < 2 ^ n) :
    (a ||| b).toNat < 2 ^ n := by
  rw [BitVec.toNat_or]
  exact Nat.or_lt_two_pow ha hb

theorem bits_lt (h0 : 0 ≤ v) (h : v * 2 ^ shift < 2 ^ width) (hword : width ≤ 32) :
    (bits v shift).toNat < 2 ^ width := by
  have hlt : v * 2 ^ shift < 2 ^ 32 := lt_of_lt_of_le h (pow_le_pow_right₀ (by norm_num) hword)
  rw [show (bits v shift).toNat = v.toNat * 2 ^ shift from toNat_shifted h0 hlt]
  obtain ⟨k, rfl⟩ := Int.eq_ofNat_of_zero_le h0
  exact_mod_cast h

/-! ## Data processing -/

/-- A data-processing word from its fields. -/
def dpWord (cc i op s rn rd : Int) (src : Word) : Word :=
  bits cc 28 ||| bits i 25 ||| bits op 21 ||| bits s 20 ||| bits rn 16 ||| bits rd 12 ||| src

/-- The operand of a data-processing word. -/
def sourceOperand (i : Int) (src : Word) : Operand :=
  if i = 1 then .imm ((BitVec.ofNat 32 (field src 0 8)).rotateRight (2 * field src 8 4))
  else if bit src 4 then .shiftedBy (field src 0 4) (shiftType (field src 5 2)) (field src 8 4)
  else shiftedOperand src

theorem decode_dpWord {i : Int} {src : Word} (hcc : 0 ≤ cc ∧ cc < 15) (hi : i = 0 ∨ i = 1)
    (hop : 0 ≤ op ∧ op < 16) (hs : s = 0 ∨ s = 1) (hrn : 0 ≤ rn ∧ rn < 16)
    (hrd : 0 ≤ rd ∧ rd < 16) (hsrc : src.toNat < 2 ^ 12)
    (hclass : i = 1 ∨ bit src 4 = false ∨ bit src 7 = false) (htest : isTest op.toNat → s = 1) :
    decode (dpWord cc i op s rn rd src) = some (.dataProcessing cc.toNat op.toNat (s == 1)
      (if isTest op.toNat then 0 else rd.toNat) (if isMove op.toNat then 0 else rn.toNat)
      (sourceOperand i src)) := by
  have hlow : ∀ low width, low + width ≤ 12 →
      field (dpWord cc i op s rn rd src) low width = field src low width := by
    intro low width hlow
    have hpow : ∀ shift : Nat, 12 ≤ shift → low + width ≤ shift := fun _ h => Nat.le_trans hlow h
    unfold dpWord
    rw [field_or, field_or, field_or, field_or, field_or, field_or,
      bits_above hcc.1 (by omega) (hpow 28 (by omega)),
      bits_above (by omega) (by omega) (hpow 25 (by omega)),
      bits_above hop.1 (by omega) (hpow 21 (by omega)),
      bits_above (by omega) (by omega) (hpow 20 (by omega)),
      bits_above hrn.1 (by omega) (hpow 16 (by omega)),
      bits_above hrd.1 (by omega) (hpow 12 (by omega))]
    simp only [Nat.zero_or]
  have hhigh : field (dpWord cc i op s rn rd src) 28 4 = cc.toNat ∧
      field (dpWord cc i op s rn rd src) 25 3 = i.toNat ∧
      field (dpWord cc i op s rn rd src) 21 4 = op.toNat ∧
      field (dpWord cc i op s rn rd src) 20 1 = s.toNat ∧
      field (dpWord cc i op s rn rd src) 16 4 = rn.toNat ∧
      field (dpWord cc i op s rn rd src) 12 4 = rd.toNat ∧
      field (dpWord cc i op s rn rd src) 25 1 = i.toNat := by
    unfold dpWord
    refine ⟨?_, ?_, ?_, ?_, ?_, ?_, ?_⟩ <;>
      simp (disch := omega) only [field_or, bits_within, bits_below, bits_above, field_small,
        Nat.or_zero, Nat.zero_or, Nat.sub_self, pow_zero, Nat.mul_one]
  obtain ⟨hcond, hkind, hopcode, hflags, hfirst, hdest, himm⟩ := hhigh
  have hbit : ∀ k, k < 12 → bit (dpWord cc i op s rn rd src) k = bit src k := by
    intro k hk
    unfold bit
    rw [hlow k 1 (by omega)]
  generalize dpWord cc i op s rn rd src = w at *
  have hset : bit w 20 = (s == 1) := by
    unfold bit
    rw [hflags]
    rcases hs with rfl | rfl <;> rfl
  have hoperand : shifterOperand w = sourceOperand i src := by
    unfold shifterOperand sourceOperand shiftedOperand bit
    rw [himm, hlow 0 8 (by omega), hlow 8 4 (by omega), hlow 4 1 (by omega), hlow 0 4 (by omega),
      hlow 5 2 (by omega), hlow 7 5 (by omega)]
    rcases hi with rfl | rfl <;> rfl
  have hdp : decodeDataProcessing w = some (.dataProcessing cc.toNat op.toNat (s == 1)
      (if isTest op.toNat then 0 else rd.toNat) (if isMove op.toNat then 0 else rn.toNat)
      (sourceOperand i src)) := by
    have hother : ¬ (isTest op.toNat && !(s == 1)) = true := by
      intro h
      obtain ⟨hyes, hno⟩ := Bool.and_eq_true_iff.mp h
      rw [htest hyes] at hno
      cases hno
    unfold decodeDataProcessing
    rw [hopcode, hset, hcond, hdest, hfirst, hoperand]
    exact if_neg hother
  unfold decode
  rw [hcond, hkind, hbit 4 (by omega), hbit 7 (by omega), if_neg (by omega)]
  rcases hi with rfl | rfl
  · have hplain : ¬ (bit src 4 && bit src 7) = true := by
      intro h
      obtain ⟨h4, h7⟩ := Bool.and_eq_true_iff.mp h
      rcases hclass with h | h | h
      · cases h
      · rw [h4] at h
        cases h
      · rw [h7] at h
        cases h
    exact (if_neg hplain).trans hdp
  · exact hdp

/-! ## Operands -/

/-- What the fields of an operand say. -/
theorem shifted_operand {src : Word} {type sh : Nat} (hbit : bit src 4 = false)
    (htype : field src 5 2 = type) (hsh : field src 7 5 = sh) :
    sourceOperand 0 src = match shiftType type with
      | .lsl => if sh = 0 then .reg (field src 0 4) else .shifted (field src 0 4) .lsl sh
      | .lsr => .shifted (field src 0 4) .lsr (if sh = 0 then 32 else sh)
      | .asr => .shifted (field src 0 4) .asr (if sh = 0 then 32 else sh)
      | .ror => if sh = 0 then .rrx (field src 0 4) else .shifted (field src 0 4) .ror sh := by
  unfold sourceOperand shiftedOperand
  rw [hbit, htype, hsh]
  rfl

theorem imm_operand {value e : Word} (h : encImm8r value = some e) :
    e.toNat < 2 ^ 12 ∧ sourceOperand 1 e = .imm value := by
  unfold encImm8r at h
  obtain ⟨i, hi, hrot⟩ := List.exists_of_findSome?_eq_some h
  have hlt := List.mem_range.mp hi
  dsimp only at hrot
  split at hrot
  · next hsmall =>
      generalize hr : value.rotateLeft (2 * i) = r at hsmall hrot
      have hall : r &&& 0xFF = r := by
        have hsplit : r &&& (0xFFFFFF00 ||| 0xFF) = r := BitVec.and_allOnes
        rw [BitVec.and_or_distrib_left, hsmall] at hsplit
        simpa using hsplit
      have hbyte : r.toNat < 2 ^ 8 := by
        rw [← hall, BitVec.toNat_and]
        exact Nat.lt_of_le_of_lt Nat.and_le_right (by decide)
      have he : e = bits i 8 ||| r := by
        rw [← Option.some.inj hrot, hall, bits, BitVec.ofInt_natCast]
      have hfields : field e 0 8 = r.toNat ∧ field e 8 4 = i := by
        rw [he, field_or, field_or, bits_above (by omega) (by omega) (by omega),
          bits_within (by omega) (by omega) (by omega) (by omega), field_small hbyte]
        refine ⟨?_, ?_⟩
        · rw [Nat.zero_or]
          unfold field
          rw [pow_zero, Nat.div_one, Nat.mod_eq_of_lt hbyte]
        · simp
      refine ⟨?_, ?_⟩
      · rw [he]
        exact or_lt (bits_lt (by omega) (by omega) (by omega)) (by omega)
      · unfold sourceOperand
        rw [if_pos rfl, hfields.1, hfields.2, BitVec.ofNat_toNat, BitVec.setWidth_eq, ← hr,
          rotateRight_rotateLeft value (by omega)]
  · cases hrot

theorem reg_operand (hrm : 0 ≤ rm ∧ rm < 16) :
    (bits rm 0).toNat < 2 ^ 12 ∧ bit (bits rm 0) 4 = false ∧
      sourceOperand 0 (bits rm 0) = .reg rm.toNat := by
  have hbit : bit (bits rm 0) 4 = false := by
    unfold bit
    rw [bits_below hrm.1 (by omega) (by omega)]
    rfl
  refine ⟨bits_lt hrm.1 (by omega) (by omega), hbit, ?_⟩
  have htype : field (bits rm 0) 5 2 = 0 := bits_below hrm.1 (by omega) (by omega)
  have hsh : field (bits rm 0) 7 5 = 0 := bits_below hrm.1 (by omega) (by omega)
  have hreg : field (bits rm 0) 0 4 = rm.toNat * 2 ^ (0 - 0) :=
    bits_within hrm.1 (by omega) (by omega) (by omega)
  rw [shifted_operand hbit htype hsh, hreg]
  simp [shiftType]

/-- The operand of a shift by a constant. -/
theorem amount_operand {type sh : Int} (htype : 0 ≤ type ∧ type < 3) (hsh : 0 ≤ sh ∧ sh < 32)
    (hrn : 0 ≤ rn ∧ rn < 16) :
    (bits sh 7 ||| bits type 5 ||| bits rn 0).toNat < 2 ^ 12 ∧
      bit (bits sh 7 ||| bits type 5 ||| bits rn 0) 4 = false ∧
      field (bits sh 7 ||| bits type 5 ||| bits rn 0) 0 4 = rn.toNat ∧
      field (bits sh 7 ||| bits type 5 ||| bits rn 0) 5 2 = type.toNat ∧
      field (bits sh 7 ||| bits type 5 ||| bits rn 0) 7 5 = sh.toNat := by
  unfold bit
  refine ⟨or_lt (or_lt (bits_lt hsh.1 (by omega) (by omega)) (bits_lt htype.1 (by omega) (by omega)))
    (bits_lt hrn.1 (by omega) (by omega)), ?_, ?_, ?_, ?_⟩ <;>
    simp (disch := omega) only [field_or, bits_within, bits_below, bits_above, Nat.or_zero,
      Nat.zero_or, Nat.sub_self, pow_zero, Nat.mul_one]
  rfl

/-- The operand of a shift by a register. -/
theorem shiftedBy_operand {type : Int} (htype : 0 ≤ type ∧ type < 3) (hrs : 0 ≤ rs ∧ rs < 16)
    (hrn : 0 ≤ rn ∧ rn < 16) :
    (bits rs 8 ||| bits type 5 ||| bits 1 4 ||| bits rn 0).toNat < 2 ^ 12 ∧
      bit (bits rs 8 ||| bits type 5 ||| bits 1 4 ||| bits rn 0) 7 = false ∧
      sourceOperand 0 (bits rs 8 ||| bits type 5 ||| bits 1 4 ||| bits rn 0) =
        .shiftedBy rn.toNat (shiftType type.toNat) rs.toNat := by
  have hfields : field (bits rs 8 ||| bits type 5 ||| bits 1 4 ||| bits rn 0) 0 4 = rn.toNat ∧
      field (bits rs 8 ||| bits type 5 ||| bits 1 4 ||| bits rn 0) 5 2 = type.toNat ∧
      field (bits rs 8 ||| bits type 5 ||| bits 1 4 ||| bits rn 0) 8 4 = rs.toNat ∧
      field (bits rs 8 ||| bits type 5 ||| bits 1 4 ||| bits rn 0) 4 1 = 1 ∧
      field (bits rs 8 ||| bits type 5 ||| bits 1 4 ||| bits rn 0) 7 1 = 0 := by
    refine ⟨?_, ?_, ?_, ?_, ?_⟩ <;>
      simp (disch := omega) only [field_or, bits_within, bits_below, bits_above, Nat.or_zero,
        Nat.zero_or, Nat.sub_self, pow_zero, Nat.mul_one]
    rfl
  obtain ⟨hrm, hkind, hby, h4, h7⟩ := hfields
  refine ⟨or_lt (or_lt (or_lt (bits_lt hrs.1 (by omega) (by omega))
    (bits_lt htype.1 (by omega) (by omega))) (by decide)) (bits_lt hrn.1 (by omega) (by omega)),
    ?_, ?_⟩
  · unfold bit
    rw [h7]
    rfl
  · unfold sourceOperand bit
    rw [h4, hrm, hkind, hby]
    rfl

/-! ## Branches -/

theorem decode_bx : ∀ rm < 16,
    decode (0xE12FFF10 ||| bits (rm : Nat) 0) = some (.branchExchange 14 rm) := by
  decide

theorem decode_branch {l : Int} (hcc : 0 ≤ cc ∧ cc < 15) (hl : l = 0 ∨ l = 1)
    (hoff : -33554432 ≤ off ∧ off < 33554432) (halign : off % 4 = 0) :
    decode (bits cc 28 ||| bits 5 25 ||| bits l 24 ||| (BitVec.ofInt 32 (off / 4) &&& 0x00FFFFFF)) =
      some (.branch cc.toNat (l == 1) off) := by
  have hlow : (BitVec.ofInt 32 (off / 4) &&& 0x00FFFFFF).toNat = ((off / 4) % 16777216).toNat := by
    rw [BitVec.toNat_and, BitVec.toNat_ofInt]
    have hmask : (0x00FFFFFF : Word).toNat = 2 ^ 24 - 1 := rfl
    rw [hmask, Nat.and_two_pow_sub_one_eq_mod]
    omega
  generalize BitVec.ofInt 32 (off / 4) &&& 0x00FFFFFF = low at hlow
  have hsmall : low.toNat < 2 ^ 24 := by omega
  have hfields : field (bits cc 28 ||| bits 5 25 ||| bits l 24 ||| low) 28 4 = cc.toNat ∧
      field (bits cc 28 ||| bits 5 25 ||| bits l 24 ||| low) 25 3 = 5 ∧
      field (bits cc 28 ||| bits 5 25 ||| bits l 24 ||| low) 24 1 = l.toNat ∧
      field (bits cc 28 ||| bits 5 25 ||| bits l 24 ||| low) 0 24 = low.toNat := by
    have hword : field low 0 24 = low.toNat := by
      unfold field
      rw [pow_zero, Nat.div_one, Nat.mod_eq_of_lt hsmall]
    refine ⟨?_, ?_, ?_, ?_⟩ <;>
      simp (disch := omega) only [field_or, bits_within, bits_below, bits_above, field_small,
        Nat.or_zero, Nat.zero_or, Nat.sub_self, pow_zero, Nat.mul_one, hword]
    rfl
  obtain ⟨hcond, hclass, hlink, hwords⟩ := hfields
  generalize bits cc 28 ||| bits 5 25 ||| bits l 24 ||| low = w at *
  unfold decode bit
  rw [hcond, hclass, hlink, hwords, if_neg (by omega)]
  dsimp only
  have hoffset : (if (low.toNat : Int) < 2 ^ 23 then 4 * (low.toNat : Int)
      else 4 * ((low.toNat : Int) - 2 ^ 24)) = off := by
    split <;> omega
  rcases hl with rfl | rfl
  · exact congrArg (fun off => some (Instr.branch cc.toNat false off)) hoffset
  · exact congrArg (fun off => some (Instr.branch cc.toNat true off)) hoffset

/-! ## Multiplication, loads and stores -/

theorem decode_mul (hcc : 0 ≤ cc ∧ cc < 15) (hrd : 0 ≤ rd ∧ rd < 16) (hrm : 0 ≤ rm ∧ rm < 16)
    (hrs : 0 ≤ rs ∧ rs < 16) :
    decode (bits cc 28 ||| bits rd 16 ||| bits rs 8 ||| bits 9 4 ||| bits rm 0) =
      some (.multiply cc.toNat false rd.toNat rm.toNat rs.toNat) := by
  generalize hw : bits cc 28 ||| bits rd 16 ||| bits rs 8 ||| bits 9 4 ||| bits rm 0 = w
  have hfields : field w 28 4 = cc.toNat ∧ field w 25 3 = 0 ∧ field w 21 7 = 0 ∧
      field w 20 1 = 0 ∧ field w 16 4 = rd.toNat ∧ field w 8 4 = rs.toNat ∧
      field w 0 4 = rm.toNat ∧ field w 5 2 = 0 ∧ field w 4 1 = 1 ∧ field w 7 1 = 1 := by
    rw [← hw]
    have hnine : field (bits 9 4) 5 2 = 0 ∧ field (bits 9 4) 4 1 = 1 ∧ field (bits 9 4) 7 1 = 1 := by
      decide
    refine ⟨?_, ?_, ?_, ?_, ?_, ?_, ?_, ?_, ?_, ?_⟩ <;>
      simp (disch := omega) only [field_or, hnine, bits_within, bits_below, bits_above, Nat.or_zero,
        Nat.zero_or, Nat.sub_self, pow_zero, Nat.mul_one]
  obtain ⟨hcond, hclass, hhigh, hset, hdest, hby, hlow, hkind, h4, h7⟩ := hfields
  unfold decode bit
  rw [hcond, hclass, if_neg (by omega), h4, h7]
  dsimp only
  rw [hkind]
  unfold decodeMultiply bit
  rw [hhigh, hcond, hset, hdest, hby, hlow]
  rfl

/-- An offset of a load or store with its direction. -/
theorem offset_eq {w : Word} {u : Bool} {value : Nat} (h : field w 23 1 = u.toNat)
    (hu : u = decide (0 ≤ off)) (hvalue : (value : Int) = off.natAbs) : offset w value = off := by
  unfold offset bit
  rw [h, hu]
  by_cases hpos : 0 ≤ off
  · rw [decide_eq_true hpos]
    show (value : Int) = off
    omega
  · rw [decide_eq_false hpos]
    show -(value : Int) = off
    omega

theorem bit_flag {w : Word} {i : Nat} {b : Bool} (h : field w i 1 = b.toNat) : bit w i = b := by
  unfold bit
  rw [h]
  cases b <;> rfl

theorem decode_transfer {p byte wb load u : Bool} {value : Int} (hcc : 0 ≤ cc ∧ cc < 15)
    (hrn : 0 ≤ rn ∧ rn < 16) (hrd : 0 ≤ rd ∧ rd < 16) (hvalue : 0 ≤ value ∧ value < 4096)
    (hu : u = decide (0 ≤ off)) (hoff : value = off.natAbs) :
    decode (bits cc 28 ||| bits 1 26 ||| flag p 24 ||| flag u 23 ||| flag byte 22 ||| flag wb 21 |||
      flag load 20 ||| bits rn 16 ||| bits rd 12 ||| bits value 0) =
      some (.transfer cc.toNat load byte p wb rn.toNat rd.toNat off) := by
  unfold flag
  have hp := p.toNat_lt
  have hlt := u.toNat_lt
  have hbyte := byte.toNat_lt
  have hwb := wb.toNat_lt
  have hload := load.toNat_lt
  have hfields : ∀ w, w = bits cc 28 ||| bits 1 26 ||| bits p.toNat 24 ||| bits u.toNat 23 |||
      bits byte.toNat 22 ||| bits wb.toNat 21 ||| bits load.toNat 20 ||| bits rn 16 ||| bits rd 12 |||
      bits value 0 →
      field w 28 4 = cc.toNat ∧ field w 25 3 = 2 ∧ field w 24 1 = p.toNat ∧ field w 23 1 = u.toNat ∧
      field w 22 1 = byte.toNat ∧ field w 21 1 = wb.toNat ∧ field w 20 1 = load.toNat ∧
      field w 16 4 = rn.toNat ∧ field w 12 4 = rd.toNat ∧ field w 0 12 = value.toNat := by
    rintro w rfl
    have hone : field (bits 1 26) 25 3 = 2 := by decide
    refine ⟨?_, ?_, ?_, ?_, ?_, ?_, ?_, ?_, ?_, ?_⟩ <;>
      simp (disch := omega) only [field_or, hone, bits_within, bits_below, bits_above, Nat.or_zero,
        Nat.zero_or, Nat.sub_self, pow_zero, Nat.mul_one, Int.toNat_natCast]
  generalize bits cc 28 ||| bits 1 26 ||| bits p.toNat 24 ||| bits u.toNat 23 |||
    bits byte.toNat 22 ||| bits wb.toNat 21 ||| bits load.toNat 20 ||| bits rn 16 ||| bits rd 12 |||
    bits value 0 = w at hfields ⊢
  obtain ⟨hcond, hclass, hpre, hup, hb, hw, hl, hbase, hdest, hlow⟩ := hfields w rfl
  unfold decode
  rw [hcond, hclass, if_neg (by omega), bit_flag hl, bit_flag hb, bit_flag hpre, bit_flag hw, hbase,
    hdest, hlow, offset_eq hup hu (by omega)]
  rfl

theorem decode_halfword {p wb load u : Bool} {sh value : Int} (hcc : 0 ≤ cc ∧ cc < 15)
    (hrn : 0 ≤ rn ∧ rn < 16) (hrd : 0 ≤ rd ∧ rd < 16) (hvalue : 0 ≤ value ∧ value < 256)
    (hsh : 1 ≤ sh ∧ sh < 4) (hkind : load = true ∨ sh = 1) (hu : u = decide (0 ≤ off))
    (hoff : value = off.natAbs) :
    decode (bits cc 28 ||| flag p 24 ||| flag u 23 ||| bits 1 22 ||| flag wb 21 |||
      flag load 20 ||| bits rn 16 ||| bits rd 12 ||| bits (value / 16 % 16) 8 ||| bits 1 7 |||
      bits sh 5 ||| bits 1 4 ||| bits (value % 16) 0) =
      some (.halfword cc.toNat sh.toNat load p wb rn.toNat rd.toNat off) := by
  unfold flag
  have hp := p.toNat_lt
  have hlt := u.toNat_lt
  have hwb := wb.toNat_lt
  have hload := load.toNat_lt
  have hfields : ∀ w, w = bits cc 28 ||| bits p.toNat 24 ||| bits u.toNat 23 ||| bits 1 22 |||
      bits wb.toNat 21 ||| bits load.toNat 20 ||| bits rn 16 ||| bits rd 12 |||
      bits (value / 16 % 16) 8 ||| bits 1 7 ||| bits sh 5 ||| bits 1 4 ||| bits (value % 16) 0 →
      field w 28 4 = cc.toNat ∧ field w 25 3 = 0 ∧ field w 24 1 = p.toNat ∧ field w 23 1 = u.toNat ∧
      field w 22 1 = 1 ∧ field w 21 1 = wb.toNat ∧ field w 20 1 = load.toNat ∧
      field w 16 4 = rn.toNat ∧ field w 12 4 = rd.toNat ∧ field w 8 4 = (value / 16 % 16).toNat ∧
      field w 0 4 = (value % 16).toNat ∧ field w 7 1 = 1 ∧ field w 5 2 = sh.toNat ∧
      field w 4 1 = 1 := by
    rintro w rfl
    refine ⟨?_, ?_, ?_, ?_, ?_, ?_, ?_, ?_, ?_, ?_, ?_, ?_, ?_, ?_⟩ <;>
      simp (disch := omega) only [field_or, bits_within, bits_below, bits_above, Nat.or_zero,
        Nat.zero_or, Nat.sub_self, pow_zero, Nat.mul_one, Int.toNat_natCast, Int.toNat_one]
  generalize bits cc 28 ||| bits p.toNat 24 ||| bits u.toNat 23 ||| bits 1 22 |||
    bits wb.toNat 21 ||| bits load.toNat 20 ||| bits rn 16 ||| bits rd 12 |||
    bits (value / 16 % 16) 8 ||| bits 1 7 ||| bits sh 5 ||| bits 1 4 ||| bits (value % 16) 0 = w
    at hfields ⊢
  obtain ⟨hcond, hclass, hpre, hup, himm, hw, hl, hbase, hdest, hhigh, hlow, h7, h5, h4⟩ :=
    hfields w rfl
  have hkind' : (load || sh.toNat == 1) = true := by
    rcases hkind with rfl | rfl
    · rfl
    · exact Bool.or_true load
  unfold decode
  rw [hcond, hclass, if_neg (by omega), bit_flag (b := true) h4, bit_flag (b := true) h7]
  show (if field w 5 2 = 0 then decodeMultiply w else decodeHalfword w) = _
  rw [if_neg (by omega)]
  unfold decodeHalfword
  rw [h5, bit_flag (b := true) himm, bit_flag hl, bit_flag hpre, bit_flag hw, hcond, hbase, hdest,
    hhigh, hlow, offset_eq hup hu (by omega)]
  exact if_pos hkind'

/-! ## Lists of registers -/

theorem or_list {base list : Word} (hlist : list.toNat < 2 ^ 16) (hbase : field base 0 16 = 0) :
    (∀ low width, 16 ≤ low → field (base ||| list) low width = field base low width) ∧
      field (base ||| list) 0 16 = list.toNat := by
  refine ⟨fun low width hlow => ?_, ?_⟩
  · rw [field_or, field_small (w := list), Nat.or_zero]
    exact Nat.lt_of_lt_of_le hlist (Nat.pow_le_pow_right (by omega) hlow)
  · rw [field_or, hbase, Nat.zero_or]
    unfold field
    rw [pow_zero, Nat.div_one, Nat.mod_eq_of_lt hlist]

theorem decode_push {list : Word} (hlist : list.toNat < 2 ^ 16) :
    decode (0xE92D0000 ||| list) = some (.block 14 false true false false true 13 list.toNat) := by
  obtain ⟨hhigh, hlow⟩ := or_list hlist (show field 0xE92D0000 0 16 = 0 by decide)
  unfold decode bit
  rw [hhigh 28 4 (by omega), hhigh 25 3 (by omega), hhigh 20 1 (by omega), hhigh 24 1 (by omega),
    hhigh 23 1 (by omega), hhigh 22 1 (by omega), hhigh 21 1 (by omega), hhigh 16 4 (by omega), hlow]
  rfl

theorem decode_pop {list : Word} (hlist : list.toNat < 2 ^ 16) :
    decode (0xE8BD0000 ||| list) = some (.block 14 true false true false true 13 list.toNat) := by
  obtain ⟨hhigh, hlow⟩ := or_list hlist (show field 0xE8BD0000 0 16 = 0 by decide)
  unfold decode bit
  rw [hhigh 28 4 (by omega), hhigh 25 3 (by omega), hhigh 20 1 (by omega), hhigh 24 1 (by omega),
    hhigh 23 1 (by omega), hhigh 22 1 (by omega), hhigh 21 1 (by omega), hhigh 16 4 (by omega), hlow]
  rfl

theorem decode_pushOne : ∀ only < 16, decode (0xE52D0004 ||| bits (only : Nat) 12) =
    some (.transfer 14 false false true true 13 only (-4)) := by
  decide

theorem decode_popOne : ∀ only < 16, decode (0xE49D0004 ||| bits (only : Nat) 12) =
    some (.transfer 14 true false false false 13 only 4) := by
  decide

end DiscoBsd.Asm
