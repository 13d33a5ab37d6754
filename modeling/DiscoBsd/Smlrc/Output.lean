import DiscoBsd.Asm.Line
import DiscoBsd.Asm.Operands

/-!
# What the compiler prints

Registers, decimal and hexadecimal numbers as the code generator of `usr.bin/smlrc` prints them, and
what the assembler reads from them.
-/

namespace DiscoBsd.Smlrc

open Asm

/-- `prn`: the name of a register. -/
def prn (r : Nat) : Text :=
  match r with
  | 12 => "ip".toList
  | 13 => "sp".toList
  | 14 => "lr".toList
  | 15 => "pc".toList
  | r => 'r' :: Nat.toDigits 10 r

/-- `%d` of a word. -/
def percentD (v : Word) : Text :=
  if v.toInt < 0 then '-' :: Nat.toDigits 10 v.toInt.natAbs else Nat.toDigits 10 v.toInt.natAbs

/-- A hexadecimal digit in capital letters. -/
def hexDigit (d : Nat) : Char := (Nat.digitChar d).toUpper

/-- `%08X` of a word. -/
def percent08X (u : Word) : Text :=
  (List.range 8).map fun k => hexDigit (u.toNat / 16 ^ (7 - k) % 16)

/-! ## Numbers -/

theorem digitChar_cases {d : Nat} (h : d < 10) :
    isdigit (Nat.digitChar d) = true ∧ digitValue (Nat.digitChar d) = some d := by
  revert d
  decide

theorem ofDigits_append (base : Nat) (ds : Text) (c : Char) :
    ofDigits base (ds ++ [c]) = base * ofDigits base ds + (digitValue c).getD 0 := by
  unfold ofDigits
  rw [List.foldl_append]
  rfl

/-- Decimal digits, none of them superfluous. -/
theorem toDigits_ten (n : Nat) :
    (∀ c ∈ Nat.toDigits 10 n, isdigit c = true) ∧ ofDigits 10 (Nat.toDigits 10 n) = n ∧
      (0 < n → (Nat.toDigits 10 n).head? ≠ some '0') := by
  induction n using Nat.strongRecOn with
  | _ n ih =>
      rw [Nat.toDigits_eq_if (by omega)]
      split
      · next hlt =>
          obtain ⟨hdigit, hvalue⟩ := digitChar_cases hlt
          refine ⟨?_, ?_, ?_⟩
          · intro c hc
            rw [List.mem_singleton.mp hc]
            exact hdigit
          · simp [ofDigits, hvalue]
          · intro hpos hzero
            have hchar : Nat.digitChar n = '0' := Option.some.inj hzero
            rw [hchar] at hvalue
            have hn : (0 : Nat) = n := Option.some.inj hvalue
            omega
      · next hge =>
          obtain ⟨hall, hvalue, hhead⟩ := ih (n / 10) (by omega)
          obtain ⟨hdigit, hlast⟩ := digitChar_cases (Nat.mod_lt n (show 0 < 10 by omega))
          refine ⟨?_, ?_, ?_⟩
          · intro c hc
            rcases List.mem_append.mp hc with hc | hc
            · exact hall c hc
            · rw [List.mem_singleton.mp hc]
              exact hdigit
          · rw [ofDigits_append, hvalue, hlast]
            show 10 * (n / 10) + n % 10 = n
            omega
          · intro _
            rw [List.head?_append_of_ne_nil _ Nat.toDigits_ne_nil]
            exact hhead (by omega)

theorem isDigitOf_of_isdigit {c : Char} (base : Nat) (hbase : 10 ≤ base) (h : isdigit c = true) :
    isDigitOf base c = true := by
  have hall : ∀ c ∈ "0123456789".toList, ∃ d < 10, digitValue c = some d :=
    List.all_iff_forall_prop.mp (by decide)
  obtain ⟨d, hd, hvalue⟩ := hall c (digit_mem h)
  unfold isDigitOf
  rw [hvalue]
  show decide (d < base) = true
  exact decide_eq_true (by omega)

/-- A decimal number is read in the base it was printed in. -/
theorem numberBase_toDigits (n : Nat) : ∃ base, numberBase 0 (Nat.toDigits 10 n) =
    (base, Nat.toDigits 10 n) ∧ (Nat.toDigits 10 n).all (isDigitOf base) = true ∧
      ofDigits base (Nat.toDigits 10 n) = n := by
  obtain ⟨hall, hvalue, hhead⟩ := toDigits_ten n
  by_cases hn : n = 0
  · subst hn
    exact ⟨8, rfl, rfl, rfl⟩
  · refine ⟨10, ?_, ?_, hvalue⟩
    · have hne := hhead (by omega)
      cases hds : Nat.toDigits 10 n with
      | nil => rfl
      | cons c ds =>
          rw [hds] at hne
          have hc : c ≠ '0' := fun heq => hne (by rw [heq]; rfl)
          unfold numberBase
          split
          · next heq => exact absurd (List.cons.inj heq).1 hc
          · next heq => exact absurd (List.cons.inj heq).1 hc
          · next heq => exact absurd (List.cons.inj heq).1 hc
          · rfl
    · rw [List.all_eq_true]
      intro c hc
      exact isDigitOf_of_isdigit 10 (by omega) (hall c hc)

theorem sign_toDigits (n : Nat) :
    sign ((Nat.toDigits 10 n).dropWhile isspace) = (false, Nat.toDigits 10 n) := by
  obtain ⟨hall, -, -⟩ := toDigits_ten n
  cases hds : Nat.toDigits 10 n with
  | nil => exact absurd hds Nat.toDigits_ne_nil
  | cons c ds =>
      have hc := digit_mem (hall c (by rw [hds]; exact List.mem_cons_self))
      have hcases : ∀ c ∈ "0123456789".toList, isspace c = false ∧ c ≠ '-' ∧ c ≠ '+' :=
        List.all_iff_forall_prop.mp (by decide)
      obtain ⟨hspace, hminus, hplus⟩ := hcases c hc
      rw [List.dropWhile_cons_of_neg (by rw [hspace]; decide)]
      unfold sign
      split
      · next heq => exact absurd (List.cons.inj heq).1 hminus
      · next heq => exact absurd (List.cons.inj heq).1 hplus
      · rfl

/-- What `%d` prints is the number. -/
theorem numeral_percentD (v : Word) : numeral (percentD v) = some v.toInt := by
  obtain ⟨base, hbase, hall, hvalue⟩ := numberBase_toDigits v.toInt.natAbs
  have hds : Nat.toDigits 10 v.toInt.natAbs ≠ [] ∧
      (Nat.toDigits 10 v.toInt.natAbs).all (isDigitOf base) = true :=
    ⟨Nat.toDigits_ne_nil, hall⟩
  unfold numeral percentD
  by_cases hneg : v.toInt < 0
  · rw [if_pos hneg, List.dropWhile_cons_of_neg (by decide)]
    simp only [sign, hbase, hvalue, if_pos hds, if_true]
    congr 1
    omega
  · rw [if_neg hneg]
    simp only [sign_toDigits, hbase, hvalue, if_pos hds, Bool.false_eq_true, if_false]
    congr 1
    omega

theorem hexDigit_cases {d : Nat} (h : d < 16) :
    isDigitOf 16 (hexDigit d) = true ∧ digitValue (hexDigit d) = some d := by
  revert d
  decide

/-- What `%08X` prints is the word. -/
theorem ofDigits_percent08X (u : Word) : ofDigits 16 (percent08X u) = u.toNat ∧
    (percent08X u).all (isDigitOf 16) = true := by
  have hvalue : ∀ k, (digitValue (hexDigit (u.toNat / k % 16))).getD 0 = u.toNat / k % 16 := by
    intro k
    rw [(hexDigit_cases (Nat.mod_lt _ (by omega))).2]
    rfl
  refine ⟨?_, ?_⟩
  · have hlt := u.isLt
    -- the digits are taken in one by one, the highest first
    have hdigit : ∀ k, 16 * (u.toNat / 16 ^ (k + 1)) + u.toNat / 16 ^ k % 16 = u.toNat / 16 ^ k := by
      intro k
      rw [pow_succ, ← Nat.div_div_eq_div_mul, Nat.div_add_mod]
    have hfirst : 16 * 0 + u.toNat / 16 ^ 7 % 16 = u.toNat / 16 ^ 7 := by omega
    have hlast : u.toNat / 16 ^ 0 = u.toNat := Nat.div_one _
    have hdigits : ofDigits 16 (percent08X u) = 16 * (16 * (16 * (16 * (16 * (16 * (16 *
        (16 * 0 + u.toNat / 16 ^ 7 % 16) + u.toNat / 16 ^ 6 % 16) + u.toNat / 16 ^ 5 % 16) +
        u.toNat / 16 ^ 4 % 16) + u.toNat / 16 ^ 3 % 16) + u.toNat / 16 ^ 2 % 16) +
        u.toNat / 16 ^ 1 % 16) + u.toNat / 16 ^ 0 % 16 := by
      simp only [percent08X, ofDigits, List.range, List.range.loop, List.map, List.foldl, hvalue]
    rw [hdigits, hfirst, hdigit 6, hdigit 5, hdigit 4, hdigit 3, hdigit 2, hdigit 1, hdigit 0, hlast]
  · unfold percent08X
    rw [List.all_map, List.all_eq_true]
    intro k _
    exact (hexDigit_cases (Nat.mod_lt _ (by omega))).1

/-! ## Characters -/

/-- A character of an operand, which separates nothing and ends nothing. -/
def isPlain (c : Char) : Bool :=
  !(c == NUL || c == '"' || c == '@' || c == ':' || c == '=' || isNewline c || isblank c ||
    c == ',' || c == '[' || c == ']' || c == '\x7b' || c == '\x7d')

theorem plain_prn : ∀ r < 16, (prn r).all isPlain = true ∧ (prn r) ≠ [] ∧ (prn r).length ≤ 3 ∧
    register (prn r) = some r := by
  decide

theorem plain_percentD (v : Word) : (percentD v).all isPlain = true ∧ (percentD v).length ≤ 11 := by
  have hdigits : (Nat.toDigits 10 v.toInt.natAbs).all isPlain = true := by
    rw [List.all_eq_true]
    intro c hc
    have hall : ∀ c ∈ "0123456789".toList, isPlain c = true := List.all_eq_true.mp (by decide)
    exact hall c (digit_mem ((toDigits_ten _).1 c hc))
  have hlen : (Nat.toDigits 10 v.toInt.natAbs).length ≤ 10 := by
    rw [Nat.length_toDigits_le_iff (by omega) (by omega)]
    have hlow := v.le_toInt
    have hhigh := v.toInt_lt
    omega
  unfold percentD
  split
  · refine ⟨?_, ?_⟩
    · rw [List.all_cons, hdigits]
      rfl
    · rw [List.length_cons]
      omega
  · exact ⟨hdigits, by omega⟩

end DiscoBsd.Smlrc
