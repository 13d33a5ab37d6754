import DiscoBsd.Clib.Division

/-!
# Signed division

`__aeabi_idivmod` divides the absolute values and keeps in `r4` whether the quotient and the remainder
are to be negated. The smallest integer is its own negation, which wraps as in C.
-/

namespace DiscoBsd.Clib

open Asm Lib.Armv4

variable {code : Code} {base : Nat} {reg : Nat → Word} {flags : Flags} {mem : Mem}

/-! ## Signs -/

/-- The quotient of the absolute values, with its sign. -/
theorem tdiv_natAbs (n d : Int) : n.tdiv d =
    if n < 0 ↔ d < 0 then ((n.natAbs / d.natAbs : Nat) : Int) else -(n.natAbs / d.natAbs : Nat) := by
  obtain ⟨a, rfl | rfl⟩ := n.eq_nat_or_neg <;> obtain ⟨b, rfl | rfl⟩ := d.eq_nat_or_neg
  · rw [if_pos (by omega)]
    rfl
  · rw [Int.tdiv_neg, Int.natAbs_neg]
    rcases Nat.eq_zero_or_pos b with rfl | hb
    · simp
    · rw [if_neg (by omega)]
      rfl
  · rw [Int.neg_tdiv, Int.natAbs_neg]
    rcases Nat.eq_zero_or_pos a with rfl | ha
    · simp
    · rw [if_neg (by omega)]
      rfl
  · rw [Int.tdiv_neg, Int.neg_tdiv, Int.neg_neg, Int.natAbs_neg, Int.natAbs_neg]
    rcases Nat.eq_zero_or_pos a with rfl | ha
    · simp
    · rcases Nat.eq_zero_or_pos b with rfl | hb
      · simp
      · rw [if_pos (by omega)]
        rfl

/-- The remainder of the absolute values, with the sign of the numerator. -/
theorem tmod_natAbs (n d : Int) : n.tmod d =
    if n < 0 then -((n.natAbs % d.natAbs : Nat) : Int) else (n.natAbs % d.natAbs : Nat) := by
  have hmod : ∀ a : Nat, (a : Int).tmod d = (a % d.natAbs : Nat) := by
    intro a
    obtain ⟨b, rfl | rfl⟩ := d.eq_nat_or_neg
    · rfl
    · rw [Int.tmod_neg, Int.natAbs_neg]
      rfl
  obtain ⟨a, rfl | rfl⟩ := n.eq_nat_or_neg
  · rw [if_neg (by omega), hmod]
    rfl
  · rw [Int.neg_tmod, hmod, Int.natAbs_neg]
    split
    · rfl
    · have ha : a = 0 := by omega
      subst ha
      simp

/-- The absolute value, where the smallest integer is left as it is. -/
def absolute (v : Word) : Word := if v.toInt < 0 then -v else v

theorem toNat_absolute (v : Word) : (absolute v).toNat = v.toInt.natAbs := by
  unfold absolute
  rw [BitVec.toInt_eq_toNat_cond]
  have hv := v.isLt
  by_cases hsmall : 2 * v.toNat < 2 ^ 32
  · rw [if_pos hsmall, if_neg (by omega)]
    omega
  · rw [if_neg hsmall, if_pos (by omega), BitVec.toNat_neg]
    omega

theorem absolute_ne_zero {v : Word} (h : v ≠ 0) : absolute v ≠ 0 := by
  unfold absolute
  split
  · intro hneg
    exact h (BitVec.neg_eq_zero_iff.mp hneg)
  · exact h

/-- `r4` after both signs have been looked at. -/
def signs (n d : Word) : Word :=
  (if n.toInt < 0 then 3 else 0) ^^^ (if d.toInt < 0 then 1 else 0)

theorem signs_bits (n d : Word) : (signs n d &&& 1 ≠ 0 ↔ ¬ (n.toInt < 0 ↔ d.toInt < 0)) ∧
    (signs n d &&& 2 ≠ 0 ↔ n.toInt < 0) := by
  unfold signs
  by_cases hn : n.toInt < 0 <;> by_cases hd : d.toInt < 0 <;> simp only [hn, hd] <;> decide

theorem ofInt_toNat (v : Word) : v = BitVec.ofInt 32 v.toNat := by
  rw [BitVec.ofInt_natCast, BitVec.ofNat_toNat, BitVec.setWidth_eq]

theorem signed_quotient (n d : Word) :
    (if signs n d &&& 1 ≠ 0 then -(absolute n / absolute d) else absolute n / absolute d) =
      BitVec.ofInt 32 (n.toInt.tdiv d.toInt) := by
  have hquo : (absolute n / absolute d) = BitVec.ofInt 32 (n.toInt.natAbs / d.toInt.natAbs : Nat) := by
    rw [ofInt_toNat (absolute n / absolute d), BitVec.toNat_udiv, toNat_absolute, toNat_absolute]
  rw [tdiv_natAbs, hquo]
  by_cases hsame : n.toInt < 0 ↔ d.toInt < 0
  · rw [if_pos hsame, if_neg (fun h => (signs_bits n d).1.mp h hsame)]
  · rw [if_neg hsame, if_pos ((signs_bits n d).1.mpr hsame), BitVec.ofInt_neg]

theorem signed_remainder (n d : Word) :
    (if signs n d &&& 2 ≠ 0 then -(absolute n % absolute d) else absolute n % absolute d) =
      BitVec.ofInt 32 (n.toInt.tmod d.toInt) := by
  have hrem : (absolute n % absolute d) = BitVec.ofInt 32 (n.toInt.natAbs % d.toInt.natAbs : Nat) := by
    rw [ofInt_toNat (absolute n % absolute d), BitVec.toNat_umod, toNat_absolute, toNat_absolute]
  rw [tmod_natAbs, hrem]
  by_cases hneg : n.toInt < 0
  · rw [if_pos hneg, if_pos ((signs_bits n d).2.mpr hneg), BitVec.ofInt_neg]
  · rw [if_neg hneg, if_neg (fun h => hneg ((signs_bits n d).2.mp h))]

/-! ## Blocks -/

/-- The four instructions that make a register its absolute value and note its sign. -/
theorem take_sign (hload : Loaded code base division) {k r : Nat} {mask : Word} (hr : r < 2)
    (hcmp : division[k]? = some (.dataProcessing 14 10 true 0 r (.imm 0)))
    (hbge : division[k + 1]? = some (.branch 10 false 4))
    (hrsb : division[k + 2]? = some (.dataProcessing 14 3 false r r (.imm 0)))
    (heor : division[k + 3]? = some (.dataProcessing 14 1 false 4 4 (.imm mask))) :
    Reaches code (fun m => ∃ reg' flags', m = point base (k + 4) reg' flags' mem ∧
        reg' r = absolute (reg r) ∧
        reg' 4 = reg 4 ^^^ (if (reg r).toInt < 0 then mask else 0) ∧
        ∀ i, i ≠ r → i ≠ 4 → reg' i = reg i)
      (point base k reg flags mem) := by
  have hge := (compares_subFlags (reg r) 0).ge
  have hzero : (0 : Word).toInt = 0 := rfl
  rw [hzero] at hge
  have hcmp' : (point base k reg flags mem).exec (.dataProcessing 14 10 true 0 r (.imm 0)) =
      some (point base (k + 1) reg (subFlags (reg r) 0) mem) := by
    obtain rfl | rfl : r = 0 ∨ r = 1 := by omega
    · rfl
    · rfl
  refine hload.next _ hcmp hcmp' ?_
  by_cases hneg : (reg r).toInt < 0
  · have hrsb' : (point base (k + 2) reg (subFlags (reg r) 0) mem).exec
        (.dataProcessing 14 3 false r r (.imm 0)) =
        some (point base (k + 3) (Function.update reg r (0 - reg r)) (subFlags (reg r) 0) mem) := by
      obtain rfl | rfl : r = 0 ∨ r = 1 := by omega
      · rfl
      · rfl
    refine hload.next _ hbge (exec_unmet (hge.trans (decide_eq_false (by omega)))) ?_
    refine hload.next _ hrsb hrsb' ?_
    refine hload.next (point base (k + 4) (Function.update (Function.update reg r (0 - reg r)) 4
      (Function.update reg r (0 - reg r) 4 ^^^ mask)) (subFlags (reg r) 0) mem) heor rfl (.done ?_)
    refine ⟨_, _, rfl, ?_, ?_, fun i hi hi4 => ?_⟩
    · rw [Function.update_of_ne (by omega), Function.update_self, absolute, if_pos hneg]
      exact BitVec.zero_sub (reg r)
    · rw [Function.update_self, Function.update_of_ne (by omega), if_pos hneg]
    · rw [Function.update_of_ne hi4, Function.update_of_ne hi]
  · have htaken := hge.trans (decide_eq_true (by omega))
    refine hload.next (point base (k + 4) reg (subFlags (reg r) 0) mem) hbge
      (exec_branch htaken (by push_cast; omega)) (.done ?_)
    refine ⟨reg, _, rfl, ?_, ?_, fun _ _ _ => rfl⟩
    · rw [absolute, if_neg hneg]
    · rw [if_neg hneg]
      exact BitVec.xor_zero.symm

/-- The three instructions that negate a result if its bit is set. -/
theorem restore_sign (hload : Loaded code base division) {k r : Nat} {mask : Word} (hr : r < 2)
    (hand : division[k]? = some (.dataProcessing 14 0 false 2 4 (.imm mask)))
    (hcmp : division[k + 1]? = some (.dataProcessing 14 10 true 0 2 (.imm 0)))
    (hrsb : division[k + 2]? = some (.dataProcessing 1 3 false r r (.imm 0))) :
    Reaches code (fun m => ∃ reg' flags', m = point base (k + 3) reg' flags' mem ∧
        reg' r = (if reg 4 &&& mask ≠ 0 then -reg r else reg r) ∧
        ∀ i, i ≠ r → i ≠ 2 → reg' i = reg i)
      (point base k reg flags mem) := by
  have hne := (compares_subFlags (reg 4 &&& mask) 0).ne
  refine hload.next (point base (k + 1) (Function.update reg 2 (reg 4 &&& mask)) flags mem) hand rfl ?_
  refine hload.next (point base (k + 2) (Function.update reg 2 (reg 4 &&& mask))
    (subFlags (reg 4 &&& mask) 0) mem) hcmp rfl ?_
  by_cases hset : reg 4 &&& mask ≠ 0
  · have hrsb' : (point base (k + 2) (Function.update reg 2 (reg 4 &&& mask))
        (subFlags (reg 4 &&& mask) 0) mem).effect (.dataProcessing 1 3 false r r (.imm 0)) =
        some (point base (k + 3) (Function.update (Function.update reg 2 (reg 4 &&& mask)) r
          (0 - reg r)) (subFlags (reg 4 &&& mask) 0) mem) := by
      obtain rfl | rfl : r = 0 ∨ r = 1 := by omega
      · rfl
      · rfl
    refine hload.next _ hrsb ((exec_met (hne.trans (decide_eq_true hset))).trans hrsb') (.done ?_)
    refine ⟨_, _, rfl, ?_, fun i hi hi2 => ?_⟩
    · rw [Function.update_self, if_pos hset]
      exact BitVec.zero_sub (reg r)
    · rw [Function.update_of_ne hi, Function.update_of_ne hi2]
  · refine hload.next _ hrsb (exec_unmet (hne.trans (decide_eq_false hset))) (.done ?_)
    refine ⟨_, _, rfl, ?_, fun i hi hi2 => ?_⟩
    · rw [Function.update_of_ne (by omega), if_neg hset]
    · rw [Function.update_of_ne hi2]

/-! ## The routine -/

/-- The memory with `r4` and `lr` below the stack pointer. -/
def pushed (reg : Nat → Word) (mem : Mem) : Mem := putWords mem (reg 13 - 8) [reg 4, reg 14]

/-- Up to the call both arguments become their absolute values. -/
theorem idivmod_enter (hload : Loaded code base division) (haligned : aligned (reg 13) = true) :
    Reaches code (fun m => ∃ reg' flags', m = point base 35 reg' flags' (pushed reg mem) ∧
        reg' 0 = absolute (reg 0) ∧ reg' 1 = absolute (reg 1) ∧ reg' 4 = signs (reg 0) (reg 1) ∧
        reg' 13 = reg 13 - 8 ∧ ∀ r, 5 ≤ r → r ≠ 13 → reg' r = reg r)
      (point base 25 reg flags mem) := by
  have hpush : (point base 25 reg flags mem).exec (.block 14 false true false false true 13 16400) =
      some (point base 26 (Function.update reg 13 (reg 13 - 8)) flags (pushed reg mem)) :=
    exec_push rfl rfl rfl (aligned_sub haligned 2)
  refine hload.next _ rfl hpush ?_
  refine hload.next (point base 27 (Function.update (Function.update reg 13 (reg 13 - 8)) 4 0) flags
    (pushed reg mem)) rfl rfl ?_
  have hstart : ∀ r, r ≠ 4 → r ≠ 13 →
      Function.update (Function.update reg 13 (reg 13 - 8)) 4 0 r = reg r := by
    intro r h4 h13
    rw [Function.update_of_ne h4, Function.update_of_ne h13]
  have hfour : Function.update (Function.update reg 13 (reg 13 - 8)) 4 0 4 = 0 := Function.update_self ..
  have hsp : Function.update (Function.update reg 13 (reg 13 - 8)) 4 0 13 = reg 13 - 8 := rfl
  generalize Function.update (Function.update reg 13 (reg 13 - 8)) 4 0 = reg₁ at hstart hfour hsp ⊢
  refine (take_sign hload (show 0 < 2 by decide) rfl rfl rfl rfl).trans ?_
  rintro _ ⟨reg₂, flags₂, rfl, hnum, hsign, hothers₂⟩
  refine (take_sign hload (show 1 < 2 by decide) rfl rfl rfl rfl).mono ?_
  rintro _ ⟨reg₃, flags₃, rfl, hden, hsigns, hothers₃⟩
  have hone : reg₂ 1 = reg 1 := by rw [hothers₂ 1 (by decide) (by decide), hstart 1 (by decide) (by decide)]
  refine ⟨reg₃, flags₃, rfl, ?_, ?_, ?_, ?_, fun r hr h13 => ?_⟩
  · rw [hothers₃ 0 (by decide) (by decide), hnum, hstart 0 (by decide) (by decide)]
  · rw [hden, hone]
  · rw [hsigns, hone, hsign, hfour, hstart 0 (by decide) (by decide)]
    exact congrArg (· ^^^ _) BitVec.zero_xor
  · rw [hothers₃ 13 (by decide) (by decide), hothers₂ 13 (by decide) (by decide), hsp]
  · rw [hothers₃ r (by omega) (by omega), hothers₂ r (by omega) (by omega),
      hstart r (by omega) h13]

/-- Behind the call the results get their signs, and the registers come back from the stack. -/
theorem idivmod_leave (hload : Loaded code base division) {reg₀ : Nat → Word}
    (haligned : aligned (reg₀ 13) = true) (hsp : reg 13 = reg₀ 13 - 8)
    (hothers : ∀ r, 5 ≤ r → r ≠ 13 → r ≠ 14 → reg r = reg₀ r) :
    Reaches code (fun m => ∃ reg' flags', m = back reg' flags' (pushed reg₀ mem) (reg₀ 14) ∧
        reg' 0 = (if reg 4 &&& 1 ≠ 0 then -reg 0 else reg 0) ∧
        reg' 1 = (if reg 4 &&& 2 ≠ 0 then -reg 1 else reg 1) ∧ ∀ r, 4 ≤ r → reg' r = reg₀ r)
      (point base 36 reg flags (pushed reg₀ mem)) := by
  refine (restore_sign hload (show 0 < 2 by decide) rfl rfl rfl).trans ?_
  rintro _ ⟨reg₁, flags₁, rfl, hquo, hothers₁⟩
  refine (restore_sign hload (show 1 < 2 by decide) rfl rfl rfl).trans ?_
  rintro _ ⟨reg₂, flags₂, rfl, hrem, hothers₂⟩
  have hkept : ∀ r, 4 ≤ r → reg₂ r = reg r := by
    intro r hr
    rw [hothers₂ r (by omega) (by omega), hothers₁ r (by omega) (by omega)]
  have hsp₂ : reg₂ 13 = reg₀ 13 - 8 := (hkept 13 (by decide)).trans hsp
  have hpop : (point base 42 reg₂ flags₂ (pushed reg₀ mem)).exec
      (.block 14 true false true false true 13 16400) =
      some (point base 43 (loadRegs (pushed reg₀ mem) (Function.update reg₂ 13 (reg₂ 13 + 8)) (reg₂ 13)
        [4, 14]) flags₂ (pushed reg₀ mem)) := by
    refine exec_pop rfl rfl rfl ?_
    rw [hsp₂]
    exact aligned_sub haligned 2
  have hloaded : ∀ r, loadRegs (pushed reg₀ mem) (Function.update reg₂ 13 (reg₂ 13 + 8)) (reg₂ 13)
      [4, 14] r = if r ∈ [4, 14] then reg₀ r else Function.update reg₂ 13 (reg₂ 13 + 8) r := by
    intro r
    rw [hsp₂]
    have hlen : 4 * ([4, 14] : List Nat).length < 2 ^ 32 := by decide
    exact loadRegs_putWords reg₀ hlen mem _ (reg₀ 13 - 8) r
  refine hload.next _ rfl hpop ?_
  generalize loadRegs (pushed reg₀ mem) (Function.update reg₂ 13 (reg₂ 13 + 8)) (reg₂ 13) [4, 14] =
    reg₃ at hloaded ⊢
  have hlow : ∀ r, r < 2 → reg₃ r = reg₂ r := by
    intro r hr
    rw [hloaded, if_neg (by simp; omega), Function.update_of_ne (by omega)]
  refine hload.next (back reg₃ flags₂ (pushed reg₀ mem) (reg₃ 14)) rfl rfl
    (.done ⟨reg₃, flags₂, ?_, ?_, ?_, fun r hr => ?_⟩)
  · rw [hloaded 14]
    rfl
  · rw [hlow 0 (by decide), hothers₂ 0 (by decide) (by decide), hquo]
  · rw [hlow 1 (by decide), hrem, hothers₁ 1 (by decide) (by decide),
      hothers₁ 4 (by decide) (by decide)]
  · rw [hloaded]
    by_cases hlist : r ∈ [4, 14]
    · rw [if_pos hlist]
    · rw [if_neg hlist]
      simp only [List.mem_cons, List.not_mem_nil, or_false, not_or] at hlist
      by_cases h13 : r = 13
      · rw [h13, Function.update_self, hsp₂]
        exact BitVec.sub_add_cancel ..
      · rw [Function.update_of_ne h13, hkept r hr]
        exact hothers r (by omega) h13 hlist.2

/-- `__aeabi_idivmod` leaves the signed quotient and remainder, and no other trace but two words below
the stack pointer. -/
theorem idivmod_spec (hload : Loaded code base division) (hd : reg 1 ≠ 0)
    (haligned : aligned (reg 13) = true) :
    Reaches code (fun m => ∃ reg' flags', m = back reg' flags' (pushed reg mem) (reg 14) ∧
        reg' 0 = BitVec.ofInt 32 ((reg 0).toInt.tdiv (reg 1).toInt) ∧
        reg' 1 = BitVec.ofInt 32 ((reg 0).toInt.tmod (reg 1).toInt) ∧ ∀ r, 4 ≤ r → reg' r = reg r)
      (point base 25 reg flags mem) := by
  refine (idivmod_enter hload haligned).trans ?_
  rintro _ ⟨reg₁, flags₁, rfl, hnum, hden, hsigns, hsp, hothers₁⟩
  refine hload.next (point base 0 (Function.update reg₁ 14 (BitVec.ofNat 32 (base + 4 * 36))) flags₁
    (pushed reg mem)) rfl (exec_call rfl) ?_
  have hzero : Function.update reg₁ 14 (BitVec.ofNat 32 (base + 4 * 36)) 1 ≠ 0 := by
    rw [Function.update_of_ne (by decide), hden]
    exact absolute_ne_zero hd
  refine (uidivmod_spec hload hzero).trans ?_
  rintro _ ⟨reg₂, flags₂, rfl, hquo, hrem, hothers₂⟩
  rw [Function.update_self, hload.back_point (by decide)]
  have hkept : ∀ r, 4 ≤ r → r ≠ 14 → reg₂ r = reg₁ r := by
    intro r hr h14
    rw [hothers₂ r hr, Function.update_of_ne h14]
  refine (idivmod_leave hload haligned ((hkept 13 (by decide) (by decide)).trans hsp) ?_).mono ?_
  · intro r hr h13 h14
    rw [hkept r (by omega) h14, hothers₁ r hr h13]
  · rintro _ ⟨reg₃, flags₃, rfl, hquo', hrem', hothers₃⟩
    rw [Function.update_of_ne (by decide), Function.update_of_ne (by decide), hnum, hden] at hquo hrem
    rw [hkept 4 (by decide) (by decide), hsigns] at hquo' hrem'
    rw [hquo, signed_quotient] at hquo'
    rw [hrem, signed_remainder] at hrem'
    exact ⟨reg₃, flags₃, rfl, hquo', hrem', hothers₃⟩

/-! ## Every call -/

/-- The registers that the compiler expects to find again. -/
def callSaved : List Nat := [4, 5, 6, 7, 8, 9, 10, 11, 12, 13]

theorem offsetOf_division :
    offsetOf "__aeabi_uidivmod".toList divisionSource = some (4 * 0) ∧
      offsetOf "__aeabi_uidiv".toList divisionSource = some (4 * 24) ∧
      offsetOf "__aeabi_idivmod".toList divisionSource = some (4 * 25) ∧
      offsetOf "__aeabi_idiv".toList divisionSource = some (4 * 44) := by
  decide +kernel

theorem returned_back {reg' : Nat → Word} {flags' : Flags} {mem' : Mem} {m : Machine}
    (hothers : ∀ r, 4 ≤ r → reg' r = m.reg r) :
    Returned callSaved m (back reg' flags' mem' (m.reg 14)) := by
  refine ⟨rfl, rfl, fun r hr => hothers r ?_⟩
  have hall : ∀ r ∈ callSaved, 4 ≤ r := by decide
  exact hall r hr

/-- The division helpers, called with any numerator and any denominator but 0, come back with the
quotient and the remainder, unsigned or truncated toward zero. -/
theorem division_correct (code : Code) (m : Machine) (hd : m.reg 1 ≠ 0) :
    (Calls code divisionSource "__aeabi_uidivmod" m ∨ Calls code divisionSource "__aeabi_uidiv" m →
      Reaches code (fun m' => Returned callSaved m m' ∧ m'.mem = m.mem ∧
        (m'.reg 0).toNat = (m.reg 0).toNat / (m.reg 1).toNat ∧
        (m'.reg 1).toNat = (m.reg 0).toNat % (m.reg 1).toNat) m) ∧
    (Calls code divisionSource "__aeabi_idivmod" m ∨ Calls code divisionSource "__aeabi_idiv" m →
      aligned (m.reg 13) = true →
      Reaches code (fun m' => Returned callSaved m m' ∧
        (∀ a, 8 ≤ (a - (m.reg 13 - 8)).toNat → m'.mem a = m.mem a) ∧
        m'.reg 0 = BitVec.ofInt 32 ((m.reg 0).toInt.tdiv (m.reg 1).toInt) ∧
        m'.reg 1 = BitVec.ofInt 32 ((m.reg 0).toInt.tmod (m.reg 1).toInt)) m) := by
  obtain ⟨huidivmod, huidiv, hidivmod, hidiv⟩ := offsetOf_division
  constructor
  · intro hcalls
    have hspec : ∀ base, Loaded code base division →
        Reaches code (fun m' => Returned callSaved m m' ∧ m'.mem = m.mem ∧
          (m'.reg 0).toNat = (m.reg 0).toNat / (m.reg 1).toNat ∧
          (m'.reg 1).toNat = (m.reg 0).toNat % (m.reg 1).toNat)
          (point base 0 m.reg m.flags m.mem) := by
      intro base hload
      refine (uidivmod_spec hload hd).mono ?_
      rintro _ ⟨reg', flags', rfl, hquo, hrem, hothers⟩
      refine ⟨returned_back hothers, rfl, ?_, ?_⟩
      · show (reg' 0).toNat = _
        rw [hquo, BitVec.toNat_udiv]
      · show (reg' 1).toNat = _
        rw [hrem, BitVec.toNat_umod]
    rcases hcalls with hcalls | hcalls
    · exact hcalls.reaches codeOf_division huidivmod hspec
    · refine hcalls.reaches codeOf_division huidiv fun base hload => ?_
      exact hload.next (point base 0 _ _ _) rfl (exec_branch rfl rfl) (hspec base hload)
  · intro hcalls haligned
    have hspec : ∀ base, Loaded code base division →
        Reaches code (fun m' => Returned callSaved m m' ∧
          (∀ a, 8 ≤ (a - (m.reg 13 - 8)).toNat → m'.mem a = m.mem a) ∧
          m'.reg 0 = BitVec.ofInt 32 ((m.reg 0).toInt.tdiv (m.reg 1).toInt) ∧
          m'.reg 1 = BitVec.ofInt 32 ((m.reg 0).toInt.tmod (m.reg 1).toInt))
          (point base 25 m.reg m.flags m.mem) := by
      intro base hload
      refine (idivmod_spec hload hd haligned).mono ?_
      rintro _ ⟨reg', flags', rfl, hquo, hrem, hothers⟩
      exact ⟨returned_back hothers, fun a ha => putWords_apart m.mem ha, hquo, hrem⟩
    rcases hcalls with hcalls | hcalls
    · exact hcalls.reaches codeOf_division hidivmod hspec
    · refine hcalls.reaches codeOf_division hidiv fun base hload => ?_
      exact hload.next (point base 25 _ _ _) rfl (exec_branch rfl rfl) (hspec base hload)

/-- The code of the helpers at address 0. -/
def divisionCode : Code := fun a => if a % 4 = 0 then division[a / 4]? else none

/-- -7 divided by 2. -/
def divisionCall : Machine where
  reg := fun r => if r = 0 then -7 else if r = 1 then 2 else 0
  flags := ⟨false, false, false, false⟩
  mem := fun _ => 0
  pc := 100
  thumb := false

theorem loaded_division : Loaded divisionCode 0 division := loaded_atZero (by decide)

theorem division_correct_negative :
    Reaches divisionCode (fun m' => Returned callSaved divisionCall m' ∧
      (∀ a, 8 ≤ (a - (divisionCall.reg 13 - 8)).toNat → m'.mem a = divisionCall.mem a) ∧
      m'.reg 0 = -3 ∧ m'.reg 1 = -1) divisionCall := by
  have hcalls : Calls divisionCode divisionSource "__aeabi_idivmod" divisionCall :=
    ⟨division, 100, 0, codeOf_division, offsetOf_division.2.2.1, loaded_division, rfl, rfl⟩
  exact (division_correct divisionCode divisionCall (by decide)).2 (Or.inl hcalls) (by decide)

end DiscoBsd.Clib
