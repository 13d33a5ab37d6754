import DiscoBsd.Asm.Words
import DiscoBsd.Smlrc.Constants
import DiscoBsd.Smlrc.Effects

/-!
# 32-bit constants from the compiler to the machine

What the machine computes with the constant of a printed instruction. All constants are kept but those
that go through the literal pool with their top bit set, which `strtol` takes for the largest `long`,
and a shift to the right by nothing, which the assembler encodes as a shift by 32.
-/

namespace DiscoBsd.Smlrc

open Asm Lib.Armv4

variable {m : Machine} {rd rn : Nat} {imm : Word} {tok : Token}

/-- A constant that is printed as a literal and is too large for a `long`. -/
def saturated (imm : Word) : Bool :=
  !armImm8r imm && !armImm8r (~~~imm) && decide (2 ^ 31 ≤ imm.toNat)

/-- A register has a value, and nothing has changed but it and a scratch register. -/
structure Leaves (rd scratch : Nat) (v : Word) (m m' : Machine) : Prop where
  value : m'.reg rd = v
  others : ∀ r, r ≠ rd → r ≠ scratch → m'.reg r = m.reg r
  flags : m'.flags = m.flags
  mem : m'.mem = m.mem

/-- The result of a binary operator in C, if it is defined. -/
def cResult (tok : Token) (a b : Word) : Option Word :=
  match tok with
  | .plus | .postAdd | .assignAdd => some (a + b)
  | .minus | .postSub | .assignSub => some (a - b)
  | .and | .assignAnd => some (a &&& b)
  | .xor | .assignXor => some (a ^^^ b)
  | .or | .assignOr => some (a ||| b)
  | .lShift | .assignLSh => if b.toNat < 32 then some (a <<< b.toNat) else none
  | .rShift | .assignRSh => if b.toNat < 32 then some (a.sshiftRight b.toNat) else none
  | .uRShift | .assignURSh => if b.toNat < 32 then some (a >>> b.toNat) else none

/-- `GenMovImm` makes the machine have the constant. -/
def MovKept (rd : Nat) (imm : Word) : Prop :=
  ∀ m, ∃ m', runLines m (genMovImm rd imm) = some m' ∧ Leaves rd rd imm m m'

/-- `GenAddConst` makes the machine add the constant. -/
def AddKept (rd rn : Nat) (imm : Word) : Prop :=
  ∀ m, ∃ m', runLines m (genAddConst rd rn imm) = some m' ∧ Leaves rd ArmIP (m.reg rn + imm) m m'

/-- `GenBinConst` makes the machine compute what the operator gives. -/
def BinKept (tok : Token) (rd rn : Nat) (imm : Word) : Prop :=
  ∀ m v, cResult tok (m.reg rn) imm = some v →
    ∃ m', runLines m (genBinConst tok rd rn imm) = some m' ∧ Leaves rd ArmIP v m m'

/-- `GenCmpImm` makes the machine compare with the constant. -/
def CmpKept (rn : Nat) (imm : Word) : Prop :=
  ∀ m, ∃ m', runLines m (genCmpImm rn imm) = some m' ∧ Compares m'.flags (m.reg rn) imm ∧
    (∀ r, r ≠ ArmIP → m'.reg r = m.reg r) ∧ m'.mem = m.mem

/-- The operators whose constant may be negated instead. -/
def negates (tok : Token) : Bool :=
  decide (tok = .plus ∨ tok = .assignAdd ∨ tok = .minus ∨ tok = .assignSub)

/-- The shifts by a constant and the operations with one that come out as they should. -/
def binKept (tok : Token) (imm : Word) : Bool :=
  if armIsShift tok then decide (imm ≠ 0) || armMnem tok == "lsl".toList
  else !saturated imm || (negates tok && armImm8r (-imm))

/-! ## Mnemonics -/

theorem lookup_mov : opcodes.lookup "mov".toList = some 13 := by decide

theorem lookup_mvn : opcodes.lookup "mvn".toList = some 15 := by decide

theorem lookup_add : opcodes.lookup "add".toList = some 4 := by decide

theorem lookup_sub : opcodes.lookup "sub".toList = some 2 := by decide

theorem lookup_bic : opcodes.lookup "bic".toList = some 14 := by decide

theorem lookup_cmp : opcodes.lookup "cmp".toList = some 10 := by decide

theorem lookup_cmn : opcodes.lookup "cmn".toList = some 11 := by decide

/-! ## Moves -/

/-- What `GenMovImm` leaves in its register. -/
def moved (imm : Word) : Word := if saturated imm then 0x7FFFFFFF else imm

theorem moved_eq_iff (imm : Word) : moved imm = imm ↔ saturated imm = false := by
  unfold moved
  cases hsat : saturated imm with
  | false => exact iff_of_true rfl rfl
  | true =>
      refine iff_of_false ?_ (by decide)
      rw [if_pos rfl]
      rintro rfl
      revert hsat
      decide

theorem runLines_one (m : Machine) (line : Text) : runLines m [line] = runLine m line := by
  unfold runLines
  rw [List.foldlM_cons]
  cases runLine m line <;> rfl

/-- `GenMovImm` leaves the constant, or the largest `long` in the place of a larger one. -/
theorem run_genMovImm (hrd : rd < 15) :
    runLines m (genMovImm rd imm) = some (m.next.set rd (moved imm)) := by
  unfold genMovImm
  by_cases hpos : armImm8r imm = true
  · have hkept : moved imm = imm := (moved_eq_iff imm).mpr (by unfold saturated; simp [hpos])
    rw [if_pos hpos, runLines_one, line_move lookup_mov rfl hrd (second_hash hpos), hkept]
    rfl
  · rw [if_neg hpos]
    by_cases hneg : armImm8r (~~~imm) = true
    · have hkept : moved imm = imm := (moved_eq_iff imm).mpr (by unfold saturated; simp [hneg])
      rw [if_pos hneg, runLines_one, line_move lookup_mvn rfl hrd (second_hash hneg), hkept]
      show some (m.next.set rd (~~~(~~~imm))) = _
      rw [BitVec.not_not]
    · rw [if_neg hneg, runLines_one, line_load hrd imm]
      congr 2
      unfold moved saturated
      rw [Bool.eq_false_iff.mpr hpos, Bool.eq_false_iff.mpr hneg]
      by_cases hbig : 2 ^ 31 ≤ imm.toNat
      · have hmin : min (imm.toNat : Int) (2 ^ 31 - 1) = 2 ^ 31 - 1 := by omega
        rw [decide_eq_true hbig, hmin]
        rfl
      · have hmin : min (imm.toNat : Int) (2 ^ 31 - 1) = imm.toNat := by omega
        rw [decide_eq_false hbig, hmin, BitVec.ofInt_natCast, BitVec.ofNat_toNat, BitVec.setWidth_eq]
        rfl

theorem leaves_set (v : Word) (scratch : Nat) : Leaves rd scratch v m (m.next.set rd v) :=
  ⟨by simp, fun r hr _ => by simp [hr], rfl, rfl⟩

theorem movKept_iff (hrd : rd < 15) : MovKept rd imm ↔ saturated imm = false := by
  rw [← moved_eq_iff]
  constructor
  · intro h
    obtain ⟨m', hm', hleaves⟩ := h ⟨fun _ => 0, ⟨false, false, false, false⟩, fun _ => 0, 0, false⟩
    rw [run_genMovImm hrd] at hm'
    have hvalue := hleaves.value
    rw [← Option.some.inj hm'] at hvalue
    simpa using hvalue
  · intro h m
    refine ⟨_, run_genMovImm hrd, ?_⟩
    rw [h]
    exact leaves_set imm rd

/-! ## Operations -/

theorem run_scratch {line : Text} :
    runLines m (genMovImm ArmIP imm ++ [line]) =
      runLine (m.next.set ArmIP (moved imm)) line := by
  unfold runLines
  rw [List.foldlM_append]
  show (runLines m (genMovImm ArmIP imm)).bind (fun m => runLines m [line]) = _
  rw [run_genMovImm (by decide)]
  exact runLines_one _ _

/-- The opcode of an operator that is no shift. -/
def opcodeOf (tok : Token) : Nat := (opcodes.lookup (armMnem tok)).getD 0

theorem opcodeOf_spec (h : armIsShift tok = false) :
    opcodes.lookup (armMnem tok) = some (opcodeOf tok) ∧
      (isMove (opcodeOf tok) = false ∧ isTest (opcodeOf tok) = false) ∧
      ∀ a b c, result (opcodeOf tok) a b c = cResult tok a b := by
  cases tok <;> first | exact ⟨rfl, ⟨rfl, rfl⟩, fun _ _ _ => rfl⟩ | cases h

theorem run_three {mnem b : Text} {op : Nat} {src : Operand} {v : Word}
    (hbase : opcodes.lookup mnem = some op) (hop : isMove op = false ∧ isTest op = false)
    (hrd : rd < 15) (hrn : rn < 15) (hb : Second b src)
    (hresult : result op (m.reg rn) (src.value m) m.flags.c = some v) :
    runLine m (printed mnem (prn rd ++ comma ++ prn rn ++ comma ++ b)) = some (m.next.set rd v) := by
  rw [line_three hbase hop hrd hrn hb, Machine.read_of_lt hrn, hresult]
  rfl

/-- An operation through the scratch register has the value that was moved there. -/
theorem run_through {mnem : Text} {op : Nat} {v : Word} (hbase : opcodes.lookup mnem = some op)
    (hop : isMove op = false ∧ isTest op = false) (hrd : rd < 15) (hrn : rn < 15)
    (hip : rn ≠ ArmIP) (hresult : result op (m.reg rn) (moved imm) m.flags.c = some v) :
    ∃ m', runLines m (genMovImm ArmIP imm ++ [threeReg mnem rd rn ArmIP]) = some m' ∧
      Leaves rd ArmIP v m m' := by
  refine ⟨((m.next.set ArmIP (moved imm)).next.set rd v), ?_, ?_⟩
  · rw [run_scratch]
    refine run_three hbase hop hrd hrn (second_prn (by decide)) ?_
    show result op _ ((m.next.set ArmIP (moved imm)).read ArmIP) _ = _
    rw [Machine.read_of_lt (by decide)]
    simpa [hip] using hresult
  · refine ⟨by simp, fun r hr hscratch => ?_, rfl, rfl⟩
    simp [hr, hscratch]

/-- A machine whose registers all have one value. -/
def uniform (a : Word) : Machine := ⟨fun _ => a, ⟨false, false, false, false⟩, fun _ => 0, 0, false⟩

/-- An operation that tells constants apart is right through the scratch register if and only if the
constant gets there. -/
theorem through_iff (imm : Word) {mnem : Text} {op : Nat} {f : Word → Word → Word}
    (hbase : opcodes.lookup mnem = some op) (hop : isMove op = false ∧ isTest op = false)
    (hrd : rd < 15) (hrn : rn < 15) (hip : rn ≠ ArmIP)
    (hresult : ∀ a b c, result op a b c = some (f a b))
    (hapart : ∀ b b', b ≠ b' → ∃ a, f a b ≠ f a b') :
    (∀ m, ∃ m', runLines m (genMovImm ArmIP imm ++ [threeReg mnem rd rn ArmIP]) = some m' ∧
      Leaves rd ArmIP (f (m.reg rn) imm) m m') ↔ saturated imm = false := by
  rw [← moved_eq_iff]
  constructor
  · intro h
    by_contra hne
    obtain ⟨a, ha⟩ := hapart _ _ hne
    obtain ⟨m', hm', hleaves⟩ := h (uniform a)
    obtain ⟨m'', hm'', hleaves''⟩ := run_through hbase hop hrd hrn hip
      (hresult ((uniform a).reg rn) (moved imm) _)
    obtain rfl := Option.some.inj (hm'.symm.trans hm'')
    exact ha (hleaves''.value.symm.trans hleaves.value)
  · intro h m
    refine run_through hbase hop hrd hrn hip ?_
    rw [h]
    exact hresult _ _ _

theorem not_saturated (h : armImm8r imm = true) : saturated imm = false := by
  unfold saturated
  rw [h]
  rfl

theorem addKept_iff (hrd : rd < 15) (hrn : rn < 15) (hip : rn ≠ ArmIP) :
    AddKept rd rn imm ↔ armImm8r (-imm) = true ∨ saturated imm = false := by
  unfold AddKept genAddConst
  by_cases hzero : imm = 0
  · subst hzero
    refine iff_of_true ?_ (Or.inr rfl)
    intro m
    rw [if_pos rfl]
    unfold genMov
    by_cases hsame : rd = rn
    · rw [if_neg (not_not.mpr hsame)]
      refine ⟨m, rfl, ?_, fun _ _ _ => rfl, rfl, rfl⟩
      rw [hsame]
      exact (BitVec.add_zero _).symm
    · rw [if_pos hsame, runLines_one, line_move lookup_mov rfl hrd (second_prn (by omega))]
      refine ⟨_, rfl, ?_⟩
      have hsum : m.reg rn + 0 = m.reg rn := BitVec.add_zero _
      show Leaves rd ArmIP _ m (m.next.set rd (m.read rn))
      rw [Machine.read_of_lt hrn, hsum]
      exact leaves_set _ _
  · rw [if_neg hzero]
    by_cases hpos : armImm8r imm = true
    · refine iff_of_true ?_ (Or.inr (not_saturated hpos))
      intro m
      rw [if_pos hpos, runLines_one]
      exact ⟨_, run_three lookup_add ⟨rfl, rfl⟩ hrd hrn (second_hash hpos) rfl, leaves_set _ _⟩
    · rw [if_neg hpos]
      by_cases hneg : armImm8r (-imm) = true
      · refine iff_of_true ?_ (Or.inl hneg)
        intro m
        rw [if_pos hneg, runLines_one]
        refine ⟨_, run_three lookup_sub ⟨rfl, rfl⟩ hrd hrn (second_hash hneg) rfl, ?_⟩
        show Leaves rd ArmIP _ m (m.next.set rd (m.reg rn - -imm))
        rw [BitVec.sub_eq_add_neg, BitVec.neg_neg]
        exact leaves_set _ _
      · rw [if_neg hneg]
        have hadd : ∀ a b c, result 4 a b c = some (a + b) := fun _ _ _ => rfl
        rw [through_iff imm lookup_add ⟨rfl, rfl⟩ hrd hrn hip hadd
          (fun b b' hne => ⟨0, by simpa using hne⟩)]
        exact ⟨Or.inr, fun h => h.resolve_left hneg⟩

/-! ## Comparisons -/

theorem run_test {mnem b : Text} {op : Nat} {src : Operand} {f : Flags}
    (hbase : opcodes.lookup mnem = some op) (hop : isTest op = true) (hrn : rn < 15)
    (hb : Second b src) (hcompare : comparison op (m.reg rn) (src.value m) = some f) :
    runLine m (printed mnem (prn rn ++ comma ++ b)) = some (m.next.compared f) := by
  rw [line_test hbase hop hrn hb, Machine.read_of_lt hrn, hcompare]
  rfl

theorem cmpKept_iff (hrn : rn < 15) (hip : rn ≠ ArmIP) :
    CmpKept rn imm ↔ armImm8r (-imm) = true ∨ saturated imm = false := by
  unfold CmpKept genCmpImm
  by_cases hpos : armImm8r imm = true
  · refine iff_of_true ?_ (Or.inr (not_saturated hpos))
    intro m
    rw [if_pos hpos, runLines_one]
    exact ⟨_, run_test lookup_cmp rfl hrn (second_hash hpos) rfl, compares_subFlags _ _,
      fun _ _ => rfl, rfl⟩
  · rw [if_neg hpos]
    by_cases hneg : armImm8r (-imm) = true
    · refine iff_of_true ?_ (Or.inl hneg)
      intro m
      have hzero : imm ≠ 0 := by
        rintro rfl
        exact hpos rfl
      have hmin : imm ≠ BitVec.intMin 32 := by
        rintro rfl
        exact hpos (by decide)
      rw [if_pos hneg, runLines_one]
      refine ⟨_, run_test lookup_cmn rfl hrn (second_hash hneg) rfl, ?_, fun _ _ => rfl, rfl⟩
      show Compares (addFlags (m.reg rn) (-imm)) _ _
      rw [addFlags_neg hzero hmin]
      exact compares_subFlags _ _
    · rw [if_neg hneg, ← moved_eq_iff]
      have hrun : ∀ m, runLines m (genMovImm ArmIP imm ++
          [printed "cmp".toList (prn rn ++ comma ++ prn ArmIP)]) =
          some ((m.next.set ArmIP (moved imm)).next.compared (subFlags (m.reg rn) (moved imm))) := by
        intro m
        rw [run_scratch]
        refine run_test lookup_cmp rfl hrn (second_prn (by decide)) ?_
        show some (subFlags _ ((m.next.set ArmIP (moved imm)).read ArmIP)) = _
        rw [Machine.read_of_lt (by decide)]
        simp [hip]
      constructor
      · intro h
        obtain ⟨m', hm', hcompares, -⟩ := h (uniform imm)
        rw [hrun] at hm'
        obtain rfl := Option.some.inj hm'
        have heq := (compares_subFlags imm (moved imm)).eq.symm.trans hcompares.eq
        rw [decide_eq_decide] at heq
        exact Or.inr (heq.mpr rfl).symm
      · intro h
        have hkept : ¬ armImm8r (-imm) = true ∧ moved imm = imm := ⟨hneg, h.resolve_left hneg⟩
        intro m
        refine ⟨_, hrun m, ?_, fun r hr => by simp [hr], rfl⟩
        rw [hkept.2]
        exact compares_subFlags _ _

/-! ## Operators -/

/-- A shift by a constant is one by its low five bits, and to the right by 32 when these are 0. -/
theorem run_shift {type : Shift} {n : Nat} {amount : Operand} {imm : Word}
    (hbase : shifts.lookup (armMnem tok) = some type) (hrd : rd < 15) (hrn : rn < 15) (hn : n ≤ 32)
    (h : shiftedReg rn type n = some amount) (hlow : imm.toNat % 32 = n % 32) :
    runLine m (threeImm (armMnem tok) rd rn (imm &&& 31)) = some (m.next.set rd (amount.value m)) := by
  refine line_shift hbase hrd hrn ⟨by omega, by omega⟩ h ?_
  have hand : (imm &&& 31).toNat = imm.toNat % 32 := by
    have hmask : (31 : Word).toNat = 2 ^ 5 - 1 := rfl
    rw [BitVec.toNat_and, hmask, Nat.and_two_pow_sub_one_eq_mod]
  rw [BitVec.toInt_eq_toNat_of_lt (by omega), hand]
  omega

theorem shiftOf_spec (h : armIsShift tok = true) : ∃ type : Shift,
    shifts.lookup (armMnem tok) = some type ∧
      (type = .lsl ∧ armMnem tok = "lsl".toList ∨
        (type = .lsr ∨ type = .asr) ∧ armMnem tok ≠ "lsl".toList) ∧
      ∀ a b, cResult tok a b = if b.toNat < 32 then some (shift type a b.toNat) else none := by
  cases tok <;> first
    | exact ⟨.lsl, rfl, Or.inl ⟨rfl, rfl⟩, fun _ _ => rfl⟩
    | exact ⟨.asr, rfl, Or.inr ⟨Or.inr rfl, by decide⟩, fun _ _ => rfl⟩
    | exact ⟨.lsr, rfl, Or.inr ⟨Or.inl rfl, by decide⟩, fun _ _ => rfl⟩
    | cases h

theorem shiftKept_iff (htok : armIsShift tok = true) (hrd : rd < 15) (hrn : rn < 15) :
    BinKept tok rd rn imm ↔ imm ≠ 0 ∨ armMnem tok = "lsl".toList := by
  obtain ⟨type, hbase, hkind, hresult⟩ := shiftOf_spec htok
  have hgen : genBinConst tok rd rn imm = [threeImm (armMnem tok) rd rn (imm &&& 31)] := by
    unfold genBinConst
    rw [if_pos htok]
  unfold BinKept
  rw [hgen]
  by_cases hzero : imm = 0
  · subst hzero
    rcases hkind with ⟨rfl, hlsl⟩ | ⟨hright, hno⟩
    · refine iff_of_true ?_ (Or.inr hlsl)
      intro m v hv
      rw [hresult, if_pos (by decide)] at hv
      have hamount : shiftedReg rn .lsl (0 : Nat) = some (.reg rn) := rfl
      rw [runLines_one, run_shift hbase hrd hrn (by omega) hamount rfl]
      refine ⟨_, rfl, ?_⟩
      show Leaves rd ArmIP v m (m.next.set rd (m.read rn))
      rw [← Option.some.inj hv, Machine.read_of_lt hrn]
      have hshift : shift .lsl (m.reg rn) (0 : Word).toNat = m.reg rn := BitVec.shiftLeft_zero _
      rw [hshift]
      exact leaves_set _ _
    · refine iff_of_false ?_ (fun h => h.elim (fun h => h rfl) hno)
      intro h
      have hone : cResult tok ((uniform 1).reg rn) 0 = some 1 := by
        rw [hresult, if_pos (by decide)]
        rcases hright with rfl | rfl <;> rfl
      obtain ⟨m', hm', hleaves⟩ := h (uniform 1) 1 hone
      have hamount : shiftedReg rn type (32 : Nat) = some (.shifted rn type 32) := by
        rcases hright with rfl | rfl <;> rfl
      rw [runLines_one, run_shift hbase hrd hrn (by omega) hamount rfl] at hm'
      obtain rfl := Option.some.inj hm'
      have hvalue := hleaves.value
      rw [Machine.set_reg, if_pos rfl] at hvalue
      have hlost : (Operand.shifted rn type 32).value (uniform 1) = 0 := by
        show shift type ((uniform 1).read rn) 32 = 0
        rw [Machine.read_of_lt hrn]
        show shift type 1 32 = 0
        rcases hright with rfl | rfl <;> decide
      rw [hlost] at hvalue
      revert hvalue
      decide
  · refine iff_of_true ?_ (Or.inl hzero)
    intro m v hv
    rw [hresult] at hv
    split at hv
    · next hlt =>
        have hpos : 0 < imm.toNat := by
          have hne : imm.toNat ≠ 0 := fun h => hzero (BitVec.eq_of_toNat_eq h)
          omega
        have hamount : shiftedReg rn type (imm.toNat : Int) =
            some (.shifted rn type imm.toNat) := by
          unfold shiftedReg
          rcases hkind with ⟨rfl, -⟩ | ⟨rfl | rfl, -⟩
          · dsimp only
            rw [if_neg (by omega), if_pos ⟨by omega, by omega⟩]
            rfl
          · dsimp only
            rw [if_pos ⟨by omega, by omega⟩]
            rfl
          · dsimp only
            rw [if_pos ⟨by omega, by omega⟩]
            rfl
        rw [runLines_one, run_shift hbase hrd hrn (by omega) hamount rfl]
        refine ⟨_, rfl, ?_⟩
        show Leaves rd ArmIP v m (m.next.set rd (shift type (m.read rn) imm.toNat))
        rw [← Option.some.inj hv, Machine.read_of_lt hrn]
        exact leaves_set _ _
    · cases hv

theorem cResult_apart (htok : armIsShift tok = false) {b b' : Word} (hne : b ≠ b') :
    ∃ a, cResult tok a b ≠ cResult tok a b' := by
  have hand : BitVec.allOnes 32 &&& b ≠ BitVec.allOnes 32 &&& b' := by
    rwa [BitVec.allOnes_and, BitVec.allOnes_and]
  have hsub : (0 : Word) - b ≠ 0 - b' := by
    intro h
    have hneg : -b = -b' := by simpa using h
    exact hne (BitVec.neg_inj.mp hneg)
  cases tok <;> first
    | exact ⟨0, fun h => hsub (Option.some.inj h)⟩
    | exact ⟨BitVec.allOnes 32, fun h => hand (Option.some.inj h)⟩
    | exact ⟨0, fun h => hne (by simpa [cResult] using h)⟩
    | cases htok

/-- An operator that is no shift, with a constant that is no operand. -/
theorem throughKept_iff (htok : armIsShift tok = false) (hrd : rd < 15) (hrn : rn < 15)
    (hip : rn ≠ ArmIP) (hgen : genBinConst tok rd rn imm =
      genMovImm ArmIP imm ++ genBinReg tok rd rn ArmIP) :
    BinKept tok rd rn imm ↔ saturated imm = false := by
  obtain ⟨hbase, hop, hresult⟩ := opcodeOf_spec htok
  have hsome : ∀ a b, cResult tok a b = some ((cResult tok a b).getD 0) := by
    intro a b
    cases tok <;> first | rfl | cases htok
  have hvalue : ∀ a b c, result (opcodeOf tok) a b c = some ((cResult tok a b).getD 0) :=
    fun a b c => (hresult a b c).trans (hsome a b)
  have hapart : ∀ b b', b ≠ b' → ∃ a, (cResult tok a b).getD 0 ≠ (cResult tok a b').getD 0 := by
    intro b b' hne
    obtain ⟨a, ha⟩ := cResult_apart htok hne
    refine ⟨a, fun h => ha ?_⟩
    rw [hsome a b, hsome a b']
    exact congrArg some h
  rw [← through_iff imm hbase hop hrd hrn hip hvalue hapart]
  unfold BinKept
  rw [hgen]
  constructor
  · intro h m
    exact h m _ (hsome _ _)
  · intro h m v hv
    have hval : (cResult tok (m.reg rn) imm).getD 0 = v := by rw [hv]; rfl
    have hm := h m
    rw [hval] at hm
    exact hm

theorem binKept_direct {mnem : Text} {op : Nat} {k : Word}
    (hgen : genBinConst tok rd rn imm = [threeImm mnem rd rn k])
    (hbase : opcodes.lookup mnem = some op) (hop : isMove op = false ∧ isTest op = false)
    (hrd : rd < 15) (hrn : rn < 15) (hk : armImm8r k = true)
    (hresult : ∀ a c, result op a k c = cResult tok a imm) : BinKept tok rd rn imm := by
  intro m v hv
  rw [hgen, runLines_one]
  exact ⟨_, run_three hbase hop hrd hrn (second_hash hk) ((hresult _ _).trans hv), leaves_set _ _⟩

/-- A sum with a negated constant is a difference, and the other way round. -/
theorem negated_spec (h : negates tok = true) : ∃ mnem op, opcodes.lookup mnem = some op ∧
    (isMove op = false ∧ isTest op = false) ∧
      (¬ armImm8r imm = true → armImm8r (-imm) = true →
        genBinConst tok rd rn imm = [threeImm mnem rd rn (-imm)]) ∧
      ∀ a b c, result op a (-b) c = cResult tok a b := by
  have hadd : ∀ a b : Word, some (a - -b) = some (a + b) := fun a b => by
    rw [BitVec.sub_eq_add_neg, BitVec.neg_neg]
  have hsub : ∀ a b : Word, some (a + -b) = some (a - b) := fun a b => by
    rw [BitVec.sub_eq_add_neg]
  rcases of_decide_eq_true h with rfl | rfl | rfl | rfl
  · exact ⟨_, 2, lookup_sub, ⟨rfl, rfl⟩, fun hpos henc => by simp [genBinConst, armIsShift, hpos, henc],
      fun a b _ => hadd a b⟩
  · exact ⟨_, 2, lookup_sub, ⟨rfl, rfl⟩, fun hpos henc => by simp [genBinConst, armIsShift, hpos, henc],
      fun a b _ => hadd a b⟩
  · exact ⟨_, 4, lookup_add, ⟨rfl, rfl⟩, fun hpos henc => by simp [genBinConst, armIsShift, hpos, henc],
      fun a b _ => hsub a b⟩
  · exact ⟨_, 4, lookup_add, ⟨rfl, rfl⟩, fun hpos henc => by simp [genBinConst, armIsShift, hpos, henc],
      fun a b _ => hsub a b⟩

/-- A conjunction clears the bits of the complement. -/
theorem cleared_spec (h : tok = .and ∨ tok = .assignAnd) :
    (¬ armImm8r imm = true → armImm8r (~~~imm) = true →
      genBinConst tok rd rn imm = [threeImm "bic".toList rd rn (~~~imm)]) ∧
      ∀ a b c, result 14 a (~~~b) c = cResult tok a b := by
  have hclear : ∀ a b : Word, some (a &&& ~~~(~~~b)) = some (a &&& b) := fun a b => by
    rw [BitVec.not_not]
  rcases h with rfl | rfl
  · exact ⟨fun hpos henc => by simp [genBinConst, armIsShift, hpos, henc], fun a b _ => hclear a b⟩
  · exact ⟨fun hpos henc => by simp [genBinConst, armIsShift, hpos, henc], fun a b _ => hclear a b⟩

theorem binKept_iff (hrd : rd < 15) (hrn : rn < 15) (hip : rn ≠ ArmIP) :
    BinKept tok rd rn imm ↔ binKept tok imm = true := by
  unfold binKept
  cases htok : armIsShift tok with
  | true =>
      rw [shiftKept_iff htok hrd hrn, if_pos rfl, Bool.or_eq_true, decide_eq_true_eq, beq_iff_eq]
  | false =>
      obtain ⟨hbase, hop, hresult⟩ := opcodeOf_spec htok
      rw [if_neg (by decide), Bool.or_eq_true, Bool.and_eq_true, Bool.not_eq_true']
      by_cases hpos : armImm8r imm = true
      · refine iff_of_true ?_ (Or.inl (not_saturated hpos))
        exact binKept_direct (by simp [genBinConst, htok, hpos]) hbase hop hrd hrn hpos
          (fun a c => hresult a imm c)
      · by_cases hneg : negates tok = true ∧ armImm8r (-imm) = true
        · refine iff_of_true ?_ (Or.inr hneg)
          obtain ⟨hneg, henc⟩ := hneg
          obtain ⟨mnem, op, hbase, hop, hgen, hresult⟩ := negated_spec hneg
          exact binKept_direct (hgen hpos henc) hbase hop hrd hrn henc (fun a _ => hresult a imm _)
        · by_cases hbic : (tok = .and ∨ tok = .assignAnd) ∧ armImm8r (~~~imm) = true
          · have hkept : saturated imm = false := by
              unfold saturated
              rw [hbic.2]
              simp
            refine iff_of_true ?_ (Or.inl hkept)
            obtain ⟨hgen, hresult⟩ := cleared_spec hbic.1
            exact binKept_direct (hgen hpos hbic.2) lookup_bic ⟨rfl, rfl⟩ hrd hrn hbic.2
              (fun a _ => hresult a imm _)
          · have hgen : genBinConst tok rd rn imm =
                genMovImm ArmIP imm ++ genBinReg tok rd rn ArmIP := by
              unfold genBinConst
              rw [htok, if_neg (by decide), if_neg hpos, if_neg ?_, if_neg ?_, if_neg hbic]
              · rintro ⟨rfl | rfl, henc⟩
                · exact hneg ⟨rfl, henc⟩
                · exact hneg ⟨rfl, henc⟩
              · rintro ⟨rfl | rfl, henc⟩
                · exact hneg ⟨rfl, henc⟩
                · exact hneg ⟨rfl, henc⟩
            rw [throughKept_iff htok hrd hrn hip hgen]
            exact ⟨Or.inl, fun h => h.resolve_right hneg⟩

/-! ## Every constant -/

/-- The constants with which the machine computes what was meant. -/
theorem constants_kept (imm : Word) (tok : Token) (hrd : rd < 15) (hrn : rn < 15)
    (hip : rn ≠ ArmIP) :
    (MovKept rd imm ↔ saturated imm = false) ∧
      (AddKept rd rn imm ↔ armImm8r (-imm) = true ∨ saturated imm = false) ∧
      (BinKept tok rd rn imm ↔ binKept tok imm = true) ∧
      (CmpKept rn imm ↔ armImm8r (-imm) = true ∨ saturated imm = false) :=
  ⟨movKept_iff hrd, addKept_iff hrd hrn hip, binKept_iff hrd hrn hip, cmpKept_iff hrn hip⟩

theorem constants_kept_literal : MovKept 0 0x12345678 ∧ AddKept 0 4 0x12345678 ∧
    BinKept .xor 0 4 0x12345678 ∧ CmpKept 4 0x12345678 := by
  obtain ⟨hmov, hadd, hbin, hcmp⟩ :=
    @constants_kept 0 4 0x12345678 .xor (by decide) (by decide) (by decide)
  exact ⟨hmov.mpr (by decide), hadd.mpr (by decide), hbin.mpr (by decide), hcmp.mpr (by decide)⟩

/-- A constant with its top bit set becomes the largest `long`, and a shift to the right by nothing
clears the register. -/
theorem constant_saturates : genMovImm 0 0x89ABCDEF = ["\tldr\tr0, =0x89ABCDEF\n".toList] ∧
    runLines (uniform 0) (genMovImm 0 0x89ABCDEF) =
      some ((uniform 0).next.set 0 0x7FFFFFFF) ∧
    ¬ MovKept 0 0x89ABCDEF ∧ ¬ BinKept .uRShift 0 4 0 := by
  have hsat : saturated 0x89ABCDEF = true := by decide
  refine ⟨by decide +kernel, run_genMovImm (by decide), fun h => ?_, fun h => ?_⟩
  · rw [movKept_iff (by decide), hsat] at h
    cases h
  · rw [binKept_iff (by decide) (by decide) (by decide)] at h
    revert h
    decide

/-! ## Rotated constants

What a field of a rotated constant means to the processor, and that the assembler finds a field for
every constant that has one. The compiler, which only tests, says the same.
-/

section

open Asm Lib.Armv4

/-- What the processor makes of the field: its low byte, rotated right by twice the count above it. -/
def immediate (e : Word) : Word :=
  (BitVec.ofNat 32 (field e 0 8)).rotateRight (2 * field e 8 4)

/-- Rotating back. -/
theorem rotateLeft_rotateRight (value : Word) {r : Nat} (hr : r < 32) :
    (value.rotateRight r).rotateLeft r = value := by
  refine BitVec.eq_of_getLsbD_eq fun i hi => ?_
  rw [BitVec.getLsbD_rotateLeft_of_le hr]
  by_cases h : i < r
  · rw [decide_eq_true h, cond_true, BitVec.getLsbD_rotateRight_of_lt hr,
      decide_eq_false (show ¬ 32 - r + i < 32 - r by omega), cond_false,
      decide_eq_true (show 32 - r + i < 32 by omega), Bool.true_and, Nat.add_sub_cancel_left]
  · rw [decide_eq_false h, cond_false, decide_eq_true hi, Bool.true_and,
      BitVec.getLsbD_rotateRight_of_lt hr, decide_eq_true (show i - r < 32 - r by omega), cond_true,
      Nat.add_sub_cancel' (Nat.le_of_not_lt h)]

/-- A byte passes the test of the loops. -/
theorem byte_masked {b : Nat} (hb : b < 2 ^ 8) : BitVec.ofNat 32 b &&& 0xFFFFFF00 = 0 := by
  have hwithin : BitVec.ofNat 32 b = (BitVec.ofNat 8 b).setWidth 32 := by
    refine BitVec.eq_of_toNat_eq ?_
    rw [BitVec.toNat_setWidth, BitVec.toNat_ofNat, BitVec.toNat_ofNat]
    omega
  have hmask : (0xFFFFFF00 : Word) = BitVec.allOnes 24 ++ 0#8 := rfl
  rw [hwithin, hmask]
  refine BitVec.eq_of_getLsbD_eq fun i hi => ?_
  rw [BitVec.getLsbD_and, BitVec.getLsbD_setWidth, BitVec.getLsbD_append]
  by_cases h : i < 8
  · rw [if_pos h, BitVec.getLsbD_zero, Bool.and_false]
    exact BitVec.getLsbD_zero.symm
  · rw [BitVec.getLsbD_of_ge _ _ (by omega), Bool.and_false, Bool.false_and]
    exact BitVec.getLsbD_zero.symm

theorem immediate_of_enc {v e : Word} (h : encImm8r v = some e) : immediate e = v := by
  have hmeans := (imm_operand h).2
  unfold sourceOperand at hmeans
  rw [if_pos rfl] at hmeans
  injection hmeans

/-- The search finds a field if there is one. -/
theorem enc_of_immediate (f : Word) : (encImm8r (immediate f)).isSome = true := by
  have hcount : field f 8 4 < 16 := Nat.mod_lt _ (by decide)
  have hbyte : field f 0 8 < 2 ^ 8 := Nat.mod_lt _ (by decide)
  unfold encImm8r
  rw [List.findSome?_isSome_iff]
  refine ⟨field f 8 4, List.mem_range.mpr hcount, ?_⟩
  -- the rotation that the field counts is one of those that are tried
  show (if (immediate f).rotateLeft (2 * field f 8 4) &&& 0xFFFFFF00 = 0 then _ else none).isSome = true
  unfold immediate
  rw [rotateLeft_rotateRight _ (by omega), if_pos (byte_masked hbyte)]
  rfl

/-- The assembler encodes a constant exactly when there is a field that means it, with such a field,
and the compiler takes the same constants for immediates. -/
theorem immediate_exact (v : Word) :
    (∀ e, encImm8r v = some e → e.toNat < 2 ^ 12 ∧ immediate e = v) ∧
      (encImm8r v = none ↔ ∀ f : Word, f.toNat < 2 ^ 12 → immediate f ≠ v) ∧
      (armImm8r v = true ↔ encImm8r v ≠ none) := by
  refine ⟨fun e he => ⟨(imm_operand he).1, immediate_of_enc he⟩, ⟨?_, ?_⟩, ?_⟩
  · intro hnone f _ hf
    have hsome := enc_of_immediate f
    rw [hf, hnone] at hsome
    cases hsome
  · intro hall
    cases he : encImm8r v with
    | none => rfl
    | some e => exact absurd (immediate_of_enc he) (hall e (imm_operand he).1)
  · rw [armImm8r_eq, Option.isSome_iff_ne_none]

end

end DiscoBsd.Smlrc
