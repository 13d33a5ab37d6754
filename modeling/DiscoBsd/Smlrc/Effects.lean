import DiscoBsd.Asm.Assemble
import DiscoBsd.Smlrc.Lines

/-!
# What printed lines make the machine do

A line goes through the assembler, and the word that it gives is decoded and executed. Of a load from
the literal pool what counts is the word that is put there.
-/

namespace DiscoBsd.Smlrc

open Asm Lib.Armv4

/-- The effect of a line without labels or symbols. -/
def runLine (m : Machine) (raw : Text) : Option Machine :=
  match (parseLine raw).2 with
  | .blank => some m
  | .instr mnem ops =>
      match encode (fun _ => none) 0 mnem ops with
      | .ok (w, _) => (decode w).bind m.exec
      | .error _ => none
  | .load rd (.number v) =>
      if 0 ≤ rd ∧ rd < 15 then some (m.next.set rd.toNat (literalWord .empty (.number v))) else none
  | _ => none

def runLines (m : Machine) (lines : List Text) : Option Machine := lines.foldlM runLine m

/-! ## Lines of instructions -/

variable {mnem ops a b c : Text} {op : Nat} {i : Instr} {m : Machine} {rd rn rm : Nat} {v : Word}

/-- An operand as it is printed. -/
structure Printed (a : Text) : Prop where
  plain : a.all isPlain = true
  short : a.length ≤ 12

theorem printed_prn {r : Nat} (hr : r < 16) : Printed (prn r) :=
  ⟨(plain_prn r hr).1, Nat.le_trans (plain_prn r hr).2.2.1 (by omega)⟩

theorem printed_hash (v : Word) : Printed (hash v) := by
  obtain ⟨hplain, hlen⟩ := plain_percentD v
  refine ⟨?_, Nat.succ_le_succ hlen⟩
  unfold hash
  rw [List.all_cons, hplain]
  rfl

/-- A list of operands as it is printed. -/
structure PrintedOps (ops : Text) : Prop where
  inLine : ops.all inLine = true
  start : ops.head?.any isblank = false
  noLiteral : '=' ∉ ops
  short : ops.length ≤ 256

theorem printedOps_append {rest : Text} (ha : Printed a) (hne : a ≠ []) (hrest : rest.all inLine = true)
    (hlit : '=' ∉ rest) (hlen : rest.length ≤ 200) : PrintedOps (a ++ comma ++ rest) := by
  have hplain := fun x hx => plain_inLine (List.all_eq_true.mp ha.plain x hx)
  have hcomma : ∀ x ∈ comma, Smlrc.inLine x = true ∧ x ≠ '=' :=
    List.all_iff_forall_prop.mp (by decide)
  refine ⟨?_, ?_, ?_, ?_⟩
  · rw [List.all_append, List.all_append, hrest, Bool.and_true, Bool.and_eq_true, List.all_eq_true,
      List.all_eq_true]
    exact ⟨fun x hx => (hplain x hx).1, fun x hx => (hcomma x hx).1⟩
  · obtain ⟨x, xs, rfl⟩ := List.exists_cons_of_ne_nil hne
    exact (hplain x List.mem_cons_self).2.2.2.2
  · intro hmem
    rcases List.mem_append.mp hmem with hmem | hmem
    · rcases List.mem_append.mp hmem with hmem | hmem
      · exact (hplain _ hmem).2.2.1 rfl
      · exact (hcomma _ hmem).2 rfl
    · exact hlit hmem
  · have hshort := ha.short
    have htwo : comma.length = 2 := rfl
    rw [List.length_append, List.length_append]
    omega

theorem printed_inLine (ha : Printed a) : a.all inLine = true ∧ '=' ∉ a := by
  have hplain := fun x hx => plain_inLine (List.all_eq_true.mp ha.plain x hx)
  exact ⟨List.all_eq_true.mpr fun x hx => (hplain x hx).1, fun hmem => (hplain _ hmem).2.2.1 rfl⟩

theorem printedOps_two (ha : Printed a) (hne : a ≠ []) (hb : Printed b) :
    PrintedOps (a ++ comma ++ b) := by
  have hshort := hb.short
  exact printedOps_append ha hne (printed_inLine hb).1 (printed_inLine hb).2 (by omega)

theorem printedOps_three (ha : Printed a) (hne : a ≠ []) (hb : Printed b) (hbne : b ≠ [])
    (hc : Printed c) : PrintedOps (a ++ comma ++ b ++ comma ++ c) := by
  have hrest := printedOps_two hb hbne hc
  have hshort := hb.short
  have hshort' := hc.short
  have htwo : comma.length = 2 := rfl
  have hcut : a ++ comma ++ b ++ comma ++ c = a ++ comma ++ (b ++ comma ++ c) := by
    simp only [List.append_assoc]
  rw [hcut]
  refine printedOps_append ha hne hrest.inLine hrest.noLiteral ?_
  rw [List.length_append, List.length_append]
  omega

/-- A line is the instruction that its text is encoded as. -/
theorem runLine_instr {w : Word} (hm : mnem.all inMnemonic = true) (hne : mnem ≠ [])
    (hshort : mnem.length ≤ 15) (hops : PrintedOps ops)
    (hencode : encode (fun _ => none) 0 mnem ops = .ok (w, none)) (hw : decode w = some i) :
    runLine m (printed mnem ops) = m.exec i := by
  unfold runLine
  rw [parseLine_instr hm hne hshort hops.inLine hops.start hops.noLiteral hops.short]
  dsimp only
  rw [hencode]
  dsimp only
  rw [hw]
  rfl

theorem runLine_data (hbase : opcodes.lookup mnem = some op) (hops : PrintedOps ops)
    (h : dataMeaning 14 op (operands ops) = some i) (hok : ¬ DataRefused mnem (operands ops)) :
    runLine m (printed mnem ops) = m.exec i := by
  obtain ⟨w, hw, hdecode⟩ := data_encoded (by omega) hbase h hok
  have hword : (do let w ← encodeDp 14 mnem ops; return (w, (none : Option Text))) =
      .ok (w, none) := by
    rw [hw]
    rfl
  have hmem := mem_of_lookup hbase
  simp only [opcodes, List.mem_cons, List.not_mem_nil, or_false, Prod.mk.injEq] at hmem
  rcases hmem with ⟨rfl, -⟩ | ⟨rfl, -⟩ | ⟨rfl, -⟩ | ⟨rfl, -⟩ | ⟨rfl, -⟩ | ⟨rfl, -⟩ | ⟨rfl, -⟩ |
    ⟨rfl, -⟩ | ⟨rfl, -⟩ | ⟨rfl, -⟩ | ⟨rfl, -⟩ <;>
    exact runLine_instr (by decide) (by decide) (by decide) hops hword hdecode

theorem source_hash (v : Word) : source (hash v) = some (.imm v) := by
  have himm : immediate (hash v) = some v.toInt := numeral_percentD v
  have hlow := v.le_toInt
  have hhigh := v.toInt_lt
  unfold source constant
  rw [himm]
  dsimp only
  rw [if_pos ⟨by omega, by omega⟩, BitVec.ofInt_toInt]
  rfl

theorem encodable_hash (h : armImm8r v = true) : ¬ Unencodable (hash v) := by
  have himm : immediate (hash v) = some v.toInt := numeral_percentD v
  have hlow := v.le_toInt
  have hhigh := v.toInt_lt
  rw [armImm8r_eq] at h
  obtain ⟨e, he⟩ := Option.isSome_iff_exists.mp h
  have hclamp : max (-(2 ^ 31)) (min v.toInt (2 ^ 31 - 1)) = v.toInt := by omega
  unfold Unencodable
  rw [parseImm_immediate himm, hclamp]
  show ¬ encImm8r (BitVec.ofInt 32 v.toInt) = none
  rw [BitVec.ofInt_toInt, he]
  exact Option.some_ne_none e

/-- A second operand as it is printed, and what it stands for. -/
structure Second (b : Text) (src : Operand) : Prop where
  printed : Printed b
  source : source b = some src
  encodable : ¬ Unencodable b

theorem second_hash (h : armImm8r v = true) : Second (hash v) (.imm v) :=
  ⟨printed_hash v, source_hash v, encodable_hash h⟩

theorem second_prn (hr : rm < 16) : Second (prn rm) (.reg rm) := by
  obtain ⟨-, -, -, hreg⟩ := plain_prn rm hr
  have himm : immediate (prn rm) = none := by
    revert rm
    decide
  refine ⟨printed_prn hr, ?_, ?_⟩
  · unfold Asm.source
    rw [himm, hreg]
    rfl
  · unfold Unencodable
    rw [parseImm_register hreg]
    show ¬ regNum (prn rm) < 0
    rw [(register_eq hreg).1]
    omega

theorem exec_data {src : Operand} (hop : isTest op = false) (hrd : rd < 15) :
    m.exec (.dataProcessing 14 op false rd rn src) =
      (result op (m.read rn) (src.value m) m.flags.c).map (m.next.set rd) := by
  have hne : ¬ rd = 15 := by omega
  show (if isTest op = true then _ else _) = _
  rw [hop, if_neg (by decide), if_neg (by simpa using hne)]

theorem exec_test {src : Operand} (hop : isTest op = true) :
    m.exec (.dataProcessing 14 op true 0 rn src) =
      (comparison op (m.read rn) (src.value m)).map m.next.compared := by
  show (if isTest op = true then _ else _) = _
  rw [if_pos hop]

/-- A move of an operand. -/
theorem line_move {src : Operand} (hbase : opcodes.lookup mnem = some op) (hop : isMove op = true)
    (hrd : rd < 15) (hb : Second b src) :
    runLine m (printed mnem (prn rd ++ comma ++ b)) =
      (result op (m.read 0) (src.value m) m.flags.c).map (m.next.set rd) := by
  obtain ⟨-, hne, -, hreg⟩ := plain_prn rd (by omega)
  have hops := operands_two (printed_prn (show rd < 16 by omega)).plain hb.printed.plain
  obtain ⟨-, ⟨-, htest, hmov, -⟩ | ⟨hno, -⟩ | ⟨hno, -⟩⟩ := opcode_cases hbase
  · have hmeaning : dataMeaning 14 op [prn rd, b] =
        some (.dataProcessing 14 op false rd 0 src) := by
      simp [dataMeaning, hop, hreg, hb.source]
    rw [runLine_data hbase (printedOps_two (printed_prn (by omega)) hne hb.printed)
      (by unfold comma; rw [hops]; exact hmeaning)
      (by unfold comma; rw [hops, DataRefused, if_pos hmov]; exact hb.encodable)]
    exact exec_data htest hrd
  · rw [hop] at hno
    cases hno
  · rw [hop] at hno
    cases hno

/-- A comparison with an operand. -/
theorem line_test {src : Operand} (hbase : opcodes.lookup mnem = some op) (hop : isTest op = true)
    (hrn : rn < 15) (hb : Second b src) :
    runLine m (printed mnem (prn rn ++ comma ++ b)) =
      (comparison op (m.read rn) (src.value m)).map m.next.compared := by
  obtain ⟨-, hne, -, hreg⟩ := plain_prn rn (by omega)
  have hops := operands_two (printed_prn (show rn < 16 by omega)).plain hb.printed.plain
  obtain ⟨-, ⟨-, hno, -⟩ | ⟨hmove, -, hmov, hcmp, -⟩ | ⟨-, hno, -⟩⟩ := opcode_cases hbase
  · rw [hop] at hno
    cases hno
  · have hmeaning : dataMeaning 14 op [prn rn, b] =
        some (.dataProcessing 14 op true 0 rn src) := by
      simp [dataMeaning, hop, hmove, hreg, hb.source]
    rw [runLine_data hbase (printedOps_two (printed_prn (by omega)) hne hb.printed)
      (by unfold comma; rw [hops]; exact hmeaning)
      (by unfold comma; rw [hops, DataRefused, if_neg hmov, if_pos hcmp]
          exact fun h => hb.encodable h.2)]
    exact exec_test hop
  · rw [hop] at hno
    cases hno

/-- An operation on a register and an operand. -/
theorem line_three {src : Operand} (hbase : opcodes.lookup mnem = some op)
    (hop : isMove op = false ∧ isTest op = false) (hrd : rd < 15) (hrn : rn < 15)
    (hc : Second c src) :
    runLine m (printed mnem (prn rd ++ comma ++ prn rn ++ comma ++ c)) =
      (result op (m.read rn) (src.value m) m.flags.c).map (m.next.set rd) := by
  obtain ⟨-, hned, -, hregd⟩ := plain_prn rd (by omega)
  obtain ⟨-, hnen, -, hregn⟩ := plain_prn rn (by omega)
  have hops := operands_three (printed_prn (show rd < 16 by omega)).plain
    (printed_prn (show rn < 16 by omega)).plain hc.printed.plain
  obtain ⟨-, ⟨hno, -⟩ | ⟨-, hno, -⟩ | ⟨-, -, hmov, hcmp, -⟩⟩ := opcode_cases hbase
  · rw [hop.1] at hno
    cases hno
  · rw [hop.2] at hno
    cases hno
  · have hmeaning : dataMeaning 14 op [prn rd, prn rn, c] =
        some (.dataProcessing 14 op false rd rn src) := by
      simp [dataMeaning, hop.1, hop.2, hregd, hregn, hc.source]
    have hok : ¬ DataRefused mnem [prn rd, prn rn, c] := by
      rw [DataRefused, if_neg hmov, if_neg hcmp, (register_eq hregd).1, (register_eq hregn).1]
      rintro (h | h | ⟨t, ht, h⟩)
      · omega
      · omega
      · obtain rfl := Option.some.inj ht
        exact hc.encodable h
    rw [runLine_data hbase (printedOps_three (printed_prn (by omega)) hned (printed_prn (by omega))
      hnen hc.printed) (by unfold comma; rw [hops]; exact hmeaning)
      (by unfold comma; rw [hops]; exact hok)]
    exact exec_data hop.2 hrd

/-- A shift by a constant, of which the low five bits count. -/
theorem line_shift {type : Shift} {amount : Operand} {n : Int}
    (hbase : shifts.lookup mnem = some type) (hrd : rd < 15) (hrn : rn < 15)
    (hn : 0 ≤ n ∧ n ≤ 32) (h : shiftedReg rn type n = some amount) (hlow : v.toInt % 32 = n % 32) :
    runLine m (printed mnem (prn rd ++ comma ++ prn rn ++ comma ++ hash v)) =
      some (m.next.set rd (amount.value m)) := by
  obtain ⟨-, hned, -, hregd⟩ := plain_prn rd (by omega)
  obtain ⟨-, hnen, -, hregn⟩ := plain_prn rn (by omega)
  have hops := operands_three (printed_prn (show rd < 16 by omega)).plain
    (printed_prn (show rn < 16 by omega)).plain (printed_hash v).plain
  have hlist : PrintedOps (prn rd ++ comma ++ prn rn ++ comma ++ hash v) :=
    printedOps_three (printed_prn (by omega)) hned (printed_prn (by omega)) hnen (printed_hash v)
  have hlo := v.le_toInt
  have hhi := v.toInt_lt
  have himm : parseImm (hash v) = some v.toInt := by
    rw [parseImm_immediate (show immediate (hash v) = some v.toInt from numeral_percentD v)]
    exact congrArg some (by omega)
  have hsame : max (-(2 ^ 31)) (min n (2 ^ 31 - 1)) % 32 = v.toInt % 32 := by omega
  obtain ⟨hsmall, hbit, hsrc⟩ := amount_encoded h (shift_field hbase) (by omega) rfl
  rw [hsame] at hsmall hbit hsrc
  have hdecode : decode (dpWord 14 0 13 0 0 rd (bits (v.toInt % 32) 7 ||| bits (shiftField mnem) 5 |||
      bits rn 0)) = some (.dataProcessing 14 13 false rd 0 (sourceOperand 0
        (bits (v.toInt % 32) 7 ||| bits (shiftField mnem) 5 ||| bits rn 0))) :=
    decode_dpWord ⟨by omega, by omega⟩ (Or.inl rfl) ⟨by omega, by omega⟩ (Or.inl rfl)
      ⟨by omega, by omega⟩ ⟨by omega, by omega⟩ hsmall (Or.inr (Or.inl hbit)) (fun h => by cases h)
  rw [hsrc] at hdecode
  have hencode : encodeShift 14 mnem (prn rd ++ comma ++ prn rn ++ comma ++ hash v) =
      .ok (dpWord 14 0 13 0 0 rd (bits (v.toInt % 32) 7 ||| bits (shiftField mnem) 5 |||
        bits rn 0)) := by
    unfold encodeShift comma
    rw [splitOps_eq, hops]
    simp [Asm.operand, bind, Except.bind, pure, Except.pure, himm, (register_eq hregd).1,
      (register_eq hregn).1, dpWord, bits_zero, shiftField, BitVec.or_assoc]
  have hword : (do
      let w ← encodeShift 14 mnem (prn rd ++ comma ++ prn rn ++ comma ++ hash v)
      return (w, (none : Option Text))) = .ok (dpWord 14 0 13 0 0 rd (bits (v.toInt % 32) 7 |||
        bits (shiftField mnem) 5 ||| bits rn 0), none) := by
    rw [hencode]
    rfl
  have hexec : m.exec (.dataProcessing 14 13 false rd 0 amount) =
      some (m.next.set rd (amount.value m)) := exec_data rfl hrd
  have hmem := mem_of_lookup hbase
  simp only [shifts, List.mem_cons, List.not_mem_nil, or_false, Prod.mk.injEq] at hmem
  have hline : encode (fun _ => none) 0 mnem (prn rd ++ comma ++ prn rn ++ comma ++ hash v) =
      .ok (dpWord 14 0 13 0 0 rd (bits (v.toInt % 32) 7 ||| bits (shiftField mnem) 5 |||
        bits rn 0), none) := by
    rcases hmem with ⟨rfl, -⟩ | ⟨rfl, -⟩ | ⟨rfl, -⟩ <;> exact hword
  have hmnem : mnem.all inMnemonic = true ∧ mnem ≠ [] ∧ mnem.length ≤ 15 := by
    rcases hmem with ⟨rfl, -⟩ | ⟨rfl, -⟩ | ⟨rfl, -⟩ <;> decide
  rw [runLine_instr hmnem.1 hmnem.2.1 hmnem.2.2 hlist hline hdecode]
  exact hexec

theorem line_load (hrd : rd < 15) (u : Word) :
    runLine m (printed "ldr".toList (prn rd ++ ", =0x".toList ++ percent08X u)) =
      some (m.next.set rd (BitVec.ofInt 32 (min u.toNat (2 ^ 31 - 1)))) := by
  unfold runLine
  rw [parseLine_load (by omega) u]
  dsimp only
  rw [if_pos ⟨by omega, by omega⟩]
  rfl

/-! ## Loads -/

/-- The fields of the word of a load from the pool. -/
theorem loadWord_transfer {rd off : Int} (hoff : off.natAbs ≤ 4095) :
    loadWord rd off = bits 14 28 ||| bits 1 26 ||| flag true 24 ||| flag (decide (0 ≤ off)) 23 |||
      flag false 22 ||| flag false 21 ||| flag true 20 ||| bits 15 16 ||| bits rd 12 |||
      bits off.natAbs 0 := by
  have hvalue : BitVec.ofNat 32 off.natAbs &&& 0xFFF = bits off.natAbs 0 := by
    have hand : off.natAbs &&& 4095 = off.natAbs := by
      rw [show 4095 = 2 ^ 12 - 1 from rfl, Nat.and_two_pow_sub_one_eq_mod]
      omega
    have hbits : bits off.natAbs 0 = BitVec.ofNat 32 off.natAbs := by
      unfold bits
      rw [BitVec.ofInt_natCast]
      exact BitVec.shiftLeft_zero _
    rw [hbits]
    apply BitVec.eq_of_toNat_eq
    rw [BitVec.toNat_and, BitVec.toNat_ofNat, Nat.mod_eq_of_lt (by omega)]
    exact hand
  unfold loadWord
  rw [hvalue]
  by_cases hneg : off < 0
  · rw [if_pos hneg, decide_eq_false (by omega)]
    rfl
  · rw [if_neg hneg, decide_eq_true (by omega)]
    rfl

/-- A load sets its register as the word does that the assembler makes of it (`doLoad_two`), where the
literal lies in its slot, which `load_holds` says of every program. -/
theorem runLine_pool {raw : Text} {rd v : Int} {slot : Nat}
    (hraw : (parseLine raw).2 = .load rd (.number v)) (hrd : 0 ≤ rd ∧ rd < 15)
    (hoff : (loadOffset slot m.pc).natAbs ≤ 4095) (hslot : slot % 4 = 0)
    (hmem : word m.mem (BitVec.ofNat 32 slot) = literalWord .empty (.number v)) :
    (decode (loadWord rd (loadOffset slot m.pc))).bind m.exec = runLine m raw := by
  -- the program counter is 8 ahead, as `loadOffset` counts it
  have haddress : m.read 15 + BitVec.ofInt 32 (loadOffset slot m.pc) = BitVec.ofNat 32 slot := by
    have hread : m.read 15 = BitVec.ofInt 32 ((m.pc + 8 : Nat) : Int) :=
      (BitVec.ofInt_natCast 32 (m.pc + 8)).symm
    rw [hread, ← BitVec.ofInt_add, ← BitVec.ofInt_natCast 32 slot]
    congr 1
    unfold loadOffset
    omega
  have haligned : aligned (BitVec.ofNat 32 slot) = true := by
    unfold aligned
    rw [BitVec.toNat_ofNat, beq_iff_eq]
    omega
  have hne : rd.toNat ≠ 15 := by omega
  rw [loadWord_transfer hoff, decode_transfer ⟨by decide, by decide⟩ ⟨by decide, by decide⟩
    ⟨hrd.1, by omega⟩ ⟨by omega, by omega⟩ rfl rfl, Option.bind_some]
  show m.transfer true false true false 15 rd.toNat (loadOffset slot m.pc) = runLine m raw
  have hload : m.transfer true false true false 15 rd.toNat (loadOffset slot m.pc) =
      some (m.next.set rd.toNat (word m.mem (BitVec.ofNat 32 slot))) := by
    unfold Machine.transfer
    rw [haddress]
    simp [hne, haligned]
  rw [hload, hmem]
  unfold runLine
  rw [hraw]
  exact (if_pos hrd).symm

end DiscoBsd.Smlrc
