import DiscoBsd.Asm.Syntax
import DiscoBsd.Asm.Words
import Mathlib.Data.Bool.AllAny

/-!
# Operands of registers and constants

What `encode` reads in the operands of data-processing instructions, shifts and multiplications: the
faults that it finds, and that its word says what was written where there is none.
-/

namespace DiscoBsd.Asm

open Lib Lib.Armv4

variable {t p ops base : Text} {n : Int} {cc op : Nat} {i : Instr}

/-! ## Reading operands -/

theorem mem_of_lookup {α β : Type} [BEq α] [LawfulBEq α] {table : List (α × β)} {a : α} {b : β}
    (h : table.lookup a = some b) : (a, b) ∈ table := by
  obtain ⟨before, after, rfl, -⟩ := List.lookup_eq_some_iff.mp h
  exact List.mem_append_right before List.mem_cons_self

/-- The comma that `split_ops` cuts at is the one that no bracket is open before. -/
theorem fields_eq (p : Text) (depth : Int) (field : Text) :
    fields depth field p =
      (((nested p depth).splitOn (',', 0)).map (·.map Prod.fst)).modifyHead (field ++ ·) := by
  induction p generalizing depth field with
  | nil => simp [fields, nested]
  | cons c p ih =>
      have hnested : nested (c :: p) depth = (c, depth) :: nested p (depth + nesting c) := by
        rw [nested, List.scanl_cons, List.zip_cons_cons, nested]
      have hhead : ∀ parts : List (List (Char × Int)), ∀ d : Int,
          ((parts.modifyHead ((c, d) :: ·)).map (·.map Prod.fst)).modifyHead (field ++ ·) =
            (parts.map (·.map Prod.fst)).modifyHead (field ++ [c] ++ ·) := by
        intro parts d
        cases parts <;> simp
      rw [hnested, List.splitOn_cons_eq_if_modifyHead]
      unfold fields
      split
      · next hopen =>
          have hnot : ((c, depth) == (',', (0 : Int))) = false := by
            rcases hopen with rfl | rfl <;> rfl
          rw [hnot, if_neg (by decide), hhead, ih]
          have hnesting : nesting c = 1 := by rcases hopen with rfl | rfl <;> rfl
          rw [hnesting]
      · next hopen =>
          split
          · next hclose =>
              have hnot : ((c, depth) == (',', (0 : Int))) = false := by
                rcases hclose with rfl | rfl <;> rfl
              rw [hnot, if_neg (by decide), hhead, ih]
              have hnesting : nesting c = -1 := by rcases hclose with rfl | rfl <;> rfl
              rw [hnesting]
              rfl
          · next hclose =>
              have hnesting : nesting c = 0 := by
                simp only [nesting, List.mem_cons, List.not_mem_nil, or_false, if_neg hopen,
                  if_neg hclose]
              rw [hnesting, Int.add_zero]
              split
              · next hcut =>
                  obtain ⟨rfl, rfl⟩ := hcut
                  have hnil : ∀ parts : List Text, parts.modifyHead ([] ++ ·) = parts := by
                    intro parts
                    cases parts <;> rfl
                  rw [if_pos (by rfl), ih, hnil]
                  simp
              · next hcut =>
                  rw [if_neg (by simpa using hcut), hhead, ih]

theorem operands_eq (ops : Text) : operands ops = (fields 0 [] (cstr ops)).map trim := by
  rw [fields_eq, operands]
  generalize (nested (cstr ops) 0).splitOn (',', 0) = parts
  cases parts <;> simp

theorem splitOps_eq (ops : Text) (max : Nat) : splitOps ops max = (operands ops).take max := by
  rw [splitOps, operands_eq]
  exact List.map_take

/-- The suffixes that `cond_code` knows are those of the conditions, with the same field. -/
theorem condition_eq (t : Text) : condition t = condCode t := by
  have hfield : ∀ x ∈ condTable, condition x.1 = some x.2 := by decide
  cases hcode : condCode t with
  | some c => exact hfield (t, c) (mem_of_lookup hcode)
  | none =>
      have hknown : ∀ names ∈ conditions, ∀ name ∈ names, condCode name ≠ none := by decide
      refine List.findIdx?_eq_none_iff.mpr fun names hnames => ?_
      rw [decide_eq_false_iff_not]
      exact fun hmem => hknown names hnames t hmem hcode

/-- A number is read as it is, up to the bounds of a `long`. -/
theorem strtol_numeral (h : numeral p = some n) :
    (strtol p 0).1 = max (-(2 ^ 31)) (min n (2 ^ 31 - 1)) := by
  unfold numeral at h
  unfold strtol
  generalize sign (p.dropWhile isspace) = s at h ⊢
  obtain ⟨neg, s⟩ := s
  dsimp only at h ⊢
  generalize numberBase 0 s = b at h ⊢
  obtain ⟨b, ds⟩ := b
  dsimp only at h ⊢
  split at h
  · next hds =>
      rw [List.takeWhile_eq_self_iff.mpr (List.all_eq_true.mp hds.2)]
      have hn := Option.some.inj h
      have hmax : (LONGMAX : Int) = 2 ^ 31 - 1 := rfl
      generalize (ofDigits b ds : Nat) = v at hn ⊢
      subst hn
      cases neg
      · show min (v : Int) LONGMAX = _
        rw [hmax]
        simp only [Bool.false_eq_true, if_false]
        omega
      · show -((min v (LONGMAX + 1) : Nat) : Int) = _
        have hlong : LONGMAX = 2 ^ 31 - 1 := rfl
        rw [hlong]
        simp only [if_true]
        omega
  · cases h

theorem immediate_eq (h : immediate t = some n) : ∃ s, t = '#' :: s ∧ numeral s = some n := by
  unfold immediate at h
  split at h
  · exact ⟨_, rfl, h⟩
  · cases h

theorem parseImm_immediate (h : immediate t = some n) :
    parseImm t = some (max (-(2 ^ 31)) (min n (2 ^ 31 - 1))) := by
  obtain ⟨s, rfl, hs⟩ := immediate_eq h
  exact congrArg some (strtol_numeral hs)

theorem digit_mem {c : Char} (h : isdigit c = true) : c ∈ "0123456789".toList := by
  unfold isdigit at h
  rw [Bool.and_eq_true, decide_eq_true_eq, decide_eq_true_eq] at h
  obtain ⟨hlow, hhigh⟩ := h
  rw [← Char.ofNat_toNat c]
  generalize c.toNat = k at *
  interval_cases k <;> decide

theorem regNum_lt (t : Text) : regNum t < 16 := by
  have hdigit : ∀ c ∈ "0123456789".toList, atoi [c] < 16 := List.all_iff_forall_prop.mp (by decide)
  unfold regNum
  split <;> try omega
  · split
    · next h => exact hdigit _ (digit_mem h.2)
    · omega

/-- The registers that `reg_num` knows are those of the tables, with the same number. -/
theorem register_eq_regNum (t : Text) :
    register t = if 0 ≤ regNum t then some (regNum t).toNat else none := by
  have hnumber : ∀ x ∈ registerNumbers, regNum ('r' :: x.1) = x.2 ∧ regNum ('R' :: x.1) = x.2 := by
    decide
  have hname : ∀ x ∈ registerNames, regNum x.1 = x.2 := by decide
  have hknown : ∀ {r : Nat}, register t = some r → regNum t = r := by
    intro r hr
    unfold register at hr
    split at hr
    · exact (hnumber _ (mem_of_lookup hr)).1
    · exact (hnumber _ (mem_of_lookup hr)).2
    · exact hname _ (mem_of_lookup hr)
  cases hr : register t with
  | some r =>
      rw [hknown hr, if_pos (Int.natCast_nonneg r)]
      rfl
  | none =>
      -- a number that `reg_num` reads has one digit or two, and the tables have all of these
      refine (if_neg fun hpos => ?_).symm
      have hone : ("0123456789".toList.all fun d =>
          (register ['r', d]).isSome && (register ['R', d]).isSome) = true := by decide
      have htwo : ("0123456789".toList.all fun d => "0123456789".toList.all fun e =>
          decide (15 < atoi [d, e]) ||
            ((register ['r', d, e]).isSome && (register ['R', d, e]).isSome)) = true := by decide
      unfold regNum at hpos
      split at hpos
      · cases hr
      · cases hr
      · cases hr
      · cases hr
      · cases hr
      · cases hr
      · split at hpos
        · next h =>
            obtain ⟨hletter, hd⟩ := h
            have hsome := List.all_eq_true.mp hone _ (digit_mem hd)
            obtain rfl | rfl := hletter <;> simp [hr] at hsome
        · omega
      · split at hpos
        · next h =>
            obtain ⟨hletter, hd, he, hle⟩ := h
            have hsome := List.all_eq_true.mp (List.all_eq_true.mp htwo _ (digit_mem hd)) _ (digit_mem he)
            rw [decide_eq_false (not_lt.mpr hle), Bool.false_or] at hsome
            obtain rfl | rfl := hletter <;> simp [hr] at hsome
        · omega
      · omega

theorem register_eq {r : Nat} (h : register t = some r) :
    regNum t = r ∧ r < 16 := by
  rw [register_eq_regNum] at h
  split at h
  · next hpos =>
      have := regNum_lt t
      have := Option.some.inj h
      omega
  · cases h

theorem parseImm_register {r : Nat} (h : register t = some r) : parseImm t = none := by
  unfold parseImm
  split
  · next s =>
      have hnone : ∀ x ∈ registerNames, x.1.head? ≠ some '#' := by decide
      have hlook : registerNames.lookup ('#' :: s) = some r := h
      exact absurd rfl (hnone _ (mem_of_lookup hlook))
  · rfl

/-! ## Data processing -/

/-- A second operand that is looked at and refused. -/
def Unencodable (t : Text) : Prop :=
  match parseImm t with
  | some imm => encImm8r (BitVec.ofInt 32 imm) = none
  | none => regNum t < 0

/-- The faults that are found in the operands of a data-processing instruction. The registers of a
move or a comparison are not looked at. -/
def DataRefused (base : Text) : List Text → Prop
  | a :: b :: rest =>
      if base = "mov".toList ∨ base = "mvn".toList then Unencodable b
      else if base = "cmp".toList ∨ base = "cmn".toList then
        (parseImm b).isSome ∧ Unencodable b
      else regNum a < 0 ∨ regNum b < 0 ∨ ∃ c, rest.head? = some c ∧ Unencodable c
  | _ => False

/-- An operand that stands for something and is not refused is read as what it stands for. -/
theorem source_read {src : Operand} (h : source t = some src)
    (hok : ¬ ((parseImm t).isSome ∧ Unencodable t)) :
    (∃ imm e, parseImm t = some imm ∧ encImm8r (BitVec.ofInt 32 imm) = some e ∧
      sourceOperand 1 e = src) ∨
    (parseImm t = none ∧ ∃ r, regNum t = r ∧ r < 16 ∧ 0 ≤ r ∧ src = .reg r.toNat) := by
  unfold source at h
  cases himm : immediate t with
  | some n =>
      rw [himm] at h
      obtain ⟨v, hv, rfl⟩ := Option.map_eq_some_iff.mp h
      have hparse := parseImm_immediate himm
      unfold Unencodable at hok
      rw [hparse] at hok
      have hsome := Option.ne_none_iff_exists'.mp fun hnone => hok ⟨rfl, hnone⟩
      obtain ⟨e, he⟩ := hsome
      refine Or.inl ⟨_, e, hparse, he, ?_⟩
      unfold constant at hv
      split at hv
      · next hrange =>
          have hword := Option.some.inj hv
          by_cases hlong : n ≤ 2 ^ 31 - 1
          · rw [(imm_operand he).2, ← hword]
            congr 2
            omega
          · -- the largest `long` has no encoding
            have hmax : max (-(2 ^ 31)) (min n (2 ^ 31 - 1)) = 2 ^ 31 - 1 := by omega
            rw [hmax, show encImm8r (BitVec.ofInt 32 (2 ^ 31 - 1)) = none by decide +kernel] at he
            cases he
      · cases hv
  | none =>
      rw [himm] at h
      obtain ⟨r, hr, rfl⟩ := Option.map_eq_some_iff.mp h
      obtain ⟨hreg, hlt⟩ := register_eq hr
      exact Or.inr ⟨parseImm_register hr, regNum t, rfl, by omega, by omega, by rw [hreg]; rfl⟩

theorem opcode_cases (h : opcodes.lookup base = some op) : op < 16 ∧
    ((isMove op = true ∧ isTest op = false ∧ (base = "mov".toList ∨ base = "mvn".toList) ∧
        dpOpcode base = some op) ∨
      (isMove op = false ∧ isTest op = true ∧ ¬ (base = "mov".toList ∨ base = "mvn".toList) ∧
        (base = "cmp".toList ∨ base = "cmn".toList) ∧ op = if base = "cmp".toList then 10 else 11) ∨
      (isMove op = false ∧ isTest op = false ∧ ¬ (base = "mov".toList ∨ base = "mvn".toList) ∧
        ¬ (base = "cmp".toList ∨ base = "cmn".toList) ∧ dpOpcode base = some op)) := by
  have hall : ∀ x ∈ opcodes, x.2 < 16 ∧
      ((isMove x.2 = true ∧ isTest x.2 = false ∧ (x.1 = "mov".toList ∨ x.1 = "mvn".toList) ∧
        dpOpcode x.1 = some x.2) ∨
      (isMove x.2 = false ∧ isTest x.2 = true ∧ ¬ (x.1 = "mov".toList ∨ x.1 = "mvn".toList) ∧
        (x.1 = "cmp".toList ∨ x.1 = "cmn".toList) ∧ x.2 = if x.1 = "cmp".toList then 10 else 11) ∨
      (isMove x.2 = false ∧ isTest x.2 = false ∧ ¬ (x.1 = "mov".toList ∨ x.1 = "mvn".toList) ∧
        ¬ (x.1 = "cmp".toList ∨ x.1 = "cmn".toList) ∧ dpOpcode x.1 = some x.2)) := by
    decide
  exact hall (base, op) (mem_of_lookup h)

/-- What is answered to a text with a fault. -/
def Refuses {α : Type} (answer : Except EncodeError α) : Prop :=
  ∃ message, answer = .error (.badInstruction message)

theorem dpImm_cases (message : String) (imm : Int) :
    (encImm8r (BitVec.ofInt 32 imm) = none ∧ dpImm message imm = .error (.badInstruction message)) ∨
      ∃ e, encImm8r (BitVec.ofInt 32 imm) = some e ∧ dpImm message imm = .ok e := by
  unfold dpImm
  cases encImm8r (BitVec.ofInt 32 imm) with
  | none => exact Or.inl ⟨rfl, rfl⟩
  | some e => exact Or.inr ⟨e, rfl, rfl⟩

/-- A second operand that is read: as a constant, as a register, or not at all. -/
theorem operand_cases (t : Text) (message other : String) :
    (∃ imm, parseImm t = some imm ∧ Unencodable t ∧
      dpImm message imm = .error (.badInstruction message)) ∨
    (∃ imm e, parseImm t = some imm ∧ ¬ Unencodable t ∧ dpImm message imm = .ok e) ∨
    (parseImm t = none ∧ Unencodable t ∧ reqReg other t = .error (.badInstruction other)) ∨
    (parseImm t = none ∧ ¬ Unencodable t ∧ reqReg other t = .ok (regNum t)) := by
  unfold Unencodable
  cases parseImm t with
  | some imm =>
      rcases dpImm_cases message imm with ⟨henc, hdp⟩ | ⟨e, henc, hdp⟩
      · exact Or.inl ⟨imm, rfl, henc, hdp⟩
      · refine Or.inr (Or.inl ⟨imm, e, rfl, ?_, hdp⟩)
        show ¬ encImm8r (BitVec.ofInt 32 imm) = none
        rw [henc]
        exact Option.some_ne_none e
  | none =>
      unfold reqReg
      by_cases h : regNum t < 0
      · exact Or.inr (Or.inr (Or.inl ⟨rfl, h, if_pos h⟩))
      · exact Or.inr (Or.inr (Or.inr ⟨rfl, h, if_neg h⟩))

theorem data_refused (cc : Nat) (base ops : Text) :
    Refuses (encodeDp cc base ops) ↔ DataRefused base (operands ops) := by
  unfold encodeDp
  rw [splitOps_eq]
  generalize operands ops = o
  rcases o with _ | ⟨a, _ | ⟨b, rest⟩⟩
  · by_cases hmove : base = "mov".toList ∨ base = "mvn".toList <;>
      by_cases htest : base = "cmp".toList ∨ base = "cmn".toList <;>
      simp_all [DataRefused, Refuses, operand, bind, Except.bind]
  · by_cases hmove : base = "mov".toList ∨ base = "mvn".toList <;>
      by_cases htest : base = "cmp".toList ∨ base = "cmn".toList <;>
      simp_all [DataRefused, Refuses, operand, bind, Except.bind]
  · rw [DataRefused]
    by_cases hmove : base = "mov".toList ∨ base = "mvn".toList
    · rw [if_pos hmove, if_pos hmove]
      rcases operand_cases b "mov imm not encodable" "mov: bad operand" with
        ⟨imm, hb, hu, hr⟩ | ⟨imm, e, hb, hu, hr⟩ | ⟨hb, hu, hr⟩ | ⟨hb, hu, hr⟩ <;>
        simp [Refuses, operand, bind, Except.bind, pure, Except.pure, hb, hr, hu]
    · rw [if_neg hmove, if_neg hmove]
      by_cases htest : base = "cmp".toList ∨ base = "cmn".toList
      · rw [if_pos htest, if_pos htest]
        rcases operand_cases b "cmp imm not encodable" "" with
          ⟨imm, hb, hu, hr⟩ | ⟨imm, e, hb, hu, hr⟩ | ⟨hb, hu, hr⟩ | ⟨hb, hu, hr⟩ <;>
          simp [Refuses, operand, bind, Except.bind, pure, Except.pure, hb, hr, hu]
      · rw [if_neg htest, if_neg htest]
        by_cases hreg : regNum a < 0 ∨ regNum b < 0
        · have hor : regNum a < 0 ∨ regNum b < 0 ∨ ∃ c, rest.head? = some c ∧ Unencodable c := by
            tauto
          simp [Refuses, operand, bind, Except.bind, hreg, hor]
        · have hor : ¬ regNum a < 0 ∧ ¬ regNum b < 0 := not_or.mp hreg
          rcases rest with _ | ⟨c, rest⟩
          · simp [Refuses, operand, bind, Except.bind, hor]
          · rcases operand_cases c "dp imm not encodable" "dp: bad rm" with
              ⟨imm, hb, hu, hr⟩ | ⟨imm, e, hb, hu, hr⟩ | ⟨hb, hu, hr⟩ | ⟨hb, hu, hr⟩ <;>
              simp [Refuses, operand, bind, Except.bind, pure, Except.pure, hb, hr, hu, hor]

theorem dpWord_imm {e : Word} {value : Word} {s rn rd : Int} (hcc : cc < 15) (hop : op < 16)
    (hs : s = 0 ∨ s = 1) (hrn : 0 ≤ rn ∧ rn < 16) (hrd : 0 ≤ rd ∧ rd < 16)
    (htest : isTest op = true → s = 1) (henc : encImm8r value = some e) :
    decode (dpWord cc 1 op s rn rd e) = some (.dataProcessing cc op (s == 1)
      (if isTest op then 0 else rd.toNat) (if isMove op then 0 else rn.toNat)
      (sourceOperand 1 e)) :=
  decode_dpWord ⟨by omega, by omega⟩ (Or.inr rfl) ⟨by omega, by omega⟩ hs hrn hrd
    (imm_operand henc).1 (Or.inl rfl) htest

theorem dpWord_reg {s rn rd rm : Int} (hcc : cc < 15) (hop : op < 16)
    (hs : s = 0 ∨ s = 1) (hrn : 0 ≤ rn ∧ rn < 16) (hrd : 0 ≤ rd ∧ rd < 16)
    (hrm : 0 ≤ rm ∧ rm < 16) (htest : isTest op = true → s = 1) :
    decode (dpWord cc 0 op s rn rd (bits rm 0)) = some (.dataProcessing cc op (s == 1)
      (if isTest op then 0 else rd.toNat) (if isMove op then 0 else rn.toNat) (.reg rm.toNat)) := by
  obtain ⟨hsmall, hbit, hsrc⟩ := reg_operand hrm
  rw [← hsrc]
  exact decode_dpWord ⟨by omega, by omega⟩ (Or.inl rfl) ⟨by omega, by omega⟩ hs hrn hrd hsmall
    (Or.inr (Or.inl hbit)) htest

theorem data_encoded (hcc : cc < 15) (hbase : opcodes.lookup base = some op)
    (h : dataMeaning cc op (operands ops) = some i) (hok : ¬ DataRefused base (operands ops)) :
    ∃ w, encodeDp cc base ops = .ok w ∧ decode w = some i := by
  unfold encodeDp
  rw [splitOps_eq]
  generalize operands ops = o at h hok
  obtain ⟨hop, hkind⟩ := opcode_cases hbase
  unfold dataMeaning at h
  split at h
  · next a b =>
      rw [DataRefused] at hok
      rcases hkind with ⟨hmove, htest, hb, hdp⟩ | ⟨hmove, htest, hb, hb', hdp⟩ |
        ⟨hmove, htest, -⟩
      · rw [if_pos hmove] at h
        rw [if_pos hb] at hok ⊢
        obtain ⟨rd, hrd, src, hsrc, hi⟩ : ∃ rd, register a = some rd ∧ ∃ src, source b = some src ∧
            some (Instr.dataProcessing cc op false rd 0 src) = some i := by
          simpa [Option.bind_eq_some_iff] using h
        obtain ⟨hreg, hlt⟩ := register_eq hrd
        rcases source_read hsrc (fun h => hok h.2) with
          ⟨imm, e, himm, he, hv⟩ | ⟨himm, r, hr, hr16, hr0, rfl⟩
        · refine ⟨dpWord cc 1 op 0 0 rd e, ?_, ?_⟩
          · simp [operand, bind, Except.bind, pure, Except.pure, himm, dpImm, he, hdp, dpWord, hreg,
              bits_zero]
          · rw [dpWord_imm hcc hop (Or.inl rfl) (by omega) (by omega) (by simp [htest]) he, ← hi,
              htest, hmove, hv]
            rfl
        · refine ⟨dpWord cc 0 op 0 0 rd (bits r 0), ?_, ?_⟩
          · simp [operand, bind, Except.bind, pure, Except.pure, himm, reqReg, hr, not_lt.mpr hr0, hdp,
              dpWord, hreg, bits_zero]
          · rw [dpWord_reg hcc hop (Or.inl rfl) (by omega) (by omega) ⟨hr0, hr16⟩ (by simp [htest]),
              ← hi, htest, hmove]
            rfl
      · rw [if_neg (by simp [hmove]), if_pos htest] at h
        rw [if_neg hb, if_pos hb'] at hok ⊢
        obtain ⟨rn, hrn, src, hsrc, hi⟩ : ∃ rn, register a = some rn ∧ ∃ src, source b = some src ∧
            some (Instr.dataProcessing cc op true 0 rn src) = some i := by
          simpa [Option.bind_eq_some_iff] using h
        obtain ⟨hreg, hlt⟩ := register_eq hrn
        rcases source_read hsrc hok with ⟨imm, e, himm, he, hv⟩ | ⟨himm, r, hr, hr16, hr0, rfl⟩
        · refine ⟨dpWord cc 1 op 1 rn 0 e, ?_, ?_⟩
          · simp [operand, bind, Except.bind, pure, Except.pure, himm, dpImm, he, hdp, dpWord, hreg,
              bits_zero]
          · rw [dpWord_imm hcc hop (Or.inr rfl) (by omega) (by omega) (fun _ => rfl) he, ← hi,
              htest, hmove, hv]
            rfl
        · refine ⟨dpWord cc 0 op 1 rn 0 (bits r 0), ?_, ?_⟩
          · simp [operand, bind, Except.bind, pure, Except.pure, himm, hr, hdp, dpWord, hreg,
              bits_zero]
          · rw [dpWord_reg hcc hop (Or.inr rfl) (by omega) (by omega) ⟨hr0, hr16⟩ (fun _ => rfl),
              ← hi, htest, hmove]
            rfl
      · rw [if_neg (by simp [hmove]), if_neg (by simp [htest])] at h
        cases h
  · next a b c =>
      rw [DataRefused] at hok
      split at h
      · cases h
      · next hplain =>
          rcases hkind with ⟨hmove, -⟩ | ⟨-, htest, -⟩ | ⟨hmove, htest, hb, hb', hdp⟩
          · exact absurd (by rw [hmove]; rfl) hplain
          · exact absurd (by rw [htest, Bool.or_true]) hplain
          · rw [if_neg hb, if_neg hb'] at hok ⊢
            obtain ⟨rd, hrd, rn, hrn, src, hsrc, hi⟩ : ∃ rd, register a = some rd ∧
                ∃ rn, register b = some rn ∧ ∃ src, source c = some src ∧
                some (Instr.dataProcessing cc op false rd rn src) = some i := by
              simpa [Option.bind_eq_some_iff] using h
            obtain ⟨hregd, hltd⟩ := register_eq hrd
            obtain ⟨hregn, hltn⟩ := register_eq hrn
            have hsome : ¬ ((parseImm c).isSome ∧ Unencodable c) := fun h =>
              hok (Or.inr (Or.inr ⟨c, rfl, h.2⟩))
            rcases source_read hsrc hsome with ⟨imm, e, himm, he, hv⟩ | ⟨himm, r, hr, hr16, hr0, rfl⟩
            · refine ⟨dpWord cc 1 op 0 rn rd e, ?_, ?_⟩
              · simp [operand, bind, Except.bind, pure, Except.pure, himm, dpImm, he, hdp, dpWord,
                  hregd, hregn, bits_zero]
              · rw [dpWord_imm hcc hop (Or.inl rfl) (by omega) (by omega) (by simp [htest]) he, ← hi,
                  htest, hmove, hv]
                rfl
            · refine ⟨dpWord cc 0 op 0 rn rd (bits r 0), ?_, ?_⟩
              · simp [operand, bind, Except.bind, pure, Except.pure, himm, reqReg, hr, not_lt.mpr hr0,
                  hdp, dpWord, hregd, hregn, bits_zero]
              · rw [dpWord_reg hcc hop (Or.inl rfl) (by omega) (by omega) ⟨hr0, hr16⟩
                  (by simp [htest]), ← hi, htest, hmove]
                rfl
  · cases h

/-! ## Shifts and multiplications -/

/-- No fault is looked for in the operands of a shift. -/
theorem shift_not_refused (cc : Nat) (base ops : Text) : ¬ Refuses (encodeShift cc base ops) := by
  unfold encodeShift
  rw [splitOps_eq]
  generalize (operands ops).take 4 = o
  rintro ⟨message, h⟩
  rcases o with _ | ⟨a, _ | ⟨b, _ | ⟨c, rest⟩⟩⟩
  · cases h
  · cases h
  · cases h
  · cases hc : parseImm c <;>
      simp [operand, bind, Except.bind, pure, Except.pure, hc] at h

theorem mul_not_refused (cc : Nat) (ops : Text) : ¬ Refuses (encodeMul cc ops) := by
  unfold encodeMul
  rw [splitOps_eq]
  generalize (operands ops).take 4 = o
  rintro ⟨message, h⟩
  rcases o with _ | ⟨a, _ | ⟨b, _ | ⟨c, rest⟩⟩⟩ <;> cases h

/-- The field of a shift. -/
def shiftField (base : Text) : Int :=
  if base = "lsl".toList then 0 else if base = "lsr".toList then 1 else 2

theorem shift_field {type : Shift} (h : shifts.lookup base = some type) :
    (0 ≤ shiftField base ∧ shiftField base < 3) ∧ shiftType (shiftField base).toNat = type := by
  have hall : ∀ x ∈ shifts, (0 ≤ shiftField x.1 ∧ shiftField x.1 < 3) ∧
      shiftType (shiftField x.1).toNat = x.2 := by
    decide
  exact hall (base, type) (mem_of_lookup h)

/-- A constant amount that has an encoding is what its low five bits say. -/
theorem amount_encoded {type : Shift} {rm : Nat} {operand : Operand} {field : Int} {src : Word}
    (h : shiftedReg rm type n = some operand)
    (htype : (0 ≤ field ∧ field < 3) ∧ shiftType field.toNat = type) (hrm : rm < 16)
    (hsrc : src = bits (max (-(2 ^ 31)) (min n (2 ^ 31 - 1)) % 32) 7 ||| bits field 5 ||| bits rm 0) :
    src.toNat < 2 ^ 12 ∧ bit src 4 = false ∧ sourceOperand 0 src = operand := by
  have hsh : 0 ≤ max (-(2 ^ 31)) (min n (2 ^ 31 - 1)) % 32 ∧
      max (-(2 ^ 31)) (min n (2 ^ 31 - 1)) % 32 < 32 := ⟨by omega, by omega⟩
  have hrn : 0 ≤ (rm : Int) ∧ (rm : Int) < 16 := ⟨by omega, by omega⟩
  obtain ⟨hsmall, hbit, hreg, hkind, hamount⟩ := amount_operand htype.1 hsh hrn
  rw [← hsrc] at hsmall hbit hreg hkind hamount
  refine ⟨hsmall, hbit, ?_⟩
  rw [shifted_operand hbit hkind hamount, hreg, htype.2]
  unfold shiftedReg at h
  cases type with
  | lsl =>
      dsimp only at h ⊢
      split at h
      · next hn =>
          subst hn
          exact Option.some.inj h
      · split at h
        · next hne hn =>
            rw [if_neg (by omega), ← Option.some.inj h]
            congr 1
            omega
        · cases h
  | ror =>
      exfalso
      have hlt := htype.1
      obtain ⟨k, rfl⟩ := Int.eq_ofNat_of_zero_le hlt.1
      have hk : k < 3 := by omega
      have hno : ∀ k < 3, shiftType ((k : Nat) : Int).toNat ≠ .ror := by decide
      exact hno k hk htype.2
  | lsr =>
      dsimp only at h ⊢
      split at h
      · next hn =>
          rw [← Option.some.inj h]
          congr 1
          split <;> omega
      · cases h
  | asr =>
      dsimp only at h ⊢
      split at h
      · next hn =>
          rw [← Option.some.inj h]
          congr 1
          split <;> omega
      · cases h

theorem shift_encoded {type : Shift} (hbase : shifts.lookup base = some type)
    (h : shiftMeaning type (operands ops) = some i) :
    ∃ w, encodeShift 14 base ops = .ok w ∧ decode w = some i := by
  unfold encodeShift
  rw [splitOps_eq]
  generalize operands ops = o at h
  have htype := shift_field hbase
  unfold shiftMeaning at h
  split at h
  · next a b c =>
      obtain ⟨rd, hrd, rm, hrm, amount, hop, hi⟩ : ∃ rd, register a = some rd ∧
          ∃ rm, register b = some rm ∧ ∃ amount, shifted rm type c = some amount ∧
          some (Instr.dataProcessing 14 13 false rd 0 amount) = some i := by
        simpa [Option.bind_eq_some_iff] using h
      obtain ⟨hregd, hltd⟩ := register_eq hrd
      obtain ⟨hregm, hltm⟩ := register_eq hrm
      have hword : ∀ src : Word, src.toNat < 2 ^ 12 → bit src 4 = false ∨ bit src 7 = false →
          sourceOperand 0 src = amount → decode (dpWord 14 0 13 0 0 rd src) = some i := by
        intro src hsmall hclass hsrc
        rw [← hi, ← hsrc]
        exact decode_dpWord ⟨by omega, by omega⟩ (Or.inl rfl) ⟨by omega, by omega⟩ (Or.inl rfl)
          ⟨by omega, by omega⟩ ⟨by omega, by omega⟩ hsmall (Or.inr hclass) (fun h => by cases h)
      unfold shifted at hop
      cases himm : immediate c with
      | some n =>
          rw [himm] at hop
          obtain ⟨hsmall, hbit, hsrc⟩ := amount_encoded hop htype hltm rfl
          refine ⟨_, ?_, hword _ hsmall (Or.inl hbit) hsrc⟩
          simp [operand, bind, Except.bind, pure, Except.pure, parseImm_immediate himm, hregd, hregm,
            dpWord, bits_zero, shiftField, BitVec.or_assoc]
      | none =>
          rw [himm] at hop
          obtain ⟨rs, hrs, rfl⟩ := Option.map_eq_some_iff.mp hop
          obtain ⟨hregs, hlts⟩ := register_eq hrs
          have hrs' : 0 ≤ (rs : Int) ∧ (rs : Int) < 16 := ⟨by omega, by omega⟩
          have hrm' : 0 ≤ (rm : Int) ∧ (rm : Int) < 16 := ⟨by omega, by omega⟩
          obtain ⟨hsmall, hbit, hsrc⟩ := shiftedBy_operand htype.1 hrs' hrm'
          refine ⟨_, ?_, hword _ hsmall (Or.inr hbit) (hsrc.trans (by rw [htype.2]; rfl))⟩
          simp [operand, bind, Except.bind, pure, Except.pure, parseImm_register hrs, hregd, hregm,
            hregs, dpWord, bits_zero, shiftField, BitVec.or_assoc]
  · cases h

theorem mul_encoded (h : mulMeaning (operands ops) = some i) :
    ∃ w, encodeMul 14 ops = .ok w ∧ decode w = some i := by
  unfold encodeMul
  rw [splitOps_eq]
  generalize operands ops = o at h
  unfold mulMeaning at h
  split at h
  · next a b c =>
      obtain ⟨rd, hrd, rm, hrm, rs, hrs, hi⟩ : ∃ rd, register a = some rd ∧
          ∃ rm, register b = some rm ∧ ∃ rs, register c = some rs ∧
          some (Instr.multiply 14 false rd rm rs) = some i := by
        simpa [Option.bind_eq_some_iff] using h
      obtain ⟨hregd, hltd⟩ := register_eq hrd
      obtain ⟨hregm, hltm⟩ := register_eq hrm
      obtain ⟨hregs, hlts⟩ := register_eq hrs
      refine ⟨bits 14 28 ||| bits rd 16 ||| bits rs 8 ||| bits 9 4 ||| bits rm 0, ?_, ?_⟩
      · simp [operand, bind, Except.bind, pure, Except.pure, hregd, hregm, hregs]
      · rw [decode_mul ⟨by omega, by omega⟩ ⟨by omega, by omega⟩ ⟨by omega, by omega⟩
          ⟨by omega, by omega⟩, ← hi]
        rfl
  · cases h

end DiscoBsd.Asm
