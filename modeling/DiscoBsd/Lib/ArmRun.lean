import DiscoBsd.Lib.ArmMachine
import Mathlib.Tactic.IntervalCases

/-!
# Runs of ARMv4 code

A program is a list of instructions at consecutive words of the code. `Reaches` says that a machine
gets to a state of some kind, which a proof follows instruction by instruction with `Loaded.next`. The
transfers of words and bytes are described by what they do to single bytes.
-/

namespace DiscoBsd.Lib

namespace Armv4

/-- The instructions by their addresses. -/
abbrev Code := Nat → Option Instr

/-- One step of a machine that finds ARM code. -/
def step (code : Code) (m : Machine) : Option Machine :=
  if m.thumb then none else (code m.pc).bind m.exec

/-- The machine gets to a state of this kind. -/
inductive Reaches (code : Code) (goal : Machine → Prop) : Machine → Prop
  | done {m : Machine} (h : goal m) : Reaches code goal m
  | next {m m' : Machine} (hstep : step code m = some m') (hrest : Reaches code goal m') :
      Reaches code goal m

/-- A program is at an address of the code. -/
structure Loaded (code : Code) (base : Nat) (prog : List Instr) : Prop where
  aligned : base % 4 = 0
  inside : base + 4 * prog.length ≤ 2 ^ 32
  found : ∀ k i, prog[k]? = some i → code (base + 4 * k) = some i

/-- The machine in front of instruction `k` of a program. -/
def point (base k : Nat) (reg : Nat → BitVec 32) (flags : Flags) (mem : Mem) : Machine :=
  ⟨reg, flags, mem, base + 4 * k, false⟩

variable {code : Code} {goal goal' : Machine → Prop} {base k : Nat} {prog : List Instr} {i : Instr}
  {m m' : Machine} {reg : Nat → BitVec 32} {flags : Flags} {mem : Mem}

theorem Reaches.trans (h : Reaches code goal m) (hrest : ∀ m, goal m → Reaches code goal' m) :
    Reaches code goal' m := by
  induction h with
  | done h => exact hrest _ h
  | next hstep _ ih => exact .next hstep ih

theorem Reaches.mono (h : Reaches code goal m) (himp : ∀ m, goal m → goal' m) :
    Reaches code goal' m :=
  h.trans fun m hm => .done (himp m hm)

theorem Loaded.next (hload : Loaded code base prog) (m' : Machine) (hi : prog[k]? = some i)
    (hexec : (point base k reg flags mem).exec i = some m') (hrest : Reaches code goal m') :
    Reaches code goal (point base k reg flags mem) := by
  refine .next ?_ hrest
  show (code (base + 4 * k)).bind _ = _
  rw [hload.found k i hi]
  exact hexec

/-- A program at address 0. -/
def atZero (prog : List Instr) : Code := fun a => if a % 4 = 0 then prog[a / 4]? else none

theorem loaded_atZero (hlen : 4 * prog.length ≤ 2 ^ 32) : Loaded (atZero prog) 0 prog := by
  refine ⟨rfl, by omega, fun k i hi => ?_⟩
  unfold atZero
  rw [Nat.zero_add, if_pos (Nat.mul_mod_right 4 k), Nat.mul_div_cancel_left k (by decide)]
  exact hi

/-! ## Conditions -/

theorem exec_met (hcond : flags.holds i.cond = true) :
    (point base k reg flags mem).exec i = (point base k reg flags mem).effect i :=
  if_pos hcond

theorem exec_unmet (hcond : flags.holds i.cond = false) :
    (point base k reg flags mem).exec i = some (point base (k + 1) reg flags mem) :=
  if_neg (Bool.eq_false_iff.mp hcond)

theorem exec_branch {cond k' : Nat} {offset : Int} (hcond : flags.holds cond = true)
    (htarget : (4 * k : Int) + 8 + offset = 4 * k') :
    (point base k reg flags mem).exec (.branch cond false offset) =
      some (point base k' reg flags mem) := by
  rw [exec_met hcond]
  have hpc : (((base + 4 * k : Nat) : Int) + 8 + offset).toNat = base + 4 * k' := by omega
  exact congrArg (fun pc => some (Machine.mk reg flags mem pc false)) hpc

theorem exec_call {k' : Nat} {offset : Int} (htarget : (4 * k : Int) + 8 + offset = 4 * k') :
    (point base k reg flags mem).exec (.branch 14 true offset) = some (point base k'
      (Function.update reg 14 (BitVec.ofNat 32 (base + 4 * (k + 1)))) flags mem) := by
  have hpc : (((base + 4 * k : Nat) : Int) + 8 + offset).toNat = base + 4 * k' := by omega
  exact congrArg (fun pc => some (Machine.mk _ flags mem pc false)) hpc

/-- The machine after a jump to an address that says what code is there. -/
def back (reg : Nat → BitVec 32) (flags : Flags) (mem : Mem) (target : BitVec 32) : Machine :=
  ⟨reg, flags, mem, (target &&& ~~~1).toNat, target.getLsbD 0⟩

/-- A return to the address that a call left. -/
theorem Loaded.back_point (hload : Loaded code base prog) (hk : k < prog.length) :
    back reg flags mem (BitVec.ofNat 32 (base + 4 * k)) = point base k reg flags mem := by
  have haligned := hload.aligned
  have hinside := hload.inside
  have hnat : (BitVec.ofNat 32 (base + 4 * k)).toNat = base + 4 * k := by
    rw [BitVec.toNat_ofNat]
    omega
  have hbit : (BitVec.ofNat 32 (base + 4 * k)).getLsbD 0 = false := by
    rw [BitVec.getLsbD, hnat, Nat.testBit_zero, decide_eq_false_iff_not]
    omega
  have hclear : BitVec.ofNat 32 (base + 4 * k) &&& ~~~1 = BitVec.ofNat 32 (base + 4 * k) := by
    refine BitVec.eq_of_getLsbD_eq fun j hj => ?_
    rw [BitVec.getLsbD_and, BitVec.getLsbD_not, decide_eq_true hj, Bool.true_and]
    cases j with
    | zero => rw [hbit, Bool.false_and]
    | succ j =>
        have hone : (1 : BitVec 32).getLsbD (j + 1) = false := by
          rw [BitVec.getLsbD]
          exact Nat.testBit_lt_two_pow (Nat.one_lt_two_pow (by omega))
        rw [hone, Bool.not_false, Bool.and_true]
  unfold back point
  rw [hclear, hnat, hbit]

/-! ## Bytes of words -/

theorem getLsbD_word (mem : Mem) (a : BitVec 32) (j : Nat) :
    (word mem a).getLsbD j = if j < 8 then (mem a).getLsbD j
      else if j < 16 then (mem (a + 1)).getLsbD (j - 8)
      else if j < 24 then (mem (a + 2)).getLsbD (j - 16)
      else (mem (a + 3)).getLsbD (j - 24) := by
  unfold word
  rw [BitVec.getLsbD_append, BitVec.getLsbD_append, BitVec.getLsbD_append]
  by_cases h8 : j < 8
  · rw [if_pos h8, if_pos h8]
  · rw [if_neg h8, if_neg h8]
    by_cases h16 : j < 16
    · rw [if_pos h16, if_pos (by omega)]
    · rw [if_neg h16, if_neg (by omega)]
      by_cases h24 : j < 24
      · rw [if_pos h24, if_pos (by omega), Nat.sub_sub]
      · rw [if_neg h24, if_neg (by omega), Nat.sub_sub, Nat.sub_sub]

/-- The bytes of a word in memory. -/
theorem extract_word (mem : Mem) (a d : BitVec 32) (hd : d.toNat < 4) :
    (word mem a).extractLsb' (8 * d.toNat) 8 = mem (a + d) := by
  refine BitVec.eq_of_getLsbD_eq fun j hj => ?_
  rw [BitVec.getLsbD_extractLsb', decide_eq_true hj, Bool.true_and, getLsbD_word]
  have hofNat : d = BitVec.ofNat 32 d.toNat := BitVec.eq_of_toNat_eq (by simp)
  generalize d.toNat = n at hd hofNat ⊢
  subst hofNat
  interval_cases n
  · rw [if_pos (by omega), Nat.mul_zero, Nat.zero_add]
    exact congrArg (fun x => (mem x).getLsbD j) (BitVec.add_zero a).symm
  · rw [if_neg (by omega), if_pos (by omega), Nat.add_sub_cancel_left]
    rfl
  · rw [if_neg (by omega), if_neg (by omega), if_pos (by omega), Nat.add_sub_cancel_left]
    rfl
  · rw [if_neg (by omega), if_neg (by omega), if_neg (by omega), Nat.add_sub_cancel_left]
    rfl

theorem putWord_word (mem mem' : Mem) (a b x : BitVec 32) :
    putWord mem a (word mem' b) x = if (x - a).toNat < 4 then mem' (b + (x - a)) else mem x := by
  unfold putWord
  by_cases h : (x - a).toNat < 4
  · rw [if_pos h, if_pos h, extract_word mem' b _ h]
  · rw [if_neg h, if_neg h]

theorem putWord_apart (mem : Mem) {a x : BitVec 32} (v : BitVec 32) (h : 4 ≤ (x - a).toNat) :
    putWord mem a v x = mem x :=
  if_neg (by omega)

/-- A word that was stored is loaded again. -/
theorem word_putWord (mem : Mem) (a v : BitVec 32) : word (putWord mem a v) a = v := by
  have hbyte : ∀ d : BitVec 32, d.toNat < 4 →
      putWord mem a v (a + d) = v.extractLsb' (8 * d.toNat) 8 := by
    intro d hd
    have hsub : a + d - a = d := by rw [BitVec.add_comm, BitVec.add_sub_cancel]
    unfold putWord
    rw [hsub, if_pos hd]
  refine BitVec.eq_of_getLsbD_eq fun j hj => ?_
  have h0 : putWord mem a v a = v.extractLsb' (8 * 0) 8 := by
    have hself : a + 0 = a := BitVec.add_zero a
    have hfirst := hbyte 0 (by decide)
    rw [hself] at hfirst
    exact hfirst
  rw [getLsbD_word, h0, hbyte 1 (by decide), hbyte 2 (by decide), hbyte 3 (by decide)]
  have hread : ∀ n : Nat, n * 8 ≤ j → j < n * 8 + 8 →
      (v.extractLsb' (8 * n) 8).getLsbD (j - n * 8) = v.getLsbD j := by
    intro n hlow hhigh
    rw [BitVec.getLsbD_extractLsb', decide_eq_true (by omega), Bool.true_and]
    congr 1
    omega
  by_cases h8 : j < 8
  · rw [if_pos h8]
    exact hread 0 (by omega) (by omega)
  · rw [if_neg h8]
    by_cases h16 : j < 16
    · rw [if_pos h16]
      exact hread 1 (by omega) (by omega)
    · rw [if_neg h16]
      by_cases h24 : j < 24
      · rw [if_pos h24]
        exact hread 2 (by omega) (by omega)
      · rw [if_neg h24]
        exact hread 3 (by omega) (by omega)

/-! ## Stacks -/

theorem putWords_apart {a x : BitVec 32} {vs : List (BitVec 32)} (mem : Mem)
    (h : 4 * vs.length ≤ (x - a).toNat) : putWords mem a vs x = mem x := by
  induction vs generalizing mem a with
  | nil => rfl
  | cons v vs ih =>
      rw [List.length_cons] at h
      have hrest : 4 * vs.length ≤ (x - (a + 4)).toNat := by bv_omega
      show putWords (putWord mem a v) (a + 4) vs x = mem x
      rw [ih _ hrest, putWord_apart mem v (by omega)]

theorem word_putWords_apart {a b : BitVec 32} {vs : List (BitVec 32)} (mem : Mem)
    (hlow : 4 * vs.length ≤ (b - a).toNat) (hhigh : (b - a).toNat ≤ 2 ^ 32 - 4) :
    word (putWords mem a vs) b = word mem b := by
  have h1 : 4 * vs.length ≤ (b + 1 - a).toNat := by bv_omega
  have h2 : 4 * vs.length ≤ (b + 2 - a).toNat := by bv_omega
  have h3 : 4 * vs.length ≤ (b + 3 - a).toNat := by bv_omega
  unfold word
  rw [putWords_apart mem hlow, putWords_apart mem h1, putWords_apart mem h2, putWords_apart mem h3]

/-- The registers of a list with the words from an address up. -/
def loadRegs (mem : Mem) (reg : Nat → BitVec 32) (a : BitVec 32) : List Nat → Nat → BitVec 32
  | [] => reg
  | r :: rs => loadRegs mem (Function.update reg r (word mem a)) (a + 4) rs

theorem loadAll_point (base k : Nat) (flags : Flags) (mem : Mem) (reg : Nat → BitVec 32)
    (a : BitVec 32) (rs : List Nat) :
    (point base k reg flags mem).loadAll a rs = point base k (loadRegs mem reg a rs) flags mem := by
  induction rs generalizing reg a with
  | nil => rfl
  | cons r rs ih => exact ih _ _

/-- Registers that were stored are loaded again. -/
theorem loadRegs_putWords (reg₀ : Nat → BitVec 32) {rs : List Nat} (hlen : 4 * rs.length < 2 ^ 32)
    (mem : Mem) (reg : Nat → BitVec 32) (a : BitVec 32) (r : Nat) :
    loadRegs (putWords mem a (rs.map reg₀)) reg a rs r = if r ∈ rs then reg₀ r else reg r := by
  induction rs generalizing mem reg a with
  | nil => exact (if_neg List.not_mem_nil).symm
  | cons r' rs ih =>
      rw [List.length_cons] at hlen
      have hfirst : word (putWords mem a ((r' :: rs).map reg₀)) a = reg₀ r' := by
        show word (putWords (putWord mem a (reg₀ r')) (a + 4) (rs.map reg₀)) a = reg₀ r'
        have hlow : 4 * (rs.map reg₀).length ≤ (a - (a + 4)).toNat := by
          rw [List.length_map]
          bv_omega
        rw [word_putWords_apart _ hlow (by bv_omega), word_putWord]
      show loadRegs (putWords (putWord mem a (reg₀ r')) (a + 4) (rs.map reg₀))
        (Function.update reg r' (word (putWords mem a ((r' :: rs).map reg₀)) a)) (a + 4) rs r = _
      rw [hfirst, ih (by omega)]
      by_cases hmem : r ∈ rs
      · rw [if_pos hmem, if_pos (List.mem_cons_of_mem _ hmem)]
      · rw [if_neg hmem]
        by_cases heq : r = r'
        · rw [heq, Function.update_self, if_pos List.mem_cons_self]
        · rw [Function.update_of_ne heq, if_neg (by simp [heq, hmem])]

theorem aligned_sub {a : BitVec 32} (h : aligned a = true) (n : Nat) :
    aligned (a - BitVec.ofNat 32 (4 * n)) = true := by
  unfold aligned at h ⊢
  rw [beq_iff_eq] at h ⊢
  rw [BitVec.toNat_sub, BitVec.toNat_ofNat]
  omega

/-- A push of registers other than the stack pointer. -/
theorem exec_push {list : Nat} (hnone : (listed list).isEmpty = false)
    (hpc : (listed list).contains 15 = false) (hsp : (listed list).contains 13 = false)
    (haligned : aligned (reg 13 - BitVec.ofNat 32 (4 * (listed list).length)) = true) :
    (point base k reg flags mem).exec (.block 14 false true false false true 13 list) =
      some (point base (k + 1)
        (Function.update reg 13 (reg 13 - BitVec.ofNat 32 (4 * (listed list).length))) flags
        (putWords mem (reg 13 - BitVec.ofNat 32 (4 * (listed list).length)) ((listed list).map reg))) := by
  have hregs : (listed list).map (point base k reg flags mem).read = (listed list).map reg := by
    refine List.map_congr_left fun r hr => if_neg fun h => ?_
    rw [h] at hr
    rw [List.contains_iff_mem.mpr hr] at hpc
    cases hpc
  rw [exec_met rfl]
  show (if (false || (listed list).isEmpty || (listed list).contains 15 || (13 == 15) ||
    (true && (listed list).contains 13)) = true then none else _) = _
  rw [hnone, hpc, hsp, if_neg (by decide)]
  show (if aligned (reg 13 - _) = true then some (Machine.stored _ (putWords mem (reg 13 - _)
    ((listed list).map (point base k reg flags mem).read))) else none) = _
  rw [if_pos haligned, hregs]
  rfl

/-- A pop of registers other than the stack pointer. -/
theorem exec_pop {list : Nat} (hnone : (listed list).isEmpty = false)
    (hpc : (listed list).contains 15 = false) (hsp : (listed list).contains 13 = false)
    (haligned : aligned (reg 13) = true) :
    (point base k reg flags mem).exec (.block 14 true false true false true 13 list) =
      some (point base (k + 1) (loadRegs mem
        (Function.update reg 13 (reg 13 + BitVec.ofNat 32 (4 * (listed list).length))) (reg 13)
        (listed list)) flags mem) := by
  rw [exec_met rfl]
  show (if (false || (listed list).isEmpty || (listed list).contains 15 || (13 == 15) ||
    (true && (listed list).contains 13)) = true then none else _) = _
  rw [hnone, hpc, hsp, if_neg (by decide)]
  show (if aligned (reg 13) = true then some ((point base (k + 1) _ flags mem).loadAll (reg 13)
    (listed list)) else none) = _
  rw [if_pos haligned, loadAll_point]
  rfl

end Armv4

end DiscoBsd.Lib
