import DiscoBsd.Clib.Routine

/-!
# Block moves

`memmove`, which `memcpy` is another name of, copies upwards when the destination is not above the
source and downwards otherwise, by words while both addresses are aligned and four bytes are left.
`Upwards` and `Downwards` say how far a move has come in front of each of its loops.
-/

namespace DiscoBsd.Clib

open Asm Lib.Armv4

/-- The block moves of `clib.s`. -/
def movesSource : List Line :=
  [ .label "memcpy", .label "memmove", .instr "cmp" "r0, r1", .instr "bhi" ".Lmvb",
    .instr "mov" "r3, r0", .instr "orr" "r12, r3, r1", .instr "and" "r12, r12, #3",
    .instr "cmp" "r12, #0", .instr "bne" ".Lmfb",
    .label ".Lmfw", .instr "cmp" "r2, #4", .instr "blo" ".Lmfb", .instr "ldr" "r12, [r1], #4",
    .instr "str" "r12, [r3], #4", .instr "sub" "r2, r2, #4", .instr "b" ".Lmfw",
    .label ".Lmfb", .instr "cmp" "r2, #0", .instr "beq" ".Lmvd", .instr "ldrb" "r12, [r1], #1",
    .instr "strb" "r12, [r3], #1", .instr "sub" "r2, r2, #1", .instr "b" ".Lmfb",
    .label ".Lmvb", .instr "add" "r1, r1, r2", .instr "add" "r3, r0, r2",
    .instr "orr" "r12, r3, r1", .instr "and" "r12, r12, #3", .instr "cmp" "r12, #0",
    .instr "bne" ".Lmbb",
    .label ".Lmbw", .instr "cmp" "r2, #4", .instr "blo" ".Lmbb", .instr "ldr" "r12, [r1, #-4]!",
    .instr "str" "r12, [r3, #-4]!", .instr "sub" "r2, r2, #4", .instr "b" ".Lmbw",
    .label ".Lmbb", .instr "cmp" "r2, #0", .instr "beq" ".Lmvd", .instr "ldrb" "r12, [r1, #-1]!",
    .instr "strb" "r12, [r3, #-1]!", .instr "sub" "r2, r2, #1", .instr "b" ".Lmbb",
    .label ".Lmvd", .instr "bx" "lr" ]

/-- Their instructions. -/
def moves : List Instr :=
  [ .dataProcessing 14 10 true 0 0 (.reg 1), .branch 8 false 64,
    .dataProcessing 14 13 false 3 0 (.reg 0), .dataProcessing 14 12 false 12 3 (.reg 1),
    .dataProcessing 14 0 false 12 12 (.imm 3), .dataProcessing 14 10 true 0 12 (.imm 0),
    .branch 1 false 20, .dataProcessing 14 10 true 0 2 (.imm 4), .branch 3 false 12,
    .transfer 14 true false false false 1 12 4, .transfer 14 false false false false 3 12 4,
    .dataProcessing 14 2 false 2 2 (.imm 4), .branch 14 false (-28),
    .dataProcessing 14 10 true 0 2 (.imm 0), .branch 0 false 84,
    .transfer 14 true true false false 1 12 1, .transfer 14 false true false false 3 12 1,
    .dataProcessing 14 2 false 2 2 (.imm 1), .branch 14 false (-28),
    .dataProcessing 14 4 false 1 1 (.reg 2), .dataProcessing 14 4 false 3 0 (.reg 2),
    .dataProcessing 14 12 false 12 3 (.reg 1), .dataProcessing 14 0 false 12 12 (.imm 3),
    .dataProcessing 14 10 true 0 12 (.imm 0), .branch 1 false 20,
    .dataProcessing 14 10 true 0 2 (.imm 4), .branch 3 false 12,
    .transfer 14 true false true true 1 12 (-4), .transfer 14 false false true true 3 12 (-4),
    .dataProcessing 14 2 false 2 2 (.imm 4), .branch 14 false (-28),
    .dataProcessing 14 10 true 0 2 (.imm 0), .branch 0 false 12,
    .transfer 14 true true true true 1 12 (-1), .transfer 14 false true true true 3 12 (-1),
    .dataProcessing 14 2 false 2 2 (.imm 1), .branch 14 false (-28), .branchExchange 14 14 ]

theorem codeOf_moves : codeOf movesSource = some moves := by decide +kernel

variable {code : Code} {base : Nat} {reg₀ reg : Nat → Word} {flags : Flags} {mem₀ mem mem' : Mem}
  {d s : Word} {lo hi size : Nat}

/-! ## Bytes that have arrived -/

/-- The memory with the bytes from `lo` up to `hi` of a move in their places. -/
def arrived (mem : Mem) (d s : Word) (lo hi : Nat) : Mem := fun x =>
  if lo ≤ (x - d).toNat ∧ (x - d).toNat < hi then mem (s + (x - d)) else mem x

/-- The memory after some bytes from `b` were stored at `a`. -/
def Copies (size : Nat) (mem mem' : Mem) (a b : Word) : Prop :=
  ∀ x, mem' x = if (x - a).toNat < size then mem (b + (x - a)) else mem x

theorem copies_byte (mem : Mem) (a b : Word) :
    Copies 1 mem (putByte mem a (((mem b).setWidth 32).setWidth 8)) a b := by
  intro x
  have hbyte : ((mem b).setWidth 32).setWidth 8 = mem b := by
    rw [BitVec.setWidth_setWidth_of_le _ (by decide), BitVec.setWidth_eq]
  rw [hbyte]
  unfold putByte
  by_cases hx : x = a
  · subst hx
    have hself : x - x = 0 := BitVec.sub_self x
    have hb : b + 0 = b := BitVec.add_zero b
    rw [Function.update_self, hself, if_pos (by decide), hb]
  · rw [Function.update_of_ne hx, if_neg (by bv_omega)]

theorem copies_word (mem : Mem) (a b : Word) : Copies 4 mem (putWord mem a (word mem b)) a b :=
  putWord_word mem mem a b

theorem add_sub_apart (a y z : Word) : a + y - (a + z) = y - z := by
  rw [← BitVec.sub_sub, BitVec.add_comm a y, BitVec.add_sub_cancel]

theorem within_iff (y : Word) {n : Nat} (hn : n + size ≤ 2 ^ 32) :
    (y - BitVec.ofNat 32 n).toNat < size ↔ n ≤ y.toNat ∧ y.toNat < n + size := by
  have hy := y.isLt
  rw [BitVec.toNat_sub, BitVec.toNat_ofNat]
  omega

/-- The memory after the next bytes, where those have not been written over. -/
theorem Copies.arrived {i : Nat}
    (hcopy : Copies size (arrived mem₀ d s lo hi) mem' (d + BitVec.ofNat 32 i)
      (s + BitVec.ofNat 32 i)) {lo' hi' : Nat} (hfits : i + size ≤ 2 ^ 32)
    (hrange : ∀ n, lo' ≤ n ∧ n < hi' ↔ (i ≤ n ∧ n < i + size) ∨ (lo ≤ n ∧ n < hi))
    (hkept : ∀ y : Word, i ≤ y.toNat → y.toNat < i + size →
      ¬ (lo ≤ (s + y - d).toNat ∧ (s + y - d).toNat < hi)) :
    mem' = Clib.arrived mem₀ d s lo' hi' := by
  funext x
  obtain ⟨y, rfl⟩ : ∃ y, x = d + y := ⟨x - d, by rw [BitVec.add_comm, BitVec.sub_add_cancel]⟩
  have hself : d + y - d = y := by rw [BitVec.add_comm, BitVec.add_sub_cancel]
  have hfrom : s + BitVec.ofNat 32 i + (y - BitVec.ofNat 32 i) = s + y := by
    rw [BitVec.add_assoc, BitVec.add_comm (BitVec.ofNat 32 i), BitVec.sub_add_cancel]
  have hnew : (y - BitVec.ofNat 32 i).toNat < size ↔ i ≤ y.toNat ∧ y.toNat < i + size :=
    within_iff y hfits
  rw [hcopy (d + y), add_sub_apart, hfrom]
  unfold Clib.arrived
  rw [hself]
  by_cases hin : (y - BitVec.ofNat 32 i).toNat < size
  · obtain ⟨hlow, hhigh⟩ := hnew.mp hin
    rw [if_pos hin, if_neg (hkept y hlow hhigh), if_pos ((hrange _).mpr (.inl ⟨hlow, hhigh⟩))]
  · rw [if_neg hin]
    by_cases hold : lo ≤ y.toNat ∧ y.toNat < hi
    · rw [if_pos hold, if_pos ((hrange _).mpr (.inr hold))]
    · rw [if_neg hold, if_neg fun h => ((hrange _).mp h).elim (fun h => hin (hnew.mpr h)) hold]

/-! ## The body of a loop -/

/-- The address that a transfer uses, where one downwards subtracts first. -/
def reached (down : Bool) (offset : Int) (a : Word) : Word :=
  if down then a + BitVec.ofInt 32 offset else a

theorem exec_load_word {k : Nat} {down : Bool} {offset : Int}
    (haligned : aligned (reached down offset (reg 1)) = true) :
    (point base k reg flags mem).exec (.transfer 14 true false down down 1 12 offset) =
      some (point base (k + 1) (Function.update (Function.update reg 1 (reg 1 + BitVec.ofInt 32 offset))
        12 (word mem (reached down offset (reg 1)))) flags mem) := by
  cases down with
  | false => exact if_pos haligned
  | true => exact if_pos haligned

theorem exec_store_word {k : Nat} {down : Bool} {offset : Int}
    (haligned : aligned (reached down offset (reg 3)) = true) :
    (point base k reg flags mem).exec (.transfer 14 false false down down 3 12 offset) =
      some (point base (k + 1) (Function.update reg 3 (reg 3 + BitVec.ofInt 32 offset)) flags
        (putWord mem (reached down offset (reg 3)) (reg 12))) := by
  cases down with
  | false => exact if_pos haligned
  | true => exact if_pos haligned

theorem exec_load_byte {k : Nat} {down : Bool} {offset : Int} :
    (point base k reg flags mem).exec (.transfer 14 true true down down 1 12 offset) =
      some (point base (k + 1) (Function.update (Function.update reg 1 (reg 1 + BitVec.ofInt 32 offset))
        12 ((mem (reached down offset (reg 1))).setWidth 32)) flags mem) := by
  cases down with
  | false => rfl
  | true => rfl

theorem exec_store_byte {k : Nat} {down : Bool} {offset : Int} :
    (point base k reg flags mem).exec (.transfer 14 false true down down 3 12 offset) =
      some (point base (k + 1) (Function.update reg 3 (reg 3 + BitVec.ofInt 32 offset)) flags
        (putByte mem (reached down offset (reg 3)) ((reg 12).setWidth 8))) := by
  cases down with
  | false => rfl
  | true => rfl

/-- What a loop of a move is made of. -/
structure MoveLoop (head exit : Nat) (down byte : Bool) (offset : Int) (size : Nat) (bound : Word)
    (cond : Nat) : Prop where
  compare : moves[head]? = some (.dataProcessing 14 10 true 0 2 (.imm bound))
  leave : moves[head + 1]? = some (.branch cond false (4 * exit - (4 * head + 12)))
  load : moves[head + 2]? = some (.transfer 14 true byte down down 1 12 offset)
  store : moves[head + 3]? = some (.transfer 14 false byte down down 3 12 offset)
  count : moves[head + 4]? = some (.dataProcessing 14 2 false 2 2 (.imm (BitVec.ofNat 32 size)))
  again : moves[head + 5]? = some (.branch 14 false (-28))
  stops : ∀ v, (subFlags v bound).holds cond = decide (v.toNat < size)
  width : size = if byte then 1 else 4

/-- What one time around a loop does. -/
structure Around (down : Bool) (offset : Int) (size : Nat) (reg reg' : Nat → Word) (mem mem' : Mem) :
    Prop where
  dest : reg' 0 = reg 0
  src : reg' 1 = reg 1 + BitVec.ofInt 32 offset
  left : reg' 2 = reg 2 - BitVec.ofNat 32 size
  into : reg' 3 = reg 3 + BitVec.ofInt 32 offset
  others : ∀ r, 4 ≤ r → r ≠ 12 → reg' r = reg r
  copies : Copies size mem mem' (reached down offset (reg 3)) (reached down offset (reg 1))

variable {head exit cond : Nat} {down byte : Bool} {offset : Int} {bound : Word}

/-- The registers after the three instructions of a body. -/
def aroundRegs (reg : Nat → Word) (offset : Int) (size : Nat) (moved : Word) : Nat → Word :=
  Function.update (Function.update (Function.update (Function.update reg 1
    (reg 1 + BitVec.ofInt 32 offset)) 12 moved) 3 (reg 3 + BitVec.ofInt 32 offset)) 2
    (reg 2 - BitVec.ofNat 32 size)

theorem around_regs {moved : Word}
    (hcopies : Copies size mem mem' (reached down offset (reg 3)) (reached down offset (reg 1))) :
    Around down offset size reg (aroundRegs reg offset size moved) mem mem' := by
  refine ⟨rfl, rfl, rfl, rfl, fun r hr h12 => ?_, hcopies⟩
  unfold aroundRegs
  rw [Function.update_of_ne (by omega), Function.update_of_ne (by omega), Function.update_of_ne h12,
    Function.update_of_ne (by omega)]

/-- From the head of a loop out of it, or around it. -/
theorem MoveLoop.round (hloop : MoveLoop head exit down byte offset size bound cond)
    (hload : Loaded code base moves)
    (haligned : byte = false → size ≤ (reg 2).toNat → aligned (reached down offset (reg 1)) = true ∧
      aligned (reached down offset (reg 3)) = true) :
    Reaches code (fun m => ∃ flags', ((reg 2).toNat < size ∧ m = point base exit reg flags' mem) ∨
        (size ≤ (reg 2).toNat ∧ ∃ reg' mem', m = point base head reg' flags' mem' ∧
          Around down offset size reg reg' mem mem'))
      (point base head reg flags mem) := by
  have hstops := hloop.stops (reg 2)
  refine hload.next (point base (head + 1) reg (subFlags (reg 2) bound) mem) hloop.compare rfl ?_
  by_cases hend : (reg 2).toNat < size
  · refine hload.next (point base exit reg _ mem) hloop.leave
      (exec_branch (hstops.trans (decide_eq_true hend)) (by push_cast; omega)) (.done ⟨_, .inl ⟨hend, rfl⟩⟩)
  · refine hload.next _ hloop.leave (exec_unmet (hstops.trans (decide_eq_false hend))) ?_
    have hsize := hloop.width
    cases byte with
    | false =>
        obtain ⟨hfrom, hto⟩ := haligned rfl (Nat.le_of_not_lt hend)
        refine hload.next _ hloop.load (exec_load_word hfrom) ?_
        refine hload.next _ hloop.store (exec_store_word hto) ?_
        refine hload.next (point base (head + 5) (aroundRegs reg offset size
          (word mem (reached down offset (reg 1)))) _ _) hloop.count rfl ?_
        refine hload.next (point base head _ _ _) hloop.again (exec_branch rfl (by push_cast; omega)) ?_
        refine .done ⟨_, .inr ⟨Nat.le_of_not_lt hend, _, _, rfl, around_regs ?_⟩⟩
        rw [hsize]
        exact copies_word mem _ _
    | true =>
        refine hload.next _ hloop.load exec_load_byte ?_
        refine hload.next _ hloop.store exec_store_byte ?_
        refine hload.next (point base (head + 5) (aroundRegs reg offset size
          ((mem (reached down offset (reg 1))).setWidth 32)) _ _) hloop.count rfl ?_
        refine hload.next (point base head _ _ _) hloop.again (exec_branch rfl (by push_cast; omega)) ?_
        refine .done ⟨_, .inr ⟨Nat.le_of_not_lt hend, _, _, rfl, around_regs ?_⟩⟩
        rw [hsize]
        exact copies_byte mem _ _

/-- A loop keeps what one time around it keeps, and comes out with less than a step left. -/
theorem MoveLoop.run {P : (Nat → Word) → Mem → Prop}
    (hloop : MoveLoop head exit down byte offset size bound cond) (hload : Loaded code base moves)
    (haligned : ∀ reg mem, P reg mem → byte = false → size ≤ (reg 2).toNat →
      aligned (reached down offset (reg 1)) = true ∧ aligned (reached down offset (reg 3)) = true)
    (haround : ∀ reg reg' mem mem', P reg mem → size ≤ (reg 2).toNat →
      Around down offset size reg reg' mem mem' → P reg' mem')
    (h : P reg mem) :
    Reaches code (fun m => ∃ reg' flags' mem', m = point base exit reg' flags' mem' ∧
        P reg' mem' ∧ (reg' 2).toNat < size)
      (point base head reg flags mem) := by
  have hpos : 0 < size := by
    rw [hloop.width]
    split <;> decide
  generalize hn : (reg 2).toNat = n
  induction n using Nat.strong_induction_on generalizing reg flags mem with
  | h n ih =>
      refine (hloop.round hload (haligned reg mem h)).trans ?_
      rintro _ ⟨flags', ⟨hend, rfl⟩ | ⟨hmore, reg', mem', rfl, hone⟩⟩
      · exact .done ⟨reg, flags', mem, rfl, h, hend⟩
      · have hwidth : (BitVec.ofNat 32 size).toNat = size := by
          rw [BitVec.toNat_ofNat, Nat.mod_eq_of_lt (by have hlt := (reg 2).isLt; omega)]
        have hleft : (reg' 2).toNat = (reg 2).toNat - size := by
          rw [hone.left, BitVec.toNat_sub_of_le (BitVec.le_def.mpr (by rw [hwidth]; exact hmore)), hwidth]
        exact ih (n - size) (by omega) (haround _ _ _ _ h hmore hone) (by omega)

/-! ## Alignment -/

theorem aligned_iff (a : Word) : aligned a = true ↔ a.toNat % 4 = 0 := beq_iff_eq

theorem aligned_of_test {a b : Word} (h : (a ||| b) &&& 3 = 0) :
    aligned a = true ∧ aligned b = true := by
  have hnat := congrArg BitVec.toNat h
  have hmask : (3 : Word).toNat = 2 ^ 2 - 1 := rfl
  rw [BitVec.toNat_and, hmask, Nat.and_two_pow_sub_one_eq_mod, BitVec.toNat_or,
    Nat.or_mod_two_pow] at hnat
  rw [aligned_iff, aligned_iff]
  exact Nat.or_eq_zero_iff.mp hnat

theorem aligned_add (a : Word) (z : Int) (hz : z % 4 = 0) (h : aligned a = true) :
    aligned (a + BitVec.ofInt 32 z) = true := by
  rw [aligned_iff] at h ⊢
  rw [BitVec.toNat_add, BitVec.toNat_ofInt]
  omega

/-! ## Upwards -/

/-- In front of the loops of a move upwards. -/
structure Upwards (mem₀ : Mem) (reg₀ reg : Nat → Word) (mem : Mem) : Prop where
  dest : reg 0 = reg₀ 0
  left : (reg 2).toNat ≤ (reg₀ 2).toNat
  src : reg 1 = reg₀ 1 + BitVec.ofNat 32 ((reg₀ 2).toNat - (reg 2).toNat)
  into : reg 3 = reg₀ 0 + BitVec.ofNat 32 ((reg₀ 2).toNat - (reg 2).toNat)
  bytes : mem = arrived mem₀ (reg₀ 0) (reg₀ 1) 0 ((reg₀ 2).toNat - (reg 2).toNat)
  others : ∀ r, 4 ≤ r → r ≠ 12 → reg r = reg₀ r

/-- In front of the loops of a move downwards. -/
structure Downwards (mem₀ : Mem) (reg₀ reg : Nat → Word) (mem : Mem) : Prop where
  dest : reg 0 = reg₀ 0
  left : (reg 2).toNat ≤ (reg₀ 2).toNat
  src : reg 1 = reg₀ 1 + reg 2
  into : reg 3 = reg₀ 0 + reg 2
  bytes : mem = arrived mem₀ (reg₀ 0) (reg₀ 1) (reg 2).toNat (reg₀ 2).toNat
  others : ∀ r, 4 ≤ r → r ≠ 12 → reg r = reg₀ r

variable {reg' : Nat → Word}

theorem Around.left_toNat (h : Around down offset size reg reg' mem mem')
    (hle : size ≤ (reg 2).toNat) : (reg' 2).toNat = (reg 2).toNat - size := by
  have hlt := (reg 2).isLt
  rw [h.left, BitVec.toNat_sub, BitVec.toNat_ofNat]
  omega

theorem Upwards.around (h : Upwards mem₀ reg₀ reg mem)
    (hd : (reg₀ 0).toNat + (reg₀ 2).toNat ≤ 2 ^ 32) (hs : (reg₀ 1).toNat + (reg₀ 2).toNat ≤ 2 ^ 32)
    (hle : (reg₀ 0).toNat ≤ (reg₀ 1).toNat) (hsize : size ≤ (reg 2).toNat)
    (hone : Around false size size reg reg' mem mem') : Upwards mem₀ reg₀ reg' mem' := by
  have hleft := hone.left_toNat hsize
  have hold := h.left
  have hadd : (reg₀ 2).toNat - (reg' 2).toNat = (reg₀ 2).toNat - (reg 2).toNat + size := by omega
  have hnext : ∀ a : Word, a + BitVec.ofNat 32 ((reg₀ 2).toNat - (reg 2).toNat) +
      BitVec.ofInt 32 size = a + BitVec.ofNat 32 ((reg₀ 2).toNat - (reg' 2).toNat) := by
    intro a
    rw [BitVec.ofInt_natCast, BitVec.add_assoc, ← BitVec.ofNat_add, hadd]
  refine ⟨hone.dest.trans h.dest, by omega, ?_, ?_, ?_, fun r hr h12 => ?_⟩
  · rw [hone.src, h.src, hnext]
  · rw [hone.into, h.into, hnext]
  · have hcopies := hone.copies
    unfold reached at hcopies
    rw [if_neg Bool.false_ne_true, if_neg Bool.false_ne_true, h.src, h.into, h.bytes] at hcopies
    rw [hadd]
    refine hcopies.arrived (by omega) (fun n => by omega) fun y hlow hhigh => ?_
    -- a source above the destination is ahead of what was written
    rw [BitVec.toNat_sub, BitVec.toNat_add]
    omega
  · rw [hone.others r hr h12, h.others r hr h12]

theorem Downwards.around (h : Downwards mem₀ reg₀ reg mem)
    (hd : (reg₀ 0).toNat + (reg₀ 2).toNat ≤ 2 ^ 32)
    (hlt : (reg₀ 1).toNat < (reg₀ 0).toNat) (hsize : size ≤ (reg 2).toNat)
    (hone : Around true (-size) size reg reg' mem mem') : Downwards mem₀ reg₀ reg' mem' := by
  have hleft := hone.left_toNat hsize
  have hold := h.left
  have hback : ∀ a : Word, a + reg 2 + BitVec.ofInt 32 (-size) = a + reg' 2 := by
    intro a
    rw [hone.left, BitVec.ofInt_neg, BitVec.ofInt_natCast, BitVec.add_assoc, ← BitVec.sub_eq_add_neg]
  have hnat : reg' 2 = BitVec.ofNat 32 (reg' 2).toNat := by rw [BitVec.ofNat_toNat, BitVec.setWidth_eq]
  refine ⟨hone.dest.trans h.dest, by omega, ?_, ?_, ?_, fun r hr h12 => ?_⟩
  · rw [hone.src, h.src, hback]
  · rw [hone.into, h.into, hback]
  · have hcopies := hone.copies
    unfold reached at hcopies
    rw [if_pos rfl, if_pos rfl, h.src, h.into, hback, hback, h.bytes, hnat] at hcopies
    refine hcopies.arrived (by omega) (fun n => by omega) fun y hlow hhigh => ?_
    -- a source below the destination is behind what was written
    rw [BitVec.toNat_sub, BitVec.toNat_add]
    omega
  · rw [hone.others r hr h12, h.others r hr h12]

/-! ## The loops -/

theorem stops_words (v : Word) : (subFlags v 4).holds 3 = decide (v.toNat < 4) :=
  (compares_subFlags v 4).lo

theorem stops_bytes (v : Word) : (subFlags v 0).holds 0 = decide (v.toNat < 1) := by
  rw [(compares_subFlags v 0).eq, decide_eq_decide, Nat.lt_one_iff]
  exact ⟨congrArg BitVec.toNat, fun h => BitVec.eq_of_toNat_eq h⟩

theorem words_up : MoveLoop 7 13 false false (4 : Nat) 4 4 3 :=
  ⟨rfl, rfl, rfl, rfl, rfl, rfl, stops_words, rfl⟩

theorem bytes_up : MoveLoop 13 37 false true (1 : Nat) 1 0 0 :=
  ⟨rfl, rfl, rfl, rfl, rfl, rfl, stops_bytes, rfl⟩

theorem words_down : MoveLoop 25 31 true false (-(4 : Nat)) 4 4 3 :=
  ⟨rfl, rfl, rfl, rfl, rfl, rfl, stops_words, rfl⟩

theorem bytes_down : MoveLoop 31 37 true true (-(1 : Nat)) 1 0 0 :=
  ⟨rfl, rfl, rfl, rfl, rfl, rfl, stops_bytes, rfl⟩

/-- Behind the loops, with all bytes moved. -/
structure Moved (mem₀ : Mem) (reg₀ reg : Nat → Word) (mem : Mem) : Prop where
  dest : reg 0 = reg₀ 0
  bytes : mem = arrived mem₀ (reg₀ 0) (reg₀ 1) 0 (reg₀ 2).toNat
  others : ∀ r, 4 ≤ r → r ≠ 12 → reg r = reg₀ r

section Run

variable (hload : Loaded code base moves) (hd : (reg₀ 0).toNat + (reg₀ 2).toNat ≤ 2 ^ 32)

include hload hd

theorem bytes_up_run (hs : (reg₀ 1).toNat + (reg₀ 2).toNat ≤ 2 ^ 32)
    (hle : (reg₀ 0).toNat ≤ (reg₀ 1).toNat) (h : Upwards mem₀ reg₀ reg mem) :
    Reaches code (fun m => ∃ reg' flags' mem', m = point base 37 reg' flags' mem' ∧
      Moved mem₀ reg₀ reg' mem') (point base 13 reg flags mem) := by
  refine (bytes_up.run hload (fun _ _ _ hbyte => by cases hbyte)
    (fun _ _ _ _ h hsize hone => h.around hd hs hle hsize hone) h).mono ?_
  rintro _ ⟨reg', flags', mem', rfl, hup, hend⟩
  have hbytes := hup.bytes
  rw [Nat.lt_one_iff.mp hend] at hbytes
  exact ⟨reg', flags', mem', rfl, hup.dest, hbytes, hup.others⟩

theorem words_up_run (hs : (reg₀ 1).toNat + (reg₀ 2).toNat ≤ 2 ^ 32)
    (hle : (reg₀ 0).toNat ≤ (reg₀ 1).toNat) (h : Upwards mem₀ reg₀ reg mem)
    (hsrc : aligned (reg 1) = true) (hinto : aligned (reg 3) = true) :
    Reaches code (fun m => ∃ reg' flags' mem', m = point base 37 reg' flags' mem' ∧
      Moved mem₀ reg₀ reg' mem') (point base 7 reg flags mem) := by
  refine (words_up.run (P := fun reg mem => Upwards mem₀ reg₀ reg mem ∧ aligned (reg 1) = true ∧
    aligned (reg 3) = true) hload (fun _ _ h _ _ => h.2) ?_ ⟨h, hsrc, hinto⟩).trans ?_
  · rintro reg reg' mem mem' ⟨h, hsrc, hinto⟩ hsize hone
    refine ⟨h.around hd hs hle hsize hone, ?_, ?_⟩
    · rw [hone.src]
      exact aligned_add _ _ (by decide) hsrc
    · rw [hone.into]
      exact aligned_add _ _ (by decide) hinto
  · rintro _ ⟨reg', flags', mem', rfl, ⟨hup, -⟩, -⟩
    exact bytes_up_run hload hd hs hle hup

theorem bytes_down_run (hlt : (reg₀ 1).toNat < (reg₀ 0).toNat) (h : Downwards mem₀ reg₀ reg mem) :
    Reaches code (fun m => ∃ reg' flags' mem', m = point base 37 reg' flags' mem' ∧
      Moved mem₀ reg₀ reg' mem') (point base 31 reg flags mem) := by
  refine (bytes_down.run hload (fun _ _ _ hbyte => by cases hbyte)
    (fun _ _ _ _ h hsize hone => h.around hd hlt hsize hone) h).mono ?_
  rintro _ ⟨reg', flags', mem', rfl, hdown, hend⟩
  have hbytes := hdown.bytes
  rw [Nat.lt_one_iff.mp hend] at hbytes
  exact ⟨reg', flags', mem', rfl, hdown.dest, hbytes, hdown.others⟩

theorem words_down_run (hlt : (reg₀ 1).toNat < (reg₀ 0).toNat) (h : Downwards mem₀ reg₀ reg mem)
    (hsrc : aligned (reg 1) = true) (hinto : aligned (reg 3) = true) :
    Reaches code (fun m => ∃ reg' flags' mem', m = point base 37 reg' flags' mem' ∧
      Moved mem₀ reg₀ reg' mem') (point base 25 reg flags mem) := by
  have hback : ∀ a, aligned a = true → aligned (a + BitVec.ofInt 32 (-(4 : Nat))) = true :=
    fun a h => aligned_add a _ (by decide) h
  refine (words_down.run (P := fun reg mem => Downwards mem₀ reg₀ reg mem ∧ aligned (reg 1) = true ∧
    aligned (reg 3) = true) hload (fun _ _ h _ _ => ⟨hback _ h.2.1, hback _ h.2.2⟩) ?_
    ⟨h, hsrc, hinto⟩).trans ?_
  · rintro reg reg' mem mem' ⟨h, hsrc, hinto⟩ hsize hone
    refine ⟨h.around hd hlt hsize hone, ?_, ?_⟩
    · rw [hone.src]
      exact hback _ hsrc
    · rw [hone.into]
      exact hback _ hinto
  · rintro _ ⟨reg', flags', mem', rfl, ⟨hdown, -⟩, -⟩
    exact bytes_down_run hload hd hlt hdown

end Run

/-! ## The routine -/

theorem arrived_none (mem : Mem) (d s : Word) (n : Nat) : arrived mem d s n n = mem := by
  funext x
  exact if_neg (by omega)

/-- The registers in front of the loops, with the place to store at and the test of both addresses. -/
def prepared (reg : Nat → Word) (src into test : Word) : Nat → Word :=
  Function.update (Function.update (Function.update reg 1 src) 3 into) 12 test

theorem prepared_others {src into test : Word} {r : Nat} (hr : 4 ≤ r) (h12 : r ≠ 12) :
    prepared reg src into test r = reg r := by
  unfold prepared
  rw [Function.update_of_ne h12, Function.update_of_ne (by omega), Function.update_of_ne (by omega)]

/-- The three instructions that test whether both addresses are aligned. -/
theorem test_aligned (hload : Loaded code base moves) {k words bytes : Nat} {src into : Word}
    (horr : moves[k]? = some (.dataProcessing 14 12 false 12 3 (.reg 1)))
    (hand : moves[k + 1]? = some (.dataProcessing 14 0 false 12 12 (.imm 3)))
    (hcmp : moves[k + 2]? = some (.dataProcessing 14 10 true 0 12 (.imm 0)))
    (hbne : moves[k + 3]? = some (.branch 1 false 20)) (hwords : words = k + 4)
    (hbytes : bytes = k + 10) (hsrc : reg 1 = src) (hinto : reg 3 = into) :
    Reaches code (fun m => ∃ flags', m = point base bytes (prepared reg src into
        ((into ||| src) &&& 3)) flags' mem ∨ (aligned into = true ∧ aligned src = true ∧
        m = point base words (prepared reg src into ((into ||| src) &&& 3)) flags' mem))
      (point base k reg flags mem) := by
  subst hwords hbytes hsrc hinto
  have hregs : Function.update (Function.update reg 12 (reg 3 ||| reg 1)) 12 ((reg 3 ||| reg 1) &&& 3) =
      prepared reg (reg 1) (reg 3) ((reg 3 ||| reg 1) &&& 3) := by
    unfold prepared
    rw [Function.update_idem, Function.update_eq_self, Function.update_eq_self]
  have hne := (compares_subFlags ((reg 3 ||| reg 1) &&& 3) 0).ne
  refine hload.next (point base (k + 1) (Function.update reg 12 (reg 3 ||| reg 1)) flags mem) horr rfl ?_
  refine hload.next (point base (k + 2) (Function.update (Function.update reg 12 (reg 3 ||| reg 1)) 12
    ((reg 3 ||| reg 1) &&& 3)) flags mem) hand rfl ?_
  rw [hregs]
  refine hload.next (point base (k + 3) _ (subFlags ((reg 3 ||| reg 1) &&& 3) 0) mem) hcmp rfl ?_
  by_cases htest : (reg 3 ||| reg 1) &&& 3 = 0
  · refine hload.next _ hbne (exec_unmet (hne.trans (decide_eq_false (not_not.mpr htest)))) ?_
    obtain ⟨hinto, hsrc⟩ := aligned_of_test htest
    exact .done ⟨_, .inr ⟨hinto, hsrc, rfl⟩⟩
  · exact hload.next (point base (k + 10) _ _ mem) hbne
      (exec_branch (hne.trans (decide_eq_true htest)) (by push_cast; omega)) (.done ⟨_, .inl rfl⟩)

/-- `memmove` leaves the source at the destination, and changes no register from `r4` on but `r12`. -/
theorem moves_spec (hload : Loaded code base moves) (hd : (reg 0).toNat + (reg 2).toNat ≤ 2 ^ 32)
    (hs : (reg 1).toNat + (reg 2).toNat ≤ 2 ^ 32) :
    Reaches code (fun m => ∃ reg' flags' mem', m = back reg' flags' mem' (reg 14) ∧
        Moved mem reg reg' mem') (point base 0 reg flags mem) := by
  have hhi := (compares_subFlags (reg 0) (reg 1)).hi
  have hreturn : ∀ reg' flags' mem', Moved mem reg reg' mem' →
      Reaches code (fun m => ∃ reg' flags' mem', m = back reg' flags' mem' (reg 14) ∧
        Moved mem reg reg' mem') (point base 37 reg' flags' mem') := by
    intro reg' flags' mem' hmoved
    refine hload.next (back reg' flags' mem' (reg' 14)) rfl rfl (.done ⟨reg', flags', mem', ?_, hmoved⟩)
    rw [hmoved.others 14 (by decide) (by decide)]
  refine hload.next (point base 1 reg (subFlags (reg 0) (reg 1)) mem) rfl rfl ?_
  by_cases habove : (reg 1).toNat < (reg 0).toNat
  · refine hload.next (point base 19 reg _ mem) rfl (exec_branch (hhi.trans (decide_eq_true habove)) rfl) ?_
    refine hload.next (point base 20 (Function.update reg 1 (reg 1 + reg 2)) _ mem) rfl rfl ?_
    refine hload.next (point base 21 (Function.update (Function.update reg 1 (reg 1 + reg 2)) 3
      (reg 0 + reg 2)) _ mem) rfl rfl ?_
    have hdown : ∀ test, Downwards mem reg (prepared (Function.update (Function.update reg 1
        (reg 1 + reg 2)) 3 (reg 0 + reg 2)) (reg 1 + reg 2) (reg 0 + reg 2) test) mem := by
      refine fun test => ⟨rfl, Nat.le_refl _, rfl, rfl, (arrived_none ..).symm, fun r hr h12 => ?_⟩
      rw [prepared_others hr h12, Function.update_of_ne (by omega), Function.update_of_ne (by omega)]
    refine (test_aligned hload rfl rfl rfl rfl rfl rfl rfl rfl).trans ?_
    rintro _ ⟨flags', rfl | ⟨hinto, hsrc, rfl⟩⟩
    · refine (bytes_down_run hload hd habove (hdown _)).trans ?_
      rintro _ ⟨reg', flags', mem', rfl, hmoved⟩
      exact hreturn _ _ _ hmoved
    · refine (words_down_run hload hd habove (hdown _) hsrc hinto).trans ?_
      rintro _ ⟨reg', flags', mem', rfl, hmoved⟩
      exact hreturn _ _ _ hmoved
  · have hle := Nat.le_of_not_lt habove
    refine hload.next _ rfl (exec_unmet (hhi.trans (decide_eq_false habove))) ?_
    refine hload.next (point base 3 (Function.update reg 3 (reg 0)) _ mem) rfl rfl ?_
    have hup : ∀ test, Upwards mem reg (prepared (Function.update reg 3 (reg 0)) (reg 1) (reg 0) test)
        mem := by
      intro test
      have hzero : (reg 2).toNat - (prepared (Function.update reg 3 (reg 0)) (reg 1) (reg 0) test 2).toNat =
          0 := Nat.sub_self _
      refine ⟨rfl, Nat.le_refl _, ?_, ?_, ?_, fun r hr h12 => ?_⟩
      · rw [hzero]
        exact (BitVec.add_zero (reg 1)).symm
      · rw [hzero]
        exact (BitVec.add_zero (reg 0)).symm
      · rw [hzero]
        exact (arrived_none ..).symm
      · rw [prepared_others hr h12, Function.update_of_ne (by omega)]
    refine (test_aligned hload rfl rfl rfl rfl rfl rfl rfl rfl).trans ?_
    rintro _ ⟨flags', rfl | ⟨hinto, hsrc, rfl⟩⟩
    · refine (bytes_up_run hload hd hs hle (hup _)).trans ?_
      rintro _ ⟨reg', flags', mem', rfl, hmoved⟩
      exact hreturn _ _ _ hmoved
    · refine (words_up_run hload hd hs hle (hup _) hsrc hinto).trans ?_
      rintro _ ⟨reg', flags', mem', rfl, hmoved⟩
      exact hreturn _ _ _ hmoved

/-- The registers that a call of a block move leaves alone. -/
def movesSaved : List Nat := [4, 5, 6, 7, 8, 9, 10, 11, 13]

theorem offsetOf_moves : offsetOf "memcpy".toList movesSource = some (4 * 0) ∧
    offsetOf "memmove".toList movesSource = some (4 * 0) := by
  decide +kernel

/-- The block moves, called with any two ranges of the address space, come back with the bytes that
the source had at the destination, and with no other byte changed. A word access that is not aligned
would stop the machine, so there is none. -/
theorem moves_correct (code : Code) (m : Machine)
    (hcalls : Calls code movesSource "memmove" m ∨ Calls code movesSource "memcpy" m)
    (hd : (m.reg 0).toNat + (m.reg 2).toNat ≤ 2 ^ 32)
    (hs : (m.reg 1).toNat + (m.reg 2).toNat ≤ 2 ^ 32) :
    Reaches code (fun m' => Returned movesSaved m m' ∧ m'.reg 0 = m.reg 0 ∧
        (∀ i, i < (m.reg 2).toNat →
          m'.mem (m.reg 0 + BitVec.ofNat 32 i) = m.mem (m.reg 1 + BitVec.ofNat 32 i)) ∧
        ∀ a : Word, a.toNat < (m.reg 0).toNat ∨ (m.reg 0).toNat + (m.reg 2).toNat ≤ a.toNat →
          m'.mem a = m.mem a) m := by
  have hspec : ∀ base, Loaded code base moves → Reaches code (fun m' => Returned movesSaved m m' ∧
      m'.reg 0 = m.reg 0 ∧ (∀ i, i < (m.reg 2).toNat →
        m'.mem (m.reg 0 + BitVec.ofNat 32 i) = m.mem (m.reg 1 + BitVec.ofNat 32 i)) ∧
      ∀ a : Word, a.toNat < (m.reg 0).toNat ∨ (m.reg 0).toNat + (m.reg 2).toNat ≤ a.toNat →
        m'.mem a = m.mem a) (point base 0 m.reg m.flags m.mem) := by
    intro base hload
    refine (moves_spec hload hd hs).mono ?_
    rintro _ ⟨reg', flags', _, rfl, hdest, rfl, hothers⟩
    refine ⟨⟨rfl, rfl, fun r hr => ?_⟩, hdest, fun i hi => ?_, fun a ha => ?_⟩
    · have hall : ∀ r ∈ movesSaved, 4 ≤ r ∧ r ≠ 12 := by decide
      exact hothers r (hall r hr).1 (hall r hr).2
    · have hself : m.reg 0 + BitVec.ofNat 32 i - m.reg 0 = BitVec.ofNat 32 i := by
        rw [BitVec.add_comm, BitVec.add_sub_cancel]
      have hnat : (BitVec.ofNat 32 i).toNat = i := by
        rw [BitVec.toNat_ofNat]
        have hlt := (m.reg 2).isLt
        omega
      show arrived m.mem (m.reg 0) (m.reg 1) 0 (m.reg 2).toNat _ = _
      unfold arrived
      rw [hself, hnat, if_pos ⟨Nat.zero_le i, hi⟩]
    · refine if_neg fun hin => ?_
      have hsub := BitVec.toNat_sub a (m.reg 0)
      omega
  rcases hcalls with hcalls | hcalls
  · exact hcalls.reaches codeOf_moves offsetOf_moves.2 hspec
  · exact hcalls.reaches codeOf_moves offsetOf_moves.1 hspec

/-- Five bytes are moved up by one. -/
def movesCall : Machine where
  reg := fun r => if r = 0 then 9 else if r = 1 then 8 else if r = 2 then 5 else 0
  flags := ⟨false, false, false, false⟩
  mem := fun a => a.setWidth 8
  pc := 0
  thumb := false

theorem moves_correct_overlap :
    Reaches (atZero moves) (fun m' => Returned movesSaved movesCall m' ∧ m'.reg 0 = 9 ∧
      (∀ i, i < (movesCall.reg 2).toNat → m'.mem (movesCall.reg 0 + BitVec.ofNat 32 i) =
        movesCall.mem (movesCall.reg 1 + BitVec.ofNat 32 i)) ∧
      ∀ a : Word, a.toNat < (movesCall.reg 0).toNat ∨
        (movesCall.reg 0).toNat + (movesCall.reg 2).toNat ≤ a.toNat →
          m'.mem a = movesCall.mem a) movesCall := by
  have hcalls : Calls (atZero moves) movesSource "memmove" movesCall :=
    ⟨moves, 0, 0, codeOf_moves, offsetOf_moves.2, loaded_atZero (by decide), rfl, rfl⟩
  exact moves_correct (atZero moves) movesCall (Or.inl hcalls) (by decide) (by decide)

end DiscoBsd.Clib
