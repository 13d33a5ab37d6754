import DiscoBsd.Asm.RegLists

/-!
# The assembler encodes what was written

`encode` refuses a text, or gives a word that decodes to the instruction the text stands for, on the
texts that have a fault it looks for and on those that stand for an instruction. On all others it
gives a word for something that was not written, or runs into undefined behaviour.
-/

namespace DiscoBsd.Asm

open Lib Lib.Armv4

variable {ops base mnem : Text} {op : Nat} {i : Instr} {w : Word}

/-! ## Mnemonics -/

theorem condCode_lt {c : Nat} {s : Text} (h : condCode s = some c) : c < 15 ∧ s.length = 2 := by
  have hall : ∀ x ∈ condTable, x.2 < 15 ∧ x.1.length = 2 := by decide
  exact hall (s, c) (mem_of_lookup h)

theorem dpOpcode_lookup (h : dpOpcode base = some op) :
    opcodes.lookup base = some op ∧ base.length = 3 := by
  have hall : ∀ x ∈ [("and".toList, 0), ("eor".toList, 1), ("sub".toList, 2), ("rsb".toList, 3),
      ("add".toList, 4), ("orr".toList, 12), ("mov".toList, 13), ("bic".toList, 14),
      ("mvn".toList, 15)], opcodes.lookup x.1 = some x.2 ∧ x.1.length = 3 := by
    decide
  exact hall (base, op) (mem_of_lookup h)

/-- A condition is split off a data-processing mnemonic only. -/
theorem splitCond_cases (mnem : Text) : splitCond mnem = (14, mnem) ∨
    ∃ c op, condCode (mnem.drop 3) = some c ∧ dpOpcode (mnem.take 3) = some op ∧
      splitCond mnem = (c, mnem.take 3) ∧ mnem.length = 5 := by
  unfold splitCond
  dsimp only
  split
  · next c hc =>
      split
      · next hstem =>
          obtain ⟨op, hop⟩ := Option.isSome_iff_exists.mp hstem.2
          have hlen := (dpOpcode_lookup hop).2
          rw [List.length_take] at hlen
          have hfive : mnem.length - 2 = 3 := by omega
          rw [hfive] at hc hop ⊢
          exact Or.inr ⟨c, op, hc, hop, rfl, by omega⟩
      · exact Or.inl rfl
  · exact Or.inl rfl

/-- The mnemonic of a data-processing instruction. -/
theorem dataMnemonic_eq (h : (dpOpcode (splitCond mnem).2).isSome ∨
      (splitCond mnem).2 = "cmp".toList ∨ (splitCond mnem).2 = "cmn".toList) :
    ∃ op, dataMnemonic mnem = some ((splitCond mnem).1, op) ∧
      opcodes.lookup (splitCond mnem).2 = some op ∧ (splitCond mnem).1 < 15 := by
  rcases splitCond_cases mnem with hsplit | ⟨c, op, hc, hop, hsplit, hlen⟩
  · rw [hsplit] at h ⊢
    obtain ⟨op, hop⟩ : ∃ op, opcodes.lookup mnem = some op := by
      rcases h with h | rfl | rfl
      · obtain ⟨op, hop⟩ := Option.isSome_iff_exists.mp h
        exact ⟨op, (dpOpcode_lookup hop).1⟩
      · exact ⟨10, rfl⟩
      · exact ⟨11, rfl⟩
    refine ⟨op, ?_, hop, show 14 < 15 by omega⟩
    unfold dataMnemonic
    rw [hop]
  · rw [hsplit]
    have hlook := (dpOpcode_lookup hop).1
    refine ⟨op, ?_, hlook, (condCode_lt hc).1⟩
    have hnone : opcodes.lookup mnem = none := by
      cases hm : opcodes.lookup mnem with
      | none => rfl
      | some op' =>
          have hall : ∀ x ∈ opcodes, x.1.length = 3 := by decide
          have hthree := hall (mnem, op') (mem_of_lookup hm)
          dsimp only at hthree
          omega
    unfold dataMnemonic
    rw [hnone, condition_eq, hc, hlook]
    rfl

theorem branchMnemonic_isBranch {b : Nat × Bool} (h : branchMnemonic mnem = some b) :
    isBranch mnem = true := by
  unfold branchMnemonic at h
  unfold isBranch
  split at h
  · rfl
  · rfl
  · next rest _ _ =>
      split at h
      · next hc =>
          rw [condition_eq] at hc
          simp [hc]
      · split at h
        · rfl
        · cases h
  · cases h

/-- A branch whose suffix is known. -/
theorem branch_fields (hbranch : isBranch mnem = true)
    (h : mnem = "bl".toList ∨ mnem = "b".toList ∨ (condCode mnem.tail).isSome) :
    ∃ cc link, branchMnemonic mnem = some (cc, link) ∧ cc < 15 ∧
      branchFields mnem = .ok (cc, link.toNat) := by
  by_cases hbl : mnem = "bl".toList
  · subst hbl
    exact ⟨14, true, rfl, by decide, rfl⟩
  · by_cases hb : mnem = "b".toList
    · subst hb
      exact ⟨14, false, rfl, by decide, rfl⟩
    · obtain ⟨cc, hcc⟩ := Option.isSome_iff_exists.mp ((h.resolve_left hbl).resolve_left hb)
      refine ⟨cc, false, ?_, (condCode_lt hcc).1, ?_⟩
      · unfold isBranch at hbranch
        split at hbranch
        · next rest =>
            unfold branchMnemonic
            split
            · next heq => exact absurd heq hb
            · next heq => exact absurd heq hbl
            · next rest' _ _ heq =>
                rw [← (List.cons.inj heq).2]
                rw [List.tail_cons] at hcc
                rw [condition_eq, hcc]
            · next hno => exact absurd rfl (hno rest)
        · cases hbranch
      · unfold branchFields
        rw [if_neg hbl, if_neg hb, hcc]
        rfl

/-! ## Every text -/

/-- The faults that `encode` looks for. -/
def Refused (mnem ops : Text) : Prop :=
  if isBranch mnem then
    if mnem = "bx".toList then ∃ t, (operands ops).head? = some t ∧ regNum t < 0
    else ¬ (mnem = "bl".toList ∨ mnem = "b".toList ∨ (condCode mnem.tail).isSome)
  else
    let base := (splitCond mnem).2
    if (dpOpcode base).isSome ∨ base = "cmp".toList ∨ base = "cmn".toList then
      DataRefused base (operands ops)
    else if base = "lsl".toList ∨ base = "lsr".toList ∨ base = "asr".toList then False
    else if base = "mul".toList then False
    else if base = "push".toList ∨ base = "pop".toList then StackRefused ops
    else if (memOp base).isSome then AccessRefused (operands ops)
    else True

/-- The scratch buffers hold what `encode` copies. -/
def Fits (mnem ops : Text) : Prop :=
  if mnem = "push".toList ∨ mnem = "pop".toList then StackFits ops
  else if (memOp mnem).isSome then AccessFits (operands ops)
  else True

/-- A branch has a target that is known and within reach. -/
def Reached (find : Text → Option Nat) (addr : Nat) (mnem ops : Text) : Prop :=
  ∀ cc link label, branchMnemonic mnem = some (cc, link) → (operands ops).head? = some label →
    ∃ target : Nat, find label = some target ∧ -33554432 ≤ (target : Int) - (addr + 8) ∧
      (target : Int) - (addr + 8) < 33554432

/-- The text is refused, or the word is an encoding of what was written. -/
def Right (find : Text → Option Nat) (addr : Nat) (mnem ops : Text) : Prop :=
  Refuses (encode find addr mnem ops) ∨ ∃ w ext i, encode find addr mnem ops = .ok (w, ext) ∧
    meaning find addr mnem ops = some i ∧ decode w = some i

variable {find : Text → Option Nat} {addr : Nat}

theorem operands_cons (ops : Text) : ∃ t rest, operands ops = t :: rest := by
  have hfields : ∀ (p field : Text) (depth : Int), ∃ t rest, fields depth field p = t :: rest := by
    intro p
    induction p with
    | nil =>
        intro field depth
        exact ⟨field, [], rfl⟩
    | cons c p ih =>
        intro field depth
        unfold fields
        split
        · exact ih _ _
        · split
          · exact ih _ _
          · split
            · exact ⟨field, _, rfl⟩
            · exact ih _ _
  obtain ⟨t, rest, h⟩ := hfields (cstr ops) [] 0
  rw [operands_eq, h]
  exact ⟨trim t, rest.map trim, rfl⟩

/-- Nothing but the faults that are looked for is refused, and they are. -/
theorem refused_iff (hreach : Reached find addr mnem ops) :
    Refuses (encode find addr mnem ops) ↔ Refused mnem ops := by
  have hword : ∀ r : Except EncodeError Word,
      Refuses (do let w ← r; return (w, (none : Option Text))) ↔ Refuses r := by
    intro r
    cases r <;> simp [Refuses, bind, Except.bind, pure, Except.pure]
  obtain ⟨t, rest, hops⟩ := operands_cons ops
  unfold encode Refused
  by_cases hbranch : isBranch mnem = true
  · rw [if_pos hbranch, if_pos hbranch]
    by_cases hbx : mnem = "bx".toList
    · rw [if_pos hbx, if_pos hbx, splitOps_eq, hops]
      by_cases hreg : regNum t < 0 <;>
        simp [Refuses, operand, reqReg, hreg, bind, Except.bind, pure, Except.pure]
    · rw [if_neg hbx, if_neg hbx]
      by_cases hknown : mnem = "bl".toList ∨ mnem = "b".toList ∨ (condCode mnem.tail).isSome
      · obtain ⟨cc, link, hmnem, -, hfields⟩ := branch_fields hbranch hknown
        obtain ⟨target, hfind, -⟩ := hreach cc link t hmnem (by rw [hops]; rfl)
        refine iff_of_false ?_ (not_not.mpr hknown)
        unfold encodeBranch
        rw [splitOps_eq, hops]
        simp [Refuses, operand, hfields, hfind, bind, Except.bind]
      · obtain ⟨hbl, hb, hc⟩ : mnem ≠ "bl".toList ∧ mnem ≠ "b".toList ∧
            condCode mnem.tail = none := by simpa using hknown
        refine iff_of_true ⟨"bad branch", ?_⟩ hknown
        unfold encodeBranch branchFields
        rw [if_neg hbl, if_neg hb, hc]
        rfl
  · rw [if_neg hbranch, if_neg hbranch]
    dsimp only
    split
    · exact (hword _).trans (data_refused _ _ _)
    · split
      · exact (hword _).trans (iff_of_false (shift_not_refused _ _ _) id)
      · split
        · exact (hword _).trans (iff_of_false (mul_not_refused _ _) id)
        · split
          · exact (hword _).trans (stack_refused _ _)
          · split
            · exact (hword _).trans (mem_refused _ _ _)
            · exact iff_of_true ⟨"unknown instruction", rfl⟩ trivial

theorem splitCond_self (h : ¬ (dpOpcode (splitCond mnem).2).isSome) :
    splitCond mnem = (14, mnem) := by
  rcases splitCond_cases mnem with hsplit | ⟨c, op, -, hop, hsplit, -⟩
  · exact hsplit
  · rw [hsplit, hop] at h
    exact absurd rfl h

theorem memOp_texts (h : (memOp base).isSome) :
    ∃ access, accesses.lookup base = some access ∧
      (∀ ops, plainMeaning base ops = accessMeaning access (operands ops)) ∧
      (∀ (find : Text → Option Nat) (addr : Nat) (ops : Text),
        meaning find addr base ops = plainMeaning base ops) ∧
      ∀ (find : Text → Option Nat) (addr : Nat) (ops : Text),
        encode find addr base ops = do let w ← encodeMem 14 base ops; return (w, none) := by
  obtain ⟨fields, hfields⟩ := Option.isSome_iff_exists.mp h
  have hmem := mem_of_lookup hfields
  simp only [List.mem_cons, List.not_mem_nil, or_false, Prod.mk.injEq] at hmem
  rcases hmem with ⟨rfl, -⟩ | ⟨rfl, -⟩ | ⟨rfl, -⟩ | ⟨rfl, -⟩ | ⟨rfl, -⟩ | ⟨rfl, -⟩ | ⟨rfl, -⟩ |
    ⟨rfl, -⟩ <;>
    exact ⟨_, rfl, fun _ => rfl, fun _ _ _ => rfl, fun _ _ _ => rfl⟩

/-- An instruction of the second half of `encode`. -/
theorem plain_encoded (h : plainMeaning mnem ops = some i) (hbranch : isBranch mnem = false)
    (hok : ¬ Refused mnem ops) (hfit : Fits mnem ops) :
    ∃ w, encode find addr mnem ops = .ok (w, none) ∧ decode w = some i := by
  have hword : ∀ {r : Except EncodeError Word}, (∃ w, r = .ok w ∧ decode w = some i) →
      ∃ w, (do let w ← r; return (w, (none : Option Text))) = .ok (w, none) ∧
        decode w = some i := by
    rintro r ⟨w, rfl, hw⟩
    exact ⟨w, rfl, hw⟩
  unfold Refused at hok
  unfold plainMeaning at h
  unfold encode
  rw [hbranch] at hok ⊢
  dsimp only at hok ⊢
  rw [if_neg (by decide)] at hok ⊢
  split at hok
  · next hdata =>
      obtain ⟨op, hmeaning, hlook, hcc⟩ := dataMnemonic_eq hdata
      rw [hmeaning] at h
      rw [if_pos hdata]
      exact hword (data_encoded hcc hlook h hok)
  · next hdata =>
      have hself := splitCond_self (fun h => hdata (Or.inl h))
      rw [hself] at hdata hok ⊢
      dsimp only at hdata hok ⊢
      rw [if_neg hdata]
      split at hok
      · next hshift =>
          rw [if_pos hshift]
          rcases hshift with rfl | rfl | rfl
          · exact hword (shift_encoded rfl h)
          · exact hword (shift_encoded rfl h)
          · exact hword (shift_encoded rfl h)
      · next hshift =>
          rw [if_neg hshift]
          split at hok
          · next hmul =>
              rw [if_pos hmul]
              subst hmul
              exact hword (mul_encoded h)
          · next hmul =>
              rw [if_neg hmul]
              split at hok
              · next hstack =>
                  rw [if_pos hstack]
                  rw [Fits, if_pos hstack] at hfit
                  rcases hstack with rfl | rfl
                  · exact hword (stack_encoded h hfit)
                  · exact hword (stack_encoded h hfit)
              · next hstack =>
                  rw [if_neg hstack]
                  split at hok
                  · next hmem =>
                      rw [if_pos hmem]
                      rw [Fits, if_neg hstack, if_pos hmem] at hfit
                      obtain ⟨access, haccess, hmeaning, -, -⟩ := memOp_texts hmem
                      replace h := (hmeaning ops).symm.trans h
                      exact hword (mem_encoded haccess h hfit)
                  · exact absurd trivial hok

/-- An instruction that was written, and is not refused, is the one that its word says. -/
theorem decode_encode (h : meaning find addr mnem ops = some i) (hok : ¬ Refused mnem ops)
    (hfit : Fits mnem ops) (hreach : Reached find addr mnem ops) :
    ∃ w, encode find addr mnem ops = .ok (w, none) ∧ decode w = some i := by
  unfold meaning at h
  by_cases hbranch : isBranch mnem = true
  · unfold Refused at hok
    unfold encode
    rw [if_pos hbranch] at hok ⊢
    by_cases hbx : mnem = "bx".toList
    · rw [if_pos hbx] at h ⊢
      split at h
      · next rm hops =>
          obtain ⟨r, hr, rfl⟩ := Option.map_eq_some_iff.mp h
          obtain ⟨hreg, hlt⟩ := register_eq hr
          refine ⟨0xE12FFF10 ||| bits r 0, ?_, decode_bx r hlt⟩
          rw [splitOps_eq, hops]
          have hpos : ¬ (r : Int) < 0 := by omega
          simp only [operand, reqReg, hpos, hreg, if_false, List.take_succ_cons,
            List.getElem?_cons_zero, bind, Except.bind, pure, Except.pure]
      · cases h
    · rw [if_neg hbx] at hok h ⊢
      obtain ⟨cc, link, hmnem, hcc, hfields⟩ := branch_fields hbranch (not_not.mp hok)
      rw [hmnem] at h
      dsimp only at h
      unfold branchMeaning at h
      split at h
      · next label hops =>
          obtain ⟨target, hfind, hif⟩ := Option.bind_eq_some_iff.mp h
          dsimp only at hif
          split at hif
          · next hoff =>
              have hcond : 0 ≤ (cc : Int) ∧ (cc : Int) < 15 := ⟨by omega, by omega⟩
              have hlink : (link.toNat : Int) = 0 ∨ (link.toNat : Int) = 1 := by
                cases link
                · exact Or.inl rfl
                · exact Or.inr rfl
              refine ⟨_, ?_, (decode_branch hcond hlink hoff.2 hoff.1).trans ?_⟩
              · unfold encodeBranch
                rw [splitOps_eq, hops, hfields]
                simp [operand, hfind, bind, Except.bind]
              · rw [← Option.some.inj hif]
                cases link <;> rfl
          · cases hif
      · cases h
  · have hbx : mnem ≠ "bx".toList := by
      rintro rfl
      exact hbranch rfl
    have hmnem : branchMnemonic mnem = none := by
      by_contra hsome
      obtain ⟨b, hb⟩ := Option.ne_none_iff_exists'.mp hsome
      exact hbranch (branchMnemonic_isBranch hb)
    rw [if_neg hbx, hmnem] at h
    exact plain_encoded h (Bool.not_eq_true _ ▸ hbranch) hok hfit

/-- A word that encodes what was written came out of buffers that held it. -/
theorem fits_of_right {ext : Option Text} (h : meaning find addr mnem ops = some i)
    (hw : encode find addr mnem ops = .ok (w, ext)) (hi : decode w = some i) : Fits mnem ops := by
  have hword : ∀ {r : Except EncodeError Word},
      (do let w ← r; return (w, (none : Option Text))) = .ok (w, ext) → r = .ok w := by
    intro r hr
    cases r with
    | error e => cases hr
    | ok w' =>
        obtain ⟨rfl, -⟩ := Prod.mk.inj (Except.ok.inj hr)
        rfl
  unfold Fits
  split
  · next hstack =>
      rcases hstack with rfl | rfl
      · have hlist : stackMeaning (decide ("push".toList = "push".toList)) ops = some i := h
        exact stack_fits hlist (hword hw) hi
      · have hlist : stackMeaning (decide ("pop".toList = "push".toList)) ops = some i := h
        exact stack_fits hlist (hword hw) hi
  · next hstack =>
      split
      · next hmem =>
          obtain ⟨access, -, hplain, hmeaning, hencode⟩ := memOp_texts hmem
          rw [hencode] at hw
          rw [hmeaning, hplain] at h
          obtain ⟨t, a, rest, hops, hfit⟩ := mem_ok_fits (hword hw)
          rw [hops] at h
          exact hfit.resolve_left (accessMeaning_head h)
      · exact trivial

/-- The texts for which `encode` does what it is for: those with a fault that it looks for, and
those that stand for an instruction and fit in its buffers. -/
theorem encodes_iff (hreach : Reached find addr mnem ops) :
    Right find addr mnem ops ↔
      Refused mnem ops ∨ ((meaning find addr mnem ops).isSome ∧ Fits mnem ops) := by
  constructor
  · intro h
    rcases h with hrefuse | ⟨w, ext, i, hw, hmeaning, hdecode⟩
    · exact Or.inl ((refused_iff hreach).mp hrefuse)
    · exact Or.inr ⟨by rw [hmeaning]; rfl, fits_of_right hmeaning hw hdecode⟩
  · intro h
    by_cases hok : Refused mnem ops
    · exact Or.inl ((refused_iff hreach).mpr hok)
    · obtain ⟨hsome, hfit⟩ := h.resolve_left hok
      obtain ⟨i, hi⟩ := Option.isSome_iff_exists.mp hsome
      obtain ⟨w, hw, hdecode⟩ := decode_encode hi hok hfit hreach
      exact Or.inr ⟨w, none, i, hw, hi, hdecode⟩

/-- A register with a shift after it is read as the register alone. -/
theorem shifted_operand_dropped :
    (encode (fun _ => none) 0 "mov".toList "r0, r1, lsl #2".toList).toOption = some (0xE1A00001, none) ∧
      decode 0xE1A00001 = some (.dataProcessing 14 13 false 0 0 (.reg 1)) ∧
      ¬ Right (fun _ => none) 0 "mov".toList "r0, r1, lsl #2".toList := by
  have hword : (encode (fun _ => none) 0 "mov".toList "r0, r1, lsl #2".toList).toOption =
      some (0xE1A00001, none) := by decide +kernel
  have hnone : meaning (fun _ => none) 0 "mov".toList "r0, r1, lsl #2".toList = none := by
    decide +kernel
  refine ⟨hword, by decide +kernel, ?_⟩
  rintro (⟨message, h⟩ | ⟨w, ext, i, -, hmeaning, -⟩)
  · rw [h] at hword
    cases hword
  · rw [hnone] at hmeaning
    cases hmeaning

/-- A call, an instruction with a condition, a constant and a named register, and an access with an
address that is written back. -/
theorem encodes_call : Right (fun _ => some 64) 0 "bl".toList "main".toList ∧
    Right (fun _ => some 64) 0 "subne".toList "r1, sp, #4".toList ∧
    Right (fun _ => some 64) 0 "ldrb".toList "r0, [r1, #-4]!".toList := by
  have hreach : ∀ mnem ops, Reached (fun _ => some 64) 0 mnem ops := fun _ _ _ _ _ _ _ =>
    ⟨64, rfl, by decide, by decide⟩
  have hmem : Fits "ldrb".toList "r0, [r1, #-4]!".toList := by
    show AccessFits _
    unfold AccessFits
    decide
  exact ⟨(encodes_iff (hreach _ _)).mpr (Or.inr ⟨by decide +kernel, trivial⟩),
    (encodes_iff (hreach _ _)).mpr (Or.inr ⟨by decide +kernel, trivial⟩),
    (encodes_iff (hreach _ _)).mpr (Or.inr ⟨by decide +kernel, hmem⟩)⟩

end DiscoBsd.Asm
