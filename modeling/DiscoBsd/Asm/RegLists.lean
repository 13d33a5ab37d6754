import DiscoBsd.Asm.Addresses

/-!
# Lists of registers

The list of a push or a pop, which is copied from between its braces into a buffer of 128 characters
and read there up to the twentieth part.
-/

namespace DiscoBsd.Asm

open Lib Lib.Armv4

variable {ops base : Text} {i : Instr} {w : Word}

/-- The fault that is found in a list of registers. -/
def StackRefused (ops : Text) : Prop := strchr ops '\x7b' = none ∨ strchr ops '\x7d' = none

/-- The text between the first braces. -/
def between (ops : Text) : Text :=
  let b := (strchr ops '\x7b').getD 0
  let e := (strchr ops '\x7d').getD 0
  (ops.drop (b + 1)).take (e - b - 1)

/-- The scratch buffer of a list holds its text, and the parts past the twentieth add nothing. -/
def StackFits (ops : Text) : Prop :=
  (between ops).length < 128 ∧
    listOf ((operands (between ops)).take 20) = listOf (operands (between ops))

theorem rangeOf_eq {ra rz : Nat} :
    (List.range 16).foldl (fun list (k : Nat) =>
      if (ra : Int) ≤ k ∧ (k : Int) ≤ rz then list ||| bits 1 k else list) (0 : Word) =
    rangeOf ra rz := by
  unfold rangeOf
  congr 1
  funext list k
  simp only [Nat.cast_le]

/-- A part that stands for registers is read as these. -/
theorem regPart_read {part : Text} {list : Word} (h : listPart part = some list) :
    regPart part = .ok list := by
  have hlen : ∀ {t r}, register t = some r → t.length < 8 := by
    intro t r hr
    by_contra hlong
    have hnone : regNum t = -1 := by
      unfold regNum
      split <;> grind
    have hreg := (register_eq hr).1
    omega
  unfold listPart at h
  unfold regPart
  split at h
  · next hdash =>
      obtain ⟨r, hr, rfl⟩ := Option.map_eq_some_iff.mp h
      obtain ⟨hreg, hlt⟩ := register_eq hr
      rw [hdash]
      show regRange (regNum part) (max 0 (regNum part)) = _
      unfold regRange
      rw [hreg, if_neg (by omega), max_eq_right (by omega), rangeOf_eq]
  · next k hdash =>
      obtain ⟨ra, hra, rz, hrz, hif⟩ := by
        simpa only [Option.bind_eq_bind, Option.bind_eq_some_iff] using h
      obtain ⟨hrega, hlta⟩ := register_eq hra
      obtain ⟨hregz, hltz⟩ := register_eq hrz
      split at hif
      · next hle =>
          have hk : k < 8 := by
            have hshort := hlen hra
            have hin := (strchr_append [] hdash).1
            rw [List.length_take] at hshort
            omega
          rw [hdash]
          show (if k < 8 ∧ (part.drop (k + 1)).length < 8 then _ else _) = _
          rw [if_pos ⟨hk, hlen hrz⟩, hrega, hregz]
          unfold regRange
          rw [if_neg (by omega), rangeOf_eq, ← Option.some.inj hif]
      · cases hif

theorem listOf_read (parts : List Text) (list start : Word)
    (h : parts.foldlM (fun list part => (listPart part).map (list ||| ·)) start = some list) :
    parts.foldlM (fun list part => do return list ||| (← regPart part)) start =
      (.ok list : Except EncodeError Word) := by
  induction parts generalizing start with
  | nil =>
      rw [List.foldlM_nil] at h ⊢
      exact congrArg Except.ok (Option.some.inj h)
  | cons part parts ih =>
      rw [List.foldlM_cons] at h ⊢
      obtain ⟨next, hnext, hrest⟩ := Option.bind_eq_some_iff.mp h
      obtain ⟨word, hword, rfl⟩ := Option.map_eq_some_iff.mp hnext
      rw [regPart_read hword]
      exact ih _ hrest

theorem rangeOf_lt (ra rz : Nat) : (rangeOf ra rz).toNat < 2 ^ 16 := by
  unfold rangeOf
  refine List.foldlRecOn (motive := fun list : Word => list.toNat < 2 ^ 16) (List.range 16) _
    (by decide) ?_
  intro list hlist k hk
  split
  · have hbit : ∀ k < 16, (bits 1 k).toNat < 2 ^ 16 := by decide
    exact or_lt hlist (hbit k (List.mem_range.mp hk))
  · exact hlist

theorem listPart_lt {part : Text} {list : Word} (h : listPart part = some list) :
    list.toNat < 2 ^ 16 := by
  unfold listPart at h
  split at h
  · obtain ⟨r, -, rfl⟩ := Option.map_eq_some_iff.mp h
    exact rangeOf_lt r r
  · obtain ⟨ra, -, rz, -, hif⟩ := by
      simpa only [Option.bind_eq_bind, Option.bind_eq_some_iff] using h
    split at hif
    · rw [← Option.some.inj hif]
      exact rangeOf_lt ra rz
    · cases hif

theorem listOf_lt (parts : List Text) (list start : Word) (hstart : start.toNat < 2 ^ 16)
    (h : parts.foldlM (fun list part => (listPart part).map (list ||| ·)) start = some list) :
    list.toNat < 2 ^ 16 := by
  induction parts generalizing start with
  | nil =>
      rw [← Option.some.inj h]
      exact hstart
  | cons part parts ih =>
      rw [List.foldlM_cons] at h
      obtain ⟨next, hnext, hrest⟩ := Option.bind_eq_some_iff.mp h
      obtain ⟨word, hword, rfl⟩ := Option.map_eq_some_iff.mp hnext
      exact ih _ (or_lt hstart (listPart_lt hword)) hrest

theorem regPart_not_refused (part : Text) : ¬ Refuses (regPart part) := by
  have hrange : ∀ ra rz, ¬ Refuses (regRange ra rz) := by
    rintro ra rz ⟨message, h⟩
    unfold regRange at h
    split at h <;> cases h
  unfold regPart
  split
  · split
    · exact hrange _ _
    · rintro ⟨message, h⟩
      cases h
  · exact hrange _ _

theorem regParts_not_refused (parts : List Text) (start : Word) : ¬ Refuses
    (parts.foldlM (fun list part => do return list ||| (← regPart part)) start) := by
  induction parts generalizing start with
  | nil =>
      rintro ⟨message, h⟩
      cases h
  | cons part parts ih =>
      rw [List.foldlM_cons]
      cases hpart : regPart part with
      | error e =>
          rintro ⟨message, h⟩
          refine regPart_not_refused part ⟨message, ?_⟩
          rw [hpart]
          exact congrArg Except.error (Except.error.inj h)
      | ok word => exact ih _

theorem regList_refused (ops : Text) : Refuses (regList ops) ↔ StackRefused ops := by
  unfold regList StackRefused
  cases strchr ops '\x7b' with
  | none => simp [Refuses]
  | some b =>
      cases strchr ops '\x7d' with
      | none => simp [Refuses]
      | some e =>
          simp only [reduceCtorEq, or_self, iff_false]
          split
          · exact regParts_not_refused _ _
          · rintro ⟨message, h⟩
            cases h

/-- The word of a push or a pop. -/
def stackWord (push : Bool) (list : Word) : Word :=
  match (List.range 16).filter (fun k => list.getLsbD k) with
  | [only] => (if push then 0xE52D0004 else 0xE49D0004) ||| bits only 12
  | _ => (if push then 0xE92D0000 else 0xE8BD0000) ||| list

theorem encodeStack_eq (base ops : Text) :
    encodeStack base ops = (regList ops).map (stackWord (decide (base = "push".toList))) := by
  unfold encodeStack stackWord
  cases regList ops with
  | error e => rfl
  | ok list =>
      dsimp only [Except.map, bind, Except.bind]
      generalize (List.range 16).filter (fun k => list.getLsbD k) = regs
      rcases regs with _ | ⟨only, _ | ⟨other, regs⟩⟩ <;> rfl

theorem stack_refused (base ops : Text) : Refuses (encodeStack base ops) ↔ StackRefused ops := by
  rw [encodeStack_eq, ← regList_refused]
  cases regList ops <;> simp [Refuses, Except.map]

theorem decode_stackWord (push : Bool) {list : Word} (hlist : list.toNat < 2 ^ 16) :
    decode (stackWord push list) = some (stackInstr push list) := by
  unfold stackWord stackInstr
  have hlow : ∀ k ∈ (List.range 16).filter (fun k => list.getLsbD k), k < 16 := fun k hk =>
    List.mem_range.mp (List.mem_filter.mp hk).1
  generalize (List.range 16).filter (fun k => list.getLsbD k) = regs at hlow ⊢
  rcases regs with _ | ⟨only, _ | ⟨other, regs⟩⟩
  · cases push
    · exact decode_pop hlist
    · exact decode_push hlist
  · have hlt := hlow only (List.mem_singleton_self only)
    cases push
    · exact decode_popOne only hlt
    · exact decode_pushOne only hlt
  · cases push
    · exact decode_pop hlist
    · exact decode_push hlist

/-- The instruction says which registers are in the list. -/
theorem stackInstr_inj {push : Bool} {list list' : Word} (hlist : list.toNat < 2 ^ 16)
    (hlist' : list'.toNat < 2 ^ 16) (h : stackInstr push list = stackInstr push list') :
    list = list' := by
  have hbits : (List.range 16).filter (fun k => list.getLsbD k) =
      (List.range 16).filter (fun k => list'.getLsbD k) → list = list' := by
    intro heq
    refine BitVec.eq_of_getLsbD_eq fun k hk => ?_
    by_cases hlow : k < 16
    · have hmem := congrArg (k ∈ ·) heq
      simp only [List.mem_filter, List.mem_range, hlow, true_and, eq_iff_iff] at hmem
      exact Bool.eq_iff_iff.mpr hmem
    · have hhigh : 2 ^ 16 ≤ 2 ^ k := Nat.pow_le_pow_right (by omega) (by omega)
      rw [BitVec.getLsbD, BitVec.getLsbD, Nat.testBit_lt_two_pow (by omega),
        Nat.testBit_lt_two_pow (by omega)]
  unfold stackInstr at h
  generalize (List.range 16).filter (fun k => list.getLsbD k) = regs at hbits h
  generalize (List.range 16).filter (fun k => list'.getLsbD k) = regs' at hbits h
  rcases regs with _ | ⟨only, _ | ⟨other, regs⟩⟩ <;>
    rcases regs' with _ | ⟨only', _ | ⟨other', regs'⟩⟩ <;> cases push <;>
    simp_all [BitVec.toNat_inj]

/-- The text between braces. -/
theorem braced_parts {inner : Text} (h : braced ops = some inner) :
    inner = between ops ∧ ∃ b e, strchr ops '\x7b' = some b ∧ strchr ops '\x7d' = some e ∧ b < e ∧
      (between ops).length = e - b - 1 := by
  unfold braced at h
  unfold between
  split at h
  · next b e hb he =>
      split at h
      · next hif =>
          rw [hb, he]
          have hlen := (strchr_append [] he).1
          refine ⟨(Option.some.inj h).symm, b, e, rfl, rfl, hif.1, ?_⟩
          show ((ops.drop (b + 1)).take (e - b - 1)).length = _
          rw [List.length_take, List.length_drop]
          omega
      · cases h
  · cases h

/-- The list that is read from the text between braces. -/
theorem regList_eq {inner : Text} (h : braced ops = some inner) :
    regList ops = if (between ops).length < 128 then
        (splitOps (between ops) 20).foldlM (fun list part => do return list ||| (← regPart part)) 0
      else .error .undefined := by
  obtain ⟨-, b, e, hb, he, hlt, hlen⟩ := braced_parts h
  rw [hlen]
  unfold regList between
  rw [hb, he]
  show (if b < e ∧ e - b - 1 < 128 then _ else _) = _
  by_cases hfit : e - b - 1 < 128
  · rw [if_pos ⟨hlt, hfit⟩, if_pos hfit]
    rfl
  · rw [if_neg (fun h => hfit h.2), if_neg hfit]

theorem stack_encoded (h : stackMeaning (decide (base = "push".toList)) ops = some i)
    (hfit : StackFits ops) : ∃ w, encodeStack base ops = .ok w ∧ decode w = some i := by
  obtain ⟨inner, hinner, list, hlist, hi⟩ := by
    simpa only [stackMeaning, Option.bind_eq_bind, Option.bind_eq_some_iff] using h
  obtain ⟨rfl, -⟩ := braced_parts hinner
  rw [← hfit.2] at hlist
  refine ⟨stackWord (decide (base = "push".toList)) list, ?_, ?_⟩
  · rw [encodeStack_eq, regList_eq hinner, if_pos hfit.1, splitOps_eq,
      listOf_read _ list 0 hlist]
    rfl
  · rw [decode_stackWord _ (listOf_lt _ list 0 (by decide) hlist)]
    exact hi

/-- The list of a push or pop that came out right was held by its buffer. -/
theorem stack_fits (h : stackMeaning (decide (base = "push".toList)) ops = some i)
    (hok : encodeStack base ops = .ok w) (hw : decode w = some i) : StackFits ops := by
  obtain ⟨inner, hinner, list, hlist, hi⟩ := by
    simpa only [stackMeaning, Option.bind_eq_bind, Option.bind_eq_some_iff] using h
  obtain ⟨rfl, -⟩ := braced_parts hinner
  rw [encodeStack_eq, regList_eq hinner, splitOps_eq] at hok
  by_cases hlen : (between ops).length < 128
  · refine ⟨hlen, ?_⟩
    rw [if_pos hlen] at hok
    obtain ⟨first, hfirst⟩ : ∃ first, listOf ((operands (between ops)).take 20) = some first := by
      unfold listOf at hlist ⊢
      rw [← List.take_append_drop 20 (operands (between ops)), List.foldlM_append] at hlist
      obtain ⟨first, hfirst, -⟩ := Option.bind_eq_some_iff.mp hlist
      exact ⟨first, hfirst⟩
    rw [listOf_read _ first 0 hfirst] at hok
    have hsmall := listOf_lt _ first 0 (by decide) hfirst
    rw [← Except.ok.inj hok, decode_stackWord _ hsmall, ← hi] at hw
    rw [hfirst, hlist, stackInstr_inj hsmall (listOf_lt _ list 0 (by decide) hlist)
      (Option.some.inj hw)]
  · rw [if_neg hlen] at hok
    cases hok

end DiscoBsd.Asm
