import DiscoBsd.Asm.Operands

/-!
# Addresses of loads and stores

An address in brackets as it is joined again from its operands and taken apart with `strchr`.
-/

namespace DiscoBsd.Asm

open Lib Lib.Armv4

variable {p ops base : Text} {n : Int} {cc : Nat} {i : Instr}

/-! ## Loads and stores -/

/-- The address of a load or store as it is put together from its operands. -/
def joined (o : List Text) : Text := joinOps (o.take 4).tail

/-- The fault that is found in the operands of a load or store. -/
def AccessRefused : List Text → Prop
  | t :: a :: rest => a.head? ≠ some '=' ∧ (joined (t :: a :: rest)).length < 128 ∧
      (strchr (joined (t :: a :: rest)) '[' = none ∨ strchr (joined (t :: a :: rest)) ']' = none)
  | _ => False

/-- The scratch buffers of a load or store hold the address and what follows its bracket. -/
def AccessFits (o : List Text) : Prop :=
  (joined o).length < 128 ∧
    ∀ rb, strchr (joined o) ']' = some rb → ((joined o).drop (rb + 1)).length < 64

theorem memAddress_refused (a : Text) :
    Refuses (memAddress a) ↔ strchr a '[' = none ∨ strchr a ']' = none := by
  unfold memAddress
  cases hlb : strchr a '[' with
  | none => simp [Refuses]
  | some lb =>
      cases hrb : strchr a ']' with
      | none => simp [Refuses]
      | some rb =>
          simp only [reduceCtorEq, or_self, iff_false]
          rintro ⟨message, h⟩
          split at h
          · revert h
            generalize splitOps ((a.drop (lb + 1)).take (rb - lb - 1)) 4 = inside
            cases hin : operand inside 0 with
            | error e =>
                unfold operand at hin
                split at hin
                · cases hin
                · cases hin
                  exact fun h => by cases h
            | ok r =>
                dsimp only [bind, Except.bind]
                split
                · exact fun h => by cases h
                · split <;> exact fun h => by cases h
          · cases h

/-- An address that is read had room in the buffer for what follows its bracket. -/
theorem memAddress_ok {a : Text} {r : Int × Int × Bool × Bool} (h : memAddress a = .ok r) :
    ∀ rb, strchr a ']' = some rb → (a.drop (rb + 1)).length < 64 := by
  rintro rb hrb
  unfold memAddress at h
  rw [hrb] at h
  cases hlb : strchr a '[' with
  | none =>
      rw [hlb] at h
      cases h
  | some lb =>
      rw [hlb] at h
      dsimp only at h
      split at h
      · next hfit => exact hfit.2
      · cases h

theorem mem_refused (cc : Nat) (base ops : Text) :
    Refuses (encodeMem cc base ops) ↔ AccessRefused (operands ops) := by
  unfold encodeMem
  rw [splitOps_eq]
  generalize operands ops = o
  rcases o with _ | ⟨t, _ | ⟨a, rest⟩⟩
  · simp [AccessRefused, Refuses, operand, bind, Except.bind]
  · simp [AccessRefused, Refuses, operand, bind, Except.bind]
  · rw [AccessRefused]
    have hjoin : joinOps (a :: rest.take 2) = joined (t :: a :: rest) := rfl
    have haddress := memAddress_refused (joined (t :: a :: rest))
    generalize joined (t :: a :: rest) = addrbuf at hjoin haddress ⊢
    generalize (memOp base).getD (false, false, false, false) = fields
    obtain ⟨isload, byte, half, signed⟩ := fields
    by_cases heq : a.head? = some '='
    · simp [Refuses, operand, bind, Except.bind, pure, Except.pure, heq]
    · by_cases hlen : addrbuf.length < 128
      · rw [← haddress]
        cases haddr : memAddress addrbuf with
        | error e => simp [Refuses, operand, bind, Except.bind, hjoin, heq, hlen, haddr]
        | ok r =>
            obtain ⟨rn, off, p, w⟩ := r
            cases half <;>
              simp [Refuses, operand, bind, Except.bind, pure, Except.pure, hjoin, heq, hlen, haddr]
      · simp [Refuses, operand, bind, Except.bind, hjoin, heq, hlen]

theorem mem_ok_fits {word : Word} (h : encodeMem cc base ops = .ok word) :
    ∃ t a rest, operands ops = t :: a :: rest ∧ (a.head? = some '=' ∨ AccessFits (operands ops)) := by
  unfold encodeMem at h
  rw [splitOps_eq] at h
  generalize operands ops = o at h ⊢
  rcases o with _ | ⟨t, _ | ⟨a, rest⟩⟩
  · cases h
  · cases h
  · refine ⟨t, a, rest, rfl, ?_⟩
    by_cases heq : a.head? = some '='
    · exact Or.inl heq
    · refine Or.inr ?_
      unfold AccessFits
      have hjoin : joinOps (a :: rest.take 2) = joined (t :: a :: rest) := rfl
      generalize joined (t :: a :: rest) = addrbuf at hjoin ⊢
      by_cases hlen : addrbuf.length < 128
      · refine ⟨hlen, ?_⟩
        cases haddr : memAddress addrbuf with
        | error e => simp [operand, bind, Except.bind, hjoin, heq, hlen, haddr] at h
        | ok r => exact memAddress_ok haddr
      · simp [operand, bind, Except.bind, hjoin, heq, hlen] at h

theorem strchr_cons {c d : Char} (hc : c ≠ NUL) :
    strchr (c :: p) d = if c = d then some 0 else (strchr p d).map (· + 1) := by
  unfold strchr cstr
  rw [List.takeWhile_cons_of_pos (by simpa using hc), List.idxOf?_cons]
  simp

/-- The first `c` of a text is the first one when more text follows. -/
theorem strchr_append {c : Char} (tail : Text) {k : Nat} (h : strchr p c = some k) :
    k < p.length ∧ strchr (p ++ tail) c = some k := by
  induction p generalizing k with
  | nil => cases h
  | cons x p ih =>
      by_cases hx : x = NUL
      · subst hx
        cases h
      · rw [strchr_cons hx] at h
        rw [List.cons_append, strchr_cons hx]
        split at h
        · next heq =>
            rw [if_pos heq, ← Option.some.inj h]
            exact ⟨Nat.succ_pos _, rfl⟩
        · next hne =>
            obtain ⟨j, hj, rfl⟩ := Option.map_eq_some_iff.mp h
            obtain ⟨hlt, hmore⟩ := ih hj
            rw [if_neg hne, hmore]
            exact ⟨Nat.succ_lt_succ hlt, rfl⟩

/-- The value of a number, up to the bounds of a `long`. -/
def long (n : Int) : Int := max (-(2 ^ 31)) (min n (2 ^ 31 - 1))

/-- What is read between the brackets. -/
theorem addressOf_read {inner : Text} {rn : Nat} {off : Option Int}
    (h : addressOf inner = some (rn, off)) :
    ∃ r rest, splitOps inner 4 = r :: rest ∧ regNum r = rn ∧ rn < 16 ∧
      (rest[0]?.bind parseImm).getD 0 = long (off.getD 0) := by
  rw [splitOps_eq]
  unfold addressOf at h
  split at h
  · next r hops =>
      obtain ⟨k, hk, heq⟩ := Option.map_eq_some_iff.mp h
      obtain ⟨rfl, rfl⟩ := Prod.mk.inj heq
      obtain ⟨hreg, hlt⟩ := register_eq hk
      exact ⟨r, [], by rw [hops]; rfl, hreg, hlt, rfl⟩
  · next r o hops =>
      obtain ⟨k, hk, n, hn, heq⟩ : ∃ k, register r = some k ∧ ∃ n, immediate o = some n ∧
          (k, some n) = (rn, off) := by
        simpa [Option.bind_eq_some_iff] using h
      obtain ⟨rfl, rfl⟩ := Prod.mk.inj heq
      obtain ⟨hreg, hlt⟩ := register_eq hk
      refine ⟨r, [o], by rw [hops]; rfl, hreg, hlt, ?_⟩
      show ((parseImm o).getD 0) = _
      rw [parseImm_immediate hn]
      rfl
  · cases h

/-- What is found of an address in brackets when more text follows. -/
theorem bracketed_parts {a : Text} {rn : Nat} {off : Option Int} {wb : Bool}
    (h : bracketed a = some (rn, off, wb)) (tail : Text) :
    ∃ rb, 0 < rb ∧ strchr (a ++ tail) '[' = some 0 ∧ strchr (a ++ tail) ']' = some rb ∧
      (a ++ tail).drop (rb + 1) = (if wb then ['!'] else []) ++ tail ∧
      ∃ r rest, splitOps (((a ++ tail).drop 1).take (rb - 1)) 4 = r :: rest ∧ regNum r = rn ∧
        rn < 16 ∧ (rest[0]?.bind parseImm).getD 0 = long (off.getD 0) := by
  unfold bracketed at h
  split at h
  · next inner rb hrb =>
      obtain ⟨hlt, hmore⟩ := strchr_append tail hrb
      have hpos : 0 < rb := by
        rw [strchr_cons (by decide), if_neg (by decide)] at hrb
        obtain ⟨j, -, rfl⟩ := Option.map_eq_some_iff.mp hrb
        omega
      have hfirst : strchr ('[' :: inner ++ tail) '[' = some 0 := by
        rw [List.cons_append, strchr_cons (by decide), if_pos rfl]
      have hdrop : ('[' :: inner ++ tail).drop (rb + 1) =
          ('[' :: inner).drop (rb + 1) ++ tail := List.drop_append_of_le_length (by omega)
      have htake : (('[' :: inner ++ tail).drop 1).take (rb - 1) = inner.take (rb - 1) := by
        show (inner ++ tail).take (rb - 1) = _
        rw [List.length_cons] at hlt
        exact List.take_append_of_le_length (by omega)
      dsimp only at h
      generalize ('[' :: inner).drop (rb + 1) = after at h hdrop
      split at h
      · next hafter =>
          obtain ⟨⟨k, o⟩, hinner, heq⟩ := Option.map_eq_some_iff.mp h
          obtain ⟨rfl, rfl, rfl⟩ : k = rn ∧ o = off ∧ decide (after = ['!']) = wb := by
            simpa using heq
          refine ⟨rb, hpos, hfirst, hmore, ?_, ?_⟩
          · rw [hdrop]
            rcases hafter with rfl | rfl <;> rfl
          · rw [htake]
            exact addressOf_read hinner
      · cases h
  · cases h

theorem memAddress_eq {a after r : Text} {rest : List Text} {rb : Nat} (hpos : 0 < rb)
    (hlb : strchr a '[' = some 0) (hrb : strchr a ']' = some rb) (hafter : a.drop (rb + 1) = after)
    (hfit : after.length < 64) (hin : splitOps ((a.drop 1).take (rb - 1)) 4 = r :: rest) :
    memAddress a =
      if after.head? = some '!' then
        .ok (regNum r, (rest[0]?.bind parseImm).getD 0, true, true)
      else match strchr after '#' with
        | some h => .ok (regNum r, (parseImm (after.drop h)).getD 0, false, false)
        | none => .ok (regNum r, (rest[0]?.bind parseImm).getD 0, true, false) := by
  unfold memAddress
  rw [hlb, hrb]
  dsimp only
  rw [hafter, Nat.zero_add, Nat.sub_zero, hin, if_pos ⟨hpos, hfit⟩]
  rfl

/-- The address of a load or store without an offset after the brackets. -/
theorem memAddress_inside {a : Text} {rn : Nat} {off : Option Int} {wb : Bool}
    (h : bracketed a = some (rn, off, wb)) :
    memAddress a = .ok ((rn : Int), long (off.getD 0), true, wb) ∧ rn < 16 := by
  obtain ⟨rb, hpos, hlb, hrb, hafter, r, rest, hin, hreg, hlt, hoff⟩ := bracketed_parts h []
  rw [List.append_nil] at hlb hrb hafter hin
  rw [List.append_nil] at hafter
  refine ⟨?_, hlt⟩
  rw [memAddress_eq hpos hlb hrb hafter (by cases wb <;> decide) hin, hoff, hreg]
  cases wb <;> rfl

/-- The address of a load or store with an offset after the brackets. -/
theorem memAddress_after {a post : Text} {rn : Nat} (h : bracketed a = some (rn, none, false))
    (hpost : immediate post = some n)
    (hfit : ∀ rb, strchr (a ++ ([',', ' '] ++ post)) ']' = some rb →
      ((a ++ ([',', ' '] ++ post)).drop (rb + 1)).length < 64) :
    memAddress (a ++ ([',', ' '] ++ post)) = .ok ((rn : Int), long n, false, false) ∧
      rn < 16 := by
  obtain ⟨rb, hpos, hlb, hrb, hafter, r, rest, hin, hreg, hlt, hoff⟩ :=
    bracketed_parts h ([',', ' '] ++ post)
  refine ⟨?_, hlt⟩
  have hshort := hfit rb hrb
  rw [hafter] at hshort
  obtain ⟨s, rfl, hs⟩ := immediate_eq hpost
  have hhash : strchr (',' :: ' ' :: '#' :: s) '#' = some 2 := by
    rw [strchr_cons (by decide), strchr_cons (by decide), strchr_cons (by decide)]
    rfl
  have himm : parseImm ('#' :: s) = some (long n) := parseImm_immediate hpost
  rw [memAddress_eq hpos hlb hrb hafter hshort hin, hreg]
  simp [hhash, himm]

/-- The word of a load or store from what its mnemonic and its address say. -/
def memWord (cc : Nat) (op : Bool × Bool × Bool × Bool) (rd : Int)
    (address : Int × Int × Bool × Bool) : Word :=
  let (isload, byte, half, signed) := op
  let (rn, off, p, w) := address
  let u := decide (0 ≤ off)
  let off := (off.natAbs : Int)
  if half then
    let sh := if signed then (if byte then 2 else 3) else 1
    bits cc 28 ||| flag p 24 ||| flag u 23 ||| bits 1 22 ||| flag w 21 |||
      flag isload 20 ||| bits rn 16 ||| bits rd 12 ||| bits (off / 16 % 16) 8 ||| bits 1 7 |||
      bits sh 5 ||| bits 1 4 ||| bits (off % 16) 0
  else
    bits cc 28 ||| bits 1 26 ||| flag p 24 ||| flag u 23 ||| flag byte 22 |||
      flag w 21 ||| flag isload 20 ||| bits rn 16 ||| bits rd 12 ||| bits (off % 4096) 0

theorem encodeMem_eq {t a : Text} {rest : List Text} {address : Int × Int × Bool × Bool}
    (hops : operands ops = t :: a :: rest) (ha : a.head? ≠ some '=')
    (hlen : (joined (t :: a :: rest)).length < 128)
    (haddress : memAddress (joined (t :: a :: rest)) = .ok address) :
    encodeMem cc base ops = .ok (memWord cc ((memOp base).getD (false, false, false, false))
      (regNum t) address) := by
  unfold encodeMem memWord
  rw [splitOps_eq, hops]
  have hjoin : joinOps (a :: rest.take 2) = joined (t :: a :: rest) := rfl
  generalize (memOp base).getD (false, false, false, false) = fields
  obtain ⟨isload, byte, half, signed⟩ := fields
  obtain ⟨rn, off, p, w⟩ := address
  cases half <;>
    simp [operand, bind, Except.bind, pure, Except.pure, ha, hjoin, hlen, haddress]

/-- What the fields of a load or store mnemonic are. -/
theorem access_fields {access : Access} (h : accesses.lookup base = some access) :
    (memOp base).isSome = true ∧ match access with
      | .word load byte =>
          (memOp base).getD (false, false, false, false) = (load, byte, false, false)
      | .half load kind => ∃ byte signed,
          (memOp base).getD (false, false, false, false) = (load, byte, true, signed) ∧
          (if signed then (if byte then 2 else 3) else 1 : Int) = kind ∧ 1 ≤ kind ∧ kind < 4 ∧
          (load = true ∨ (kind : Int) = 1) := by
  have hmem := mem_of_lookup h
  simp only [accesses, List.mem_cons, List.not_mem_nil, or_false, Prod.mk.injEq] at hmem
  rcases hmem with ⟨rfl, rfl⟩ | ⟨rfl, rfl⟩ | ⟨rfl, rfl⟩ | ⟨rfl, rfl⟩ | ⟨rfl, rfl⟩ | ⟨rfl, rfl⟩ |
    ⟨rfl, rfl⟩ | ⟨rfl, rfl⟩
  · exact ⟨rfl, rfl⟩
  · exact ⟨rfl, rfl⟩
  · exact ⟨rfl, rfl⟩
  · exact ⟨rfl, rfl⟩
  · exact ⟨rfl, false, false, rfl, rfl, by decide⟩
  · exact ⟨rfl, false, false, rfl, rfl, by decide⟩
  · exact ⟨rfl, true, true, rfl, rfl, by decide⟩
  · exact ⟨rfl, false, true, rfl, rfl, by decide⟩

theorem decode_memWord {access : Access} {pre wb : Bool} {rn rd : Nat}
    (hbase : accesses.lookup base = some access) (h : access.instr pre wb rn rd n = some i)
    (hrn : rn < 16) (hrd : rd < 16) :
    decode (memWord 14 ((memOp base).getD (false, false, false, false)) rd
      (rn, long n, pre, wb)) = some i := by
  obtain ⟨-, hfields⟩ := access_fields hbase
  unfold Access.instr at h
  cases access with
  | word load byte =>
      dsimp only at h hfields
      split at h
      · next hsmall =>
          have hlong : long n = n := by
            unfold long
            omega
          rw [hfields, hlong, ← Option.some.inj h]
          unfold memWord
          exact decode_transfer ⟨by omega, by omega⟩ ⟨by omega, by omega⟩ ⟨by omega, by omega⟩
            ⟨by omega, by omega⟩ rfl (by omega)
      · cases h
  | half load kind =>
      dsimp only at h hfields
      obtain ⟨byte, signed, hop, hsh, hlow, hhigh, hload⟩ := hfields
      split at h
      · next hsmall =>
          have hlong : long n = n := by
            unfold long
            omega
          rw [hop, hlong, ← Option.some.inj h]
          unfold memWord
          dsimp only
          rw [if_pos rfl, hsh]
          exact decode_halfword ⟨by omega, by omega⟩ ⟨by omega, by omega⟩ ⟨by omega, by omega⟩
            ⟨by omega, by omega⟩ ⟨by omega, by omega⟩ hload rfl rfl
      · cases h

theorem bracketed_head {a : Text} {r : Nat × Option Int × Bool} (h : bracketed a = some r) :
    a.head? ≠ some '=' := by
  intro heq
  unfold bracketed at h
  split at h
  · cases heq
  · cases h

/-- The address of an instruction that was written is in brackets. -/
theorem accessMeaning_head {access : Access} {t a : Text} {rest : List Text}
    (h : accessMeaning access (t :: a :: rest) = some i) : a.head? ≠ some '=' := by
  rcases rest with _ | ⟨post, _ | ⟨more, rest⟩⟩
  · obtain ⟨rd, -, r, hr, -⟩ := by
      simpa only [accessMeaning, Option.bind_eq_bind, Option.bind_eq_some_iff] using h
    exact bracketed_head hr
  · obtain ⟨rd, -, n, -, hif⟩ := by
      simpa only [accessMeaning, Option.bind_eq_bind, Option.bind_eq_some_iff] using h
    split at hif
    · next hr => exact bracketed_head hr
    · cases hif
  · cases h

theorem mem_encoded {access : Access} (hbase : accesses.lookup base = some access)
    (h : accessMeaning access (operands ops) = some i) (hfit : AccessFits (operands ops)) :
    ∃ w, encodeMem 14 base ops = .ok w ∧ decode w = some i := by
  unfold AccessFits at hfit
  generalize hops : operands ops = o at h hfit
  unfold accessMeaning at h
  split at h
  · next t a =>
      obtain ⟨rd, hrd, ⟨rn, off, wb⟩, haddr, hinstr⟩ := by
        simpa only [Option.bind_eq_bind, Option.bind_eq_some_iff] using h
      obtain ⟨hreg, hlt⟩ := register_eq hrd
      obtain ⟨hmem, hlt'⟩ := memAddress_inside haddr
      have hjoin : joined [t, a] = a := by
        simp [joined, joinOps, List.intercalate]
      refine ⟨_, encodeMem_eq hops (bracketed_head haddr) hfit.1 (by rw [hjoin]; exact hmem), ?_⟩
      rw [hreg]
      exact decode_memWord hbase hinstr hlt' hlt
  · next t a post =>
      obtain ⟨rd, hrd, n, hn, hinstr⟩ := by
        simpa only [Option.bind_eq_bind, Option.bind_eq_some_iff] using h
      split at hinstr
      · next rn haddr =>
          obtain ⟨hreg, hlt⟩ := register_eq hrd
          have hjoin : joined [t, a, post] = a ++ ([',', ' '] ++ post) := by
            simp [joined, joinOps, List.intercalate]
          obtain ⟨hmem, hlt'⟩ := memAddress_after haddr hn (by rw [← hjoin]; exact hfit.2)
          refine ⟨_, encodeMem_eq hops (bracketed_head haddr) hfit.1 (by rw [hjoin]; exact hmem), ?_⟩
          rw [hreg]
          exact decode_memWord hbase hinstr hlt' hlt
      · cases hinstr
  · cases h

end DiscoBsd.Asm
