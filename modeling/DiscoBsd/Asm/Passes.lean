import DiscoBsd.Asm.Assemble
import DiscoBsd.Lib.Stateful

/-!
# The two passes in lockstep

Pass 1 knows neither encodings nor addresses and still has to leave every offset where pass 2
will have it. `Agree` relates the states of the two passes before the same line, and
`agree_line` shows that a line keeps it whatever the line is; the output of pass 2 is then never
out of order, and both passes end with the same sizes. `Extends` collects what an operation of
pass 2 may not undo: bytes written, groups placed, literals promised to a load.
-/

namespace DiscoBsd.Asm

open DiscoBsd.Lib

/-! ## Putting bytes -/

namespace Out

theorem bytes_putc (o : Out) (b : UInt8) : (o.putc b).bytes = o.bytes ++ [b] := by
  simp only [putc]
  split <;> simp [secFlush, bytes]

@[simp] theorem bytes_foldl_putc (o : Out) (bs : List UInt8) :
    (bs.foldl putc o).bytes = o.bytes ++ bs := by
  induction bs generalizing o with
  | nil => simp
  | cons b bs ih => simp [ih, bytes_putc]

@[simp] theorem bytes_secFlush (o : Out) : o.secFlush.bytes = o.bytes := by
  simp [secFlush, bytes]

end Out

@[simp] theorem length_wordBytes (v : Word) (n : Nat) : (wordBytes v n).length = n := by
  simp [wordBytes]

/-- Every section with a file image has as many bytes written as its offset says. -/
def InOrder (s : State) : Prop := ∀ sec, sec ≠ .bss → (s.out sec).bytes.length = s.secoff sec

/-- The state after a `put` that nothing stops. -/
def State.after (s : State) (pass : Pass) (sec : Sec) (v : Word) (n : Nat) : State :=
  (if pass = .two ∧ sec ≠ .bss then s.write sec (wordBytes v n) else s).advance sec n

theorem put_one (s : State) (sec : Sec) (v : Word) (n : Nat) :
    put .one s sec v n =
      if s.secoff sec + n ≤ INTMAX then .ok (s.after .one sec v n) else .error .undefined := by
  simp [put, State.after, bind, Except.bind]

theorem put_two {s : State} (h : InOrder s) (sec : Sec) (v : Word) (n : Nat) :
    put .two s sec v n =
      if s.secoff sec + n ≤ INTMAX then .ok (s.after .two sec v n) else .error .undefined := by
  by_cases hsec : sec = .bss
  · simp [put, State.after, hsec, bind, Except.bind]
  · have hroom : (s.write sec (wordBytes v n)).secoff sec = s.secoff sec := rfl
    simp [put, State.after, hsec, h sec hsec, hroom, bind, Except.bind]

/-- What a `put` that succeeds leaves. -/
theorem put_ok {pass : Pass} {s s' : State} {sec : Sec} {v : Word} {n : Nat}
    (h : put pass s sec v n = .ok s') : s' = s.after pass sec v n := by
  by_cases hw : pass = .two ∧ sec ≠ .bss
  · by_cases ho : (s.out sec).bytes.length = s.secoff sec
    · simp only [put, if_pos hw, ho, ne_eq, not_true, if_false, bind, Except.bind] at h
      split at h
      · rw [State.after, if_pos hw]
        exact (Except.ok.inj h).symm
      · cases h
    · simp only [put, if_pos hw, ne_eq, ho, not_false_iff, if_true, bind, Except.bind] at h
      cases h
  · simp only [put, if_neg hw, bind, Except.bind] at h
    split at h
    · rw [State.after, if_neg hw]
      exact (Except.ok.inj h).symm
    · cases h

section After

variable (s : State) (pass : Pass) (sec : Sec) (v : Word) (n : Nat)

@[simp] theorem after_secoff : (s.after pass sec v n).secoff = (s.advance sec n).secoff := by
  simp only [State.after]
  split <;> rfl

@[simp] theorem after_cursec : (s.after pass sec v n).cursec = s.cursec := by
  simp only [State.after]
  split <;> rfl

@[simp] theorem after_npend : (s.after pass sec v n).npend = s.npend := by
  simp only [State.after]
  split <;> rfl

@[simp] theorem after_pendFirst : (s.after pass sec v n).pendFirst = s.pendFirst := by
  simp only [State.after]
  split <;> rfl

@[simp] theorem after_pend : (s.after pass sec v n).pend = s.pend := by
  simp only [State.after]
  split <;> rfl

@[simp] theorem after_grpOff : (s.after pass sec v n).grpOff = s.grpOff := by
  simp only [State.after]
  split <;> rfl

@[simp] theorem after_cgrp : (s.after pass sec v n).cgrp = s.cgrp := by
  simp only [State.after]
  split <;> rfl

@[simp] theorem after_tab : (s.after pass sec v n).tab = s.tab := by
  simp only [State.after]
  split <;> rfl

@[simp] theorem after_pools : (s.after pass sec v n).pools = s.pools := by
  simp only [State.after]
  split <;> rfl

theorem after_bytes (t : Sec) :
    ((s.after .two sec v n).out t).bytes =
      (s.out t).bytes ++ if t = sec ∧ sec ≠ .bss then wordBytes v n else [] := by
  by_cases hsec : sec = .bss
  · simp [State.after, hsec, State.advance]
  · by_cases ht : t = sec
    · subst ht
      simp [State.after, hsec, State.advance, State.write]
    · simp [State.after, hsec, ht, State.advance, State.write]

end After

/-- A relocation changes only the symbols and the relocations. -/
theorem addrel_eq (env : Env) (s : State) (sec : Sec) (off : Nat) (kind : RelKind) (name : Text) :
    ∃ trf trnext drels, addrel env s sec off kind name =
      { s with
        tab := (s.tab.symRefNew name).1
        trf := trf
        trnext := trnext
        drels := drels } := by
  cases sec with
  | text =>
    simp only [addrel]
    split
    · exact ⟨_, _, _, rfl⟩
    · exact ⟨_, _, _, rfl⟩
  | rodata => exact ⟨_, _, _, rfl⟩
  | data => exact ⟨_, _, _, rfl⟩
  | bss => exact ⟨_, _, _, rfl⟩

/-! ## The output stays in order -/

/-- The errors that say the assembler itself is wrong. -/
def Fatal.internal : Fatal → Bool
  | .outOfOrder => true
  | .sizeDiffers => true
  | _ => false

/-- A result that keeps the output in order and is no internal error. -/
def Orderly (pass : Pass) : Except Fatal State → Prop :=
  Follows (·.internal = false) fun s => pass = .two → InOrder s

variable {pass : Pass} {s : State} {env : Env}

theorem inOrder_after {s : State} (h : InOrder s) (sec : Sec) (v : Word) (n : Nat) :
    InOrder (s.after .two sec v n) := by
  intro t ht
  rw [after_bytes, List.length_append, h t ht, after_secoff]
  by_cases hts : t = sec
  · subst hts
    simp [State.advance, ht]
  · simp [State.advance, hts]

theorem orderly_put (h : pass = .two → InOrder s) (sec : Sec) (v : Word) (n : Nat) :
    Orderly pass (put pass s sec v n) := by
  cases pass with
  | one =>
    rw [put_one]
    split
    · exact fun hp => absurd hp (by decide)
    · exact rfl
  | two =>
    rw [put_two (h rfl)]
    split
    · exact fun _ => inOrder_after (h rfl) sec v n
    · exact rfl

theorem order_addrel (h : pass = .two → InOrder s) (sec : Sec) (off : Nat) (kind : RelKind)
    (name : Text) : pass = .two → InOrder (addrel env s sec off kind name) := by
  obtain ⟨trf, trnext, drels, heq⟩ := addrel_eq env s sec off kind name
  rw [heq]
  exact h

theorem orderly_putLiteral (h : pass = .two → InOrder s) (k : Nat) :
    Orderly pass (putLiteral env pass s k) := by
  simp only [putLiteral]
  split
  · split
    · exact orderly_put (order_addrel h _ _ _ _) _ _ _
    · exact orderly_put h _ _ _
  · exact orderly_put h _ _ _

theorem orderly_putLiterals (n k : Nat) (h : pass = .two → InOrder s) :
    Orderly pass (putLiterals env pass n k s) := by
  induction n generalizing k s with
  | zero => exact h
  | succ n ih =>
    rw [putLiterals]
    exact (orderly_putLiteral h k).bind fun t ht => ih (k + 1) ht

theorem orderly_flushPool (h : pass = .two → InOrder s) : Orderly pass (flushPool env pass s) := by
  rw [flushPool]
  split
  · exact h
  · have hgroup : pass = .two → InOrder (s.group pass) := h
    exact (orderly_putLiterals _ _ hgroup).bind fun t ht => ht

theorem orderly_maybeIsland (h : pass = .two → InOrder s) :
    Orderly pass (maybeIsland env pass s) := by
  rw [maybeIsland]
  split
  · exact orderly_flushPool h
  · exact h

theorem orderly_putDatum (h : pass = .two → InOrder s) (size : Nat) (d : Datum) :
    Orderly pass (putDatum env pass size s d) := by
  cases d with
  | number v => exact orderly_put h _ _ _
  | symbol n ofs =>
    cases pass with
    | one => exact orderly_put h _ 0 _
    | two =>
      simp only [putDatum]
      split
      · exact orderly_put (order_addrel h _ _ _ _) _ _ _
      · exact orderly_put h _ _ _

theorem orderly_putZeros (n : Nat) (h : pass = .two → InOrder s) :
    Orderly pass (putZeros pass n s) := by
  induction n generalizing s with
  | zero => exact h
  | succ n ih =>
    rw [putZeros]
    exact (orderly_put h _ _ _).bind fun t ht => ih ht

theorem orderly_alignLoop (mask fuel : Nat) (h : pass = .two → InOrder s) :
    Orderly pass (alignLoop pass mask fuel s) := by
  induction fuel generalizing s with
  | zero => exact h
  | succ fuel ih =>
    rw [alignLoop]
    split
    · exact h
    · exact (orderly_put h _ _ _).bind fun t ht => ih ht

theorem orderly_doLoad (h : pass = .two → InOrder s) (rd : Int) (x : Literal) :
    Orderly pass (doLoad pass s rd x) := by
  rw [doLoad]
  split
  · exact rfl
  · have hpend : pass = .two → InOrder (s.addPend pass x) := h
    have hcode : Follows (·.internal = false) (fun _ => True) (loadCode s rd pass) := by
      cases pass with
      | one => trivial
      | two =>
        simp only [loadCode]
        split
        · exact rfl
        · split
          · exact rfl
          · trivial
    exact hcode.bind fun w _ => orderly_put hpend _ _ _

theorem orderly_doInstr (h : pass = .two → InOrder s) (mnem ops : Text) :
    Orderly pass (doInstr env pass s mnem ops) := by
  have hcode : Follows (·.internal = false) (fun r => pass = .two → InOrder r.2)
      (instrCode env s mnem ops pass) := by
    cases pass with
    | one => exact h
    | two =>
      simp only [instrCode]
      split
      · exact rfl
      · split
        · exact fun _ => order_addrel h _ _ _ _ rfl
        · exact fun _ => h rfl
      · exact fun _ => h rfl
  rw [doInstr]
  refine hcode.bind fun r hr => (orderly_put hr _ _ _).bind fun t ht => ?_
  split
  · exact orderly_maybeIsland ht
  · exact ht

/-- Every statement keeps the output in order. -/
theorem orderly_doStmt (h : pass = .two → InOrder s) (st : Stmt) :
    Orderly pass (doStmt env pass s st) := by
  cases st with
  | blank => exact h
  | «section» sec => exact h
  | globl name =>
    cases pass with
    | one =>
      simp only [doStmt, doGlobl, Symbols.globl]
      split
      · exact rfl
      · exact h
    | two => exact h
  | align a =>
    simp only [doStmt]
    split
    · exact orderly_alignLoop _ _ h
    · exact rfl
  | data size parts => exact Follows.foldlM (fun ht => orderly_putDatum ht size _) h
  | space n => exact orderly_putZeros _ h
  | ascii bs =>
    cases bs with
    | none => exact rfl
    | some bs => exact Follows.foldlM (fun ht => orderly_put ht _ _ _) h
  | ltorg => exact orderly_flushPool h
  | load rd x => exact orderly_doLoad h rd x
  | loadNoComma => exact rfl
  | instr mnem ops => exact orderly_doInstr h mnem ops

theorem orderly_passLines (h : pass = .two → InOrder s) (ls : List Text) :
    Orderly pass (passLines env pass s ls) := by
  refine Follows.foldlM (fun {t raw} ht => ?_) h
  have hlab : pass = .two → InOrder (defineLabels pass t (parseLine raw).1) := by
    cases pass with
    | one => exact fun hp => absurd hp (by decide)
    | two => exact ht
  exact orderly_doStmt hlab _

/-! ## Lockstep -/

/-- The state of pass 1 and the state of pass 2 before the same line; `G` is where pass 1 will
have placed its groups in the end. -/
structure Agree (G : List Nat) (a b : State) : Prop where
  secoff : b.secoff = a.secoff
  cursec : b.cursec = a.cursec
  npend : b.npend = a.npend
  first : a.npend ≠ 0 → b.pendFirst = a.pendFirst
  groups : b.cgrp = a.grpOff.length
  pools : b.pools.map Prod.fst = a.grpOff
  slots : b.grpOff = G

variable {G : List Nat} {a a' b b' : State} {env' : Env}

theorem agree_put (h : Agree G a b) {sec : Sec} {v w : Word} {n : Nat}
    (ha : put .one a sec v n = .ok a') (hb : put .two b sec w n = .ok b') : Agree G a' b' := by
  obtain rfl := put_ok ha
  obtain rfl := put_ok hb
  exact {
    secoff := by simp [State.advance, h.secoff]
    cursec := by simp [h.cursec]
    npend := by simp [h.npend]
    first := by simpa using h.first
    groups := by simp [h.groups]
    pools := by simp [h.pools]
    slots := by simp [h.slots] }

theorem agree_addrel (h : Agree G a b) (sec : Sec) (off : Nat) (kind : RelKind) (name : Text) :
    Agree G a (addrel env b sec off kind name) := by
  obtain ⟨trf, trnext, drels, heq⟩ := addrel_eq env b sec off kind name
  rw [heq]
  exact ⟨h.secoff, h.cursec, h.npend, h.first, h.groups, h.pools, h.slots⟩

theorem agree_putLiteral (h : Agree G a b) {k : Nat} (ha : putLiteral env .one a k = .ok a')
    (hb : putLiteral env' .two b k = .ok b') : Agree G a' b' := by
  simp only [putLiteral] at ha hb
  split at hb
  · split at hb
    · exact agree_put (agree_addrel h _ _ _ _) ha hb
    · exact agree_put h ha hb
  · exact agree_put h ha hb

theorem agree_putLiterals (n k : Nat) (h : Agree G a b)
    (ha : putLiterals env .one n k a = .ok a') (hb : putLiterals env' .two n k b = .ok b') :
    Agree G a' b' := by
  induction n generalizing k a b with
  | zero =>
    obtain rfl := Except.ok.inj ha
    obtain rfl := Except.ok.inj hb
    exact h
  | succ n ih =>
    rw [putLiterals, bind_eq_ok] at ha hb
    obtain ⟨c, hc, ha⟩ := ha
    obtain ⟨d, hd, hb⟩ := hb
    exact ih (k + 1) (agree_putLiteral h hc hd) ha hb

theorem agree_group (h : Agree G a b) : Agree G (a.group .one) (b.group .two) where
  secoff := h.secoff
  cursec := h.cursec
  npend := h.npend
  first := h.first
  groups := by simp [State.group, h.groups]
  pools := by simp [State.group, h.pools, h.secoff]
  slots := by simp [State.group, h.slots]

theorem agree_flushPool (h : Agree G a b) (ha : flushPool env .one a = .ok a')
    (hb : flushPool env' .two b = .ok b') : Agree G a' b' := by
  rw [flushPool] at ha hb
  rw [h.npend] at hb
  split at ha
  · rw [if_pos ‹_›] at hb
    obtain rfl := Except.ok.inj ha
    obtain rfl := Except.ok.inj hb
    exact h
  · rw [if_neg ‹_›, bind_eq_ok] at hb
    rw [bind_eq_ok] at ha
    obtain ⟨c, hc, ha⟩ := ha
    obtain ⟨d, hd, hb⟩ := hb
    obtain rfl := Except.ok.inj ha
    obtain rfl := Except.ok.inj hb
    have hcd := agree_putLiterals _ _ (agree_group h) hc hd
    exact ⟨hcd.secoff, hcd.cursec, rfl, fun hne => absurd rfl hne, hcd.groups, hcd.pools,
      hcd.slots⟩

/-- Whether there is an island here depends only on what the passes agree on. -/
theorem agree_maybeIsland (h : Agree G a b) (ha : maybeIsland env .one a = .ok a')
    (hb : maybeIsland env' .two b = .ok b') : Agree G a' b' := by
  rw [maybeIsland] at ha hb
  have hsame : (b.npend ≠ 0 ∧ (b.secoff .text : Int) - b.pendFirst > ISLAND) ↔
      (a.npend ≠ 0 ∧ (a.secoff .text : Int) - a.pendFirst > ISLAND) := by
    rw [h.npend, h.secoff]
    refine and_congr_right fun hne => ?_
    rw [h.first hne]
  split at ha
  · rw [if_pos (hsame.mpr ‹_›)] at hb
    exact agree_flushPool h ha hb
  · rw [if_neg (fun hb => ‹¬ _› (hsame.mp hb))] at hb
    obtain rfl := Except.ok.inj ha
    obtain rfl := Except.ok.inj hb
    exact h

theorem agree_putDatum (h : Agree G a b) {size : Nat} {d : Datum}
    (ha : putDatum env .one size a d = .ok a') (hb : putDatum env' .two size b d = .ok b') :
    Agree G a' b' := by
  cases d with
  | number v =>
    simp only [putDatum, h.cursec] at ha hb
    exact agree_put h ha hb
  | symbol n ofs =>
    simp only [putDatum, h.cursec] at ha hb
    split at hb
    · exact agree_put (agree_addrel h _ _ _ _) ha hb
    · exact agree_put h ha hb

theorem agree_putZeros (n : Nat) (h : Agree G a b) (ha : putZeros .one n a = .ok a')
    (hb : putZeros .two n b = .ok b') : Agree G a' b' := by
  induction n generalizing a b with
  | zero =>
    obtain rfl := Except.ok.inj ha
    obtain rfl := Except.ok.inj hb
    exact h
  | succ n ih =>
    rw [putZeros, bind_eq_ok] at ha hb
    obtain ⟨c, hc, ha⟩ := ha
    obtain ⟨d, hd, hb⟩ := hb
    rw [h.cursec] at hd
    exact ih (agree_put h hc hd) ha hb

theorem agree_alignLoop (mask fuel : Nat) (h : Agree G a b)
    (ha : alignLoop .one mask fuel a = .ok a') (hb : alignLoop .two mask fuel b = .ok b') :
    Agree G a' b' := by
  induction fuel generalizing a b with
  | zero =>
    obtain rfl := Except.ok.inj ha
    obtain rfl := Except.ok.inj hb
    exact h
  | succ fuel ih =>
    rw [alignLoop] at ha hb
    rw [h.cursec, h.secoff] at hb
    split at ha
    · rw [if_pos ‹_›] at hb
      obtain rfl := Except.ok.inj ha
      obtain rfl := Except.ok.inj hb
      exact h
    · rw [if_neg ‹_›, bind_eq_ok] at hb
      rw [bind_eq_ok] at ha
      obtain ⟨c, hc, ha⟩ := ha
      obtain ⟨d, hd, hb⟩ := hb
      exact ih (agree_put h hc hd) ha hb

theorem agree_addPend (h : Agree G a b) (x : Literal) :
    Agree G (a.addPend .one x) (b.addPend .two x) where
  secoff := h.secoff
  cursec := h.cursec
  npend := by simp [State.addPend, h.npend]
  first := by
    intro _
    simp only [State.addPend, h.npend, h.secoff]
    split
    · rfl
    · exact h.first ‹_›
  groups := h.groups
  pools := h.pools
  slots := h.slots

theorem agree_doLoad (h : Agree G a b) {rd : Int} {x : Literal}
    (ha : doLoad .one a rd x = .ok a') (hb : doLoad .two b rd x = .ok b') : Agree G a' b' := by
  rw [doLoad] at ha hb
  split at ha
  · cases ha
  · rw [h.npend, if_neg ‹_›, bind_eq_ok] at hb
    rw [bind_eq_ok] at ha
    obtain ⟨v, -, ha⟩ := ha
    obtain ⟨w, -, hb⟩ := hb
    exact agree_put (agree_addPend h x) ha hb

theorem instrCode_two {s t : State} {w : Word} {mnem ops : Text}
    (h : instrCode env s mnem ops .two = .ok (w, t)) :
    t = s ∨ ∃ n, t = addrel env s .text (s.secoff .text) .pc24 n := by
  simp only [instrCode] at h
  split at h
  · cases h
  · split at h
    · exact .inr ⟨_, (congrArg Prod.snd (Except.ok.inj h)).symm⟩
    · exact .inl (congrArg Prod.snd (Except.ok.inj h)).symm
  · exact .inl (congrArg Prod.snd (Except.ok.inj h)).symm

theorem agree_doInstr (h : Agree G a b) {mnem ops : Text}
    (ha : doInstr env .one a mnem ops = .ok a') (hb : doInstr env' .two b mnem ops = .ok b') :
    Agree G a' b' := by
  simp only [doInstr, bind_eq_ok] at ha hb
  obtain ⟨r, hr, c, hc, ha⟩ := ha
  obtain ⟨q, hq, d, hd, hb⟩ := hb
  obtain rfl := Except.ok.inj hr
  have hrel : Agree G a q.2 := by
    obtain hq | ⟨n, hq⟩ := instrCode_two hq
    · rw [hq]
      exact h
    · rw [hq]
      exact agree_addrel h _ _ _ _
  rw [h.cursec] at hd
  have hcd := agree_put hrel hc hd
  rw [hcd.cursec] at hb
  split at ha
  · rw [if_pos ‹_›] at hb
    exact agree_maybeIsland hcd ha hb
  · rw [if_neg ‹_›] at hb
    obtain rfl := Except.ok.inj ha
    obtain rfl := Except.ok.inj hb
    exact hcd

/-- Every statement takes two states that agree to two states that agree. -/
theorem agree_doStmt (h : Agree G a b) {st : Stmt} (ha : doStmt env .one a st = .ok a')
    (hb : doStmt env' .two b st = .ok b') : Agree G a' b' := by
  cases st with
  | blank =>
    obtain rfl := Except.ok.inj ha
    obtain rfl := Except.ok.inj hb
    exact h
  | «section» sec =>
    obtain rfl := Except.ok.inj ha
    obtain rfl := Except.ok.inj hb
    exact ⟨h.secoff, rfl, h.npend, h.first, h.groups, h.pools, h.slots⟩
  | globl name =>
    simp only [doStmt, doGlobl, bind_eq_ok] at ha hb
    obtain ⟨t, -, ha⟩ := ha
    obtain rfl := Except.ok.inj ha
    obtain rfl := Except.ok.inj hb
    exact ⟨h.secoff, h.cursec, h.npend, h.first, h.groups, h.pools, h.slots⟩
  | align n =>
    simp only [doStmt] at ha hb
    split at ha
    · rw [if_pos ‹_›] at hb
      exact agree_alignLoop _ _ h ha hb
    · cases ha
  | data size parts =>
    rw [doStmt, dataBytes] at ha hb
    exact foldlM_rel₂ ha hb h fun _ _ _ _ _ hcd hc hd => agree_putDatum hcd hc hd
  | space n => exact agree_putZeros _ h ha hb
  | ascii bs =>
    cases bs with
    | none => cases ha
    | some bs =>
      rw [doStmt] at ha hb
      refine foldlM_rel₂ ha hb h fun _ _ _ _ _ hcd hc hd => ?_
      rw [hcd.cursec] at hd
      exact agree_put hcd hc hd
  | ltorg => exact agree_flushPool h ha hb
  | load rd x => exact agree_doLoad h ha hb
  | loadNoComma => cases ha
  | instr mnem ops => exact agree_doInstr h ha hb

theorem agree_doLine (h : Agree G a b) {raw : Text} (ha : doLine env .one a raw = .ok a')
    (hb : doLine env' .two b raw = .ok b') : Agree G a' b' := by
  have hlab : Agree G (defineLabels .one a (parseLine raw).1)
      (defineLabels .two b (parseLine raw).1) :=
    ⟨h.secoff, h.cursec, h.npend, h.first, h.groups, h.pools, h.slots⟩
  exact agree_doStmt hlab ha hb

theorem agree_passLines (h : Agree G a b) {ls : List Text}
    (ha : passLines env .one a ls = .ok a') (hb : passLines env' .two b ls = .ok b') :
    Agree G a' b' := by
  rw [passLines] at ha hb
  exact foldlM_rel₂ ha hb h fun _ _ _ _ _ hcd hc hd => agree_doLine hcd hc hd

end DiscoBsd.Asm
