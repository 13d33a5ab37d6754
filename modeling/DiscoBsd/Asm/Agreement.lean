import DiscoBsd.Asm.Passes
import DiscoBsd.Asm.Names

/-!
# What the output holds in the end

`Goes` collects what an operation may not undo: bytes written, what the names refer to, and the
literals that loads were promised. A literal is promised to a load by its group and its index in
the group; until the group is placed it waits in `pend`, and from then on its word is in the
text. With the agreement of the passes this gives `two_pass_agreement`: a load addresses the word
in which its own literal ends up.
-/

namespace DiscoBsd.Asm

open DiscoBsd.Lib

/-! ## Words in the output -/

/-- The word `w` is at a position of some bytes. -/
def WordAt (bs : List UInt8) (p : Nat) (w : Word) : Prop := wordBytes w 4 <+: bs.drop p

theorem WordAt.mono {bs bs' : List UInt8} {p : Nat} {w : Word} (h : WordAt bs p w)
    (hpre : bs <+: bs') : WordAt bs' p w := by
  obtain ⟨rest, rfl⟩ := hpre
  refine h.trans ?_
  rw [List.drop_append]
  exact List.prefix_append _ _

theorem wordAt_end (bs : List UInt8) (w : Word) : WordAt (bs ++ wordBytes w 4) bs.length w := by
  simp [WordAt]

/-- In a sequence of words the word with index `k` is at four times `k`. -/
theorem wordAt_flatMap {α : Type} (l : List α) (f : α → Word) (before : List UInt8) {k : Nat}
    {x : α} (h : l[k]? = some x) :
    WordAt (before ++ l.flatMap fun y => wordBytes (f y) 4) (before.length + 4 * k) (f x) := by
  induction l generalizing before k with
  | nil => simp at h
  | cons y l ih =>
    cases k with
    | zero =>
      simp only [List.getElem?_cons_zero, Option.some.injEq] at h
      subst h
      rw [List.flatMap_cons, ← List.append_assoc]
      exact (wordAt_end before _).mono (List.prefix_append _ _)
    | succ k =>
      rw [List.getElem?_cons_succ] at h
      have hrest := ih (before ++ wordBytes (f y) 4) h
      rw [List.flatMap_cons, ← List.append_assoc]
      rw [List.length_append, length_wordBytes] at hrest
      rwa [show before.length + 4 * (k + 1) = before.length + 4 + 4 * k by omega]

/-! ## What an operation keeps -/

/-- The literal `x` was promised to a load as number `k` of group `g`. -/
inductive Promised (g k : Nat) (x : Literal) (s : State) : Prop where
  | waiting (hg : s.cgrp = g) (hk : k < s.npend) (hx : s.pend k = x)
  | placed (off : Nat) (lits : List Literal) (hpool : s.pools[g]? = some (off, lits))
      (hx : lits[k]? = some x)
      (hword : WordAt (s.out .text).bytes (off + 4 * k) (literalWord s.tab x))

/-- What holds between the operations of a pass. -/
structure Ready (pass : Pass) (s : State) : Prop where
  order : pass = .two → InOrder s
  groups : pass = .two → s.cgrp = s.pools.length
  names : s.tab.Disjoint

/-- What is not undone on the way from one state to another. -/
structure Extends (pass : Pass) (s s' : State) : Prop where
  bytes : ∀ sec, (s.out sec).bytes <+: (s'.out sec).bytes
  find : ∀ n, s'.tab.find n = s.tab.find n
  silent : pass = .one → s'.out = s.out
  kept : pass = .two → ∀ g k x, Promised g k x s → Promised g k x s'

/-- A way from one state to another that undoes nothing. -/
def Goes (pass : Pass) (s s' : State) : Prop := Ready pass s → Ready pass s' ∧ Extends pass s s'

variable {pass : Pass} {s s' s'' : State} {env : Env}

theorem Goes.refl (s : State) : Goes pass s s :=
  fun h => ⟨h, fun _ => List.prefix_refl _, fun _ => rfl, fun _ => rfl, fun _ _ _ _ h => h⟩

theorem Goes.trans (h : Goes pass s s') (h' : Goes pass s' s'') : Goes pass s s'' := by
  intro hready
  obtain ⟨hready', hext⟩ := h hready
  obtain ⟨hready'', hext'⟩ := h' hready'
  refine ⟨hready'', fun sec => (hext.bytes sec).trans (hext'.bytes sec), fun n => ?_,
    fun hp => ?_, fun hp g k x hs => ?_⟩
  · rw [hext'.find, hext.find]
  · rw [hext'.silent hp, hext.silent hp]
  · exact hext'.kept hp g k x (hext.kept hp g k x hs)

theorem literalWord_congr {t t' : Symbols} (h : ∀ n, t'.find n = t.find n) (x : Literal) :
    literalWord t' x = literalWord t x := by
  cases x with
  | number v => rfl
  | symbol n => simp only [literalWord, Symbols.findLabelAddr_eq, h]

/-- Bytes may be added and names created while everything else stays. -/
theorem Promised.mono {g k : Nat} {x : Literal} (h : Promised g k x s)
    (hcgrp : s'.cgrp = s.cgrp) (hnpend : s'.npend = s.npend) (hpend : s'.pend = s.pend)
    (hpools : s'.pools = s.pools) (hbytes : (s.out .text).bytes <+: (s'.out .text).bytes)
    (hfind : ∀ n, s'.tab.find n = s.tab.find n) : Promised g k x s' := by
  cases h with
  | waiting hg hk hx => exact .waiting (hcgrp.trans hg) (hnpend ▸ hk) (hpend ▸ hx)
  | placed off lits hpool hx hword =>
    refine .placed off lits (hpools ▸ hpool) hx ?_
    rw [literalWord_congr hfind]
    exact hword.mono hbytes

theorem goes_put {sec : Sec} {v : Word} {n : Nat} (h : put pass s sec v n = .ok s') :
    Goes pass s s' := by
  intro hready
  obtain rfl := put_ok h
  have hbytes (t : Sec) : (s.out t).bytes <+: ((s.after pass sec v n).out t).bytes := by
    cases pass with
    | one => exact List.prefix_refl _
    | two =>
      rw [after_bytes]
      exact List.prefix_append _ _
  refine ⟨⟨?_, ?_, ?_⟩, hbytes, ?_, ?_, ?_⟩
  · intro hp
    subst hp
    exact inOrder_after (hready.order rfl) sec v n
  · simpa using hready.groups
  · simpa using hready.names
  · simp
  · intro hp
    subst hp
    rfl
  · exact fun _ g k x hx =>
      hx.mono (by simp) (by simp) (by simp) (by simp) (hbytes .text) (by simp)

theorem goes_addrel (s : State) (sec : Sec) (off : Nat) (kind : RelKind) (name : Text) :
    Goes pass s (addrel env s sec off kind name) := by
  intro hready
  obtain ⟨trf, trnext, drels, heq⟩ := addrel_eq env s sec off kind name
  rw [heq]
  have hfind (n : Text) : (s.tab.symRefNew name).1.find n = s.tab.find n :=
    Symbols.find_symRefNew s.tab n name
  exact ⟨⟨hready.order, hready.groups, hready.names.symRefNew name⟩,
    fun _ => List.prefix_refl _, hfind, fun _ => rfl,
    fun _ g k x hx => hx.mono rfl rfl rfl rfl (List.prefix_refl _) hfind⟩

/-! ## Placing a group -/

/-- The words of some literals, one after the other. -/
def literalBytes (tab : Symbols) (xs : List Literal) : List UInt8 :=
  xs.flatMap fun x => wordBytes (literalWord tab x) 4

/-- What writing literals leaves: their words at the end of the text, and all else as it was. -/
structure Placing (s s' : State) (xs : List Literal) : Prop where
  pend : s'.pend = s.pend
  pools : s'.pools = s.pools
  cgrp : s'.cgrp = s.cgrp
  find : ∀ n, s'.tab.find n = s.tab.find n
  text : (s'.out .text).bytes = (s.out .text).bytes ++ literalBytes s.tab xs

theorem placing_after {t : State} (x : Literal) (hpend : t.pend = s.pend) (hpools : t.pools = s.pools)
    (hcgrp : t.cgrp = s.cgrp) (hfind : ∀ n, t.tab.find n = s.tab.find n) (hout : t.out = s.out) :
    Placing s (t.after .two .text (literalWord s.tab x) 4) [x] where
  pend := by simp [hpend]
  pools := by simp [hpools]
  cgrp := by simp [hcgrp]
  find := by simpa using hfind
  text := by simp [after_bytes, hout, literalBytes]

theorem placing_putLiteral {k : Nat} (h : putLiteral env .two s k = .ok s') :
    Placing s s' [s.pend k] := by
  simp only [putLiteral] at h
  split at h
  · rename_i n _ hx
    obtain rfl := put_ok h
    rw [hx]
    split
    · obtain ⟨trf, trnext, drels, heq⟩ := addrel_eq env s .text (s.secoff .text) .abs32 n
      rw [heq]
      exact placing_after _ rfl rfl rfl (fun m => Symbols.find_symRefNew s.tab m n) rfl
    · exact placing_after _ rfl rfl rfl (fun _ => rfl) rfl
  · obtain rfl := put_ok h
    exact placing_after _ rfl rfl rfl (fun _ => rfl) rfl

theorem literalBytes_congr {t t' : Symbols} (h : ∀ n, t'.find n = t.find n) (xs : List Literal) :
    literalBytes t' xs = literalBytes t xs := by
  simp only [literalBytes, literalWord_congr h]

theorem placing_putLiterals (n k : Nat) (h : putLiterals env .two n k s = .ok s') :
    Placing s s' ((List.range' k n).map s.pend) := by
  induction n generalizing k s with
  | zero =>
    obtain rfl := Except.ok.inj h
    exact ⟨rfl, rfl, rfl, fun _ => rfl, by simp [literalBytes]⟩
  | succ n ih =>
    rw [putLiterals, bind_eq_ok] at h
    obtain ⟨t, ht, h⟩ := h
    have hfirst := placing_putLiteral ht
    have hrest := ih (k + 1) h
    refine ⟨hrest.pend.trans hfirst.pend, hrest.pools.trans hfirst.pools,
      hrest.cgrp.trans hfirst.cgrp, fun m => (hrest.find m).trans (hfirst.find m), ?_⟩
    rw [hrest.text, hfirst.text, literalBytes_congr hfirst.find, hfirst.pend, List.range'_succ]
    simp [literalBytes]

theorem goes_putLiteral {k : Nat} (h : putLiteral env pass s k = .ok s') : Goes pass s s' := by
  simp only [putLiteral] at h
  split at h
  · split at h
    · exact (goes_addrel s _ _ _ _).trans (goes_put h)
    · exact goes_put h
  · exact goes_put h

theorem goes_putLiterals (n k : Nat) (h : putLiterals env pass n k s = .ok s') :
    Goes pass s s' := by
  induction n generalizing k s with
  | zero =>
    obtain rfl := Except.ok.inj h
    exact .refl s
  | succ n ih =>
    rw [putLiterals, bind_eq_ok] at h
    obtain ⟨t, ht, h⟩ := h
    exact (goes_putLiteral ht).trans (ih (k + 1) h)

theorem ready_group (h : Ready pass s) : Ready pass (s.group pass) where
  order := h.order
  groups := by
    intro hp
    simp [State.group, hp, h.groups hp]
  names := h.names

/-- The literals of a group that is placed here are found there afterwards. -/
theorem promised_flush {t : State} (hready : Ready .two s)
    (ht : putLiterals env .two s.npend 0 (s.group .two) = .ok t) {g k : Nat} {x : Literal}
    (hx : Promised g k x s) : Promised g k x { t with npend := 0 } := by
  have hplace := placing_putLiterals _ _ ht
  have hpools : t.pools = s.pools ++ [(s.secoff .text, (List.range s.npend).map s.pend)] :=
    hplace.pools
  have htext : (t.out .text).bytes = (s.out .text).bytes ++
      literalBytes s.tab ((List.range s.npend).map s.pend) := by
    rw [List.range_eq_range']
    exact hplace.text
  have hfind (n : Text) : t.tab.find n = s.tab.find n := hplace.find n
  cases hx with
  | waiting hg hk hxk =>
    have hlits : ((List.range s.npend).map s.pend)[k]? = some x := by
      simp [hk, hxk]
    refine .placed (s.secoff .text) ((List.range s.npend).map s.pend) ?_ hlits ?_
    · show t.pools[g]? = _
      rw [hpools, ← hg, hready.groups rfl]
      simp
    · show WordAt (t.out .text).bytes _ (literalWord t.tab x)
      rw [htext, literalWord_congr hfind, ← hready.order rfl .text (by decide)]
      exact wordAt_flatMap _ _ _ hlits
  | placed off lits hpool hxk hword =>
    refine .placed off lits ?_ hxk ?_
    · show t.pools[g]? = _
      rw [hpools, List.getElem?_append_left (List.getElem?_eq_some_iff.mp hpool).1, hpool]
    · show WordAt (t.out .text).bytes _ (literalWord t.tab x)
      rw [htext, literalWord_congr hfind]
      exact hword.mono (List.prefix_append _ _)

/-- Placing a group turns the literals that wait into words of the text. -/
theorem goes_flushPool (h : flushPool env pass s = .ok s') : Goes pass s s' := by
  intro hready
  rw [flushPool] at h
  split at h
  · obtain rfl := Except.ok.inj h
    exact Goes.refl s hready
  · rw [bind_eq_ok] at h
    obtain ⟨t, ht, h⟩ := h
    obtain rfl := Except.ok.inj h
    obtain ⟨hready', hext⟩ := goes_putLiterals _ _ ht (ready_group hready)
    refine ⟨⟨hready'.order, hready'.groups, hready'.names⟩, hext.bytes, hext.find, hext.silent, ?_⟩
    intro hp g k x hx
    subst hp
    exact promised_flush hready ht hx

theorem goes_maybeIsland (h : maybeIsland env pass s = .ok s') : Goes pass s s' := by
  rw [maybeIsland] at h
  split at h
  · exact goes_flushPool h
  · obtain rfl := Except.ok.inj h
    exact .refl s

/-! ## Statements -/

theorem goes_putDatum {size : Nat} {d : Datum} (h : putDatum env pass size s d = .ok s') :
    Goes pass s s' := by
  cases d with
  | number v => exact goes_put h
  | symbol n ofs =>
    cases pass with
    | one => exact goes_put (v := 0) h
    | two =>
      simp only [putDatum] at h
      split at h
      · exact (goes_addrel s _ _ _ _).trans (goes_put h)
      · exact goes_put h

theorem goes_putZeros (n : Nat) (h : putZeros pass n s = .ok s') : Goes pass s s' := by
  induction n generalizing s with
  | zero =>
    obtain rfl := Except.ok.inj h
    exact .refl s
  | succ n ih =>
    rw [putZeros, bind_eq_ok] at h
    obtain ⟨t, ht, h⟩ := h
    exact (goes_put ht).trans (ih h)

theorem goes_alignLoop (mask fuel : Nat) (h : alignLoop pass mask fuel s = .ok s') :
    Goes pass s s' := by
  induction fuel generalizing s with
  | zero =>
    obtain rfl := Except.ok.inj h
    exact .refl s
  | succ fuel ih =>
    rw [alignLoop] at h
    split at h
    · obtain rfl := Except.ok.inj h
      exact .refl s
    · rw [bind_eq_ok] at h
      obtain ⟨t, ht, h⟩ := h
      exact (goes_put ht).trans (ih h)

/-- One more literal waits, behind those that wait already. -/
theorem goes_addPend (s : State) (x : Literal) : Goes pass s (s.addPend pass x) := by
  intro hready
  refine ⟨⟨hready.order, hready.groups, hready.names⟩, fun _ => List.prefix_refl _,
    fun _ => rfl, fun _ => rfl, ?_⟩
  intro hp g k y hy
  subst hp
  cases hy with
  | waiting hg hk hx =>
    have hne : k ≠ s.npend := by omega
    refine .waiting hg ?_ ?_
    · show k < s.npend + 1
      omega
    · simpa [State.addPend, hne] using hx
  | placed off lits hpool hx hword => exact .placed off lits hpool hx hword

theorem goes_doLoad {rd : Int} {x : Literal} (h : doLoad pass s rd x = .ok s') :
    Goes pass s s' := by
  rw [doLoad] at h
  split at h
  · cases h
  · rw [bind_eq_ok] at h
    obtain ⟨w, -, h⟩ := h
    exact (goes_addPend s x).trans (goes_put h)

theorem goes_doInstr {mnem ops : Text} (h : doInstr env pass s mnem ops = .ok s') :
    Goes pass s s' := by
  simp only [doInstr, bind_eq_ok] at h
  obtain ⟨r, hr, t, ht, h⟩ := h
  have hcode : Goes pass s r.2 := by
    cases pass with
    | one =>
      obtain rfl := Except.ok.inj hr
      exact .refl s
    | two =>
      obtain hr | ⟨n, hr⟩ := instrCode_two hr
      · rw [hr]
        exact .refl s
      · rw [hr]
        exact goes_addrel s _ _ _ _
  refine (hcode.trans (goes_put ht)).trans ?_
  split at h
  · exact goes_maybeIsland h
  · obtain rfl := Except.ok.inj h
    exact .refl t

/-- No statement undoes anything. -/
theorem goes_doStmt {st : Stmt} (h : doStmt env pass s st = .ok s') : Goes pass s s' := by
  cases st with
  | blank =>
    obtain rfl := Except.ok.inj h
    exact .refl s
  | «section» sec =>
    obtain rfl := Except.ok.inj h
    exact fun hready => ⟨⟨hready.order, hready.groups, hready.names⟩,
      fun _ => List.prefix_refl _, fun _ => rfl, fun _ => rfl,
      fun _ g k x hx => hx.mono rfl rfl rfl rfl (List.prefix_refl _) fun _ => rfl⟩
  | globl name =>
    cases pass with
    | one =>
      simp only [doStmt, doGlobl, bind_eq_ok] at h
      obtain ⟨t, ht, h⟩ := h
      obtain rfl := Except.ok.inj h
      exact fun hready => ⟨⟨by rintro ⟨⟩, by rintro ⟨⟩, hready.names.globl ht⟩,
        fun _ => List.prefix_refl _, fun n => Symbols.find_globl ht n, fun _ => rfl, by rintro ⟨⟩⟩
    | two =>
      obtain rfl := Except.ok.inj h
      exact .refl s
  | align a =>
    simp only [doStmt] at h
    split at h
    · exact goes_alignLoop _ _ h
    · cases h
  | data size parts =>
    rw [doStmt, dataBytes] at h
    exact foldlM_rel h .refl .trans fun _ _ _ hput => goes_putDatum hput
  | space n => exact goes_putZeros _ h
  | ascii bs =>
    cases bs with
    | none => cases h
    | some bs =>
      rw [doStmt] at h
      exact foldlM_rel h .refl .trans fun _ _ _ hput => goes_put hput
  | ltorg => exact goes_flushPool h
  | load rd x => exact goes_doLoad h
  | loadNoComma => cases h
  | instr mnem ops => exact goes_doInstr h

theorem goes_passLines_two {ls : List Text} (h : passLines env .two s ls = .ok s') :
    Goes .two s s' := by
  rw [passLines] at h
  exact foldlM_rel h .refl .trans fun _ _ _ hline => goes_doStmt hline

/-! ## Labels -/

/-- The labels of a line stand for the place the line starts at. -/
theorem find_defineLabels (h : s.tab.Disjoint) (ls : List Text) :
    (defineLabels .one s ls).tab.Disjoint ∧
      ∀ n, (defineLabels .one s ls).tab.find n =
        if n ∈ ls then some (s.cursec, s.secoff s.cursec) else s.tab.find n := by
  have hfold (t : Symbols) (ht : t.Disjoint) :
      (ls.foldl (fun t n => t.symDefine n s.cursec (s.secoff s.cursec)) t).Disjoint ∧
        ∀ n, (ls.foldl (fun t n => t.symDefine n s.cursec (s.secoff s.cursec)) t).find n =
          if n ∈ ls then some (s.cursec, s.secoff s.cursec) else t.find n := by
    induction ls generalizing t with
    | nil => exact ⟨ht, fun n => by simp⟩
    | cons m ls ih =>
      obtain ⟨hdis, hfind⟩ := ih _ (ht.symDefine m s.cursec (s.secoff s.cursec))
      refine ⟨hdis, fun n => ?_⟩
      rw [List.foldl_cons, hfind n, Symbols.find_symDefine ht]
      by_cases hn : n ∈ ls
      · simp [hn]
      · by_cases hm : n = m <;> simp [hn, hm]
  exact hfold s.tab h

theorem doLine_one {raw : Text} (h : doLine env .one s raw = .ok s') (hdis : s.tab.Disjoint) :
    s'.tab.Disjoint ∧ s'.out = s.out ∧
      ∀ n, s'.tab.find n =
        if n ∈ (parseLine raw).1 then some (s.cursec, s.secoff s.cursec) else s.tab.find n := by
  obtain ⟨hlab, hfind⟩ := find_defineLabels hdis (parseLine raw).1
  obtain ⟨hready, hext⟩ := goes_doStmt h ⟨nofun, nofun, hlab⟩
  refine ⟨hready.names, hext.silent rfl, fun n => ?_⟩
  rw [hext.find n, hfind n]

/-- Pass 1 writes nothing, and changes only the names that it meets as labels. -/
theorem passLines_one {ls : List Text} (h : passLines env .one s ls = .ok s')
    (hdis : s.tab.Disjoint) :
    s'.tab.Disjoint ∧ s'.out = s.out ∧
      ∀ n, (∀ raw ∈ ls, n ∉ (parseLine raw).1) → s'.tab.find n = s.tab.find n := by
  induction ls generalizing s with
  | nil =>
    obtain rfl := Except.ok.inj h
    exact ⟨hdis, rfl, fun _ _ => rfl⟩
  | cons raw ls ih =>
    rw [passLines, List.foldlM_cons, bind_eq_ok] at h
    obtain ⟨t, ht, h⟩ := h
    obtain ⟨hdis', hout, hfind⟩ := doLine_one ht hdis
    obtain ⟨hdis'', hout', hfind'⟩ := ih h hdis'
    refine ⟨hdis'', hout'.trans hout, fun n hn => ?_⟩
    rw [hfind' n fun r hr => hn r (List.mem_cons_of_mem _ hr), hfind n,
      if_neg (hn raw List.mem_cons_self)]

/-! ## Loads -/

/-- The address an instruction at `pc` loads from, when it is an unconditional load of a word
relative to the program counter. -/
def ldrTarget (w : Word) (pc : Nat) : Option Int :=
  if w &&& 0xFF7F0000 = 0xE51F0000 then
    some (if w.getLsbD 23 then (pc : Int) + 8 + (w &&& 0xFFF).toNat
      else (pc : Int) + 8 - (w &&& 0xFFF).toNat)
  else none

/-- The part of a load word that does not depend on the distance. -/
def loadBase (rd : Int) (neg : Bool) : Word :=
  (if neg then 0xE5100000 else 0xE5900000) ||| bits 15 16 ||| bits rd 12

theorem loadBase_fields {rd : Int} (hrd : 0 ≤ rd ∧ rd < 16) (neg : Bool) :
    loadBase rd neg &&& 0xFF7F0000 = 0xE51F0000 ∧ loadBase rd neg &&& 0xFFF = 0 ∧
      (loadBase rd neg).getLsbD 23 = !neg := by
  obtain ⟨h0, h16⟩ := hrd
  interval_cases rd <;> cases neg <;> decide

theorem loadWord_eq (rd off : Int) :
    loadWord rd off = loadBase rd (decide (off < 0)) ||| (BitVec.ofNat 32 off.natAbs &&& 0xFFF) := by
  simp only [loadWord, loadBase, decide_eq_true_eq]

/-- The fields of a load word do not overlap. -/
theorem loadWord_fields {rd off : Int} (hrd : 0 ≤ rd ∧ rd < 16) (hoff : off.natAbs ≤ 4095) :
    loadWord rd off &&& 0xFF7F0000 = 0xE51F0000 ∧
      (loadWord rd off &&& 0xFFF).toNat = off.natAbs ∧
      (loadWord rd off).getLsbD 23 = !decide (off < 0) := by
  obtain ⟨hop, himm, hup⟩ := loadBase_fields hrd (decide (off < 0))
  have hmask (m : Word) : loadWord rd off &&& m =
      (loadBase rd (decide (off < 0)) &&& m) ||| (BitVec.ofNat 32 off.natAbs &&& (0xFFF &&& m)) := by
    rw [loadWord_eq, BitVec.and_or_distrib_right, BitVec.and_assoc]
  refine ⟨?_, ?_, ?_⟩
  · rw [hmask, hop]
    have hzero : (0xFFF : Word) &&& 0xFF7F0000 = 0 := by decide
    rw [hzero]
    simp
  · rw [hmask, himm]
    have hand : off.natAbs &&& 4095 = off.natAbs := by
      rw [show 4095 = 2 ^ 12 - 1 from rfl, Nat.and_two_pow_sub_one_eq_mod]
      omega
    have hmod : off.natAbs % 4294967296 = off.natAbs := by omega
    simp [hmod, hand]
  · rw [loadWord_eq, BitVec.getLsbD_or, hup]
    simp

theorem ldrTarget_loadWord {rd : Int} {slot pc : Nat} (hrd : 0 ≤ rd ∧ rd < 16)
    (hoff : (loadOffset slot pc).natAbs ≤ 4095) :
    ldrTarget (loadWord rd (loadOffset slot pc)) pc = some (slot : Int) := by
  obtain ⟨hop, himm, hup⟩ := loadWord_fields hrd hoff
  have heq : (slot : Int) = pc + 8 + loadOffset slot pc := by
    simp only [loadOffset]
    omega
  rw [ldrTarget, if_pos hop, hup, himm, Option.some.injEq]
  by_cases hneg : loadOffset slot pc < 0
  · have habs := Int.ofNat_natAbs_of_nonpos hneg.le
    simp only [hneg, decide_true, Bool.not_true, Bool.false_eq_true, if_false, habs]
    omega
  · have habs := Int.natAbs_of_nonneg (not_lt.mp hneg)
    simp only [hneg, decide_false, Bool.not_false, if_true, habs]
    omega

/-- What a load of pass 2 leaves. -/
theorem doLoad_two {rd : Int} {x : Literal} (h : doLoad .two s rd x = .ok s') :
    ∃ base, s.grpOff[s.cgrp]? = some base ∧
      (loadOffset (base + 4 * s.npend) (s.secoff .text)).natAbs ≤ 4095 ∧
      s' = (s.addPend .two x).after .two .text
        (loadWord rd (loadOffset (base + 4 * s.npend) (s.secoff .text))) 4 := by
  rw [doLoad] at h
  split at h
  · cases h
  · rw [bind_eq_ok] at h
    obtain ⟨w, hw, h⟩ := h
    obtain rfl := put_ok h
    simp only [loadCode] at hw
    split at hw
    · cases hw
    · rename_i base hbase
      split at hw
      · cases hw
      · rename_i hoff
        obtain rfl := Except.ok.inj hw
        exact ⟨base, hbase, by omega, rfl⟩

/-! ## The whole run -/

/-- The state `f` in the end has the name `n` where the line was that pass 2 met in state `b`:
at the offset of the first byte the section gets from there on. -/
def LabelHolds (env : Env) (f b : State) (n : Text) : Prop :=
  f.tab.find n = some (b.cursec, env.secbase b.cursec + b.secoff b.cursec) ∧
    (b.cursec ≠ .bss → (b.out b.cursec).bytes <+: (f.out b.cursec).bytes ∧
      (b.out b.cursec).bytes.length = b.secoff b.cursec)

/-- The load that pass 2 met in state `b` is in the text in the end, and it addresses, over a
distance of at most 4095, the word in which its literal was placed with a group. -/
def LoadHolds (f b : State) (x : Literal) : Prop :=
  ∃ (w : Word) (slot : Nat), WordAt (f.out .text).bytes (b.secoff .text) w ∧
    ldrTarget w (b.secoff .text) = some (slot : Int) ∧
    (loadOffset slot (b.secoff .text)).natAbs ≤ 4095 ∧
    (∃ (g off : Nat) (lits : List Literal) (k : Nat), f.pools[g]? = some (off, lits) ∧
      lits[k]? = some x ∧ slot = off + 4 * k) ∧
    WordAt (f.out .text).bytes slot (literalWord f.tab x)

theorem passLines_append {pass : Pass} {s f : State} {pre post : List Text}
    (h : passLines env pass s (pre ++ post) = .ok f) :
    ∃ t, passLines env pass s pre = .ok t ∧ passLines env pass t post = .ok f := by
  rw [passLines, List.foldlM_append, bind_eq_ok] at h
  exact h

theorem passLines_cons {pass : Pass} {s f : State} {raw : Text} {rest : List Text}
    (h : passLines env pass s (raw :: rest) = .ok f) :
    ∃ t, doLine env pass s raw = .ok t ∧ passLines env pass t rest = .ok f := by
  rw [passLines, List.foldlM_cons, bind_eq_ok] at h
  exact h

theorem disjoint_start : State.start.tab.Disjoint := nofun

theorem agree_restart (objmode : Bool) (s₁ : State) :
    Agree s₁.grpOff .start (s₁.restart objmode) :=
  ⟨rfl, rfl, rfl, fun h => absurd rfl h, rfl, rfl, rfl⟩

/-- What pass 1 leaves for pass 2 is ready. -/
theorem ready_restart {objmode : Bool} {src : Text} {s₁ : State}
    (h : passOne objmode src = .ok s₁) : Ready .two (s₁.restart objmode) := by
  rw [passOne, bind_eq_ok] at h
  obtain ⟨t, ht, h⟩ := h
  obtain ⟨hdis, hout, -⟩ := passLines_one ht disjoint_start
  obtain ⟨hready, hext⟩ := goes_flushPool h ⟨nofun, nofun, hdis⟩
  refine ⟨fun _ sec _ => ?_, fun _ => rfl, hready.names.rebase _⟩
  show (s₁.out sec).bytes.length = 0
  rw [hext.silent rfl, hout]
  rfl

/-- After `flush_pool` nothing waits. -/
theorem npend_flushPool {pass : Pass} {s f : State} (h : flushPool env pass s = .ok f) :
    f.npend = 0 := by
  rw [flushPool] at h
  split at h
  · obtain rfl := Except.ok.inj h
    assumption
  · rw [bind_eq_ok] at h
    obtain ⟨t, -, h⟩ := h
    obtain rfl := Except.ok.inj h
    rfl

/-- A label that is not defined again is recorded where its line stands in pass 1. -/
theorem find_passOne {objmode : Bool} {src : Text} {s₁ a : State} {pre rest : List Text}
    {raw n : Text} (h : passOne objmode src = .ok s₁) (hsrc : linesOf src = pre ++ raw :: rest)
    (ha : passLines (env₁ objmode) .one .start pre = .ok a) (hn : n ∈ (parseLine raw).1)
    (hlast : ∀ r ∈ rest, n ∉ (parseLine r).1) :
    s₁.tab.find n = some (a.cursec, a.secoff a.cursec) := by
  rw [passOne, bind_eq_ok] at h
  obtain ⟨t, ht, h⟩ := h
  rw [hsrc] at ht
  obtain ⟨a', ha', ht⟩ := passLines_append ht
  obtain rfl : a = a' := Except.ok.inj (ha.symm.trans ha')
  obtain ⟨c, hc, ht⟩ := passLines_cons ht
  obtain ⟨hdis, -, -⟩ := passLines_one ha disjoint_start
  obtain ⟨hdis', -, hline⟩ := doLine_one hc hdis
  obtain ⟨hdis'', -, hrest⟩ := passLines_one ht hdis'
  obtain ⟨-, hext⟩ := goes_flushPool h ⟨nofun, nofun, hdis''⟩
  rw [hext.find n, hrest n hlast, hline n, if_pos hn]

/-- A load of pass 2 finds its literal where it looks for it, once nothing waits any more. -/
theorem load_holds {G : List Nat} {b f : State} {rd : Int} {x : Literal} {c : State}
    (hb : Ready .two b) (hload : doLoad .two b rd x = .ok c) (hgo : Goes .two c f)
    (hrd : 0 ≤ rd ∧ rd < 16) (hslots : b.grpOff = G) (hpools : f.pools.map Prod.fst = G)
    (hnone : f.npend = 0) : LoadHolds f b x := by
  obtain ⟨base, hbase, hoff, hc⟩ := doLoad_two hload
  obtain ⟨hready, hext⟩ := goes_doLoad hload hb
  obtain ⟨-, hend⟩ := hgo hready
  have hcode : WordAt (c.out .text).bytes (b.secoff .text)
      (loadWord rd (loadOffset (base + 4 * b.npend) (b.secoff .text))) := by
    rw [hc, after_bytes, ← hb.order rfl .text (by decide)]
    exact wordAt_end (b.out .text).bytes _
  have hpromise : Promised b.cgrp b.npend x c := by
    rw [hc]
    exact .waiting (by simp [State.addPend]) (by simp [State.addPend]) (by simp [State.addPend])
  obtain hg | ⟨off, lits, hpool, hx, hword⟩ := hend.kept rfl _ _ _ hpromise
  · omega
  · -- pass 2 has placed the group where pass 1 said it would
    have hplace : off = base := by
      rw [hslots, ← hpools, List.getElem?_map, hpool] at hbase
      exact Option.some.inj hbase
    subst hplace
    exact ⟨_, off + 4 * b.npend, hcode.mono (hend.bytes .text), ldrTarget_loadWord hrd hoff, hoff,
      ⟨b.cgrp, off, lits, b.npend, hpool, hx, rfl⟩, hword⟩

theorem bytes_flushed (s : State) (sec : Sec) :
    (s.flushed.out sec).bytes = (s.out sec).bytes := by
  simp only [State.flushed]
  split
  · rfl
  · exact Out.bytes_secFlush _

theorem assemble_ok {objmode : Bool} {src : Text} {f : State} (h : assemble objmode src = .ok f) :
    ∃ s₁ s₂, passOne objmode src = .ok s₁ ∧ passTwo objmode src s₁ = .ok s₂ ∧ f = s₂.flushed := by
  simp only [assemble, bind_eq_ok] at h
  obtain ⟨s₁, h₁, s₂, h₂, h⟩ := h
  split at h
  · exact ⟨s₁, s₂, h₁, h₂, (Except.ok.inj h).symm⟩
  · cases h

theorem agree_end {objmode : Bool} {src : Text} {s₁ s₂ : State} (h₁ : passOne objmode src = .ok s₁)
    (h₂ : passTwo objmode src s₁ = .ok s₂) : Agree s₁.grpOff s₁ s₂ := by
  rw [passOne, bind_eq_ok] at h₁
  rw [passTwo, bind_eq_ok] at h₂
  obtain ⟨a, ha, hfa⟩ := h₁
  obtain ⟨b, hb, hfb⟩ := h₂
  exact agree_flushPool (agree_passLines (agree_restart objmode s₁) ha hb) hfa hfb

/-- Neither internal check can fail, on any source. -/
theorem assemble_not_internal (objmode : Bool) (src : Text) :
    Follows (·.internal = false) (fun _ => True) (assemble objmode src) := by
  have hone : Orderly .one (passOne objmode src) := by
    rw [passOne]
    have hstart : Pass.one = .two → InOrder .start := fun h => Pass.noConfusion h
    exact (orderly_passLines hstart _).bind fun t ht => orderly_flushPool ht
  cases h₁ : passOne objmode src with
  | error e =>
    rw [h₁] at hone
    have herr : assemble objmode src = .error e := by simp [assemble, h₁, bind, Except.bind]
    rw [herr]
    exact hone
  | ok s₁ =>
    have htwo : Orderly .two (passTwo objmode src s₁) := by
      rw [passTwo]
      exact (orderly_passLines (ready_restart h₁).order _).bind fun t ht => orderly_flushPool ht
    cases h₂ : passTwo objmode src s₁ with
    | error e =>
      rw [h₂] at htwo
      have herr : assemble objmode src = .error e := by
        simp [assemble, h₁, h₂, bind, Except.bind]
      rw [herr]
      exact htwo
    | ok s₂ =>
      have hoff := (agree_end h₁ h₂).secoff
      simp [assemble, h₁, h₂, bind, Except.bind, hoff, Follows]

/-- On every source the internal checks of the assembler hold. When it succeeds, the passes agree
before every line on the offsets, the literals that wait and the section; pass 2 places its
groups where pass 1 did; a label that is not defined again is recorded at the offset of the byte
behind it; and a load addresses the word that holds its literal. -/
theorem two_pass_agreement (objmode : Bool) (src : Text) :
    assemble objmode src ≠ .error .outOfOrder ∧ assemble objmode src ≠ .error .sizeDiffers ∧
      ∀ f, assemble objmode src = .ok f →
        ∃ s₁, passOne objmode src = .ok s₁ ∧ f.pools.map Prod.fst = s₁.grpOff ∧
          ∀ pre post, linesOf src = pre ++ post →
            ∃ a b, passLines (env₁ objmode) .one .start pre = .ok a ∧
              passLines (env₂ objmode s₁) .two (s₁.restart objmode) pre = .ok b ∧
              a.secoff = b.secoff ∧ a.npend = b.npend ∧ a.cursec = b.cursec ∧
              ∀ raw rest, post = raw :: rest →
                (∀ n ∈ (parseLine raw).1, (∀ r ∈ rest, n ∉ (parseLine r).1) →
                  LabelHolds (env₂ objmode s₁) f b n) ∧
                ∀ rd x, (parseLine raw).2 = .load rd x → 0 ≤ rd ∧ rd < 16 → LoadHolds f b x := by
  have hint := assemble_not_internal objmode src
  refine ⟨fun h => ?_, fun h => ?_, fun f hf => ?_⟩
  · rw [h] at hint
    cases hint
  · rw [h] at hint
    cases hint
  · obtain ⟨s₁, s₂, h₁, h₂, rfl⟩ := assemble_ok hf
    have hpools : s₂.pools.map Prod.fst = s₁.grpOff := (agree_end h₁ h₂).pools
    refine ⟨s₁, h₁, hpools, fun pre post hsrc => ?_⟩
    have hp₁ := h₁
    rw [passOne, bind_eq_ok] at hp₁
    rw [passTwo, bind_eq_ok] at h₂
    obtain ⟨t₁, ht₁, -⟩ := hp₁
    obtain ⟨t₂, ht₂, hend⟩ := h₂
    rw [hsrc] at ht₁ ht₂
    obtain ⟨a, ha, -⟩ := passLines_append ht₁
    obtain ⟨b, hb, hpost⟩ := passLines_append ht₂
    have hab := agree_passLines (agree_restart objmode s₁) ha hb
    have hready := ready_restart h₁
    obtain ⟨hreadyb, hextb⟩ := goes_passLines_two hb hready
    have hgo : Goes .two b s₂ := (goes_passLines_two hpost).trans (goes_flushPool hend)
    refine ⟨a, b, ha, hb, hab.secoff.symm, hab.npend.symm, hab.cursec.symm, ?_⟩
    rintro raw rest rfl
    obtain ⟨-, hext⟩ := hgo hreadyb
    refine ⟨fun n hn hlast => ⟨?_, fun hbss => ⟨?_, hreadyb.order rfl _ hbss⟩⟩, ?_⟩
    · have hfind : s₂.tab.find n = (s₁.restart objmode).tab.find n := by
        rw [hext.find, hextb.find]
      show s₂.tab.find n = _
      rw [hfind, State.restart, Symbols.find_rebase, find_passOne h₁ hsrc ha hn hlast, hab.cursec,
        hab.secoff, Nat.add_comm]
      rfl
    · rw [bytes_flushed]
      exact hext.bytes _
    · intro rd x hx hrd
      obtain ⟨c, hc, hrest⟩ := passLines_cons hpost
      have hload : doLoad .two b rd x = .ok c := by
        rw [doLine, hx] at hc
        exact hc
      have hgoc : Goes .two c s₂ := (goes_passLines_two hrest).trans (goes_flushPool hend)
      have hholds := load_holds hreadyb hload hgoc hrd hab.slots hpools (npend_flushPool hend)
      simp only [LoadHolds, bytes_flushed] at hholds ⊢
      exact hholds

/-- A load, whose literal is placed behind the code. -/
example : (assemble false "ldr r0, =305419896\nbx lr\n".toList).toOption.map
    (fun f => ((f.out .text).bytes, f.pools)) =
      some ([0x00, 0x00, 0x9F, 0xE5, 0x1E, 0xFF, 0x2F, 0xE1, 0x78, 0x56, 0x34, 0x12],
        [(8, [.number 305419896])]) := by decide +kernel

/-- A label that is defined twice, with a byte between. -/
def twiceSource : Text := "x:\n.byte 1\nx:\n".toList

/-- Of a label that is defined twice only the second place is recorded: its first definition, in
the first line, is followed by byte 0 of the text. -/
theorem first_definition_lost :
    ∃ s₁ f, passOne false twiceSource = .ok s₁ ∧ assemble false twiceSource = .ok f ∧
      ∃ raw rest, linesOf twiceSource = [] ++ raw :: rest ∧ ['x'] ∈ (parseLine raw).1 ∧
        ∃ b, passLines (env₂ false s₁) .two (s₁.restart false) [] = .ok b ∧
          ¬ LabelHolds (env₂ false s₁) f b ['x'] := by
  have hfind : (assemble false twiceSource).map (fun f => f.tab.find ['x']) =
      .ok (some (.text, 1)) := by
    decide +kernel
  cases hf : assemble false twiceSource with
  | error e =>
    rw [hf] at hfind
    cases hfind
  | ok f =>
    rw [hf] at hfind
    obtain ⟨s₁, s₂, h₁, -, -⟩ := assemble_ok hf
    refine ⟨s₁, f, h₁, rfl, "x:\n".toList, [".byte 1\n".toList, "x:\n".toList], ?_, ?_,
      s₁.restart false, rfl, fun h => ?_⟩
    · decide +kernel
    · decide +kernel
    · have hplace : f.tab.find ['x'] = some (.text, 1) := Except.ok.inj hfind
      rw [h.1] at hplace
      cases hplace

end DiscoBsd.Asm
