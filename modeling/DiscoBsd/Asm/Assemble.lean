import DiscoBsd.Asm.Line

/-!
# The two passes

`as_arm.c` runs `do_line` over its source twice. Pass 1 sizes the sections, records the labels
and remembers where each group of pool literals lands; pass 2 encodes and writes. Both go
through the same `put`, which advances the section's offset in pass 1 and also writes in pass 2.

Offsets are C's `int`: going past its largest value is undefined and ends the run here.
-/

namespace DiscoBsd.Asm

/-- The pass a line is read in. -/
inductive Pass where
  | one
  | two
deriving DecidableEq, Repr

/-- Why a run of the assembler ends without a result. -/
inductive Fatal where
  | outOfOrder
  | sizeDiffers
  | tooManyLiterals
  | poolOutOfRange
  | localLabelGlobal
  | encode (e : EncodeError)
  | undefined
deriving DecidableEq, Repr

/-- The largest `int`. -/
def INTMAX : Nat := 2 ^ 31 - 1

/-! ## Symbols -/

/-- A named symbol. -/
structure Sym where
  name : Text
  addr : Nat
  defined : Bool
  global : Bool
  sec : Sec
deriving DecidableEq

/-- A symbol that is defined at an offset of a section. -/
def Sym.define (sec : Sec) (off : Nat) (y : Sym) : Sym := ⟨y.name, off, true, y.global, sec⟩

/-- A symbol that is global. -/
def Sym.globalize (y : Sym) : Sym := ⟨y.name, y.addr, y.defined, true, y.sec⟩

/-- A symbol whose address has its section's base added, when it is defined. -/
def Sym.rebase (base : Sec → Nat) (y : Sym) : Sym :=
  if y.defined then ⟨y.name, y.addr + base y.sec, y.defined, y.global, y.sec⟩ else y

/-- The symbol tables: named symbols in creation order, and the compiler's `.L<n>` labels. -/
structure Symbols where
  syms : List Sym
  lab : Nat → Option (Sec × Nat)

/-- A symbol reference: an index into the named symbols, or the number of a label. -/
inductive Ref where
  | named (i : Nat)
  | label (n : Nat)
deriving DecidableEq

/-- The number of a `.L<digits>` name; reading stops being a label above this value. -/
def labelDigits : Nat → Text → Option Nat
  | v, [] => some v
  | v, c :: n => if isdigit c ∧ v ≤ 100000000 then labelDigits (v * 10 + (c.toNat - 48)) n else none

/-- `numlabel`: the number of a `.L<digits>` name without a leading zero. -/
def numlabel : Text → Option Nat
  | '.' :: 'L' :: '0' :: [] => some 0
  | '.' :: 'L' :: '0' :: _ => none
  | '.' :: 'L' :: c :: n => if isdigit c then labelDigits 0 (c :: n) else none
  | _ => none

namespace Symbols

/-- The tables at the start. -/
def empty : Symbols := ⟨[], fun _ => none⟩

/-- `named_find`: the index of a named symbol. -/
def namedFind (t : Symbols) (n : Text) : Option Nat := t.syms.findIdx? (·.name == n)

/-- `named_get`: the index of a named symbol, made undefined when it is new. -/
def namedGet (t : Symbols) (n : Text) : Symbols × Nat :=
  match t.namedFind n with
  | some i => (t, i)
  | none => (⟨t.syms ++ [⟨n, 0, false, false, .text⟩], t.lab⟩, t.syms.length)

/-- The number of a label that is defined. -/
def labelFind (t : Symbols) (n : Text) : Option Nat :=
  (numlabel n).filter fun v => (t.lab v).isSome

/-- `sym_ref` without creating: what a name refers to. -/
def symRef (t : Symbols) (n : Text) : Option Ref :=
  match t.labelFind n with
  | some v => some (.label v)
  | none => (t.namedFind n).map .named

/-- `sym_ref` with creating. -/
def symRefNew (t : Symbols) (n : Text) : Symbols × Ref :=
  match t.labelFind n with
  | some v => (t, .label v)
  | none => ((t.namedGet n).1, .named (t.namedGet n).2)

/-- The section and address of a reference, when it is defined. -/
def place (t : Symbols) : Ref → Option (Sec × Nat)
  | .label v => t.lab v
  | .named i =>
    match t.syms[i]? with
    | some y => if y.defined then some (y.sec, y.addr) else none
    | none => none

/-- `find_label_addr`: the address of a name, when it is defined. -/
def findLabelAddr (t : Symbols) (n : Text) : Option Nat :=
  ((t.symRef n).bind t.place).map (·.2)

/-- `sym_define`: a label at an offset of a section. -/
def symDefine (t : Symbols) (n : Text) (sec : Sec) (off : Nat) : Symbols :=
  match numlabel n, t.namedFind n with
  | some v, none => ⟨t.syms, Function.update t.lab v (some (sec, off))⟩
  | _, _ =>
    let (t, i) := t.namedGet n
    ⟨t.syms.modify i (Sym.define sec off), t.lab⟩

/-- `.globl` on a name; a label of the compact table cannot be global. -/
def globl (t : Symbols) (n : Text) : Except Fatal Symbols :=
  match t.labelFind n with
  | some _ => .error .localLabelGlobal
  | none =>
    let (t, i) := t.namedGet n
    .ok ⟨t.syms.modify i Sym.globalize, t.lab⟩

/-- Between the passes every defined address gets its section's base. -/
def rebase (t : Symbols) (secbase : Sec → Nat) : Symbols where
  syms := t.syms.map (Sym.rebase secbase)
  lab := fun v => (t.lab v).map fun p => (p.1, p.2 + secbase p.1)

end Symbols

/-! ## Output -/

/-- The size of a section's write buffer. -/
def WBUF : Nat := 256

/-- A section's output: what is in the file, and what is still in the write buffer. -/
structure Out where
  file : List UInt8
  wbuf : List UInt8
deriving DecidableEq

namespace Out

/-- A section before anything is written. -/
def empty : Out := ⟨[], []⟩

/-- Everything the section was given, in order. -/
def bytes (o : Out) : List UInt8 := o.file ++ o.wbuf

/-- `sec_flush`: the buffer goes to its place in the file. -/
def secFlush (o : Out) : Out := ⟨o.file ++ o.wbuf, []⟩

/-- One byte into the buffer, which is flushed when it is full. -/
def putc (o : Out) (b : UInt8) : Out :=
  if o.wbuf.length + 1 = WBUF then secFlush ⟨o.file, o.wbuf ++ [b]⟩ else ⟨o.file, o.wbuf ++ [b]⟩

end Out

/-- The low `n` bytes of a word, least significant first. -/
def wordBytes (v : Word) (n : Nat) : List UInt8 :=
  (List.range n).map fun k => UInt8.ofNat ((v >>> (8 * k)).toNat)

/-! ## Relocations -/

/-- Absolute 32-bit address, and branch offset. -/
inductive RelKind where
  | abs32
  | pc24
deriving DecidableEq, Repr

/-- The code of a relocation kind. -/
def RelKind.code : RelKind → Nat
  | .abs32 => 0x01
  | .pc24 => 0x06

/-- A relocation of the data space, kept until the object is written. -/
structure Drel where
  doff : Nat
  kind : RelKind
  ref : Ref
deriving DecidableEq

/-- The segment code of a section in a relocation record. -/
def segCode : Sec → Nat
  | .text => 0x20
  | .bss => 0x40
  | _ => 0x30

/-- `RSEG_EXT`. -/
def RSEGEXT : Nat := 0x70

/-- `rec`: the relocation record of a reference; an external names its index. -/
def rec (t : Symbols) (r : Ref) (kind : RelKind) (index : Nat → Nat) : List UInt8 :=
  match t.place r, r with
  | some (sec, _), _ => [UInt8.ofNat (segCode sec ||| kind.code)]
  | none, .named i =>
    [UInt8.ofNat (RSEGEXT ||| kind.code), UInt8.ofNat (index i), UInt8.ofNat (index i >>> 8),
      UInt8.ofNat (index i >>> 16)]
  | none, .label _ => []

/-! ## The state of a pass -/

/-- The most literals one pool may wait for. -/
def MAXPEND : Nat := 1024

/-- How far back the first literal of a group must be for an island. -/
def ISLAND : Nat := 1024

/-- The assembler's variables. `pools` is a record of the run that the source does not keep: the
text offset and the literals of every group the pass has placed. -/
structure State where
  secoff : Sec → Nat
  cursec : Sec
  npend : Nat
  pendFirst : Nat
  pend : Nat → Literal
  grpOff : List Nat
  cgrp : Nat
  tab : Symbols
  out : Sec → Out
  trf : List UInt8
  trnext : Nat
  drels : List Drel
  pools : List (Nat × List Literal)

/-- What is fixed before a pass: the kind of output, and what pass 1 found. -/
structure Env where
  objmode : Bool
  secbase : Sec → Nat
  secsize : Sec → Nat

/-- The state at the start of pass 1. -/
def State.start : State where
  secoff := fun _ => 0
  cursec := .text
  npend := 0
  pendFirst := 0
  pend := fun _ => .number 0
  grpOff := []
  cgrp := 0
  tab := .empty
  out := fun _ => .empty
  trf := []
  trnext := 0
  drels := []
  pools := []

/-- The state with a section's output replaced. -/
def State.write (s : State) (sec : Sec) (bs : List UInt8) : State :=
  { s with out := Function.update s.out sec (bs.foldl Out.putc (s.out sec)) }

/-- The state with a section's offset advanced. -/
def State.advance (s : State) (sec : Sec) (n : Nat) : State :=
  { s with secoff := Function.update s.secoff sec (s.secoff sec + n) }

/-- `put`: the low `n` bytes of `v` go to the end of a section. -/
def put (pass : Pass) (s : State) (sec : Sec) (v : Word) (n : Nat) : Except Fatal State := do
  let s ←
    if pass = .two ∧ sec ≠ .bss then
      if (s.out sec).bytes.length ≠ s.secoff sec then .error .outOfOrder
      else .ok (s.write sec (wordBytes v n))
    else .ok s
  if s.secoff sec + n ≤ INTMAX then .ok (s.advance sec n) else .error .undefined

/-- The records of the text words up to an offset that have no relocation. -/
def State.padRecords (s : State) (off : Nat) : State :=
  { s with
    trf := s.trf ++ List.replicate ((off - s.trnext + 3) / 4) 0
    trnext := s.trnext + 4 * ((off - s.trnext + 3) / 4) }

/-- `addrel`: a relocation at an offset of a section. -/
def addrel (env : Env) (s : State) (sec : Sec) (off : Nat) (kind : RelKind) (name : Text) :
    State :=
  let r := (s.tab.symRefNew name).2
  let s := { s with tab := (s.tab.symRefNew name).1 }
  match sec with
  | .text =>
    if off % 4 ≠ 0 ∨ off < s.trnext then s
    else
      let s := s.padRecords off
      { s with trf := s.trf ++ rec s.tab r kind id, trnext := off + 4 }
  | .data => { s with drels := s.drels ++ [⟨off, kind, r⟩] }
  | .rodata => { s with drels := s.drels ++ [⟨env.secsize .data + off, kind, r⟩] }
  | .bss => s

/-! ## Literal pools -/

/-- The word a literal stands for; a name that is not defined counts as 0. -/
def literalWord (tab : Symbols) : Literal → Word
  | .number v => BitVec.ofInt 32 v
  | .symbol n => BitVec.ofNat 32 ((tab.findLabelAddr n).getD 0)

/-- One literal into its slot. -/
def putLiteral (env : Env) (pass : Pass) (s : State) (k : Nat) : Except Fatal State :=
  match pass, s.pend k with
  | .two, .symbol n =>
    put pass (if env.objmode then addrel env s .text (s.secoff .text) .abs32 n else s) .text
      (literalWord s.tab (.symbol n)) 4
  | _, x => put pass s .text (literalWord s.tab x) 4

/-- The first `n` pending literals into their slots. -/
def putLiterals (env : Env) (pass : Pass) : Nat → Nat → State → Except Fatal State
  | 0, _, s => .ok s
  | n + 1, k, s => do putLiterals env pass n (k + 1) (← putLiteral env pass s k)

/-- Pass 1 records where the group is placed, pass 2 counts the groups. -/
def State.group (s : State) (pass : Pass) : State :=
  { s with
    grpOff := if pass = .one then s.grpOff ++ [s.secoff .text] else s.grpOff
    cgrp := if pass = .two then s.cgrp + 1 else s.cgrp
    pools := s.pools ++ [(s.secoff .text, (List.range s.npend).map s.pend)] }

/-- `flush_pool`: place the pending literals here. -/
def flushPool (env : Env) (pass : Pass) (s : State) : Except Fatal State :=
  if s.npend = 0 then .ok s
  else do
    let s' ← putLiterals env pass s.npend 0 (s.group pass)
    .ok { s' with npend := 0 }

/-- `maybe_island`: place the group when its first literal is far back. -/
def maybeIsland (env : Env) (pass : Pass) (s : State) : Except Fatal State :=
  if s.npend ≠ 0 ∧ (s.secoff .text : Int) - s.pendFirst > ISLAND then flushPool env pass s
  else .ok s

/-! ## Statements -/

/-- One operand of a data directive. -/
def putDatum (env : Env) (pass : Pass) (size : Nat) (s : State) : Datum → Except Fatal State
  | .number v => put pass s s.cursec (BitVec.ofInt 32 v) size
  | .symbol n ofs =>
    match pass with
    | .one => put pass s s.cursec 0 size
    | .two =>
      put pass
        (if env.objmode ∧ size = 4 then addrel env s s.cursec (s.secoff s.cursec) .abs32 n else s)
        s.cursec (BitVec.ofInt 32 ((s.tab.findLabelAddr n).getD 0 + ofs)) size

/-- `data_bytes`: the operands of a data directive in order. -/
def dataBytes (env : Env) (pass : Pass) (size : Nat) (parts : List Datum) (s : State) :
    Except Fatal State :=
  parts.foldlM (putDatum env pass size) s

/-- `n` zero bytes into the section in force. -/
def putZeros (pass : Pass) : Nat → State → Except Fatal State
  | 0, s => .ok s
  | n + 1, s => do putZeros pass n (← put pass s s.cursec 0 1)

/-- Zero bytes until the offset of the section in force has none of the mask's bits. -/
def alignLoop (pass : Pass) (mask : Nat) : Nat → State → Except Fatal State
  | 0, s => .ok s
  | fuel + 1, s =>
    if s.secoff s.cursec &&& mask = 0 then .ok s
    else do alignLoop pass mask fuel (← put pass s s.cursec 0 1)

/-- The distance from a load to its slot, as the processor counts it. -/
def loadOffset (slot pc : Nat) : Int := (slot : Int) - (pc + 8)

/-- The word of a load from the pool. -/
def loadWord (rd off : Int) : Word :=
  (if off < 0 then 0xE5100000 else 0xE5900000) ||| bits 15 16 ||| bits rd 12 |||
    (BitVec.ofNat 32 off.natAbs &&& 0xFFF)

/-- The word of the load being read. Pass 2 has its group's place from pass 1. -/
def loadCode (s : State) (rd : Int) : Pass → Except Fatal Word
  | .one => .ok 0
  | .two =>
    match s.grpOff[s.cgrp]? with
    | none => .error .undefined
    | some base =>
      let off := loadOffset (base + 4 * s.npend) (s.secoff .text)
      if 4095 < off.natAbs then .error .poolOutOfRange else .ok (loadWord rd off)

/-- The state with one more literal waiting. -/
def State.addPend (s : State) (pass : Pass) (x : Literal) : State :=
  { s with
    pendFirst := if s.npend = 0 then s.secoff .text else s.pendFirst
    pend := if pass = .two then Function.update s.pend s.npend x else s.pend
    npend := s.npend + 1 }

/-- A load from the pool: one more literal waits, and the load itself goes into the text. -/
def doLoad (pass : Pass) (s : State) (rd : Int) (x : Literal) : Except Fatal State :=
  if MAXPEND ≤ s.npend then .error .tooManyLiterals
  else do
    let w ← loadCode s rd pass
    put pass (s.addPend pass x) .text w 4

/-- The word of an instruction, and the state with its relocation recorded. -/
def instrCode (env : Env) (s : State) (mnem ops : Text) : Pass → Except Fatal (Word × State)
  | .one => .ok (0, s)
  | .two =>
    match encode s.tab.findLabelAddr (env.secbase s.cursec + s.secoff s.cursec) mnem ops with
    | .error e => .error (.encode e)
    | .ok (w, some (c :: n)) =>
      .ok (w, if env.objmode then addrel env s .text (s.secoff .text) .pc24 (c :: n) else s)
    | .ok (w, _) => .ok (w, s)

/-- An instruction; after an unconditional branch there may be an island. -/
def doInstr (env : Env) (pass : Pass) (s : State) (mnem ops : Text) : Except Fatal State := do
  let r ← instrCode env s mnem ops pass
  let s ← put pass r.2 s.cursec r.1 4
  if s.cursec = .text ∧ mnem = "b".toList then maybeIsland env pass s else .ok s

/-- The state with a global name. -/
def doGlobl (pass : Pass) (s : State) (name : Text) : Except Fatal State :=
  match pass with
  | .one => do
    let t ← s.tab.globl name
    .ok { s with tab := t }
  | .two => .ok s

/-- What a statement does. -/
def doStmt (env : Env) (pass : Pass) (s : State) : Stmt → Except Fatal State
  | .blank => .ok s
  | .section sec => .ok { s with cursec := sec }
  | .globl name => doGlobl pass s name
  | .align a =>
    if 0 ≤ a ∧ a ≤ 30 then alignLoop pass (2 ^ a.toNat - 1) (2 ^ a.toNat - 1) s
    else .error .undefined
  | .data size parts => dataBytes env pass size parts s
  | .space n => putZeros pass n.toNat s
  | .ascii none => .error .undefined
  | .ascii (some bs) => bs.foldlM (fun s b => put pass s s.cursec (BitVec.ofNat 32 b.toNat) 1) s
  | .ltorg => flushPool env pass s
  | .load rd x => doLoad pass s rd x
  | .loadNoComma => .error .undefined
  | .instr mnem ops => doInstr env pass s mnem ops

/-- The labels of a line, which only pass 1 defines. -/
def defineLabels (pass : Pass) (s : State) (ls : List Text) : State :=
  match pass with
  | .one => { s with tab := ls.foldl (fun t n => t.symDefine n s.cursec (s.secoff s.cursec)) s.tab }
  | .two => s

/-- `do_line`: one line in one pass. -/
def doLine (env : Env) (pass : Pass) (s : State) (raw : Text) : Except Fatal State :=
  doStmt env pass (defineLabels pass s (parseLine raw).1) (parseLine raw).2

/-! ## The whole run -/

/-- `fgets`: at most `n` characters, up to a line end. -/
def fgets : Nat → Text → Text × Text
  | 0, t => ([], t)
  | _ + 1, [] => ([], [])
  | n + 1, c :: t => if c = '\n' then ([c], t) else (c :: (fgets n t).1, (fgets n t).2)

/-- The pieces of the source that `fgets` hands to `do_line`. -/
def sourceLines : Nat → Text → List Text
  | 0, _ => []
  | _, [] => []
  | fuel + 1, t => (fgets (LINESIZE - 1) t).1 :: sourceLines fuel (fgets (LINESIZE - 1) t).2

/-- The lines of a source file. -/
def linesOf (src : Text) : List Text := sourceLines src.length src

/-- One pass over some lines. -/
def passLines (env : Env) (pass : Pass) (s : State) (ls : List Text) : Except Fatal State :=
  ls.foldlM (doLine env pass) s

/-- Nothing is known of the layout in pass 1. -/
def env₁ (objmode : Bool) : Env := ⟨objmode, fun _ => 0, fun _ => 0⟩

/-- The section bases once the sizes are known. In an object rodata is folded behind data. -/
def secbaseOf (objmode : Bool) (size : Sec → Nat) : Sec → Nat
  | .text => 0
  | .rodata => if objmode then size .data else size .text
  | .data => if objmode then 0 else size .text + size .rodata
  | .bss => if objmode then 0 else size .text + size .rodata + size .data

/-- What pass 2 knows from pass 1. -/
def env₂ (objmode : Bool) (s : State) : Env := ⟨objmode, secbaseOf objmode s.secoff, s.secoff⟩

/-- The state at the start of pass 2. -/
def State.restart (s : State) (objmode : Bool) : State :=
  { s with
    secoff := fun _ => 0
    cursec := .text
    npend := 0
    cgrp := 0
    pools := []
    tab := s.tab.rebase (secbaseOf objmode s.secoff) }

/-- Pass 1: every line, then the literals still waiting. -/
def passOne (objmode : Bool) (src : Text) : Except Fatal State := do
  flushPool (env₁ objmode) .one (← passLines (env₁ objmode) .one .start (linesOf src))

/-- Pass 2 from what pass 1 left. -/
def passTwo (objmode : Bool) (src : Text) (s₁ : State) : Except Fatal State := do
  flushPool (env₂ objmode s₁) .two
    (← passLines (env₂ objmode s₁) .two (s₁.restart objmode) (linesOf src))

/-- The write buffers go to the file. -/
def State.flushed (s : State) : State :=
  { s with out := fun sec => if sec = .bss then s.out sec else (s.out sec).secFlush }

/-- `assemble` up to the finished sections, with the check of the sizes. -/
def assemble (objmode : Bool) (src : Text) : Except Fatal State := do
  let s₁ ← passOne objmode src
  let s₂ ← passTwo objmode src s₁
  if s₂.secoff .text = s₁.secoff .text ∧ s₂.secoff .rodata = s₁.secoff .rodata ∧
      s₂.secoff .data = s₁.secoff .data ∧ s₂.secoff .bss = s₁.secoff .bss then .ok s₂.flushed
  else .error .sizeDiffers

end DiscoBsd.Asm
