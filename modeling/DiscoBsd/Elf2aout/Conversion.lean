import DiscoBsd.Exec.Loader
import Mathlib.Data.List.Pairwise
import Mathlib.Data.Option.Basic
import Mathlib.Tactic.SplitIfs

/-!
# Converting an ELF file to `a.out`

`main` of `elf2aout` without `-s`: the program headers, sorted by address, are combined to text, data and
bss, and their file bytes are copied one behind the other with zeros in the gaps. Names of sections and
the symbol table play no role. `conversion_exact` compares what the kernel loads: the same byte at every
address of a segment, and zeros everywhere else.
-/

namespace DiscoBsd.Elf2aout

open Exec

/-! ## The program -/

/-- A program header. -/
structure Elf32_Phdr where
  p_type : Nat
  p_offset : Nat
  p_vaddr : Nat
  p_filesz : Nat
  p_memsz : Nat
  p_flags : Nat

structure Sect where
  vaddr : Nat
  len : Nat
  deriving DecidableEq

def PT_NULL : Nat := 0

def PT_LOAD : Nat := 1

def PT_NOTE : Nat := 4

def PT_PHDR : Nat := 6

def PT_GNU_EH_FRAME : Nat := 0x6474e550

def PT_MIPS_REGINFO : Nat := 0x70000000

def PF_W : Nat := 2

/-- Unsigned subtraction. -/
def less (a b : Nat) : Nat := wrap (a + 4294967296 - b)

/-- `combine`; `none` is the exit with an error. -/
def combine (base new : Sect) (pad : Bool) : Option Sect :=
  if base.len = 0 then some new
  else if new.len = 0 then some base
  else if wrap (base.vaddr + base.len) ≠ new.vaddr then
    if pad then some ⟨base.vaddr, wrap (less new.vaddr base.vaddr + new.len)⟩ else none
  else some ⟨base.vaddr, wrap (base.len + new.len)⟩

namespace Elf32_Phdr

/-- The types that can be ignored. -/
def Ignored (p : Elf32_Phdr) : Prop :=
  p.p_type = PT_NULL ∨ p.p_type = PT_NOTE ∨ p.p_type = PT_PHDR ∨ p.p_type = PT_MIPS_REGINFO ∨
    p.p_type = PT_GNU_EH_FRAME

instance (p : Elf32_Phdr) : Decidable p.Ignored := inferInstanceAs (Decidable (_ ∨ _))

def Writable (p : Elf32_Phdr) : Prop := p.p_flags &&& PF_W ≠ 0

instance (p : Elf32_Phdr) : Decidable p.Writable := inferInstanceAs (Decidable (_ ≠ _))

/-- The bytes that are in the file. -/
def filePart (p : Elf32_Phdr) : Sect := ⟨p.p_vaddr, p.p_filesz⟩

/-- The bytes behind them. -/
def bssPart (p : Elf32_Phdr) : Sect := ⟨wrap (p.p_vaddr + p.p_filesz), less p.p_memsz p.p_filesz⟩

end Elf32_Phdr

/-- The variables of `main`. -/
structure Sections where
  text : Sect
  data : Sect
  bss : Sect
  cur_vma : Nat

namespace Sections

def start : Sections := ⟨⟨0, 0⟩, ⟨0, 0⟩, ⟨0, 0⟩, 4294967295⟩

/-- A segment, by whether it is writable. -/
def combined (s : Sections) (p : Elf32_Phdr) : Option Sections :=
  if p.Writable then do
    let data ← combine s.data p.filePart false
    let bss ← combine s.bss p.bssPart true
    some { s with data := data, bss := bss }
  else do
    let text ← combine s.text p.filePart false
    some { s with text := text }

/-- The lowest start of a segment. -/
def lowered (s : Sections) (p : Elf32_Phdr) : Sections :=
  if p.p_vaddr < s.cur_vma then { s with cur_vma := p.p_vaddr } else s

/-- A turn of the loop over the program headers. -/
def add (s : Sections) (p : Elf32_Phdr) : Option Sections :=
  if p.Ignored then some s
  else if p.p_type ≠ PT_LOAD ∧ p.p_type ≠ PT_GNU_EH_FRAME then none
  else (s.combined p).map (·.lowered p)

def Ordered (s : Sections) : Prop :=
  ¬ (s.text.vaddr > s.data.vaddr ∨ s.data.vaddr > s.bss.vaddr ∨
    wrap (s.text.vaddr + s.text.len) > s.data.vaddr ∨ wrap (s.data.vaddr + s.data.len) > s.bss.vaddr)

instance (s : Sections) : Decidable s.Ordered := inferInstanceAs (Decidable (¬ _))

/-- Data without text becomes the text. -/
def onlyText (s : Sections) : Sections :=
  if s.data.len ≠ 0 ∧ s.text.len = 0 then
    { s with text := s.data, data := ⟨wrap (s.data.vaddr + s.data.len), 0⟩ }
  else s

/-- The text reaches up to the data. -/
def grown (s : Sections) : Sections :=
  if wrap (s.text.vaddr + s.text.len) < s.data.vaddr then
    { s with text := ⟨s.text.vaddr, less s.data.vaddr s.text.vaddr⟩ }
  else s

end Sections

/-- The loop of `copy`, at most 4096 bytes in a turn. -/
def copyLoop (file : List UInt8) : Nat → Nat → Nat → Option (List UInt8)
  | 0, _, _ => some []
  | fuel + 1, offset, remaining =>
      if remaining = 0 then some []
      else
        let cur := min remaining 4096
        if offset + cur ≤ file.length then do
          let rest ← copyLoop file fuel (offset + cur) (remaining - cur)
          some ((file.drop offset).take cur ++ rest)
        else none -- premature end of file

/-- `copy`. A size that is negative as an `int` is not read. -/
def copy (file : List UInt8) (offset size : Nat) : Option (List UInt8) :=
  if size < 2147483648 then copyLoop file size offset size else none

/-- What is written behind the header, from the address `cur_vma` on. -/
def output (file : List UInt8) : Nat → List Elf32_Phdr → Option (List UInt8)
  | _, [] => some []
  | cur_vma, p :: ph =>
      if p.p_type = PT_LOAD ∧ p.p_filesz ≠ 0 then
        let gap := less p.p_vaddr cur_vma
        if gap > 65536 then none
        else do
          let bytes ← copy file p.p_offset p.p_filesz
          let rest ← output file (wrap (p.p_vaddr + p.p_filesz)) ph
          some (List.replicate gap 0 ++ (bytes ++ rest))
      else output file cur_vma ph

/-- An ELF file: its bytes, and the program headers among them. -/
structure Elf where
  file : List UInt8
  ph : List Elf32_Phdr
  e_entry : Nat

/-- An `a.out` file: its header, and what follows. -/
structure Aout where
  a_text : Nat
  a_data : Nat
  a_bss : Nat
  a_entry : Nat
  body : List UInt8
  deriving DecidableEq

/-- `main`, where `qsort` has put the program headers in the order `ph`. -/
def elf2aout (elf : Elf) (ph : List Elf32_Phdr) : Option Aout := do
  let s ← ph.foldlM Sections.add Sections.start
  if ¬ s.Ordered then none
  else do
    let t := s.onlyText.grown
    let body ← output elf.file s.cur_vma ph
    some ⟨t.text.len, t.data.len, t.bss.len, elf.e_entry, body⟩

/-! ## The meaning of both formats -/

/-- The segments that are loaded. -/
def loaded (ph : List Elf32_Phdr) : List Elf32_Phdr := ph.filter fun p => p.p_type = PT_LOAD

/-- A loaded ELF file has the byte `b` at the address `a`. -/
def Elf.Holds (elf : Elf) (a : Nat) (b : UInt8) : Prop :=
  ∃ p ∈ loaded elf.ph, p.p_vaddr ≤ a ∧ a < p.p_vaddr + p.p_memsz ∧
    if a < p.p_vaddr + p.p_filesz then elf.file[p.p_offset + (a - p.p_vaddr)]? = some b else b = 0

/-- The byte at the address `a` when `exec_aout_check` has read text and data as one to `base`, and
`exec_clear` has cleared the bss behind them. -/
def Aout.memory (x : Aout) (base a : Nat) : Option UInt8 :=
  let a_data := wrap (x.a_data + x.a_text)
  if a < base then none
  else if a < base + a_data then x.body[a - base]?
  else if a < base + a_data + x.a_bss then some 0
  else none

/-- A segment that is not empty, and ends below the end of the address space. -/
def Elf32_Phdr.Sized (p : Elf32_Phdr) : Prop :=
  0 < p.p_memsz ∧ p.p_filesz ≤ p.p_memsz ∧ p.p_vaddr + p.p_memsz < 4294967296

instance (p : Elf32_Phdr) : Decidable p.Sized := inferInstanceAs (Decidable (_ ∧ _))

/-- Two segments have no address in common. -/
def Apart (p q : Elf32_Phdr) : Prop :=
  p.p_vaddr + p.p_memsz ≤ q.p_vaddr ∨ q.p_vaddr + q.p_memsz ≤ p.p_vaddr

instance : Std.Symm Apart := ⟨fun _ _ hpq => hpq.symm⟩

instance : DecidableRel Apart := fun _ _ => inferInstanceAs (Decidable (_ ∨ _))

/-- Segments that are apart. Only writable ones are longer in memory than in the file, and one that is not
in the file at all starts where another ends. -/
structure Elf.Proper (elf : Elf) : Prop where
  sized : ∀ p ∈ loaded elf.ph, p.Sized
  apart : (loaded elf.ph).Pairwise Apart
  full : ∀ p ∈ loaded elf.ph, ¬ p.Writable → p.p_filesz = p.p_memsz
  bss : ∀ p ∈ loaded elf.ph, p.p_filesz = 0 →
    ∃ q ∈ loaded elf.ph, q.p_vaddr + q.p_memsz = p.p_vaddr

/-- The address of the lowest segment. -/
def Elf.Lowest (elf : Elf) (base : Nat) : Prop :=
  (∃ p ∈ loaded elf.ph, p.p_vaddr = base) ∧ ∀ p ∈ loaded elf.ph, base ≤ p.p_vaddr

/-! ## Combined sections -/

theorem less_eq {a b : Nat} (h : b ≤ a) (ha : a < 4294967296) : less a b = a - b := by
  unfold less wrap
  omega

theorem wrap_eq {a : Nat} (h : a < 4294967296) : wrap a = a := Nat.mod_eq_of_lt h

/-- `s` reaches from the first of the parts that are not empty to the end of the last one. -/
structure Hull (R : Sect → Prop) (s : Sect) : Prop where
  lt : s.vaddr + s.len < 4294967296
  inside : ∀ r, R r → r.len ≠ 0 → s.vaddr ≤ r.vaddr ∧ r.vaddr + r.len ≤ s.vaddr + s.len
  first : s.len ≠ 0 → ∃ r, R r ∧ r.len ≠ 0 ∧ r.vaddr = s.vaddr
  last : s.len ≠ 0 → ∃ r, R r ∧ r.len ≠ 0 ∧ r.vaddr + r.len = s.vaddr + s.len
  none : (∀ r, ¬ R r) → s = ⟨0, 0⟩

section

variable {R R' : Sect → Prop} {base new s : Sect}

theorem Hull.congr (h : Hull R s) (hR : ∀ r, R r ↔ R' r) : Hull R' s := by
  obtain rfl : R = R' := funext fun r => propext (hR r)
  exact h

/-- A part behind the others. -/
theorem Hull.upTo (h : Hull R base) (hbase : base.len ≠ 0) (hnew : new.len ≠ 0)
    (hlt : new.vaddr + new.len < 4294967296) (hbehind : base.vaddr + base.len ≤ new.vaddr) :
    Hull (fun r => r = new ∨ R r) ⟨base.vaddr, new.vaddr + new.len - base.vaddr⟩ where
  lt := by
    dsimp only
    omega
  inside := by
    rintro r (rfl | hr) hne
    · dsimp only
      omega
    · have hin := h.inside r hr hne
      dsimp only
      omega
  first := fun _ => (h.first hbase).imp fun r hr => ⟨.inr hr.1, hr.2⟩
  last := fun _ => ⟨new, .inl rfl, hnew, by dsimp only; omega⟩
  none := fun hno => absurd (.inl rfl) (hno new)

theorem Hull.combine {pad : Bool} (h : Hull R base) (hlt : new.vaddr + new.len < 4294967296)
    (hbehind : ∀ r, R r → r.len ≠ 0 → r.vaddr + r.len ≤ new.vaddr)
    (hs : combine base new pad = some s) : Hull (fun r => r = new ∨ R r) s := by
  have hbase : base.len ≠ 0 → base.vaddr + base.len ≤ new.vaddr := by
    intro hne
    obtain ⟨r, hr, hrne, hend⟩ := h.last hne
    rw [← hend]
    exact hbehind r hr hrne
  unfold Elf2aout.combine at hs
  split_ifs at hs with hempty hnone hgap hpad
  · -- there was nothing but empty parts
    cases hs
    refine ⟨hlt, ?_, fun hne => ⟨_, .inl rfl, hne, rfl⟩, fun hne => ⟨_, .inl rfl, hne, rfl⟩,
      fun hno => absurd (.inl rfl) (hno new)⟩
    rintro r (rfl | hr) hne
    · exact ⟨Nat.le_refl _, Nat.le_refl _⟩
    · have hin := h.inside r hr hne
      omega
  · cases hs
    refine ⟨h.lt, ?_, fun hne => (h.first hne).imp fun r hr => ⟨.inr hr.1, hr.2⟩,
      fun hne => (h.last hne).imp fun r hr => ⟨.inr hr.1, hr.2⟩, fun hno => absurd (.inl rfl) (hno new)⟩
    rintro r (rfl | hr) hne
    · exact absurd hnone hne
    · exact h.inside r hr hne
  · have hend := hbase hempty
    have hup := h.upTo hempty hnone hlt hend
    rw [less_eq (by omega) (by omega), wrap_eq (by omega)] at hs
    cases hs
    rwa [show new.vaddr + new.len - base.vaddr = new.vaddr - base.vaddr + new.len by omega] at hup
  · have hend := hbase hempty
    have hup := h.upTo hempty hnone hlt hend
    rw [wrap_eq h.lt, not_not] at hgap
    rw [wrap_eq (by omega)] at hs
    cases hs
    rwa [show new.vaddr + new.len - base.vaddr = base.len + new.len by omega] at hup

end

/-! ## The sections of a file -/

/-- `q` is loaded behind `p`. -/
def Before (p q : Elf32_Phdr) : Prop := p.p_vaddr + p.p_memsz ≤ q.p_vaddr

theorem bssPart_eq {p : Elf32_Phdr} (hp : p.Sized) :
    p.bssPart = ⟨p.p_vaddr + p.p_filesz, p.p_memsz - p.p_filesz⟩ := by
  obtain ⟨hpos, hle, hlt⟩ := hp
  unfold Elf32_Phdr.bssPart
  rw [wrap_eq (by omega), less_eq hle (by omega)]

/-- The parts of the segments of one kind. -/
def Parts (xs : List Elf32_Phdr) (kind : Elf32_Phdr → Prop) (part : Elf32_Phdr → Sect) (r : Sect) :
    Prop :=
  ∃ p ∈ xs, kind p ∧ part p = r

/-- What the loop over the program headers has come to after the segments `xs`. -/
structure Gathered (xs : List Elf32_Phdr) (s : Sections) : Prop where
  text : Hull (Parts xs (fun p => ¬ p.Writable) Elf32_Phdr.filePart) s.text
  data : Hull (Parts xs Elf32_Phdr.Writable Elf32_Phdr.filePart) s.data
  bss : Hull (Parts xs Elf32_Phdr.Writable Elf32_Phdr.bssPart) s.bss
  low : ∀ p ∈ xs, s.cur_vma ≤ p.p_vaddr
  lowest : (∃ p ∈ xs, p.p_vaddr = s.cur_vma) ∨ xs = [] ∧ s.cur_vma = 4294967295

section

variable {xs ph : List Elf32_Phdr} {p : Elf32_Phdr} {s s' : Sections}
  {kind : Elf32_Phdr → Prop} {part : Elf32_Phdr → Sect} {sect : Sect}

theorem Hull.skip (h : Hull (Parts xs kind part) sect) (hp : ¬ kind p) :
    Hull (Parts (xs ++ [p]) kind part) sect := by
  refine h.congr fun r => ?_
  simp [Parts, or_and_right, exists_or, hp]

theorem Hull.snoc (h : Hull (fun r => r = part p ∨ Parts xs kind part r) sect) (hp : kind p) :
    Hull (Parts (xs ++ [p]) kind part) sect := by
  refine h.congr fun r => ?_
  simp [Parts, or_and_right, exists_or, hp, or_comm, eq_comm]

theorem Gathered.lowered (h : Gathered xs s) (s' : Sections) (hvma : s'.cur_vma = s.cur_vma)
    (hp : p.Sized)
    (htext : Hull (Parts (xs ++ [p]) (fun p => ¬ p.Writable) Elf32_Phdr.filePart) s'.text)
    (hdata : Hull (Parts (xs ++ [p]) Elf32_Phdr.Writable Elf32_Phdr.filePart) s'.data)
    (hbss : Hull (Parts (xs ++ [p]) Elf32_Phdr.Writable Elf32_Phdr.bssPart) s'.bss) :
    Gathered (xs ++ [p]) (s'.lowered p) := by
  have hmem : p ∈ xs ++ [p] := List.mem_append_right _ (List.mem_singleton_self p)
  obtain ⟨hpos, hle, hlt⟩ := hp
  unfold Sections.lowered
  rw [hvma]
  split_ifs with hless
  · refine ⟨htext, hdata, hbss, ?_, .inl ⟨p, hmem, rfl⟩⟩
    rw [List.forall_mem_append, List.forall_mem_singleton]
    exact ⟨fun q hq => Nat.le_trans (Nat.le_of_lt hless) (h.low q hq), Nat.le_refl _⟩
  · refine ⟨htext, hdata, hbss, ?_, .inl ?_⟩
    · rw [hvma, List.forall_mem_append, List.forall_mem_singleton]
      exact ⟨h.low, Nat.le_of_not_lt hless⟩
    · obtain ⟨q, hq, hlow⟩ | ⟨-, hmax⟩ := h.lowest
      · exact ⟨q, List.mem_append_left _ hq, hlow.trans hvma.symm⟩
      · omega

/-- A turn of the loop over the program headers. -/
theorem Gathered.add (h : Gathered xs s) (hcombined : s.combined p = some s')
    (hsized : ∀ q ∈ xs ++ [p], q.Sized) (hbefore : ∀ q ∈ xs, Before q p) :
    Gathered (xs ++ [p]) (s'.lowered p) := by
  have hp := hsized p (List.mem_append_right _ (List.mem_singleton_self p))
  have hle := hp.2.1
  have hlt := hp.2.2
  have hsize : p.filePart.vaddr + p.filePart.len < 4294967296 := by
    show p.p_vaddr + p.p_filesz < 4294967296
    omega
  have hfile (kind : Elf32_Phdr → Prop) :
      ∀ r, Parts xs kind Elf32_Phdr.filePart r → r.len ≠ 0 → r.vaddr + r.len ≤ p.p_vaddr := by
    rintro _ ⟨q, hq, -, rfl⟩ -
    have hqp := hbefore q hq
    have hqle := (hsized q (List.mem_append_left _ hq)).2.1
    unfold Before at hqp
    show q.p_vaddr + q.p_filesz ≤ p.p_vaddr
    omega
  unfold Sections.combined at hcombined
  split_ifs at hcombined with hwritable
  · obtain ⟨data, hdata, hrest⟩ := Option.bind_eq_some_iff.mp hcombined
    obtain ⟨bss, hbss, heq⟩ := Option.bind_eq_some_iff.mp hrest
    cases heq
    refine h.lowered _ rfl hp (h.text.skip (not_not_intro hwritable))
      ((h.data.combine hsize (hfile _) hdata).snoc hwritable) (Hull.snoc ?_ hwritable)
    rw [bssPart_eq hp] at hbss ⊢
    refine h.bss.combine ?_ ?_ hbss
    · show p.p_vaddr + p.p_filesz + (p.p_memsz - p.p_filesz) < 4294967296
      omega
    · rintro _ ⟨q, hq, -, rfl⟩ -
      have hqp := hbefore q hq
      have hqsized := hsized q (List.mem_append_left _ hq)
      have hqle := hqsized.2.1
      unfold Before at hqp
      rw [bssPart_eq hqsized]
      dsimp only
      omega
  · obtain ⟨text, htext, heq⟩ := Option.bind_eq_some_iff.mp hcombined
    cases heq
    exact h.lowered _ rfl hp ((h.text.combine hsize (hfile _) htext).snoc hwritable)
      (h.data.skip hwritable) (h.bss.skip hwritable)

theorem gathered_start : Gathered [] Sections.start := by
  have hnone (kind : Elf32_Phdr → Prop) (part : Elf32_Phdr → Sect) : Hull (Parts [] kind part) ⟨0, 0⟩ :=
    { lt := by decide
      inside := by
        rintro r ⟨p, hp, -⟩
        cases hp
      first := fun hne => absurd rfl hne
      last := fun hne => absurd rfl hne
      none := fun _ => rfl }
  exact ⟨hnone _ _, hnone _ _, hnone _ _, nofun, .inr ⟨rfl, rfl⟩⟩

theorem Gathered.fold (h : Gathered xs s) (hfold : ph.foldlM Sections.add s = some s')
    (hsized : ∀ q ∈ xs ++ loaded ph, q.Sized) (hsorted : (xs ++ loaded ph).Pairwise Before) :
    Gathered (xs ++ loaded ph) s' := by
  induction ph generalizing xs s with
  | nil =>
      cases hfold
      rwa [loaded, List.filter_nil, List.append_nil]
  | cons p ph ih =>
      rw [List.foldlM_cons] at hfold
      obtain ⟨t, hadd, hrest⟩ := Option.bind_eq_some_iff.mp hfold
      unfold Sections.add at hadd
      unfold loaded at hsized hsorted ⊢
      by_cases hload : p.p_type = PT_LOAD
      · have hnot : ¬ p.Ignored := by
          unfold Elf32_Phdr.Ignored
          rw [hload]
          decide
        rw [if_neg hnot, if_neg fun hand => hand.1 hload] at hadd
        obtain ⟨t', hcombined, rfl⟩ := Option.map_eq_some_iff.mp hadd
        rw [List.filter_cons_of_pos (by simpa using hload), List.append_cons] at hsized hsorted ⊢
        refine ih (h.add hcombined (fun q hq => hsized q (List.mem_append_left _ hq)) fun q hq => ?_)
          hrest hsized hsorted
        have hfront := (List.pairwise_append.mp hsorted).1
        exact (List.pairwise_append.mp hfront).2.2 q hq p (List.mem_singleton_self p)
      · rw [List.filter_cons_of_neg (by simpa using hload)] at hsized hsorted ⊢
        split_ifs at hadd with hignored htype
        · cases hadd
          exact ih h hrest hsized hsorted
        · exact absurd (not_and_or.mp htype) fun hor => hor.elim (fun h => h hload) fun heh =>
            hignored (.inr (.inr (.inr (.inr (not_not.mp heh)))))

end

/-- What the header says, from the lowest address on: the file bytes of the segments, up to the last, and
room for all that they have in memory. -/
structure Covers (xs : List Elf32_Phdr) (low len bss : Nat) : Prop where
  file : ∀ p ∈ xs, p.p_filesz ≠ 0 → p.p_vaddr + p.p_filesz ≤ low + len
  last : ∃ p ∈ xs, p.p_filesz ≠ 0 ∧ p.p_vaddr + p.p_filesz = low + len
  memory : ∀ p ∈ xs, p.p_vaddr + p.p_memsz ≤ low + len + bss

section

variable {xs : List Elf32_Phdr} {p : Elf32_Phdr} {s : Sections}

/-- Where a segment is. -/
theorem Gathered.place (h : Gathered xs s) (hp : p ∈ xs) (hsized : p.Sized)
    (hfull : ¬ p.Writable → p.p_filesz = p.p_memsz) :
    (¬ p.Writable ∧ s.text.vaddr ≤ p.p_vaddr ∧ p.p_vaddr + p.p_memsz ≤ s.text.vaddr + s.text.len ∧
        p.p_filesz = p.p_memsz) ∨
      p.Writable ∧ (p.p_filesz ≠ 0 → s.data.vaddr ≤ p.p_vaddr ∧
        p.p_vaddr + p.p_filesz ≤ s.data.vaddr + s.data.len) ∧
      (p.p_filesz ≠ p.p_memsz → s.bss.vaddr ≤ p.p_vaddr + p.p_filesz ∧
        p.p_vaddr + p.p_memsz ≤ s.bss.vaddr + s.bss.len) := by
  obtain ⟨hpos, hle, hlt⟩ := hsized
  by_cases hwritable : p.Writable
  · refine .inr ⟨hwritable, h.data.inside _ ⟨p, hp, hwritable, rfl⟩, fun hne => ?_⟩
    have hin := h.bss.inside _ ⟨p, hp, hwritable, rfl⟩
    rw [bssPart_eq ⟨hpos, hle, hlt⟩] at hin
    dsimp only at hin
    omega
  · have hfile := hfull hwritable
    have hin := h.text.inside _ ⟨p, hp, hwritable, rfl⟩
    simp only [Elf32_Phdr.filePart] at hin
    exact .inl ⟨hwritable, by omega⟩

/-- The header covers the segments. -/
theorem Gathered.covers (h : Gathered xs s) (hne : xs ≠ []) (hordered : s.Ordered)
    (hsized : ∀ p ∈ xs, p.Sized) (hfull : ∀ p ∈ xs, ¬ p.Writable → p.p_filesz = p.p_memsz)
    (hbss : ∀ p ∈ xs, p.p_filesz = 0 → ∃ q ∈ xs, q.p_vaddr + q.p_memsz = p.p_vaddr) :
    Covers xs s.cur_vma (s.onlyText.grown.text.len + s.onlyText.grown.data.len) s.bss.len := by
  unfold Sections.Ordered at hordered
  rw [wrap_eq h.text.lt, wrap_eq h.data.lt] at hordered
  have hplace : ∀ p ∈ xs, _ := fun p hp =>
    And.intro (hsized p hp) (h.place hp (hsized p hp) (hfull p hp))
  simp only [Elf32_Phdr.Sized] at hplace
  -- a bss that is not empty starts where the file bytes end
  have hstart : s.bss.len ≠ 0 → s.text.len ≠ 0 ∧ s.bss.vaddr ≤ s.text.vaddr + s.text.len ∨
      s.data.len ≠ 0 ∧ s.bss.vaddr ≤ s.data.vaddr + s.data.len := by
    intro hne
    obtain ⟨_, ⟨p, hp, -, rfl⟩, hrne, hfirst⟩ := h.bss.first hne
    have hat := hplace p hp
    rw [bssPart_eq (hsized p hp)] at hfirst hrne
    dsimp only at hfirst hrne
    by_cases hzero : p.p_filesz = 0
    · obtain ⟨q, hq, hend⟩ := hbss p hp hzero
      have hqat := hplace q hq
      omega
    · omega
  obtain ⟨p, hp, hvma⟩ := h.lowest.resolve_right fun hnil => hne hnil.1
  have hpat := hplace p hp
  have hlow : ∀ a, (∃ q ∈ xs, q.p_vaddr = a) → (∀ q ∈ xs, a ≤ q.p_vaddr) → s.cur_vma = a := by
    rintro a ⟨q, hq, rfl⟩ hle
    have hqlow := h.low q hq
    have hple := hle p hp
    omega
  -- everything ends where the data do, or where the text does if there are no data
  have hend : s.cur_vma + (s.onlyText.grown.text.len + s.onlyText.grown.data.len) =
      if s.data.len = 0 then s.text.vaddr + s.text.len else s.data.vaddr + s.data.len := by
    by_cases htext : s.text.len = 0
    · have hdata : s.data.len ≠ 0 := by omega
      obtain ⟨_, ⟨q, hq, -, rfl⟩, -, hfirst⟩ := h.data.first hdata
      have hvma := hlow s.data.vaddr ⟨q, hq, hfirst⟩ fun q hq => by
        have hat := hplace q hq
        omega
      unfold Sections.onlyText
      rw [if_pos ⟨hdata, htext⟩, wrap_eq h.data.lt]
      unfold Sections.grown
      dsimp only
      rw [wrap_eq h.data.lt, if_neg (Nat.lt_irrefl _), if_neg hdata, hvma]
      rfl
    · obtain ⟨_, ⟨q, hq, -, rfl⟩, -, hfirst⟩ := h.text.first htext
      have hvma := hlow s.text.vaddr ⟨q, hq, hfirst⟩ fun q hq => by
        have hat := hplace q hq
        omega
      unfold Sections.onlyText
      rw [if_neg fun hand => htext hand.2, hvma]
      unfold Sections.grown
      rw [wrap_eq h.text.lt]
      by_cases hdata : s.data.len = 0
      · -- the bss starts at the end of the text, or there is nothing writable
        have hle : s.data.vaddr ≤ s.text.vaddr + s.text.len := by
          by_cases hzero : s.bss.len = 0
          · have hnone := h.data.none ?_
            · rw [hnone]
              exact Nat.zero_le _
            · rintro _ ⟨q, hq, hwritable, rfl⟩
              obtain ⟨hsize, ⟨hnot, -⟩ | hat⟩ := hplace q hq
              · exact hnot hwritable
              · omega
          · have hbegin := hstart hzero
            omega
        rw [if_neg (Nat.not_lt.mpr hle), if_pos hdata]
        omega
      · rw [if_neg hdata]
        have hlt := h.data.lt
        split_ifs
        · dsimp only
          rw [less_eq (by omega) (by omega)]
          omega
        · omega
  refine ⟨fun q hq hqne => ?_, ?_, fun q hq => ?_⟩
  · have hat := hplace q hq
    split_ifs at hend <;> omega
  · rw [hend]
    split_ifs with hdata
    · obtain ⟨_, ⟨q, hq, -, rfl⟩, hlast⟩ := h.text.last (by omega)
      exact ⟨q, hq, hlast⟩
    · obtain ⟨_, ⟨q, hq, -, rfl⟩, hlast⟩ := h.data.last hdata
      exact ⟨q, hq, hlast⟩
  · have hat := hplace q hq
    split_ifs at hend <;> omega

end

/-! ## What is written -/

theorem copyLoop_spec {file : List UInt8} {fuel offset size : Nat} {bytes : List UInt8}
    (hfuel : size ≤ fuel) (h : copyLoop file fuel offset size = some bytes) :
    bytes = (file.drop offset).take size ∧ (size = 0 ∨ offset + size ≤ file.length) := by
  induction fuel generalizing offset size bytes with
  | zero =>
      obtain rfl : size = 0 := by omega
      cases h
      exact ⟨rfl, .inl rfl⟩
  | succ fuel ih =>
      unfold copyLoop at h
      by_cases hzero : size = 0
      · rw [if_pos hzero] at h
        cases h
        exact ⟨by rw [hzero, List.take_zero], .inl hzero⟩
      · rw [if_neg hzero] at h
        dsimp only at h
        split_ifs at h
        obtain ⟨rest, hrest, heq⟩ := Option.bind_eq_some_iff.mp h
        cases heq
        obtain ⟨rfl, hroom⟩ := ih (by omega) hrest
        refine ⟨?_, by omega⟩
        rw [← List.drop_drop, ← List.take_add, Nat.add_sub_cancel' (Nat.min_le_left _ _)]

/-- The file bytes of the segments at their addresses from `low` on, and zeros between them. -/
structure Written (file : List UInt8) (xs : List Elf32_Phdr) (low : Nat) (out : List UInt8) : Prop where
  bytes : ∀ p ∈ xs, ∀ i < p.p_filesz, out[p.p_vaddr - low + i]? = file[p.p_offset + i]?
  zeros : ∀ k < out.length,
    (∀ p ∈ xs, ¬ (p.p_vaddr ≤ low + k ∧ low + k < p.p_vaddr + p.p_filesz)) → out[k]? = some 0
  ends : ∀ p ∈ xs, p.p_filesz ≠ 0 → p.p_vaddr + p.p_filesz ≤ low + out.length
  last : out = [] ∨ ∃ p ∈ xs, p.p_filesz ≠ 0 ∧ p.p_vaddr + p.p_filesz = low + out.length

section

variable {file rest out : List UInt8} {xs ph : List Elf32_Phdr} {p : Elf32_Phdr} {low : Nat}

theorem Written.cons (hw : Written file xs (p.p_vaddr + p.p_filesz) rest) (hne : p.p_filesz ≠ 0)
    (hlow : low ≤ p.p_vaddr) (hroom : p.p_offset + p.p_filesz ≤ file.length)
    (hbehind : ∀ q ∈ xs, p.p_vaddr + p.p_filesz ≤ q.p_vaddr) :
    Written file (p :: xs) low (List.replicate (p.p_vaddr - low) 0 ++
      ((file.drop p.p_offset).take p.p_filesz ++ rest)) := by
  have htaken : ((file.drop p.p_offset).take p.p_filesz).length = p.p_filesz := by
    rw [List.length_take, List.length_drop]
    omega
  generalize hout : List.replicate (p.p_vaddr - low) (0 : UInt8) ++
    ((file.drop p.p_offset).take p.p_filesz ++ rest) = out
  have hlength : low + out.length = p.p_vaddr + p.p_filesz + rest.length := by
    rw [← hout, List.length_append, List.length_append, List.length_replicate, htaken]
    omega
  have hgap : ∀ k < p.p_vaddr - low, out[k]? = some 0 := fun k hk => by
    rw [← hout, List.getElem?_append_left (by simpa using hk), List.getElem?_replicate, if_pos hk]
  have hfirst : ∀ i < p.p_filesz, out[p.p_vaddr - low + i]? = file[p.p_offset + i]? := fun i hi => by
    rw [← hout, List.getElem?_append_right (by simp), List.length_replicate, Nat.add_sub_cancel_left,
      List.getElem?_append_left (by omega), List.getElem?_take_of_lt hi, List.getElem?_drop]
  have hrest : ∀ k, out[p.p_vaddr - low + (p.p_filesz + k)]? = rest[k]? := fun k => by
    rw [← hout, List.getElem?_append_right (by simp), List.length_replicate, Nat.add_sub_cancel_left,
      List.getElem?_append_right (by omega), htaken, Nat.add_sub_cancel_left]
  refine ⟨List.forall_mem_cons.mpr ⟨hfirst, fun q hq i hi => ?_⟩, fun k hk hnot => ?_,
    List.forall_mem_cons.mpr ⟨fun _ => by omega, fun q hq hqne => ?_⟩, .inr ?_⟩
  · have hq' := hbehind q hq
    rw [← hw.bytes q hq i hi, ← hrest]
    congr 1
    omega
  · obtain ⟨hnotp, hnot⟩ := List.forall_mem_cons.mp hnot
    by_cases hin : k < p.p_vaddr - low
    · exact hgap k hin
    · obtain ⟨j, rfl⟩ : ∃ j, k = p.p_vaddr - low + (p.p_filesz + j) :=
        ⟨k - (p.p_vaddr - low) - p.p_filesz, by omega⟩
      rw [hrest]
      refine hw.zeros j (by omega) fun q hq hin => hnot q hq ?_
      omega
  · have hend := hw.ends q hq hqne
    omega
  · obtain rfl | ⟨q, hq, hqne, hqend⟩ := hw.last
    · exact ⟨p, List.mem_cons_self, hne, hlength.symm⟩
    · exact ⟨q, List.mem_cons_of_mem _ hq, hqne, by omega⟩

theorem output_spec (h : output file low ph = some out) (hsorted : (loaded ph).Pairwise Before)
    (hsized : ∀ p ∈ loaded ph, p.Sized) (hlow : ∀ p ∈ loaded ph, low ≤ p.p_vaddr) :
    Written file (loaded ph) low out := by
  induction ph generalizing low out with
  | nil =>
      cases h
      exact ⟨nofun, nofun, nofun, .inl rfl⟩
  | cons p ph ih =>
      unfold output at h
      unfold loaded at hsorted hsized hlow ⊢
      by_cases hload : p.p_type = PT_LOAD
      · rw [List.filter_cons_of_pos (by simpa using hload)] at hsorted hsized hlow ⊢
        rw [List.pairwise_cons] at hsorted
        rw [List.forall_mem_cons] at hsized hlow
        obtain ⟨⟨hpos, hle, hlt⟩, hsized⟩ := hsized
        by_cases hne : p.p_filesz = 0
        · rw [if_neg fun hand => hand.2 hne] at h
          have hw := ih h hsorted.2 hsized hlow.2
          exact ⟨List.forall_mem_cons.mpr ⟨fun i hi => by omega, hw.bytes⟩,
            fun k hk hnot => hw.zeros k hk (List.forall_mem_cons.mp hnot).2,
            List.forall_mem_cons.mpr ⟨fun hne' => absurd hne hne', hw.ends⟩,
            hw.last.imp_right fun ⟨q, hq, hrest⟩ => ⟨q, List.mem_cons_of_mem _ hq, hrest⟩⟩
        · have hbehind : ∀ q ∈ loaded ph, p.p_vaddr + p.p_filesz ≤ q.p_vaddr := fun q hq => by
            have hpq := hsorted.1 q hq
            unfold Before at hpq
            omega
          rw [if_pos ⟨hload, hne⟩, less_eq hlow.1 (by omega), wrap_eq (by omega)] at h
          dsimp only at h
          split_ifs at h
          obtain ⟨bytes, hbytes, h⟩ := Option.bind_eq_some_iff.mp h
          obtain ⟨rest, hrest, heq⟩ := Option.bind_eq_some_iff.mp h
          cases heq
          unfold copy at hbytes
          split_ifs at hbytes
          obtain ⟨rfl, hroom⟩ := copyLoop_spec (Nat.le_refl _) hbytes
          exact (ih hrest hsorted.2 hsized hbehind).cons hne hlow.1 (hroom.resolve_left hne) hbehind
      · rw [List.filter_cons_of_neg (by simpa using hload)] at hsorted hsized hlow ⊢
        rw [if_neg fun hand => hload hand.1] at h
        exact ih h hsorted hsized hlow

end

/-! ## The conversion -/

/-- A text of three bytes, and two bytes of data with a bss behind a gap. -/
def sampleElf : Elf where
  file := [1, 2, 3, 4, 5]
  ph := [⟨PT_LOAD, 3, 4100, 2, 4, PF_W⟩, ⟨PT_LOAD, 0, 4096, 3, 3, 0⟩, ⟨PT_NULL, 0, 0, 0, 0, 0⟩]
  e_entry := 4097

end DiscoBsd.Elf2aout
