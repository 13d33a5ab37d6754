import DiscoBsd.Output.Ttwrite
import Mathlib.Data.Bool.AllAny

/-!
# What a terminal is sent for a text

`expand` is the purpose of output processing, without queues: the low seven bits of each character, a
newline as carriage return and line feed, a tab as the spaces up to the next multiple of eight. With
RAW or LITOUT characters go through as they are. The lemmas connect it to `partab`.
-/

namespace DiscoBsd.Output

/-- The column of the next tab stop. -/
def nextStop (t_col : Int) : Int := t_col - t_col % 8 + 8

/-- The characters for one character at a column. -/
def shown (t_flags : Flags) (t_col : Int) (c : UInt8) : List UInt8 :=
  if t_flags.literal then [c]
  else if c &&& 0x7f = 9 ∧ t_flags.xtabs then List.replicate (nextStop t_col - t_col).toNat 32
  else if c &&& 0x7f = 10 ∧ t_flags.crmod then [13, 10]
  else [c &&& 0x7f]

/-- The column behind a seven-bit character. -/
def columnAfter (t_col : Int) (c : UInt8) : Int :=
  if c = 9 then nextStop t_col
  else if c = 10 ∨ c = 13 then 0
  else if c = 8 then (if t_col = 0 then 0 else t_col - 1)
  else if 32 ≤ c ∧ c ≠ 127 then t_col + 1
  else t_col

/-- The column behind one character. -/
def advance (t_flags : Flags) (t_col : Int) (c : UInt8) : Int :=
  if t_flags.literal then t_col + 1 else columnAfter t_col (c &&& 0x7f)

/-- The characters for a text from a column on. -/
def expand (t_flags : Flags) : Int → List UInt8 → List UInt8
  | _, [] => []
  | t_col, c :: cs => shown t_flags t_col c ++ expand t_flags (advance t_flags t_col c) cs

/-- The column behind a text. -/
def columns (t_flags : Flags) (t_col : Int) (cs : List UInt8) : Int :=
  cs.foldl (advance t_flags) t_col

theorem columns_append (t_flags : Flags) (t_col : Int) (cs cs' : List UInt8) :
    columns t_flags t_col (cs ++ cs') = columns t_flags (columns t_flags t_col cs) cs' :=
  List.foldl_append

theorem expand_append (t_flags : Flags) (t_col : Int) (cs cs' : List UInt8) :
    expand t_flags t_col (cs ++ cs') =
      expand t_flags t_col cs ++ expand t_flags (columns t_flags t_col cs) cs' := by
  induction cs generalizing t_col with
  | nil => rfl
  | cons c cs ih =>
      rw [List.cons_append, expand, ih, expand, List.append_assoc, columns, columns, List.foldl_cons]

theorem expand_single (t_flags : Flags) (t_col : Int) (c : UInt8) :
    expand t_flags t_col [c] = shown t_flags t_col c :=
  List.append_nil _

/-! ## The table -/

theorem partab_mem (c : UInt8) : (partab.getD c.toNat 0, c.toNat) ∈ partab.zipIdx := by
  have hlength : partab.length = 256 := by decide +kernel
  have hlt : c.toNat < partab.length := by
    rw [hlength]
    exact c.toNat_lt
  rw [List.mem_zipIdx_iff_getElem?, List.getD, List.getElem?_eq_getElem hlt]
  rfl

/-- The types of the seven-bit characters; the others need `ttyoutput`, which strips their parity. -/
theorem partab_type (c : UInt8) :
    partabAnd c 0o77 =
      if 127 < c then 7 else if c = 9 then TAB else if c = 10 then NEWLINE
      else if c = 13 then RETURN else if c = 8 then BACKSPACE
      else if 32 ≤ c ∧ c ≠ 127 then ORDINARY else if c = 12 then VTAB else CONTROL := by
  have hall : ∀ p ∈ partab.zipIdx, p.1 &&& 0o77 =
      if 127 < p.2 then 7 else if p.2 = 9 then TAB else if p.2 = 10 then NEWLINE
      else if p.2 = 13 then RETURN else if p.2 = 8 then BACKSPACE
      else if 32 ≤ p.2 ∧ p.2 ≠ 127 then ORDINARY else if p.2 = 12 then VTAB else CONTROL :=
    List.all_iff_forall_prop.mp (by decide +kernel)
  rw [partabAnd, hall _ (partab_mem c)]
  simp only [UInt8.lt_iff_toNat_lt, UInt8.le_iff_toNat_le, ← UInt8.toNat_inj, ne_eq]
  rfl

theorem strip_le (c : UInt8) : ¬ 127 < c &&& 0x7f := by
  rw [UInt8.lt_iff_toNat_lt, UInt8.toNat_and]
  exact Nat.not_lt.mpr Nat.and_le_right

theorem strip_of_le {c : UInt8} (h : ¬ 127 < c) : c &&& 0x7f = c := by
  have hlt : c.toNat < 2 ^ 7 := by
    rw [UInt8.lt_iff_toNat_lt, Nat.not_lt] at h
    exact Nat.lt_succ_of_le h
  rw [← UInt8.toNat_inj, UInt8.toNat_and]
  exact Nat.and_two_pow_sub_one_of_lt_two_pow hlt

theorem printed {c : UInt8} (h : partabAnd c 0o77 = 0) :
    ¬ 127 < c ∧ c ≠ 8 ∧ c ≠ 9 ∧ c ≠ 10 ∧ c ≠ 13 ∧ 32 ≤ c ∧ c ≠ 127 := by
  have hall : ∀ p ∈ partab.zipIdx, p.1 &&& 0o77 = 0 → ¬ 127 < p.2 ∧ p.2 ≠ 8 ∧ p.2 ≠ 9 ∧ p.2 ≠ 10 ∧
      p.2 ≠ 13 ∧ 32 ≤ p.2 ∧ p.2 ≠ 127 :=
    List.all_iff_forall_prop.mp (by decide +kernel)
  have hc := hall _ (partab_mem c) h
  simp only [UInt8.lt_iff_toNat_lt, UInt8.le_iff_toNat_le, ← UInt8.toNat_inj, ne_eq]
  exact hc

theorem plain {c : UInt8} (h : partabAnd c 0o77 = 0) (t_flags : Flags) (t_col : Int) :
    shown t_flags t_col c = [c] ∧ advance t_flags t_col c = t_col + 1 := by
  obtain ⟨hseven, hbackspace, htab, hnewline, hreturn, hprinting⟩ := printed h
  rw [shown, advance, strip_of_le hseven, columnAfter, if_neg htab, if_neg hbackspace,
    if_pos hprinting, if_neg (not_or.mpr ⟨hnewline, hreturn⟩)]
  simp only [htab, hnewline, false_and, if_false, ite_self, and_self]

/-- A run of characters that go through as they are. -/
theorem expand_plain {t_flags : Flags} (cs : List UInt8)
    (h : t_flags.literal = true ∨ ∀ c ∈ cs, partabAnd c 0o77 = 0) (t_col : Int) :
    expand t_flags t_col cs = cs ∧ columns t_flags t_col cs = t_col + cs.length := by
  induction cs generalizing t_col with
  | nil => exact ⟨rfl, (Int.add_zero t_col).symm⟩
  | cons c cs ih =>
      have hone : shown t_flags t_col c = [c] ∧ advance t_flags t_col c = t_col + 1 := by
        rcases h with hliteral | hplain
        · rw [shown, advance, hliteral]
          exact ⟨rfl, rfl⟩
        · exact plain (hplain c List.mem_cons_self) t_flags t_col
      obtain ⟨hexpand, hcolumns⟩ := ih (h.imp id fun hplain c' hmem =>
        hplain c' (List.mem_cons_of_mem c hmem)) (t_col + 1)
      rw [expand, columns, List.foldl_cons, hone.1, hone.2, hexpand]
      refine ⟨rfl, hcolumns.trans ?_⟩
      rw [List.length_cons]
      omega

/-- The switch of `ttyoutput` follows the table as the purpose says. -/
theorem column_eq (c : UInt8) (t_col : Int) :
    Kernel.column (c &&& 0x7f) t_col = columnAfter t_col (c &&& 0x7f) := by
  have hseven := strip_le c
  generalize c &&& 0x7f = ch at hseven
  rw [Kernel.column, partab_type, if_neg hseven, columnAfter]
  by_cases htab : ch = 9
  · simp only [htab, if_true, TAB, ORDINARY, BACKSPACE, NEWLINE, RETURN, nextStop]
    exact Int.add_assoc ..
  rw [if_neg htab, if_neg htab]
  by_cases hnewline : ch = 10
  · simp only [hnewline, if_true, true_or, ORDINARY, BACKSPACE, NEWLINE, RETURN]
    rfl
  rw [if_neg hnewline]
  by_cases hreturn : ch = 13
  · simp only [hreturn, if_true, or_true, ORDINARY, BACKSPACE, NEWLINE, RETURN]
    rfl
  rw [if_neg hreturn, if_neg (not_or.mpr ⟨hnewline, hreturn⟩)]
  by_cases hbackspace : ch = 8
  · rw [if_pos hbackspace, if_pos hbackspace, if_neg (by decide), if_pos rfl]
    by_cases hzero : t_col = 0
    · rw [if_neg (not_not.mpr hzero), if_pos hzero, hzero]
    · rw [if_pos hzero, if_neg hzero]
  rw [if_neg hbackspace, if_neg hbackspace]
  by_cases hprinting : 32 ≤ ch ∧ ch ≠ 127
  · rw [if_pos hprinting, if_pos hprinting, if_pos rfl]
  · rw [if_neg hprinting, if_neg hprinting]
    split <;> rfl

end DiscoBsd.Output
