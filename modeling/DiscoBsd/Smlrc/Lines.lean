import DiscoBsd.Asm.Encoded
import DiscoBsd.Lib.ArmMachine
import DiscoBsd.Smlrc.Constants

/-!
# The lines of the compiler in the assembler

A line as the code generator prints it, with a tab before the mnemonic and one before the operands,
through `do_line`: the statement that it is and what the assembled instruction does.
-/

namespace DiscoBsd.Smlrc

open Asm Lib.Armv4

variable {mnem ops body p : Text}

/-- A character that does not end a line, its text or its instruction. -/
def inLine (c : Char) : Bool := !(c == NUL || c == '"' || c == '@' || c == ':' || isNewline c)

theorem cstr_append (k : Nat) (h : body.all (· != NUL) = true) :
    cstr (body ++ List.replicate k NUL) = body := by
  unfold cstr
  rw [List.takeWhile_append_of_pos (by simpa using h)]
  cases k <;> simp [List.replicate_succ]

theorem lineBuffer_eq (h : body.all inLine = true) (hne : body ≠ []) (hlen : body.length < 511) :
    lineBuffer (body ++ ['\n']) = body ++ List.replicate (512 - body.length) NUL := by
  have hnul : (body ++ ['\n']).all (· != NUL) = true := by
    rw [List.all_append, Bool.and_eq_true]
    refine ⟨?_, by decide⟩
    rw [List.all_eq_true] at h ⊢
    intro c hc
    have hin := h c hc
    unfold inLine at hin
    simp_all
  have htext : ((cstr (body ++ ['\n'])).take (LINESIZE - 1)).rdropWhile isNewline = body := by
    have hcstr : cstr (body ++ ['\n']) = body ++ ['\n'] := by
      have := cstr_append 0 hnul
      rwa [List.replicate_zero, List.append_nil] at this
    rw [hcstr, List.take_of_length_le (by simp [LINESIZE]; omega),
      List.rdropWhile_concat_pos _ _ _ (by decide)]
    obtain ⟨front, c, rfl⟩ := (List.eq_nil_or_concat body).resolve_left hne
    rw [List.concat_eq_append] at h ⊢
    refine List.rdropWhile_concat_neg _ _ _ ?_
    have hin := (List.all_eq_true.mp h) c (by simp)
    unfold inLine at hin
    simp_all
  unfold lineBuffer
  dsimp only
  rw [htext]
  rfl

theorem stripComment_eq (k : Nat) (h : body.all inLine = true) :
    stripComment false (body ++ List.replicate (k + 1) NUL) =
      body ++ List.replicate (k + 1) NUL := by
  induction body with
  | nil => rfl
  | cons c body ih =>
      rw [List.all_cons, Bool.and_eq_true] at h
      obtain ⟨hc, hbody⟩ := h
      unfold inLine at hc
      rw [List.cons_append, stripComment]
      have hne : c ≠ NUL ∧ c ≠ '"' ∧ c ≠ '@' := by simp_all
      rw [if_neg hne.1, if_neg hne.2.1, if_neg (fun h => hne.2.2 h.1), ih hbody]

theorem strchr_none (d : Char) (k : Nat) (h : body.all (· != NUL) = true) (hd : d ∉ body) :
    strchr (body ++ List.replicate k NUL) d = none := by
  unfold strchr
  rw [cstr_append k h]
  simpa using hd

/-- A character of a mnemonic. -/
def inMnemonic (c : Char) : Bool := inLine c && !isspace c && c != '.'

theorem inMnemonic_cases {c : Char} (h : inMnemonic c = true) : inLine c = true ∧
    (!(c == NUL || isspace c)) = true ∧ isblank c = false ∧ c ≠ NUL ∧ c ≠ '.' := by
  have hblank : isblank c = true → isspace c = true := by
    intro hb
    unfold isblank at hb
    rw [Bool.or_eq_true, beq_iff_eq, beq_iff_eq] at hb
    rcases hb with rfl | rfl <;> rfl
  unfold inMnemonic inLine at *
  cases hb : isblank c <;> simp_all

/-- A printed line is an instruction without labels. -/
theorem parseLine_printed (hm : mnem.all inMnemonic = true) (hne : mnem ≠ [])
    (hshort : mnem.length ≤ 15) (ho : ops.all inLine = true) (hlen : ops.length ≤ 256) :
    ∃ k, parseLine (printed mnem ops) =
      ([], instruction (mnem ++ '\t' :: ops ++ List.replicate (k + 1) NUL)) := by
  obtain ⟨c, rest, rfl⟩ := List.exists_cons_of_ne_nil hne
  obtain ⟨-, -, hblank, hnul, hdot⟩ := inMnemonic_cases (List.all_eq_true.mp hm c (by simp))
  have hbody : ('\t' :: (c :: rest) ++ '\t' :: ops).all inLine = true := by
    rw [List.all_eq_true] at hm ho ⊢
    intro x hx
    simp only [List.cons_append, List.mem_cons, List.mem_append] at hx
    rcases hx with rfl | hx | hx | rfl | hx
    · rfl
    · exact (inMnemonic_cases (hm x (by simp [hx]))).1
    · exact (inMnemonic_cases (hm x (by simp [hx]))).1
    · rfl
    · exact ho x hx
  have hsize : ('\t' :: (c :: rest) ++ '\t' :: ops).length < 511 := by
    simp only [List.length_append, List.length_cons] at hshort ⊢
    omega
  obtain ⟨k, hk⟩ : ∃ k, 512 - ('\t' :: (c :: rest) ++ '\t' :: ops).length = k + 1 :=
    ⟨511 - ('\t' :: (c :: rest) ++ '\t' :: ops).length, by omega⟩
  refine ⟨k, ?_⟩
  have hplain : ((c :: rest) ++ '\t' :: ops).all inLine = true := by
    rw [List.cons_append, List.all_cons, Bool.and_eq_true] at hbody
    exact hbody.2
  have hskip : skipws ('\t' :: (c :: rest) ++ '\t' :: ops ++ List.replicate (k + 1) NUL) =
      (c :: rest) ++ '\t' :: ops ++ List.replicate (k + 1) NUL := by
    unfold skipws
    rw [List.cons_append, List.cons_append, List.dropWhile_cons_of_pos (by decide),
      List.cons_append, List.cons_append, List.dropWhile_cons_of_neg (by rw [hblank]; decide)]
  have hcolon : strchr ((c :: rest) ++ '\t' :: ops ++ List.replicate (k + 1) NUL) ':' = none := by
    refine strchr_none ':' (k + 1) ?_ ?_
    · rw [List.all_eq_true] at hplain ⊢
      intro x hx
      have hin := hplain x hx
      unfold inLine at hin
      simp_all
    · intro hmem
      exact absurd ((List.all_eq_true.mp hplain) ':' hmem) (by decide)
  have hlabels : ∀ n, labels n ((c :: rest) ++ '\t' :: ops ++ List.replicate (k + 1) NUL) =
      ([], (c :: rest) ++ '\t' :: ops ++ List.replicate (k + 1) NUL) := by
    intro n
    cases n with
    | zero => rfl
    | succ n =>
        unfold labels
        rw [hcolon]
  unfold parseLine printed
  rw [lineBuffer_eq hbody (by simp) hsize, hk, stripComment_eq k hbody, hskip]
  dsimp only
  rw [hlabels]
  unfold stmt
  rw [if_neg (by simpa [deref] using hnul), if_neg (by simpa [deref] using hdot)]

/-- What is read of an instruction: its mnemonic and the rest. -/
theorem instruction_parts (k : Nat) (hm : mnem.all inMnemonic = true) (hshort : mnem.length ≤ 15)
    (ho : ops.head?.any isblank = false) :
    (token (mnem ++ '\t' :: ops ++ List.replicate k NUL)).take 15 = mnem ∧
      skipws ((mnem ++ '\t' :: ops ++ List.replicate k NUL).drop
        (token (mnem ++ '\t' :: ops ++ List.replicate k NUL)).length) =
        ops ++ List.replicate k NUL := by
  have htoken : token (mnem ++ '\t' :: ops ++ List.replicate k NUL) = mnem := by
    unfold token
    rw [List.append_assoc, List.takeWhile_append_of_pos, List.cons_append,
      List.takeWhile_cons_of_neg (by decide), List.append_nil]
    intro c hc
    exact (inMnemonic_cases (List.all_eq_true.mp hm c hc)).2.1
  rw [htoken]
  refine ⟨List.take_of_length_le hshort, ?_⟩
  rw [List.append_assoc, List.drop_left, List.cons_append]
  unfold skipws
  rw [List.dropWhile_cons_of_pos (by decide)]
  cases ops with
  | nil => cases k <;> rfl
  | cons c ops =>
      have hc : isblank c = false := ho
      rw [List.cons_append, List.dropWhile_cons_of_neg (by rw [hc]; decide)]

theorem parseLine_instr (hm : mnem.all inMnemonic = true) (hne : mnem ≠ [])
    (hshort : mnem.length ≤ 15) (ho : ops.all inLine = true) (hblank : ops.head?.any isblank = false)
    (heq : '=' ∉ ops) (hlen : ops.length ≤ 256) :
    parseLine (printed mnem ops) = ([], .instr mnem ops) := by
  obtain ⟨k, hk⟩ := parseLine_printed hm hne hshort ho hlen
  obtain ⟨htoken, hops⟩ := instruction_parts (k + 1) hm hshort hblank
  have hnul : ops.all (· != NUL) = true := by
    rw [List.all_eq_true] at ho ⊢
    intro x hx
    have hin := ho x hx
    unfold inLine at hin
    simp_all
  rw [hk]
  unfold instruction
  dsimp only
  rw [htoken, hops, strchr_none '=' _ hnul heq]
  dsimp only
  rw [cstr_append _ hnul]

/-! ## Literals -/

theorem strchr_first {d : Char} {rest : Text} (h : body.all (· != NUL) = true) (hd : d ∉ body)
    (hnul : d ≠ NUL) : strchr (body ++ d :: rest) d = some body.length := by
  induction body with
  | nil => rw [List.nil_append, strchr_cons hnul, if_pos rfl, List.length_nil]
  | cons c body ih =>
      rw [List.all_cons, Bool.and_eq_true, bne_iff_ne] at h
      rw [List.mem_cons, not_or] at hd
      rw [List.cons_append, strchr_cons h.1, if_neg (Ne.symm hd.1), ih h.2 hd.2]
      rfl

/-- The largest `long` is read for every number above it. -/
theorem strtol_hex (u : Word) (k : Nat) :
    (strtol ('0' :: 'x' :: percent08X u ++ List.replicate (k + 1) NUL) 0).1 =
      min (u.toNat : Int) (2 ^ 31 - 1) := by
  obtain ⟨hvalue, hall⟩ := ofDigits_percent08X u
  have hdigits : (percent08X u ++ List.replicate (k + 1) NUL).takeWhile (isDigitOf 16) =
      percent08X u := by
    rw [List.takeWhile_append_of_pos (by simpa using hall), List.replicate_succ,
      List.takeWhile_cons_of_neg (by decide), List.append_nil]
  have hread : ∀ q, (strtol ('0' :: 'x' :: q) 0).1 =
      min (ofDigits 16 (q.takeWhile (isDigitOf 16)) : Int) (LONGMAX : Int) := fun _ => rfl
  rw [List.cons_append, List.cons_append, hread, hdigits, hvalue]
  rfl

theorem plain_inLine {c : Char} (h : isPlain c = true) :
    inLine c = true ∧ (c != NUL) = true ∧ c ≠ '=' ∧ c ≠ ',' ∧ isblank c = false := by
  unfold isPlain at h
  unfold inLine
  simp_all

/-- A load of a constant that is printed in hexadecimal. -/
theorem parseLine_load {r : Nat} (hr : r < 16) (u : Word) :
    parseLine (printed "ldr".toList (prn r ++ ", =0x".toList ++ percent08X u)) =
      ([], .load r (.number (min u.toNat (2 ^ 31 - 1)))) := by
  obtain ⟨hplain, hne, hlen, hreg⟩ := plain_prn r hr
  obtain ⟨hnum, -⟩ := register_eq hreg
  have hplain' := fun c hc => plain_inLine (List.all_eq_true.mp hplain c hc)
  have hhex : ∀ c ∈ percent08X u, inLine c = true := by
    intro c hc
    obtain ⟨k, -, rfl⟩ := List.mem_map.mp hc
    have hall : ∀ d < 16, inLine (hexDigit d) = true := by decide
    exact hall _ (Nat.mod_lt _ (by omega))
  have hops : (prn r ++ ", =0x".toList ++ percent08X u).all inLine = true := by
    rw [List.all_eq_true]
    intro c hc
    rcases List.mem_append.mp hc with hc | hc
    · rcases List.mem_append.mp hc with hc | hc
      · exact (hplain' c hc).1
      · have hall : ∀ c ∈ ", =0x".toList, inLine c = true := List.all_eq_true.mp (by decide)
        exact hall c hc
    · exact hhex c hc
  have hhead : (prn r ++ ", =0x".toList ++ percent08X u).head?.any isblank = false := by
    obtain ⟨c, rest, hcons⟩ := List.exists_cons_of_ne_nil hne
    rw [hcons]
    exact (hplain' c (by simp [hcons])).2.2.2.2
  have hmnem : "ldr".toList.all inMnemonic = true := by decide
  obtain ⟨k, hk⟩ := parseLine_printed hmnem (by decide) (by decide) hops
    (by simp [percent08X]; omega)
  obtain ⟨htoken, hskip⟩ := instruction_parts (k + 1) hmnem (by decide) hhead
  have hsplit : prn r ++ ", =0x".toList ++ percent08X u ++ List.replicate (k + 1) NUL =
      prn r ++ ',' :: ' ' :: '=' :: ('0' :: 'x' :: percent08X u ++ List.replicate (k + 1) NUL) := by
    simp
  have heq : strchr (prn r ++ ", =0x".toList ++ percent08X u ++ List.replicate (k + 1) NUL) '=' =
      some ((prn r).length + 2) := by
    have hfront : prn r ++ ", =0x".toList ++ percent08X u ++ List.replicate (k + 1) NUL =
        (prn r ++ [',', ' ']) ++ '=' :: ('0' :: 'x' :: percent08X u ++
          List.replicate (k + 1) NUL) := by
      simp
    rw [hfront, strchr_first ?_ ?_ (by decide), List.length_append]
    · rfl
    · rw [List.all_append, Bool.and_eq_true, List.all_eq_true]
      exact ⟨fun c hc => (hplain' c hc).2.1, by decide⟩
    · intro hmem
      rcases List.mem_append.mp hmem with hmem | hmem
      · exact (hplain' _ hmem).2.2.1 rfl
      · revert hmem
        decide
  have hcomma : strchr (prn r ++ ',' :: ' ' :: '=' :: ('0' :: 'x' :: percent08X u ++
      List.replicate (k + 1) NUL)) ',' = some (prn r).length :=
    strchr_first (List.all_eq_true.mpr fun c hc => (hplain' c hc).2.1)
      (fun hmem => (hplain' _ hmem).2.2.2.1 rfl) (by decide)
  rw [hk]
  unfold instruction
  dsimp only
  rw [htoken, hskip, heq]
  dsimp only
  rw [if_pos rfl, hsplit]
  unfold loadLiteral
  rw [hcomma]
  dsimp only
  have hskip' : skipws (prn r ++ NUL :: ' ' :: '=' :: ('0' :: 'x' :: percent08X u ++
      List.replicate (k + 1) NUL)) = prn r ++ NUL :: ' ' :: '=' :: ('0' :: 'x' :: percent08X u ++
      List.replicate (k + 1) NUL) := by
    obtain ⟨c, rest, hcons⟩ := List.exists_cons_of_ne_nil hne
    unfold skipws
    rw [hcons, List.cons_append, List.dropWhile_cons_of_neg]
    rw [(hplain' c (by simp [hcons])).2.2.2.2]
    decide
  have hname : cstr (prn r ++ NUL :: ' ' :: '=' :: ('0' :: 'x' :: percent08X u ++
      List.replicate (k + 1) NUL)) = prn r := by
    unfold cstr
    rw [List.takeWhile_append_of_pos (fun c hc => (hplain' c hc).2.1),
      List.takeWhile_cons_of_neg (by decide), List.append_nil]
  have hafter : (prn r ++ NUL :: ' ' :: '=' :: ('0' :: 'x' :: percent08X u ++
      List.replicate (k + 1) NUL)).drop ((prn r).length + 2 + 1) =
      '0' :: 'x' :: percent08X u ++ List.replicate (k + 1) NUL := by
    rw [Nat.add_assoc, List.drop_append]
    simp
  rw [List.set_append_right _ _ (Nat.le_refl _), Nat.sub_self, List.set_cons_zero, hskip', hname,
    hafter, List.take_of_length_le (by omega), hnum]
  unfold literal
  have hnumber : isNumber (deref (skipws ('0' :: 'x' :: percent08X u ++
      List.replicate (k + 1) NUL))) = true := rfl
  rw [if_pos hnumber]
  have hzero : skipws ('0' :: 'x' :: percent08X u ++ List.replicate (k + 1) NUL) =
      '0' :: 'x' :: percent08X u ++ List.replicate (k + 1) NUL := rfl
  rw [hzero, strtol_hex]

/-! ## Operands -/

theorem fields_plain (field rest : Text) (h : body.all isPlain = true) :
    fields 0 field (body ++ rest) = fields 0 (field ++ body) rest := by
  induction body generalizing field with
  | nil => rw [List.nil_append, List.append_nil]
  | cons c body ih =>
      rw [List.all_cons, Bool.and_eq_true] at h
      have hc : ¬ (c = '[' ∨ c = '\x7b') ∧ ¬ (c = ']' ∨ c = '\x7d') ∧ c ≠ ',' := by
        have hplain := h.1
        unfold isPlain at hplain
        simp_all
      rw [List.cons_append, fields, if_neg hc.1, if_neg hc.2.1, if_neg (fun h => hc.2.2 h.1),
        ih _ h.2, List.append_assoc]
      rfl

theorem trim_plain (h : body.all isPlain = true) : trim body = body ∧ trim (' ' :: body) = body := by
  have hblank : ∀ c ∈ body, isblank c = false := fun c hc =>
    (plain_inLine (List.all_eq_true.mp h c hc)).2.2.2.2
  have hskip : skipws body = body := by
    unfold skipws
    cases body with
    | nil => rfl
    | cons c rest => rw [List.dropWhile_cons_of_neg (by rw [hblank c (by simp)]; decide)]
  have hback : body.rdropWhile isblank = body := by
    rcases List.eq_nil_or_concat body with rfl | ⟨front, c, rfl⟩
    · rfl
    · rw [List.concat_eq_append]
      exact List.rdropWhile_concat_neg _ _ _ (by rw [hblank c (by simp)]; decide)
  have hspace : skipws (' ' :: body) = skipws body :=
    List.dropWhile_cons_of_pos (by decide)
  unfold trim
  rw [hspace, hskip, hback]
  exact ⟨rfl, rfl⟩

theorem cstr_eq (h : body.all (· != NUL) = true) : cstr body = body := by
  have hall := cstr_append 0 h
  rwa [List.replicate_zero, List.append_nil] at hall

theorem plain_nul (h : body.all isPlain = true) : body.all (· != NUL) = true := by
  rw [List.all_eq_true] at h ⊢
  exact fun c hc => (plain_inLine (h c hc)).2.1

/-- Operands as they are printed, with a comma and a blank between. -/
theorem operands_two {a b : Text} (ha : a.all isPlain = true) (hb : b.all isPlain = true) :
    operands (a ++ ", ".toList ++ b) = [a, b] := by
  have hnul : (a ++ ", ".toList ++ b).all (· != NUL) = true := by
    rw [List.all_append, List.all_append, plain_nul ha, plain_nul hb]
    rfl
  have hcut : fields 0 [] (a ++ ", ".toList ++ b) = [a, ' ' :: b] := by
    rw [List.append_assoc, fields_plain [] _ ha, List.nil_append]
    show a :: fields 0 [' '] b = _
    have hlast := fields_plain [' '] [] hb
    rw [List.append_nil] at hlast
    rw [hlast]
    rfl
  rw [operands_eq, cstr_eq hnul, hcut, List.map_cons, List.map_cons, (trim_plain ha).1, (trim_plain hb).2]
  rfl

theorem operands_three {a b c : Text} (ha : a.all isPlain = true) (hb : b.all isPlain = true)
    (hc : c.all isPlain = true) :
    operands (a ++ ", ".toList ++ b ++ ", ".toList ++ c) = [a, b, c] := by
  have hnul : (a ++ ", ".toList ++ b ++ ", ".toList ++ c).all (· != NUL) = true := by
    rw [List.all_append, List.all_append, List.all_append, List.all_append, plain_nul ha,
      plain_nul hb, plain_nul hc]
    rfl
  have hcut : fields 0 [] (a ++ ", ".toList ++ b ++ ", ".toList ++ c) =
      [a, ' ' :: b, ' ' :: c] := by
    rw [List.append_assoc, List.append_assoc, List.append_assoc, fields_plain [] _ ha,
      List.nil_append]
    show a :: fields 0 [' '] (b ++ (", ".toList ++ c)) = _
    rw [fields_plain [' '] _ hb]
    show a :: ([' '] ++ b) :: fields 0 [' '] c = _
    have hlast := fields_plain [' '] [] hc
    rw [List.append_nil] at hlast
    rw [hlast]
    rfl
  rw [operands_eq, cstr_eq hnul, hcut, List.map_cons, List.map_cons, List.map_cons, (trim_plain ha).1,
    (trim_plain hb).2, (trim_plain hc).2]
  rfl

end DiscoBsd.Smlrc
