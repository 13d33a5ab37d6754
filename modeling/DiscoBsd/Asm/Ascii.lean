import DiscoBsd.Asm.Assemble

/-!
# String literals from the compiler through the assembler

`GenDumpChar` of `usr.bin/smlrc/cgarm.c` writes the bytes of a string literal as one `.ascii`
line, with a backslash before quotes and backslashes and three octal digits for what is not
printable. `do_line` cuts comments at an `@` by counting quotes, escaped ones too, and then
reads octal escapes with `strtol`, which does not stop after three digits. `line_bytes` says
what the assembler makes of the line of any string; it is the string itself exactly when no
unprintable byte has an octal digit behind it and no `@` has an odd number of quotes before it.
-/

namespace DiscoBsd.Asm

/-! ## The compiler's side -/

/-- The octal digit of a value below 8. -/
def octalDigit (d : Nat) : Char := Char.ofNat (48 + d)

/-- A byte that `GenDumpChar` writes as it is. -/
def printable (ch : UInt8) : Bool := 0x20 ≤ ch.toNat && ch.toNat ≤ 0x7E

/-- The text of one byte inside the quotes. -/
def escape (ch : UInt8) : Text :=
  if printable ch then
    (if ch = 34 ∨ ch = 92 then ['\\'] else []) ++ [Char.ofNat ch.toNat]
  else ['\\', octalDigit (ch.toNat / 64), octalDigit (ch.toNat / 8 % 8), octalDigit (ch.toNat % 8)]

/-- `GenDumpChar` with so many bytes of the string written before; `none` ends the string. -/
def genDumpChar (tokenStringLen : Nat) : Option UInt8 → Text
  | none => if tokenStringLen ≠ 0 then ['"', '\n'] else []
  | some ch =>
    (if tokenStringLen = 0 then "\t.ascii\t".toList ++ ['"'] else []) ++ escape ch

/-- The rest of a string after `n` of its bytes, and its end. -/
def dumpFrom (n : Nat) : List UInt8 → Text
  | [] => genDumpChar n none
  | ch :: bs => genDumpChar n (some ch) ++ dumpFrom (n + 1) bs

/-- What the compiler writes for a string literal. -/
def dumpString (bs : List UInt8) : Text := dumpFrom 0 bs

theorem dumpFrom_succ (n : Nat) (bs : List UInt8) :
    dumpFrom (n + 1) bs = bs.flatMap escape ++ ['"', '\n'] := by
  induction bs generalizing n with
  | nil => simp [dumpFrom, genDumpChar]
  | cons ch bs ih => simp [dumpFrom, genDumpChar, ih]

theorem dump_string_cons (ch : UInt8) (bs : List UInt8) :
    dumpString (ch :: bs) =
      "\t.ascii\t".toList ++ '"' :: ((ch :: bs).flatMap escape ++ ['"', '\n']) := by
  simp [dumpString, dumpFrom, genDumpChar, dumpFrom_succ]

/-! ## What the characters of the line are -/

theorem forall_byte {P : UInt8 → Prop} (h : ∀ n, n < 256 → P (UInt8.ofNat n)) (b : UInt8) : P b := by
  have := h b.toNat (UInt8.toNat_lt b)
  simpa using this

/-- An octal digit as a byte. -/
def octalByte (b : UInt8) : Bool := 48 ≤ b.toNat && b.toNat ≤ 55

/-- The character of a byte. -/
def charOf (b : UInt8) : Char := Char.ofNat b.toNat

/-- The three octal digits of a byte. -/
def octalDigits (b : UInt8) : Text :=
  [octalDigit (b.toNat / 64), octalDigit (b.toNat / 8 % 8), octalDigit (b.toNat % 8)]

theorem escape_plain (b : UInt8) (hp : printable b) (h34 : b ≠ 34) (h92 : b ≠ 92) :
    escape b = [charOf b] := by
  simp [escape, charOf, hp, h34, h92]

theorem escape_special (b : UInt8) (h : b = 34 ∨ b = 92) : escape b = ['\\', charOf b] := by
  obtain rfl | rfl := h
  · rfl
  · rfl

theorem escape_octal (b : UInt8) (hp : printable b = false) :
    escape b = '\\' :: octalDigits b := by
  simp [escape, octalDigits, hp]

/-- What each byte is as a character, and in octal digits. -/
theorem byte_table (b : UInt8) :
    ((printable b ∧ b ≠ 34 ∧ b ≠ 92 → charOf b ≠ NUL ∧ charOf b ≠ '"' ∧ charOf b ≠ '\\') ∧
      (charOf b).toUInt8 = b ∧ isDigitOf 8 (charOf b) = octalByte b ∧
      (octalByte b → printable b ∧ b ≠ 34 ∧ b ≠ 92)) ∧
    ((octalDigits b).all (isDigitOf 8) ∧ ofDigits 8 (octalDigits b) = b.toNat) ∧
      (charOf b = '@' ↔ b = 64) ∧ (escape b).all (· != NUL) := by
  revert b
  refine forall_byte ?_
  decide +kernel

theorem charOf_plain (b : UInt8) : printable b ∧ b ≠ 34 ∧ b ≠ 92 →
    charOf b ≠ NUL ∧ charOf b ≠ '"' ∧ charOf b ≠ '\\' := (byte_table b).1.1

theorem charOf_toUInt8 (b : UInt8) : (charOf b).toUInt8 = b := (byte_table b).1.2.1

theorem isDigitOf_charOf (b : UInt8) : isDigitOf 8 (charOf b) = octalByte b := (byte_table b).1.2.2.1

theorem octalByte_printable (b : UInt8) : octalByte b → printable b ∧ b ≠ 34 ∧ b ≠ 92 :=
  (byte_table b).1.2.2.2

theorem octalDigits_spec (b : UInt8) :
    (octalDigits b).all (isDigitOf 8) ∧ ofDigits 8 (octalDigits b) = b.toNat := (byte_table b).2.1

/-! ## The assembler's side -/

/-- The digits of the text behind an escape are the octal digits among the next bytes. -/
theorem takeWhile_digits (bs : List UInt8) {stop : Char} (tail : Text)
    (hstop : isDigitOf 8 stop = false) :
    (bs.flatMap escape ++ stop :: tail).takeWhile (isDigitOf 8) =
        (bs.takeWhile octalByte).map charOf ∧
      (bs.flatMap escape ++ stop :: tail).dropWhile (isDigitOf 8) =
        (bs.dropWhile octalByte).flatMap escape ++ stop :: tail := by
  induction bs with
  | nil => simp [hstop]
  | cons b bs ih =>
    cases hb : octalByte b with
    | true =>
      obtain ⟨hp, h34, h92⟩ := octalByte_printable b hb
      have hd : isDigitOf 8 (charOf b) = true := by rw [isDigitOf_charOf, hb]
      simp only [List.flatMap_cons, escape_plain b hp h34 h92, List.cons_append, List.nil_append,
        List.takeWhile_cons, List.dropWhile_cons, hd, hb, if_true, List.map_cons, ih, and_self]
    | false =>
      have hfirst : ∃ c rest, escape b = c :: rest ∧ isDigitOf 8 c = false := by
        cases hp : printable b with
        | false => exact ⟨'\\', octalDigits b, escape_octal b hp, by decide⟩
        | true =>
          by_cases hs : b = 34 ∨ b = 92
          · exact ⟨'\\', [charOf b], escape_special b hs, by decide⟩
          · push Not at hs
            exact ⟨charOf b, [], escape_plain b hp hs.1 hs.2, by rw [isDigitOf_charOf, hb]⟩
      obtain ⟨c, rest, he, hc⟩ := hfirst
      simp [List.flatMap_cons, he, hc, hb]

/-- From an octal digit `strtol` reads all the octal digits there are. -/
theorem strtol_octal (e : Char) (q : Text) (he : isDigitOf 8 e = true) :
    strtol (e :: q) 8 =
      (((min (ofDigits 8 ((e :: q).takeWhile (isDigitOf 8))) LONGMAX : Nat) : Int),
        (e :: q).dropWhile (isDigitOf 8)) := by
  have hspace : isspace e = false := by
    by_contra h
    simp only [isspace, Bool.or_eq_true, Bool.and_eq_true, decide_eq_true_eq, beq_iff_eq,
      Bool.not_eq_false] at h
    obtain rfl | h := h
    · exact absurd he (by decide)
    · have hnone : digitValue e = none := by
        simp only [digitValue, isdigit, Bool.and_eq_true, decide_eq_true_eq]
        rw [if_neg (by omega), if_neg (by omega), if_neg (by omega)]
      simp [isDigitOf, hnone] at he
  have hminus : e ≠ '-' := by
    rintro rfl
    exact absurd he (by decide)
  have hplus : e ≠ '+' := by
    rintro rfl
    exact absurd he (by decide)
  have hsign : sign (e :: q) = (false, e :: q) := by
    simp [sign, hminus, hplus]
  have hbase : numberBase 8 (e :: q) = (8, e :: q) := by
    unfold numberBase
    split <;> simp_all
  have hne : (e :: q).takeWhile (isDigitOf 8) ≠ [] := by simp [he]
  have hdrop : (e :: q).drop ((e :: q).takeWhile (isDigitOf 8)).length =
      (e :: q).dropWhile (isDigitOf 8) := by
    conv_lhs =>
      arg 2
      rw [← List.takeWhile_append_dropWhile (p := isDigitOf 8) (l := e :: q)]
    exact List.drop_left
  have hskip : (e :: q).dropWhile isspace = e :: q := by simp [hspace]
  simp only [strtol, hskip, hsign, hbase, hdrop, if_neg hne]
  simp

/-- What an octal escape becomes when these octal digits stand right behind it. -/
def swallowed (b : UInt8) (run : List UInt8) : UInt8 :=
  UInt8.ofNat (min (ofDigits 8 (octalDigits b ++ run.map charOf)) LONGMAX)

/-- The bytes that come back from the text of a string. -/
def decoded : List UInt8 → List UInt8
  | [] => []
  | b :: bs =>
    if printable b then b :: decoded bs
    else swallowed b (bs.takeWhile octalByte) :: decoded (bs.dropWhile octalByte)
termination_by bs => bs.length
decreasing_by
  · simp
  · have := (List.dropWhile_sublist (l := bs) octalByte).length_le
    simp only [List.length_cons]
    omega

/-- The `.ascii` loop on the text of a string, up to a quote or the terminator. -/
theorem asciiBytes_escape (bs : List UInt8) {stop : Char} (tail : Text)
    (hstop : stop = NUL ∨ stop = '"') (fuel : Nat) (hfuel : bs.length < fuel) :
    asciiBytes fuel (bs.flatMap escape ++ stop :: tail) = some (decoded bs) := by
  have hdigit : isDigitOf 8 stop = false := by
    obtain rfl | rfl := hstop <;> decide
  induction bs using decoded.induct generalizing fuel with
  | case1 =>
    obtain ⟨fuel, rfl⟩ := Nat.exists_eq_succ_of_ne_zero (by omega : fuel ≠ 0)
    simp [asciiBytes, decoded, hstop]
  | case2 b bs hp ih =>
    obtain ⟨fuel, rfl⟩ := Nat.exists_eq_succ_of_ne_zero (by omega : fuel ≠ 0)
    have ih := ih fuel (by simp only [List.length_cons] at hfuel; omega)
    rw [decoded, if_pos hp, List.flatMap_cons, List.append_assoc]
    by_cases hs : b = 34 ∨ b = 92
    · rw [escape_special b hs]
      have he : charOf b ≠ 'n' ∧ charOf b ≠ 't' ∧ isDigitOf 8 (charOf b) = false := by
        obtain rfl | rfl := hs <;> decide
      simp [asciiBytes, he.1, he.2.1, he.2.2, ih, charOf_toUInt8, NUL]
    · push Not at hs
      obtain ⟨h0, hq, hb⟩ := charOf_plain b ⟨hp, hs.1, hs.2⟩
      rw [escape_plain b hp hs.1 hs.2]
      simp [asciiBytes, h0, hq, hb, ih, charOf_toUInt8]
  | case3 b bs hp ih =>
    obtain ⟨fuel, rfl⟩ := Nat.exists_eq_succ_of_ne_zero (by omega : fuel ≠ 0)
    have hlen := (List.dropWhile_sublist (l := bs) octalByte).length_le
    have ih := ih fuel (by simp only [List.length_cons] at hfuel; omega)
    obtain ⟨htake, hdrop⟩ := takeWhile_digits bs tail hdigit
    obtain ⟨hall, -⟩ := octalDigits_spec b
    rw [decoded, if_neg hp, List.flatMap_cons, List.append_assoc,
      escape_octal b (Bool.eq_false_iff.mpr hp)]
    simp only [octalDigits, List.all_cons, List.all_nil, Bool.and_true, Bool.and_eq_true] at hall
    obtain ⟨h1, h2, h3⟩ := hall
    have hn : octalDigit (b.toNat / 64) ≠ 'n' ∧ octalDigit (b.toNat / 64) ≠ 't' := by
      constructor <;> intro h <;> rw [h] at h1 <;> exact absurd h1 (by decide)
    simp only [octalDigits, List.cons_append, List.nil_append, asciiBytes, hn.1, hn.2, h1,
      strtol_octal _ _ h1, List.takeWhile_cons, List.dropWhile_cons, h2, h3, htake, hdrop,
      Int.toNat_natCast, if_true]
    simp [NUL, swallowed, octalDigits, ih]

/-! ## Which strings come back -/

/-- No unprintable byte has an octal digit right behind it. -/
def NoDigitBehind (bs : List UInt8) : Prop :=
  bs.IsChain fun a b => printable a = true ∨ octalByte b = false

theorem swallowed_nil (b : UInt8) : swallowed b [] = b := by
  have h := (octalDigits_spec b).2
  have hb := UInt8.toNat_lt b
  have hle : b.toNat ≤ LONGMAX := by
    simp only [LONGMAX]
    omega
  simp [swallowed, h, Nat.min_eq_left hle]

theorem length_decoded_le (bs : List UInt8) : (decoded bs).length ≤ bs.length := by
  induction bs using decoded.induct with
  | case1 => simp [decoded]
  | case2 b bs hp ih => simpa [decoded, hp] using ih
  | case3 b bs hp ih =>
    have hlen := (List.dropWhile_sublist (l := bs) octalByte).length_le
    simp only [decoded, hp, Bool.false_eq_true, if_false, List.length_cons]
    omega

theorem noDigitBehind_cons (b : UInt8) (bs : List UInt8) :
    NoDigitBehind (b :: bs) ↔
      (∀ c ∈ bs.head?, printable b = true ∨ octalByte c = false) ∧ NoDigitBehind bs :=
  List.isChain_cons

/-- An escape with no digit behind it gives its byte back. -/
theorem decoded_eq_self {bs : List UInt8} (h : NoDigitBehind bs) : decoded bs = bs := by
  induction bs with
  | nil => simp [decoded]
  | cons b bs ih =>
    obtain ⟨hhead, hrest⟩ := (noDigitBehind_cons b bs).mp h
    by_cases hp : printable b
    · simp [decoded, hp, ih hrest]
    · have hrun : bs.takeWhile octalByte = [] ∧ bs.dropWhile octalByte = bs := by
        cases bs with
        | nil => simp
        | cons c bs =>
          obtain hb | hc := hhead c rfl
          · exact absurd hb hp
          · simp [hc]
      simp [decoded, hp, hrun.1, hrun.2, swallowed_nil, ih hrest]

/-- A byte is missing as soon as an escape swallows a digit. -/
theorem noDigitBehind_of_length {bs : List UInt8} (h : bs.length ≤ (decoded bs).length) :
    NoDigitBehind bs := by
  induction bs using decoded.induct with
  | case1 => simp [NoDigitBehind]
  | case2 b bs hp ih =>
    refine (noDigitBehind_cons b bs).mpr ⟨fun _ _ => .inl hp, ih ?_⟩
    simpa [decoded, hp] using h
  | case3 b bs hp ih =>
    have hdec := length_decoded_le (bs.dropWhile octalByte)
    simp only [decoded, hp, Bool.false_eq_true, if_false, List.length_cons] at h
    cases bs with
    | nil => simp [NoDigitBehind]
    | cons c bs =>
      cases hc : octalByte c with
      | true =>
        have hdrop := (List.dropWhile_sublist (l := bs) octalByte).length_le
        simp only [List.dropWhile_cons, hc, if_true, List.length_cons] at h hdec
        omega
      | false =>
        simp only [List.dropWhile_cons, hc, Bool.false_eq_true, if_false] at ih h
        refine (noDigitBehind_cons b (c :: bs)).mpr ⟨?_, ih (by omega)⟩
        intro d hd
        simp only [List.head?_cons, Option.mem_some_iff] at hd
        exact .inr (hd ▸ hc)

/-! ## Comments -/

/-- The bytes before the first `@` at which the quotes are balanced, if there is one. -/
def visible (instr : Bool) : List UInt8 → List UInt8
  | [] => []
  | b :: bs =>
    if b = 34 then b :: visible (!instr) bs
    else if b = 64 ∧ instr = false then []
    else b :: visible instr bs

/-- Every `@` stands between quotes as the comment scan counts them. -/
def NoComment (instr : Bool) (bs : List UInt8) : Prop :=
  ∀ pre post, bs = pre ++ 64 :: post → (Even (pre.count 34) ↔ instr = true)

theorem noComment_cons (instr : Bool) (b : UInt8) (bs : List UInt8) :
    NoComment instr (b :: bs) ↔
      (b = 64 → instr = true) ∧ NoComment (if b = 34 then !instr else instr) bs := by
  have hflip (pre : List UInt8) :
      (Even ((b :: pre).count 34) ↔ instr = true) ↔
        (Even (pre.count 34) ↔ (if b = 34 then !instr else instr) = true) := by
    by_cases hb : b = 34
    · subst hb
      simp only [List.count_cons_self, Nat.even_add_one, if_true]
      cases instr <;> simp
    · rw [List.count_cons_of_ne hb, if_neg hb]
  constructor
  · intro h
    refine ⟨fun hb => ?_, fun pre post hbs => ?_⟩
    · subst hb
      simpa using h [] bs rfl
    · exact (hflip pre).mp (h (b :: pre) post (by rw [hbs, List.cons_append]))
  · rintro ⟨hb, h⟩ pre post hbs
    cases pre with
    | nil =>
      simp only [List.nil_append, List.cons.injEq] at hbs
      simpa using hb hbs.1
    | cons c pre =>
      simp only [List.cons_append, List.cons.injEq] at hbs
      obtain ⟨rfl, hbs⟩ := hbs
      exact (hflip pre).mpr (h pre post hbs)

/-- Nothing is cut exactly when every `@` stands between quotes. -/
theorem visible_eq_self_iff (bs : List UInt8) (instr : Bool) :
    visible instr bs = bs ↔ NoComment instr bs := by
  induction bs generalizing instr with
  | nil => simp [visible, NoComment]
  | cons b bs ih =>
    rw [noComment_cons, ← ih]
    by_cases h34 : b = 34
    · subst h34
      simp [visible]
    · by_cases h64 : b = 64
      · subst h64
        cases instr <;> simp [visible]
      · simp [visible, h34, h64]

theorem visible_prefix (bs : List UInt8) (instr : Bool) : visible instr bs <+: bs := by
  induction bs generalizing instr with
  | nil => simp [visible]
  | cons b bs ih =>
    simp only [visible]
    split
    · simpa using ih (!instr)
    · split
      · simp
      · simpa using ih instr

theorem stripComment_pass {instr : Bool} {c : Char} (p : Text) (h0 : c ≠ NUL) (hq : c ≠ '"')
    (ha : c = '@' → instr = true) : stripComment instr (c :: p) = c :: stripComment instr p := by
  have hcut : ¬ (c = '@' ∧ instr = false) := by
    rintro ⟨h, hi⟩
    simp [ha h] at hi
  simp only [stripComment, if_neg h0, if_neg hq, if_neg hcut]

theorem octal_pass {c : Char} (h : isDigitOf 8 c = true) : c ≠ NUL ∧ c ≠ '"' ∧ c ≠ '@' := by
  refine ⟨?_, ?_, ?_⟩ <;>
  · rintro rfl
    exact absurd h (by decide)

theorem charOf_at (b : UInt8) : charOf b = '@' ↔ b = 64 := (byte_table b).2.2.1

theorem stripComment_backslash (instr : Bool) (p : Text) :
    stripComment instr ('\\' :: p) = '\\' :: stripComment instr p := by
  simp [stripComment, NUL]

theorem stripComment_quote (instr : Bool) (p : Text) :
    stripComment instr (escape 34 ++ p) = escape 34 ++ stripComment (!instr) p := by
  rw [escape_special 34 (.inl rfl)]
  simp [stripComment, charOf, NUL]

/-- The scan passes over the text of every other byte, a bare `@` apart. -/
theorem stripComment_byte {instr : Bool} {b : UInt8} (p : Text) (h34 : b ≠ 34)
    (hcut : ¬ (b = 64 ∧ instr = false)) :
    stripComment instr (escape b ++ p) = escape b ++ stripComment instr p := by
  cases hp : printable b with
  | false =>
    have hd (c : Char) (hc : c ∈ octalDigits b) (q : Text) :
        stripComment instr (c :: q) = c :: stripComment instr q := by
      obtain ⟨h0, hq, ha⟩ := octal_pass (List.all_eq_true.mp (octalDigits_spec b).1 c hc)
      exact stripComment_pass q h0 hq fun h => absurd h ha
    rw [escape_octal b hp]
    simp only [octalDigits, List.mem_cons, List.not_mem_nil, or_false, forall_eq_or_imp,
      forall_eq] at hd
    obtain ⟨h1, h2, h3⟩ := hd
    simp only [octalDigits, List.cons_append, List.nil_append, stripComment_backslash, h1, h2, h3]
  | true =>
    by_cases h92 : b = 92
    · subst h92
      rw [escape_special 92 (.inr rfl)]
      simp [stripComment, charOf, NUL]
    · obtain ⟨h0, hq, -⟩ := charOf_plain b ⟨hp, h34, h92⟩
      rw [escape_plain b hp h34 h92]
      refine stripComment_pass p h0 hq fun ha => ?_
      rw [charOf_at] at ha
      simpa [ha] using hcut

/-- The comment scan on the text of a string and its closing quote. -/
theorem stripComment_escape (bs : List UInt8) (instr : Bool) (tail : Text) :
    ∃ stop rest, (stop = NUL ∨ stop = '"') ∧
      stripComment instr (bs.flatMap escape ++ '"' :: NUL :: tail) =
        (visible instr bs).flatMap escape ++ stop :: rest := by
  induction bs generalizing instr with
  | nil => exact ⟨'"', NUL :: tail, .inr rfl, by simp [stripComment, visible, NUL]⟩
  | cons b bs ih =>
    rw [List.flatMap_cons, List.append_assoc, visible]
    by_cases h34 : b = 34
    · obtain ⟨stop, rest, hstop, heq⟩ := ih (!instr)
      refine ⟨stop, rest, hstop, ?_⟩
      rw [if_pos h34, h34, stripComment_quote, heq, List.flatMap_cons, List.append_assoc]
    · rw [if_neg h34]
      by_cases hcut : b = 64 ∧ instr = false
      · refine ⟨NUL, bs.flatMap escape ++ '"' :: NUL :: tail, .inl rfl, ?_⟩
        obtain ⟨rfl, rfl⟩ := hcut
        rfl
      · obtain ⟨stop, rest, hstop, heq⟩ := ih instr
        refine ⟨stop, rest, hstop, ?_⟩
        rw [if_neg hcut, stripComment_byte _ h34 hcut, heq, List.flatMap_cons, List.append_assoc]

/-! ## The whole line -/

theorem escape_no_nul (b : UInt8) : (escape b).all (· != NUL) := (byte_table b).2.2.2

theorem length_le_escape (bs : List UInt8) : bs.length ≤ (bs.flatMap escape).length := by
  induction bs with
  | nil => simp
  | cons b bs ih =>
    have hb : 1 ≤ (escape b).length := by
      simp only [escape]
      split <;> simp
    simp only [List.flatMap_cons, List.length_append, List.length_cons]
    omega

/-- The buffer `do_line` works on, for the line of a string. -/
theorem lineBuffer_dump (ch : UInt8) (bs : List UInt8)
    (hlen : (dumpString (ch :: bs)).length < LINESIZE) :
    ∃ tail, lineBuffer (dumpString (ch :: bs)) =
      "\t.ascii\t".toList ++ '"' :: ((ch :: bs).flatMap escape ++ '"' :: NUL :: tail) := by
  have hall : ∀ c ∈ dumpString (ch :: bs), (c != NUL) = true := by
    rw [dump_string_cons]
    intro c hc
    simp only [List.mem_append, List.mem_cons, List.mem_flatMap, List.not_mem_nil, or_false] at hc
    obtain hc | hc | hc | hc | hc := hc
    · exact List.all_eq_true.mp (by decide : ("\t.ascii\t".toList).all (· != NUL)) c hc
    · rw [hc]; decide
    · obtain ⟨b, -, hb⟩ := hc
      exact List.all_eq_true.mp (escape_no_nul b) c hb
    · rw [hc]; decide
    · rw [hc]; decide
  have hcstr : cstr (dumpString (ch :: bs)) = dumpString (ch :: bs) :=
    List.takeWhile_eq_self_iff.mpr hall
  have htake : (dumpString (ch :: bs)).take (LINESIZE - 1) = dumpString (ch :: bs) :=
    List.take_of_length_le (by omega)
  have hend : dumpString (ch :: bs) =
      "\t.ascii\t".toList ++ '"' :: ((ch :: bs).flatMap escape) ++ ['"'] ++ ['\n'] := by
    rw [dump_string_cons]
    simp
  have hstrip : (dumpString (ch :: bs)).rdropWhile isNewline =
      "\t.ascii\t".toList ++ '"' :: ((ch :: bs).flatMap escape) ++ ['"'] := by
    rw [hend, List.rdropWhile_concat_pos _ _ _ (by decide),
      List.rdropWhile_concat_neg _ _ _ (by decide)]
  have hshort : ("\t.ascii\t".toList ++ '"' :: ((ch :: bs).flatMap escape) ++ ['"']).length <
      LINESIZE := by
    rw [hend, List.length_append] at hlen
    omega
  obtain ⟨k, hk⟩ := Nat.exists_eq_succ_of_ne_zero (Nat.sub_ne_zero_of_lt hshort)
  refine ⟨List.replicate k NUL, ?_⟩
  simp only [lineBuffer, hcstr, htake, hstrip, hk, List.replicate_succ]
  simp

/-- No label is read from a directive: a blank stands before the first colon. -/
theorem labels_directive (fuel : Nat) (rest : Text) :
    labels fuel ('.' :: 'a' :: 's' :: 'c' :: 'i' :: 'i' :: '\t' :: rest) =
      ([], '.' :: 'a' :: 's' :: 'c' :: 'i' :: 'i' :: '\t' :: rest) := by
  cases fuel with
  | zero => rfl
  | succ fuel =>
    have hcstr : cstr ('.' :: 'a' :: 's' :: 'c' :: 'i' :: 'i' :: '\t' :: rest) =
        '.' :: 'a' :: 's' :: 'c' :: 'i' :: 'i' :: '\t' :: cstr rest := rfl
    simp only [labels, strchr, hcstr]
    cases h : (cstr rest).idxOf? ':' with
    | none => simp [List.idxOf?_cons, h]
    | some i => simp [List.idxOf?_cons, h, notInLabel]

/-- What `do_line` reads from the line of a string that fits its buffer. -/
theorem parseLine_dump (ch : UInt8) (bs : List UInt8)
    (hlen : (dumpString (ch :: bs)).length < LINESIZE) :
    parseLine (dumpString (ch :: bs)) = ([], .ascii (some (decoded (visible true (ch :: bs))))) := by
  obtain ⟨tail, hbuf⟩ := lineBuffer_dump ch bs hlen
  obtain ⟨stop, rest, hstop, hstrip⟩ := stripComment_escape (ch :: bs) true tail
  have hline : skipws (stripComment false (lineBuffer (dumpString (ch :: bs)))) =
      '.' :: 'a' :: 's' :: 'c' :: 'i' :: 'i' :: '\t' :: '"' ::
        ((visible true (ch :: bs)).flatMap escape ++ stop :: rest) := by
    rw [hbuf, ← hstrip]
    rfl
  have hfuel : (visible true (ch :: bs)).length <
      ('"' :: ((visible true (ch :: bs)).flatMap escape ++ stop :: rest)).length + 1 := by
    have := length_le_escape (visible true (ch :: bs))
    simp only [List.length_cons, List.length_append]
    omega
  have hargs : asciiArgs ('"' :: ((visible true (ch :: bs)).flatMap escape ++ stop :: rest)) =
      some (decoded (visible true (ch :: bs))) := by
    have hquote : strchr ('"' :: ((visible true (ch :: bs)).flatMap escape ++ stop :: rest)) '"' =
        some 0 := rfl
    rw [asciiArgs, hquote]
    exact asciiBytes_escape _ rest hstop _ hfuel
  simp only [parseLine, hline, labels_directive]
  rw [← hargs]
  rfl

/-- The bytes a run of `put` gives a section one at a time. -/
def putAll (pass : Pass) (s : State) (bs : List UInt8) : Except Fatal State :=
  bs.foldlM (fun s b => put pass s s.cursec (BitVec.ofNat 32 b.toNat) 1) s

/-- In every state and in both passes the line does exactly what putting these bytes does. -/
def Emits (raw : Text) (bs : List UInt8) : Prop :=
  ∀ env pass s, doLine env pass s raw = putAll pass s bs

set_option maxRecDepth 20000 in
/-- What the assembler emits for the line of a string. -/
theorem emits_dump (bs : List UInt8) (hlen : (dumpString bs).length < LINESIZE) :
    Emits (dumpString bs) (decoded (visible true bs)) := by
  intro env pass s
  have hnone : defineLabels pass s [] = s := by cases pass <;> rfl
  cases bs with
  | nil =>
    have hparse : parseLine (dumpString []) = ([], .blank) := by decide
    simp [doLine, hparse, hnone, doStmt, putAll, visible, decoded, pure, Except.pure]
  | cons ch bs =>
    rw [doLine, parseLine_dump ch bs hlen, hnone]
    rfl

theorem putAll_one (s : State) (bs : List UInt8)
    (hroom : s.secoff s.cursec + bs.length ≤ INTMAX) :
    ∃ s', putAll .one s bs = .ok s' ∧ s'.secoff s.cursec = s.secoff s.cursec + bs.length := by
  induction bs generalizing s with
  | nil => exact ⟨s, rfl, rfl⟩
  | cons b bs ih =>
    simp only [List.length_cons] at hroom
    have hput : put .one s s.cursec (BitVec.ofNat 32 b.toNat) 1 = .ok (s.advance s.cursec 1) := by
      simp only [put]
      rw [if_neg (by simp)]
      exact if_pos (by omega)
    have hoff : (s.advance s.cursec 1).secoff s.cursec = s.secoff s.cursec + 1 := by
      simp [State.advance]
    obtain ⟨s', hs', hend⟩ := ih (s.advance s.cursec 1) (by
      show (s.advance s.cursec 1).secoff s.cursec + _ ≤ _
      omega)
    refine ⟨s', ?_, ?_⟩
    · rw [putAll, List.foldlM_cons, hput]
      exact hs'
    · have hend : s'.secoff s.cursec = (s.advance s.cursec 1).secoff s.cursec + bs.length := hend
      simp only [List.length_cons]
      omega

/-- The bytes that a line emits are determined up to their number. -/
theorem Emits.length_eq {raw : Text} {bs cs : List UInt8} (hb : Emits raw bs) (hc : Emits raw cs)
    (hbs : bs.length ≤ INTMAX) (hcs : cs.length ≤ INTMAX) : bs.length = cs.length := by
  obtain ⟨s, hs, hsoff⟩ := putAll_one .start bs (by simpa [State.start] using hbs)
  obtain ⟨t, ht, htoff⟩ := putAll_one .start cs (by simpa [State.start] using hcs)
  have heq : putAll .one .start bs = putAll .one .start cs := by
    rw [← hb (env₁ false) .one .start, ← hc (env₁ false) .one .start]
  rw [hs, ht] at heq
  obtain rfl := Except.ok.inj heq
  omega

/-- A string literal survives the compiler and the assembler exactly when no unprintable byte
has an octal digit right behind it and every `@` has an even number of quotes before it. -/
theorem string_kept_iff (bs : List UInt8) (hlen : (dumpString bs).length < LINESIZE) :
    Emits (dumpString bs) bs ↔ NoDigitBehind bs ∧ NoComment true bs := by
  have hline := emits_dump bs hlen
  constructor
  · intro hkept
    have hpre := visible_prefix bs true
    have hdec := length_decoded_le (visible true bs)
    have hsize : bs.length ≤ (dumpString bs).length := by
      cases bs with
      | nil => simp
      | cons ch bs =>
        have := length_le_escape (ch :: bs)
        rw [dump_string_cons]
        simp only [List.length_append, List.length_cons] at this ⊢
        omega
    have hmax : bs.length ≤ INTMAX := by
      simp only [INTMAX, LINESIZE] at hlen ⊢
      omega
    have heq := hkept.length_eq hline hmax (by have := hpre.length_le; omega)
    have hvis : visible true bs = bs := hpre.eq_of_length (by have := hpre.length_le; omega)
    rw [hvis] at heq
    exact ⟨noDigitBehind_of_length heq.le, (visible_eq_self_iff bs true).mp hvis⟩
  · intro ⟨hdigit, hcomment⟩
    rwa [(visible_eq_self_iff bs true).mpr hcomment, decoded_eq_self hdigit] at hline

/-- An `@` behind a closed pair of quotes, and an escape in front of a letter. -/
theorem string_kept_quoted :
    (dumpString [34, 98, 34, 64, 7, 97]).length < LINESIZE ∧
      Emits (dumpString [34, 98, 34, 64, 7, 97]) [34, 98, 34, 64, 7, 97] := by
  have hlen : (dumpString [34, 98, 34, 64, 7, 97]).length < LINESIZE := by decide +kernel
  refine ⟨hlen, (string_kept_iff _ hlen).mpr ⟨?_, ?_⟩⟩
  · simp [NoDigitBehind, printable, octalByte]
  · exact (visible_eq_self_iff _ true).mp (by decide)

/-- The byte 1 before a digit 1 swallows it, and an `@` behind one quote is cut off as a
comment. -/
theorem string_not_kept :
    ((dumpString [1, 49]).length < LINESIZE ∧ ¬ Emits (dumpString [1, 49]) [1, 49]) ∧
      ((dumpString [34, 64]).length < LINESIZE ∧ ¬ Emits (dumpString [34, 64]) [34, 64]) := by
  have hdigit : (dumpString [1, 49]).length < LINESIZE := by decide +kernel
  have hquote : (dumpString [34, 64]).length < LINESIZE := by decide +kernel
  refine ⟨⟨hdigit, fun h => ?_⟩, ⟨hquote, fun h => ?_⟩⟩
  · have hlen := h.length_eq (emits_dump _ hdigit) (by decide) (by
      simp [visible, decoded, printable, octalByte, INTMAX])
    simp [visible, decoded, printable, octalByte] at hlen
  · have hlen := h.length_eq (emits_dump _ hquote) (by decide) (by
      simp [visible, decoded, printable, INTMAX])
    simp [visible, decoded, printable] at hlen

end DiscoBsd.Asm
