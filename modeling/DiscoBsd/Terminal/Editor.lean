import DiscoBsd.Terminal.Input
import Mathlib.Data.FinEnum

/-!
# The line editor and the plain cooked path

With `TTYEDIT` a cooked line with echo is collected in the editor's buffer, without it in the raw
queue. The plain path marks a quoted character with the high bit until a reader takes it; the
editor takes the mark off at once. So the editor's line is the plain line with the marks off, and
a reader sees the difference where a mark protects a character: a quoted line delimiter ends the
line that the editor committed, and a quoted blank ends a word that is erased.
-/

namespace DiscoBsd.Terminal

/-- A character without its high bit. -/
def strip (c : UInt8) : UInt8 := c &&& 0x7F

/-- `b` reads as `a` does: it is the same character, or the same one without a mark that a
seven-bit reader does not see and that protects nothing. -/
def Same (tp : Tty) (a b : UInt8) : Prop :=
  a = b ∨ (b = strip a ∧ tp.flags.pass8 = false ∧
    (breakc tp a = false ∧ cceq tp.chars.dsuspc a = false) ∧
    (breakc tp b = false ∧ cceq tp.chars.dsuspc b = false))

/-- The characters that `ttyinput` sees to before the two paths part. -/
def common (tp : Tty) (d : UInt8) : Bool :=
  cceq tp.chars.lnextc d || cceq tp.chars.flushc d || cceq tp.chars.suspc d ||
    cceq tp.chars.stopc d || cceq tp.chars.startc d || cceq tp.chars.intrc d ||
    cceq tp.chars.quitc d

/-- The characters that edit or end a line. -/
def lineControl (tp : Tty) (d : UInt8) : Bool :=
  breakc tp d || erases tp d || cceq tp.chars.kill d || cceq tp.chars.werasc d ||
    cceq tp.chars.rprntc d

/-- The characters in question, with a quoted one marked: printable and quoted ones, erase, kill
and word-erase characters, delimiters, and the quote. -/
def Alphabet (tp : Tty) (d : UInt8) : Prop :=
  (32 ≤ d ∧ d ≠ 0x7F) ∨ breakc tp d = true ∨ erases tp d = true ∨ cceq tp.chars.kill d = true ∨
    cceq tp.chars.werasc d = true ∨ cceq tp.chars.lnextc d = true

/-- Where the two paths do the same with a character: it is no escape; it is no delete unless that
erases; a delimiter does not edit as well; no quoted blank is on a line whose last word is erased;
and a marked character is neither a delimiter nor a delayed suspend without the mark. -/
structure Agrees (tp : Tty) (d : UInt8) : Prop where
  escape : d ≠ 27
  delete : d = 0x7F → breakc tp d = true ∨ erases tp d = true
  delimiter : breakc tp d = true → erases tp d = false ∧ cceq tp.chars.kill d = false ∧
    cceq tp.chars.werasc d = false ∧ cceq tp.chars.rprntc d = false
  word : cceq tp.chars.werasc d = true → ∀ a ∈ tp.rawq, isBlank (strip a) = isBlank a
  marked : 0x80 ≤ d → lineControl tp d = false → tp.flags.pass8 = false ∧
    cceq tp.chars.dsuspc d = false ∧ breakc tp (strip d) = false ∧
    cceq tp.chars.dsuspc (strip d) = false

instance (tp : Tty) (d : UInt8) : Decidable (Alphabet tp d) := inferInstanceAs (Decidable (_ ∨ _))

instance (tp : Tty) (d : UInt8) : Decidable (Agrees tp d) :=
  decidable_of_iff
    (d ≠ 27 ∧ (d = 0x7F → breakc tp d = true ∨ erases tp d = true) ∧
      (breakc tp d = true → erases tp d = false ∧ cceq tp.chars.kill d = false ∧
        cceq tp.chars.werasc d = false ∧ cceq tp.chars.rprntc d = false) ∧
      (cceq tp.chars.werasc d = true → ∀ a ∈ tp.rawq, isBlank (strip a) = isBlank a) ∧
      (0x80 ≤ d → lineControl tp d = false → tp.flags.pass8 = false ∧
        cceq tp.chars.dsuspc d = false ∧ breakc tp (strip d) = false ∧
        cceq tp.chars.dsuspc (strip d) = false))
    ⟨fun ⟨h1, h2, h3, h4, h5⟩ => ⟨h1, h2, h3, h4, h5⟩,
      fun ⟨h1, h2, h3, h4, h5⟩ => ⟨h1, h2, h3, h4, h5⟩⟩

/-- The two terminals side by side: `p` takes the plain path, `e` has the editor. -/
structure Sim (p e : Tty) : Prop where
  flags : e.flags = p.flags
  chars : e.chars = p.chars
  lnch : e.lnch = p.lnch
  raw : p.flags.raw = false
  cbreak : p.flags.cbreak = false
  echo : p.flags.echo = true
  pendin : p.flags.pendin = false
  typen : p.typen = false ∧ e.typen = false
  rawq : e.rawq = []
  edesc : e.edesc = 0
  edcur : e.edcur = e.edbuf.length
  line : e.edbuf = p.rawq.map strip
  kept : ∀ a ∈ p.rawq, a ≠ 0 ∧ Same p a (strip a)
  canq : List.Forall₂ (Same p) p.canq e.canq

variable {p e p' e' : Tty} {c d : UInt8}

theorem Same.congr {a b : UInt8} (h : Same p a b) (hflags : p'.flags = p.flags)
    (hchars : p'.chars = p.chars) : Same p' a b := by
  simpa only [Same, breakc, hflags, hchars] using h

theorem strip_of_lt (h : c < 0x80) : strip c = c := and_seven h

theorem and_high_ne_zero_iff : c &&& 0x80 ≠ 0 ↔ 0x80 ≤ c := by
  have hall : ∀ n : Fin 256, UInt8.ofNat n &&& 0x80 ≠ 0 ↔ 0x80 ≤ UInt8.ofNat n := by
    decide +kernel
  simpa using hall ⟨c.toNat, c.toNat_lt⟩

theorem Sim.congr_breakc (h : Sim p e) (d : UInt8) : breakc e d = breakc p d := by
  simp only [breakc, h.flags, h.chars]

theorem Sim.congr_marked (h : Sim p e) (c : UInt8) : Terminal.marked e c = Terminal.marked p c := by
  simp only [Terminal.marked, h.flags, h.lnch, h.typen.1, h.typen.2]

theorem common_false (h : common p d = false) :
    cceq p.chars.lnextc d = false ∧ cceq p.chars.flushc d = false ∧
      cceq p.chars.suspc d = false ∧ (cceq p.chars.stopc d = false ∧
      cceq p.chars.startc d = false) ∧ (cceq p.chars.intrc d = false ∧
      cceq p.chars.quitc d = false) := by
  simpa only [common, Bool.or_eq_false_iff, and_assoc] using h

/-- The editor's word erase finds the same word where blanks are not marked. -/
theorem rdropWhile_strip (f : UInt8 → Bool) (q : List UInt8)
    (h : ∀ a ∈ q, f (strip a) = f a) : (q.map strip).rdropWhile f = (q.rdropWhile f).map strip := by
  induction q using List.reverseRecOn with
  | nil => simp
  | append_singleton q a ih =>
    have hlast : f (strip a) = f a := h a (by simp)
    rw [List.map_append, List.map_singleton]
    by_cases hf : f a = true
    · rw [List.rdropWhile_concat_pos _ _ _ (hlast.trans hf), List.rdropWhile_concat_pos _ _ _ hf]
      exact ih fun b hb => h b (List.mem_append_left _ hb)
    · rw [List.rdropWhile_concat_neg _ _ _ (by rwa [hlast]), List.rdropWhile_concat_neg _ _ _ hf]
      simp

theorem mem_of_mem_rdropWhile {f : UInt8 → Bool} {q : List UInt8} {a : UInt8}
    (h : a ∈ q.rdropWhile f) : a ∈ q :=
  (List.rdropWhile_prefix f q).subset h

theorem eraseWord_strip (q : List UInt8) (h : ∀ a ∈ q, isBlank (strip a) = isBlank a) :
    eraseWord (q.map strip) = (eraseWord q).map strip := by
  rw [eraseWord, rdropWhile_strip _ _ h, rdropWhile_strip _ _ fun a ha => ?_]
  · rfl
  · simp only [h a (mem_of_mem_rdropWhile ha)]

theorem killRaw_eq_nil (crt : Bool) {q : List UInt8} (h : ∀ a ∈ q, a ≠ 0) : killRaw crt q = [] := by
  rw [killRaw]
  split
  · rfl
  · rw [List.dropWhile_eq_nil_iff.mpr]
    · rfl
    · simpa using h

/-! ## One character -/

/-- The quote in front of a character has been taken. -/
def unquoted (tp : Tty) : Tty := { tp with lnch := false }

/-- The next character is quoted. -/
def quoteNext (tp : Tty) : Tty := { tp with lnch := true }

/-- What `ttyinput` does where the two paths have not parted yet. -/
def commonInput (tp : Tty) (d : UInt8) : Tty :=
  if cceq tp.chars.lnextc d then quoteNext tp
  else if cceq tp.chars.flushc d then tp
  else if cceq tp.chars.suspc d then if tp.flags.noflsh then tp else ttyflush tp
  else if cceq tp.chars.stopc d ∨ cceq tp.chars.startc d then tp
  else if tp.flags.noflsh then tp else ttyflush tp

theorem inputChar_common {tp : Tty} (ttyedit crt : Bool) (hraw : tp.flags.raw = false)
    (h : common tp (marked tp c) = true) :
    inputChar ttyedit crt tp c = commonInput (unquoted tp) (marked tp c) := by
  simp only [inputChar, hraw, Bool.false_eq_true, if_false]
  simp only [common, Bool.or_eq_true] at h
  simp only [commonInput, unquoted, quoteNext]
  split_ifs <;> simp_all

theorem inputChar_parted {tp : Tty} (ttyedit crt : Bool) (hraw : tp.flags.raw = false)
    (hcbreak : tp.flags.cbreak = false) (h : common tp (marked tp c) = false) :
    inputChar ttyedit crt tp c =
      if ttyedit ∧ tp.flags.echo then ttyEdit (unquoted tp) (marked tp c)
      else cookedInput crt (unquoted tp) (marked tp c) := by
  obtain ⟨h1, h2, h3, ⟨h4, h5⟩, h6, h7⟩ := common_false h
  simp only [inputChar, hraw, hcbreak, h1, h2, h3, h4, h5, h6, h7, Bool.false_eq_true, if_false,
    or_self, unquoted]

theorem Sim.unquoted (h : Sim p e) : Sim (unquoted p) (unquoted e) :=
  ⟨h.flags, h.chars, rfl, h.raw, h.cbreak, h.echo, h.pendin, h.typen, h.rawq, h.edesc, h.edcur,
    h.line, h.kept, h.canq⟩

theorem Sim.quoteNext (h : Sim p e) : Sim (quoteNext p) (quoteNext e) :=
  ⟨h.flags, h.chars, rfl, h.raw, h.cbreak, h.echo, h.pendin, h.typen, h.rawq, h.edesc, h.edcur,
    h.line, h.kept, h.canq⟩

theorem Sim.flush (h : Sim p e) : Sim (ttyflush p) (ttyflush e) :=
  ⟨h.flags, h.chars, rfl, h.raw, h.cbreak, h.echo, h.pendin, ⟨rfl, rfl⟩, rfl, rfl, rfl, rfl, nofun,
    .nil⟩

theorem Sim.commonInput (h : Sim p e) (d : UInt8) :
    Sim (commonInput p d) (commonInput e d) := by
  simp only [Terminal.commonInput, h.chars, h.flags]
  split_ifs
  · exact h.quoteNext
  all_goals first | exact h | exact h.flush

/-- The plain line in the raw queue and the editor's line are replaced, and what is committed is
added to both canonical queues. -/
theorem Sim.relined (q line line' : List UInt8) (h : Sim p e) (hp : p'.flags = p.flags ∧
    p'.chars = p.chars ∧ p'.lnch = p.lnch ∧ p'.typen = false ∧ p'.rawq = q)
    (he : e'.flags = e.flags ∧ e'.chars = e.chars ∧ e'.lnch = e.lnch ∧ e'.typen = false ∧
      e'.rawq = [] ∧ e'.edesc = 0 ∧ e'.edcur = e'.edbuf.length ∧ e'.edbuf = q.map strip)
    (hkept : ∀ a ∈ q, a ≠ 0 ∧ Same p a (strip a)) (hq : p'.canq = p.canq ++ line)
    (hq' : e'.canq = e.canq ++ line')
    (hline : List.Forall₂ (Same p) line line') : Sim p' e' := by
  obtain ⟨hpf, hpc, hpl, hpt, hpr⟩ := hp
  obtain ⟨hef, hec, hel, het, her, hes, hecur, hebuf⟩ := he
  refine ⟨?_, ?_, ?_, ?_, ?_, ?_, ?_, ⟨hpt, het⟩, her, hes, hecur, ?_, fun a ha => ?_, ?_⟩
  · rw [hef, hpf, h.flags]
  · rw [hec, hpc, h.chars]
  · rw [hel, hpl, h.lnch]
  · rw [hpf, h.raw]
  · rw [hpf, h.cbreak]
  · rw [hpf, h.echo]
  · rw [hpf, h.pendin]
  · rw [hebuf, hpr]
  · rw [hpr] at ha
    obtain ⟨hzero, hsame⟩ := hkept a ha
    exact ⟨hzero, hsame.congr hpf hpc⟩
  · rw [hq, hq']
    exact List.Forall₂.imp (fun a b hab => hab.congr hpf hpc)
      (List.rel_append h.canq hline)

theorem Sim.forall_line (h : Sim p e) : List.Forall₂ (Same p) p.rawq e.edbuf := by
  rw [h.line, List.forall₂_map_right_iff, List.forall₂_same]
  exact fun a ha => (h.kept a ha).2

/-- A delimiter commits the line in both. -/
theorem Sim.commit (h : Sim p e) (d : UInt8) :
    Sim { p with rawq := [], canq := p.canq ++ (p.rawq ++ [d]) } (tedCommit e d) := by
  have hkeep : (remember e).flags = e.flags ∧ (remember e).chars = e.chars ∧
      (remember e).lnch = e.lnch ∧ (remember e).canq = e.canq ∧ (remember e).typen = e.typen ∧
      (remember e).rawq = e.rawq ∧ (remember e).edbuf = e.edbuf := by
    simp only [remember]
    split <;> simp
  obtain ⟨hflags, hchars, hlnch, hcanq, htypen, hrawq, hedbuf⟩ := hkeep
  refine h.relined [] (p.rawq ++ [d]) (e.edbuf ++ [d])
    ⟨rfl, rfl, rfl, h.typen.1, rfl⟩
    ⟨hflags, hchars, hlnch, htypen.trans h.typen.2, rfl, rfl, rfl, rfl⟩ nofun rfl ?_ ?_
  · simp [tedCommit, hcanq, hrawq, hedbuf, h.rawq]
  · exact List.rel_append h.forall_line (.cons (.inl rfl) .nil)

/-- Both lines are cut to the same front part. -/
theorem Sim.cut (q : List UInt8) (h : Sim p e) (hq : ∀ a ∈ q, a ∈ p.rawq)
    (hp : p'.flags = p.flags ∧ p'.chars = p.chars ∧ p'.lnch = p.lnch ∧ p'.typen = false ∧
      p'.rawq = q ∧ p'.canq = p.canq)
    (he : e' = { e with edbuf := q.map strip, edcur := q.length }) : Sim p' e' := by
  obtain ⟨hpf, hpc, hpl, hpt, hpr, hpq⟩ := hp
  subst he
  exact h.relined q [] [] ⟨hpf, hpc, hpl, hpt, hpr⟩
    ⟨rfl, rfl, rfl, h.typen.2, h.rawq, h.edesc, by simp, rfl⟩ (fun a ha => h.kept a (hq a ha))
    (by simp [hpq]) (by simp) .nil

theorem Sim.erase (h : Sim p e) :
    Sim { p with rawq := p.rawq.dropLast }
      { e with edbuf := if e.edcur = 0 then e.edbuf else e.edbuf.eraseIdx (e.edcur - 1),
               edcur := e.edcur - 1 } := by
  refine h.cut p.rawq.dropLast (fun a ha => List.mem_of_mem_dropLast ha)
    ⟨rfl, rfl, rfl, h.typen.1, rfl, rfl⟩ ?_
  have hlen : e.edcur = p.rawq.length := by rw [h.edcur, h.line, List.length_map]
  have hbuf : (if e.edcur = 0 then e.edbuf else e.edbuf.eraseIdx (e.edcur - 1)) =
      p.rawq.dropLast.map strip := by
    split
    · rename_i hzero
      have hnil : p.rawq = [] := List.length_eq_zero_iff.mp (hlen ▸ hzero)
      simp [h.line, hnil]
    · rw [h.edcur, List.eraseIdx_length_sub_one, h.line, List.map_dropLast]
  rw [hbuf, hlen, List.length_dropLast]

theorem Sim.kill (h : Sim p e) (crt : Bool) (hlnch : p.lnch = false) :
    Sim { p with rawq := killRaw crt p.rawq, lnch := false, typen := false }
      { e with edbuf := [], edcur := 0 } := by
  have hnil : killRaw crt p.rawq = [] := killRaw_eq_nil crt fun a ha => (h.kept a ha).1
  exact h.cut [] nofun ⟨rfl, rfl, hlnch.symm, rfl, hnil, rfl⟩ rfl

theorem Sim.eraseWord (h : Sim p e) (hword : ∀ a ∈ p.rawq, isBlank (strip a) = isBlank a) :
    Sim { p with rawq := Terminal.eraseWord p.rawq }
      { e with edbuf := Terminal.eraseWord (e.edbuf.take e.edcur) ++ e.edbuf.drop e.edcur,
               edcur := (Terminal.eraseWord (e.edbuf.take e.edcur)).length } := by
  refine h.cut (Terminal.eraseWord p.rawq)
    (fun a ha => mem_of_mem_rdropWhile (mem_of_mem_rdropWhile ha))
    ⟨rfl, rfl, rfl, h.typen.1, rfl, rfl⟩ ?_
  rw [h.edcur, List.take_length, List.drop_length, List.append_nil, h.line,
    eraseWord_strip _ hword, List.length_map]

/-- An ordinary or quoted character is added to both lines. -/
theorem Sim.insert (h : Sim p e) (hzero : d ≠ 0) (hsame : Same p d (strip d)) :
    Sim (pushRaw p d) (insertChar e (strip d)) := by
  refine h.relined (p.rawq ++ [d]) [] [] ⟨rfl, rfl, rfl, h.typen.1, rfl⟩
    ⟨rfl, rfl, rfl, h.typen.2, h.rawq, h.edesc, ?_, ?_⟩ (fun a ha => ?_) (by simp [pushRaw])
    (by simp [insertChar]) .nil
  · simp [insertChar, h.edcur]
  · show e.edbuf.take e.edcur ++ strip d :: e.edbuf.drop e.edcur = _
    rw [h.edcur, List.take_length, List.drop_length, h.line, List.map_append, List.map_singleton]
  · obtain ha | ha := List.mem_append.mp ha
    · exact h.kept a ha
    · rw [List.mem_singleton.mp ha]
      exact ⟨hzero, hsame⟩

theorem Sim.ttyEdit_eq (h : Sim p e) (d : UInt8) : ttyEdit e d = editChar e d := by
  have hone : e.edesc ≠ 1 ∧ e.edesc ≠ 2 := by
    rw [h.edesc]
    decide
  simp only [ttyEdit, if_neg hone.1, if_neg hone.2]

/-- The plain path and the editor on the same character, behind the point where they part. -/
theorem Sim.lineInput (h : Sim p e) (crt : Bool) (hlnch : p.lnch = false) (hok : Agrees p d)
    (halpha : Alphabet p d) (hcommon : common p d = false)
    (hroom : p.rawq.length + p.canq.length < TTYHOG) :
    Sim (cookedInput crt p d) (ttyEdit e d) := by
  have herases : erases e d = erases p d := by simp only [erases, h.chars]
  have hkills : cceq e.chars.kill d = cceq p.chars.kill d := by rw [h.chars]
  have hwerases : cceq e.chars.werasc d = cceq p.chars.werasc d := by rw [h.chars]
  have hreprints : cceq e.chars.rprntc d = cceq p.chars.rprntc d := by rw [h.chars]
  have hnot (b : Bool) (hb : ¬ b = true) : b = false := Bool.eq_false_of_not_eq_true hb
  have hfits := Nat.not_le.mpr hroom
  rw [h.ttyEdit_eq, editChar, if_neg hok.escape]
  simp only [cookedInput, h.congr_breakc, herases, hkills, hwerases, hreprints]
  by_cases hbreak : breakc p d = true
  · obtain ⟨he, hk, hw, hr⟩ := hok.delimiter hbreak
    simp only [hbreak, he, hk, hw, hr, Bool.false_eq_true, if_true, if_false, if_neg hfits]
    exact h.commit d
  replace hbreak := hnot _ hbreak
  by_cases herase : erases p d = true
  · simp only [hbreak, herase, Bool.false_eq_true, if_false, if_true, true_or]
    exact h.erase
  replace herase := hnot _ herase
  have hdel : d ≠ 0x7F := fun hd => by simpa [hbreak, herase] using hok.delete hd
  by_cases hkill : cceq p.chars.kill d = true
  · simp only [hbreak, herase, hdel, hkill, Bool.false_eq_true, if_false, if_true, or_self]
    exact h.kill crt hlnch
  replace hkill := hnot _ hkill
  by_cases hwerase : cceq p.chars.werasc d = true
  · simp only [hbreak, herase, hdel, hkill, hwerase, Bool.false_eq_true, if_false, if_true, or_self]
    exact h.eraseWord (hok.word hwerase)
  replace hwerase := hnot _ hwerase
  by_cases hreprint : cceq p.chars.rprntc d = true
  · simp only [hbreak, herase, hdel, hkill, hwerase, hreprint, Bool.false_eq_true, if_false,
      if_true, or_self]
    exact h
  replace hreprint := hnot _ hreprint
  -- an ordinary character: there is room for it in the editor too
  have hlow : 32 ≤ d ∧ d ≠ 0x7F := by
    obtain hprint | hb | he | hk | hw | hl := halpha
    · exact hprint
    · simp [hbreak] at hb
    · simp [herase] at he
    · simp [hkill] at hk
    · simp [hwerase] at hw
    · simp [(common_false hcommon).1] at hl
  have hprint : d &&& 0x80 ≠ 0 ∨ (32 ≤ d ∧ d < 0x7F) := by
    by_cases hhigh : 0x80 ≤ d
    · exact .inl (and_high_ne_zero_iff.mpr hhigh)
    · refine .inr ⟨hlow.1, ?_⟩
      have hne : d.toNat ≠ 127 := fun heq => hlow.2 (UInt8.toNat_inj.mp heq)
      rw [UInt8.le_iff_toNat_le, show (0x80 : UInt8).toNat = 128 from rfl] at hhigh
      rw [UInt8.lt_iff_toNat_lt, show (0x7F : UInt8).toNat = 127 from rfl]
      omega
  have hcount : e.rawq.length + e.canq.length + e.edbuf.length =
      p.rawq.length + p.canq.length := by
    rw [h.rawq, h.line, List.length_map, h.canq.length_eq, List.length_nil]
    omega
  have hfull : ¬ (EDBUFSIZE - 1 ≤ e.edbuf.length ∨
      TTYHOG ≤ e.rawq.length + e.canq.length + e.edbuf.length) := by
    simp only [EDBUFSIZE, TTYHOG] at hroom ⊢
    omega
  simp only [hbreak, herase, hdel, hkill, hwerase, hreprint, Bool.false_eq_true, if_false, or_self,
    if_pos hprint, if_neg hfull, if_neg hfits]
  refine h.insert (fun hd => ?_) ?_
  · rw [hd] at hlow
    exact absurd hlow.1 (by decide)
  · by_cases hhigh : 0x80 ≤ d
    · have hplain : lineControl p d = false := by
        simp [lineControl, hbreak, herase, hkill, hwerase, hreprint]
      obtain ⟨hpass, hsusp, hstrip⟩ := hok.marked hhigh hplain
      exact .inr ⟨rfl, hpass, ⟨hbreak, hsusp⟩, hstrip⟩
    · exact .inl (strip_of_lt (UInt8.not_le.mp hhigh)).symm

/-- One typed character in both. -/
theorem Sim.ttyinput (h : Sim p e) (c : UInt8) (crt : Bool) (halpha : Alphabet p (marked p c))
    (hok : common p (marked p c) = false → Agrees p (marked p c))
    (hroom : p.rawq.length + p.canq.length < TTYHOG) :
    Sim (ttyinput false crt p c) (ttyinput true crt e c) := by
  have hraw : e.flags.raw = false := by rw [h.flags, h.raw]
  have hcb : e.flags.cbreak = false := by rw [h.flags, h.cbreak]
  have hecho : e.flags.echo = true := by rw [h.flags, h.echo]
  have hpend : e.flags.pendin = false := by rw [h.flags, h.pendin]
  have hcommon : common e (marked e c) = common p (marked p c) := by
    simp only [common, h.chars, h.congr_marked]
  simp only [Terminal.ttyinput, settle, h.pendin, hpend, Bool.false_eq_true, if_false]
  cases hc : common p (marked p c) with
  | true =>
    rw [inputChar_common false crt h.raw hc, inputChar_common true crt hraw (hcommon.trans hc),
      h.congr_marked]
    exact h.unquoted.commonInput _
  | false =>
    rw [inputChar_parted false crt h.raw h.cbreak hc,
      inputChar_parted true crt hraw hcb (hcommon.trans hc), h.congr_marked, if_neg (by simp),
      if_pos ⟨rfl, hecho⟩]
    obtain ⟨h1, h2, h3, h4, h5⟩ := hok hc
    exact h.unquoted.lineInput crt rfl ⟨h1, h2, h3, h4, h5⟩ halpha hc hroom

/-! ## Reads -/

/-- Two characters that read the same pass every test of the reader alike. -/
theorem Same.reads {a b : UInt8} (h : Same p a b) :
    cceq p.chars.dsuspc (mapped p a) = cceq p.chars.dsuspc (mapped p b) ∧
      cceq p.chars.eofc (mapped p a) = cceq p.chars.eofc (mapped p b) ∧
      breakc p (mapped p a) = breakc p (mapped p b) ∧
      delivered p (mapped p a) = delivered p (mapped p b) := by
  have hinert (x : UInt8) (hx : breakc p x = false) :
      mapped p x = x ∧ cceq p.chars.eofc x = false := by
    simp only [breakc, Bool.or_eq_false_iff, Bool.and_eq_false_imp, beq_iff_eq] at hx
    obtain ⟨⟨⟨-, heof⟩, -⟩, hcr⟩ := hx
    refine ⟨?_, heof⟩
    rw [mapped, if_neg]
    rintro ⟨hmod, hx⟩
    simp [hcr hx] at hmod
  obtain rfl | ⟨hb, hpass, ⟨hba, hsa⟩, hbb, hsb⟩ := h
  · exact ⟨rfl, rfl, rfl, rfl⟩
  · obtain ⟨hma, hea⟩ := hinert a hba
    obtain ⟨hmb, heb⟩ := hinert b hbb
    rw [hma, hmb]
    refine ⟨hsa.trans hsb.symm, hea.trans heb.symm, hba.trans hbb.symm, ?_⟩
    simp only [delivered, hpass, Bool.false_eq_true, if_false, hb, strip, UInt8.and_assoc]
    rfl

theorem readLoop_same (first : Bool) (n : Nat) {q q' : List UInt8}
    (h : List.Forall₂ (Same p) q q') :
    (readLoop p first n q).entries.map Prod.snd = (readLoop p first n q').entries.map Prod.snd ∧
      (readLoop p first n q).blocked = (readLoop p first n q').blocked ∧
      List.Forall₂ (Same p) (readLoop p first n q).rest (readLoop p first n q').rest := by
  induction h generalizing first n with
  | nil => exact ⟨rfl, rfl, .nil⟩
  | @cons a b q q' hab hrest ih =>
    obtain ⟨hsusp, heof, hbreak, hbyte⟩ := hab.reads
    simp only [readLoop, hsusp, heof, hbreak, hbyte]
    split
    · split
      · obtain ⟨he, hb, hr⟩ := ih true n
        exact ⟨congrArg (none :: ·) he, hb, hr⟩
      · exact ⟨rfl, rfl, hrest⟩
    · split
      · exact ⟨rfl, rfl, hrest⟩
      · split
        · exact ⟨rfl, rfl, hrest⟩
        · obtain ⟨he, hb, hr⟩ := ih false (n - 1)
          exact ⟨congrArg (some (delivered p (mapped p b)) :: ·) he, hb, hr⟩

theorem Sim.readLoop_eq (h : Sim p e) (first : Bool) (n : Nat) (q : List UInt8) :
    readLoop e first n q = readLoop p first n q := by
  have hflags := h.flags
  have hchars := h.chars
  clear h
  cases p
  cases e
  simp only at hflags hchars
  subst hflags hchars
  induction q generalizing first n with
  | nil => simp only [readLoop]
  | cons c q ih =>
    simp only [readLoop, ih]
    rfl

/-- What a reader sees of a read: the bytes, and whether it was put to sleep. -/
def seen (t : Taken) : List UInt8 × Bool := (t.entries.filterMap Prod.snd, t.blocked)

/-- One read in both. -/
theorem Sim.ttread (h : Sim p e) (n : Nat) (crt : Bool) :
    seen (ttread false crt p n).1 = seen (ttread true crt e n).1 ∧
      Sim (ttread false crt p n).2 (ttread true crt e n).2 := by
  have hraw : e.flags.raw = false := by rw [h.flags, h.raw]
  have hcb : e.flags.cbreak = false := by rw [h.flags, h.cbreak]
  have hpend : e.flags.pendin = false := by rw [h.flags, h.pendin]
  obtain ⟨he, hb, hr⟩ := readLoop_same true n h.canq
  simp only [Terminal.ttread, settle, h.pendin, hpend, h.raw, hraw, h.cbreak, hcb,
    Bool.false_eq_true, if_false, h.readLoop_eq]
  refine ⟨?_, ⟨h.flags, h.chars, h.lnch, h.raw, h.cbreak, h.echo, h.pendin, h.typen, h.rawq,
    h.edesc, h.edcur, h.line, h.kept, hr⟩⟩
  have hbytes := congrArg (List.filterMap id) he
  simp only [List.filterMap_map, Function.id_comp] at hbytes
  rw [seen, seen, hbytes, hb]

/-! ## Runs -/

/-- What happens at the terminal: a character is typed, or a process reads up to `n + 1` bytes. -/
inductive Use where
  | key (c : UInt8) (crt : Bool)
  | read (n : Nat) (crt : Bool)
deriving DecidableEq

/-- What the reads of a run see. -/
def readings (ttyedit : Bool) (tp : Tty) : List Use → List (List UInt8 × Bool)
  | [] => []
  | .key c crt :: us => readings ttyedit (ttyinput ttyedit crt tp c) us
  | .read n crt :: us =>
    seen (ttread ttyedit crt tp n).1 :: readings ttyedit (ttread ttyedit crt tp n).2 us

/-- Along the plain run every character typed is one in question, there is room for it, and the
two paths do the same with it. -/
def AgreesAlong (tp : Tty) : List Use → Prop
  | [] => True
  | .key c crt :: us =>
    Alphabet tp (marked tp c) ∧ tp.rawq.length + tp.canq.length < TTYHOG ∧
      (common tp (marked tp c) = false → Agrees tp (marked tp c)) ∧
      AgreesAlong (ttyinput false crt tp c) us
  | .read n crt :: us => AgreesAlong (ttread false crt tp n).2 us

instance decidableAgreesAlong : (tp : Tty) → (us : List Use) → Decidable (AgreesAlong tp us)
  | _, [] => isTrue trivial
  | tp, .key c crt :: us =>
    have := decidableAgreesAlong (ttyinput false crt tp c) us
    inferInstanceAs (Decidable (_ ∧ _ ∧ _ ∧ _))
  | tp, .read n crt :: us => decidableAgreesAlong (ttread false crt tp n).2 us

/-- A cooked terminal with echo and no unfinished line. -/
structure Cooked (tp : Tty) : Prop where
  raw : tp.flags.raw = false
  cbreak : tp.flags.cbreak = false
  echo : tp.flags.echo = true
  pendin : tp.flags.pendin = false
  typen : tp.typen = false
  rawq : tp.rawq = []
  edbuf : tp.edbuf = []
  edcur : tp.edcur = 0
  edesc : tp.edesc = 0

theorem Cooked.sim {tp : Tty} (h : Cooked tp) : Sim tp tp := by
  refine ⟨rfl, rfl, rfl, h.raw, h.cbreak, h.echo, h.pendin, ⟨h.typen, h.typen⟩, h.rawq, h.edesc,
    ?_, ?_, ?_, ?_⟩
  · rw [h.edcur, h.edbuf, List.length_nil]
  · rw [h.edbuf, h.rawq, List.map_nil]
  · simp [h.rawq]
  · exact List.forall₂_same.mpr fun a _ => .inl rfl

theorem Sim.readings (h : Sim p e) {us : List Use} (hok : AgreesAlong p us) :
    readings true e us = readings false p us := by
  induction us generalizing p e with
  | nil => rfl
  | cons u us ih =>
    cases u with
    | key c crt =>
      obtain ⟨halpha, hroom, hagree, hrest⟩ := hok
      exact ih (h.ttyinput c crt halpha hagree hroom) hrest
    | read n crt =>
      obtain ⟨hseen, hsim⟩ := h.ttread n crt
      simp only [Terminal.readings, hseen, ih hsim hok]

/-- With the editor and without it the reads of a run see the same. -/
theorem editor_reads_as_plain {tp : Tty} {us : List Use} (hstart : Cooked tp)
    (hok : AgreesAlong tp us) : readings true tp us = readings false tp us :=
  hstart.sim.readings hok

theorem cooked_fresh : Cooked fresh := ⟨rfl, rfl, rfl, rfl, rfl, rfl, rfl, rfl, rfl⟩

/-- A quoted character, an erased one, an erased word, and a read. -/
def editedLine : List Use :=
  [.key 97 true, .key 22 true, .key 120 true, .key 121 true, .key 127 true, .key 32 true,
    .key 98 true, .key 23 true, .key 10 true, .read 9 true]

theorem editor_reads_as_plain_edited_line :
    AgreesAlong fresh editedLine ∧ readings false fresh editedLine = [([97, 120, 32, 10], false)] ∧
      readings true fresh editedLine = readings false fresh editedLine := by
  have hok : AgreesAlong fresh editedLine := by decide +kernel
  exact ⟨hok, by decide +kernel, editor_reads_as_plain cooked_fresh hok⟩

/-- A quoted newline in the middle of a line, and two reads. -/
def quotedNewline : List Use :=
  [.key 97 true, .key 22 true, .key 10 true, .key 98 true, .key 10 true, .read 9 true,
    .read 9 true]

/-- The plain path gives the line to one read; the editor's line ends at the quoted newline. -/
theorem quoted_newline_splits_line :
    readings false fresh quotedNewline = [([97, 10, 98, 10], false), ([], true)] ∧
      readings true fresh quotedNewline = [([97, 10], false), ([98, 10], false)] ∧
      readings true fresh quotedNewline ≠ readings false fresh quotedNewline := by
  decide +kernel

end DiscoBsd.Terminal
