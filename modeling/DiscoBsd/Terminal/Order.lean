import DiscoBsd.Terminal.Input
import DiscoBsd.Lib.Steps

/-!
# Typed input under mode changes

A character that was typed and not read yet is in the canonical queue, the raw queue or the line
editor's buffer, and it is read in that order. `waiting` is the three put together. A typed
character is added behind it as long as the editor holds no unfinished line when the mode is not
the editor's; `TIOCSETN` does not see to that, and an unfinished line then stays behind while
later characters overtake it.
-/

namespace DiscoBsd.Terminal

/-- Everything that waits to be read, in the order it will be read in. -/
def waiting (tp : Tty) : List UInt8 := tp.canq ++ tp.rawq ++ tp.edbuf

/-- The mode in which typed characters go to the line editor. -/
def editing (tp : Tty) : Bool := !tp.flags.cbreak && tp.flags.echo

/-- A character that means nothing to the terminal in any mode but itself, or the end of a line:
no special character, no erase key of the editor, no escape. -/
structure Typable (tp : Tty) (c : UInt8) : Prop where
  seven : c < 0x80
  plain : breakc tp c = true ∨ (32 ≤ c ∧ c < 0x7F)
  noEscape : c ≠ 27
  noErase : erases tp c = false ∧ c ≠ 0x7F
  noKill : cceq tp.chars.kill c = false
  noWerase : cceq tp.chars.werasc c = false
  noReprint : cceq tp.chars.rprntc c = false
  noLnext : cceq tp.chars.lnextc c = false
  noFlush : cceq tp.chars.flushc c = false
  noSusp : cceq tp.chars.suspc c = false
  noStop : cceq tp.chars.stopc c = false
  noStart : cceq tp.chars.startc c = false
  noIntr : cceq tp.chars.intrc c = false
  noQuit : cceq tp.chars.quitc c = false
  noDsusp : cceq tp.chars.dsuspc (mapped tp c) = false

/-- No half-typed sequence of any kind, and the cursor at the end of the line. -/
structure Calm (tp : Tty) : Prop where
  raw : tp.flags.raw = false
  lnch : tp.lnch = false
  edesc : tp.edesc = 0
  edcur : tp.edcur = tp.edbuf.length
  canq : tp.flags.cbreak = true → tp.canq = []

variable {tp tp' : Tty} {c : UInt8} {crt : Bool}

theorem Typable.congr (h : Typable tp c) (hchars : tp'.chars = tp.chars)
    (hcrmod : tp'.flags.crmod = tp.flags.crmod) : Typable tp' c := by
  obtain ⟨h1, h2, h3, h4, h5, h6, h7, h8, h9, h10, h11, h12, h13, h14, h15⟩ := h
  constructor <;> simp only [breakc, erases, mapped, hchars, hcrmod] at * <;> assumption

theorem marked_seven (hlnch : tp.lnch = false) (h : c < 0x80) : marked tp c = c := by
  simp [marked, hlnch, and_seven h]

theorem waiting_length (tp : Tty) :
    (waiting tp).length = tp.canq.length + tp.rawq.length + tp.edbuf.length := by
  simp [waiting, Nat.add_assoc]

theorem lnch_false (hlnch : tp.lnch = false) : ({ tp with lnch := false } : Tty) = tp := by
  cases tp
  simp only at hlnch
  simp [hlnch]

/-- A typable character goes to the queue of the mode. -/
theorem inputChar_typable (hcalm : Calm tp) (hc : Typable tp c)
    (hroom : (waiting tp).length < TTYHOG) :
    inputChar true crt tp c =
      if tp.flags.cbreak then pushRaw tp c
      else if tp.flags.echo then ttyEdit tp c
      else cookedInput crt tp c := by
  rw [waiting_length] at hroom
  simp only [inputChar, hcalm.raw, Bool.false_eq_true, if_false, marked_seven hcalm.lnch hc.seven,
    lnch_false hcalm.lnch, hc.noLnext, hc.noFlush, hc.noSusp, hc.noStop, hc.noStart, hc.noIntr,
    hc.noQuit, or_self, true_and]
  rw [if_neg (by omega : ¬ TTYHOG < tp.rawq.length)]

theorem cookedInput_typable (hc : Typable tp c) (hroom : (waiting tp).length < TTYHOG) :
    cookedInput crt tp c =
      if breakc tp c then { tp with rawq := [], canq := tp.canq ++ (tp.rawq ++ [c]) }
      else pushRaw tp c := by
  rw [waiting_length] at hroom
  simp only [cookedInput, hc.noErase.1, hc.noKill, hc.noWerase, hc.noReprint, Bool.false_eq_true,
    if_false]
  rw [if_neg (by omega)]

/-- The editor on a typable character. -/
theorem ttyEdit_typable (hcalm : Calm tp) (hc : Typable tp c)
    (hroom : (waiting tp).length < TTYHOG) :
    ttyEdit tp c = if breakc tp c then tedCommit tp c else insertChar tp c := by
  rw [waiting_length] at hroom
  have hone : tp.edesc ≠ 1 ∧ tp.edesc ≠ 2 := by
    rw [hcalm.edesc]
    decide
  simp only [ttyEdit, if_neg hone.1, if_neg hone.2, editChar, if_neg hc.noEscape]
  split
  · rfl
  · rename_i hbreak
    have hprint : 32 ≤ c ∧ c < 0x7F := hc.plain.resolve_left hbreak
    have hfull : ¬ (EDBUFSIZE - 1 ≤ tp.edbuf.length ∨
        TTYHOG ≤ tp.rawq.length + tp.canq.length + tp.edbuf.length) := by
      simp only [EDBUFSIZE, TTYHOG] at hroom ⊢
      omega
    simp only [hc.noErase.1, hc.noErase.2, hc.noKill, hc.noWerase, hc.noReprint, hprint,
      Bool.false_eq_true, or_self, if_false, or_true, and_self, if_true, if_neg hfull,
      and_seven hc.seven]

/-- What typable characters do: they are added behind everything that waits, or at least behind
the two queues when the mode is not the editor's. -/
structure Fed (tp tp' : Tty) (cs : List UInt8) : Prop where
  flags : tp'.flags = tp.flags
  chars : tp'.chars = tp.chars
  calm : Calm tp'
  edit : editing tp = true → waiting tp' = waiting tp ++ cs
  queues : editing tp = false →
    tp'.canq ++ tp'.rawq = tp.canq ++ tp.rawq ++ cs ∧ tp'.edbuf = tp.edbuf

theorem Fed.refl (hcalm : Calm tp) : Fed tp tp [] :=
  ⟨rfl, rfl, hcalm, fun _ => by simp, fun _ => ⟨by simp, rfl⟩⟩

theorem Fed.trans {tp'' : Tty} {cs ds : List UInt8} (h : Fed tp tp' cs) (h' : Fed tp' tp'' ds) :
    Fed tp tp'' (cs ++ ds) := by
  have hmode : editing tp' = editing tp := by simp only [editing, h.flags]
  refine ⟨h'.flags.trans h.flags, h'.chars.trans h.chars, h'.calm, fun he => ?_, fun he => ?_⟩
  · rw [h'.edit (hmode.trans he), h.edit he, List.append_assoc]
  · obtain ⟨hq, hed⟩ := h.queues he
    obtain ⟨hq', hed'⟩ := h'.queues (hmode.trans he)
    exact ⟨by rw [hq', hq, List.append_assoc (tp.canq ++ tp.rawq)], hed'.trans hed⟩

theorem Fed.length {cs : List UInt8} (h : Fed tp tp' cs) :
    (waiting tp').length = (waiting tp).length + cs.length := by
  cases hmode : editing tp with
  | true => rw [h.edit hmode, List.length_append]
  | false =>
    obtain ⟨hq, hed⟩ := h.queues hmode
    simp only [waiting, hq, hed, List.length_append]
    omega

theorem fed_pushRaw (hcalm : Calm tp) (hmode : editing tp = false) :
    Fed tp (pushRaw tp c) [c] where
  flags := rfl
  chars := rfl
  calm := ⟨hcalm.raw, hcalm.lnch, hcalm.edesc, hcalm.edcur, hcalm.canq⟩
  edit := fun h => by simp [hmode] at h
  queues := fun _ => ⟨by simp [pushRaw], rfl⟩

theorem fed_tedCommit (hcalm : Calm tp) (hmode : editing tp = true) :
    Fed tp (tedCommit tp c) [c] := by
  have hkeep : (remember tp).flags = tp.flags ∧ (remember tp).chars = tp.chars ∧
      (remember tp).lnch = tp.lnch ∧ (remember tp).canq = tp.canq ∧
      (remember tp).rawq = tp.rawq ∧ (remember tp).edbuf = tp.edbuf := by
    simp only [remember]
    split <;> simp
  obtain ⟨hflags, hchars, hlnch, hcanq, hrawq, hedbuf⟩ := hkeep
  have hcook : tp.flags.cbreak = false := by
    simp only [editing, Bool.and_eq_true, Bool.not_eq_true'] at hmode
    exact hmode.1
  refine ⟨hflags, hchars, ⟨?_, ?_, rfl, rfl, ?_⟩, fun _ => ?_, fun h => ?_⟩
  · exact (congrArg Flags.raw hflags).trans hcalm.raw
  · exact hlnch.trans hcalm.lnch
  · intro hcb
    have hcb : (remember tp).flags.cbreak = true := hcb
    rw [hflags, hcook] at hcb
    cases hcb
  · simp [waiting, tedCommit, hcanq, hrawq, hedbuf]
  · simp [hmode] at h

theorem fed_insertChar (hcalm : Calm tp) (hmode : editing tp = true) :
    Fed tp (insertChar tp c) [c] where
  flags := rfl
  chars := rfl
  calm := by
    refine ⟨hcalm.raw, hcalm.lnch, hcalm.edesc, ?_, hcalm.canq⟩
    simp [insertChar, hcalm.edcur]
  edit := fun _ => by simp [waiting, insertChar, hcalm.edcur]
  queues := fun h => by simp [hmode] at h

theorem fed_inputChar (hcalm : Calm tp) (hc : Typable tp c)
    (hroom : (waiting tp).length < TTYHOG) : Fed tp (inputChar true crt tp c) [c] := by
  rw [inputChar_typable hcalm hc hroom]
  by_cases hcb : tp.flags.cbreak = true
  · rw [if_pos hcb]
    exact fed_pushRaw hcalm (by simp [editing, hcb])
  · rw [if_neg hcb]
    rw [Bool.not_eq_true] at hcb
    by_cases hecho : tp.flags.echo = true
    · have hmode : editing tp = true := by simp [editing, hcb, hecho]
      rw [if_pos hecho, ttyEdit_typable hcalm hc hroom]
      split
      · exact fed_tedCommit hcalm hmode
      · exact fed_insertChar hcalm hmode
    · have hmode : editing tp = false := by simp [editing, hecho]
      rw [if_neg hecho, cookedInput_typable hc hroom]
      split
      · exact ⟨rfl, rfl, ⟨hcalm.raw, hcalm.lnch, hcalm.edesc, hcalm.edcur,
          fun h => by simp [hcb] at h⟩, fun h => by simp [hmode] at h, fun _ => ⟨by simp, rfl⟩⟩
      · exact fed_pushRaw hcalm hmode

/-- Typing a list of characters again. -/
theorem fed_foldl (crt : Bool) (cs : List UInt8) (hcalm : Calm tp) (htyp : ∀ c ∈ cs, Typable tp c)
    (hroom : (waiting tp).length + cs.length ≤ TTYHOG) :
    Fed tp (cs.foldl (inputChar true crt) tp) cs := by
  induction cs generalizing tp with
  | nil => exact .refl hcalm
  | cons c cs ih =>
    simp only [List.length_cons] at hroom
    have hfirst : Fed tp (inputChar true crt tp c) [c] :=
      fed_inputChar hcalm (htyp c List.mem_cons_self) (by omega)
    have hlen := hfirst.length
    simp only [List.length_singleton] at hlen
    have hrest := ih hfirst.calm
      (fun d hd => (htyp d (List.mem_cons_of_mem _ hd)).congr hfirst.chars (by rw [hfirst.flags]))
      (by omega)
    exact hfirst.trans hrest

/-! ## Pending input -/

/-- What holds of a terminal between the events of a run. -/
structure Quiet (tp : Tty) : Prop where
  calm : Calm tp
  typable : ∀ c ∈ waiting tp, Typable tp c
  room : (waiting tp).length ≤ TTYHOG

theorem settled_eq {f : Flags} (h : f.pendin = false) : f.settled = f := by
  cases f
  simp only at h
  simp [Flags.settled, h]

/-- What settling the pending input leaves. -/
structure Settled (tp tp' : Tty) : Prop where
  quiet : Quiet tp'
  waiting : waiting tp' = waiting tp
  chars : tp'.chars = tp.chars
  flags : tp'.flags = tp.flags.settled
  edbuf : editing tp = false → tp'.edbuf = tp.edbuf

/-- Typing the raw queue again leaves the order as it is, unless it would go behind an unfinished
line in the editor. -/
theorem settle_quiet (crt : Bool) (h : Quiet tp)
    (hsafe : tp.flags.pendin = true → editing tp = true → tp.edbuf = [] ∨ tp.rawq = []) :
    Settled tp (settle true crt tp) := by
  cases hp : tp.flags.pendin with
  | false =>
    simp only [settle, hp, Bool.false_eq_true, if_false]
    exact ⟨h, rfl, rfl, (settled_eq hp).symm, fun _ => rfl⟩
  | true =>
    have hcalm : Calm (pendStart tp) :=
      ⟨h.calm.raw, h.calm.lnch, h.calm.edesc, h.calm.edcur, h.calm.canq⟩
    have htyp : ∀ c ∈ tp.rawq, Typable (pendStart tp) c := fun c hc =>
      (h.typable c (by simp [Terminal.waiting, hc])).congr rfl rfl
    have hroom : (Terminal.waiting (pendStart tp)).length + tp.rawq.length ≤ TTYHOG := by
      have := h.room
      simp only [waiting_length, pendStart, List.length_nil] at this ⊢
      omega
    have hfed := fed_foldl crt tp.rawq hcalm htyp hroom
    have hwait : Terminal.waiting (ttypend true crt tp) = Terminal.waiting tp := by
      show Terminal.waiting (tp.rawq.foldl (inputChar true crt) (pendStart tp)) = _
      cases hmode : editing tp with
      | true =>
        rw [hfed.edit hmode]
        obtain hed | hraw := hsafe hp hmode
        · simp [Terminal.waiting, pendStart, hed]
        · simp [Terminal.waiting, pendStart, hraw]
      | false =>
        obtain ⟨hq, hed⟩ := hfed.queues hmode
        rw [Terminal.waiting, hq, hed]
        simp [Terminal.waiting, pendStart]
    have hq : Quiet (ttypend true crt tp) := by
      refine ⟨⟨hfed.calm.raw, hfed.calm.lnch, hfed.calm.edesc, hfed.calm.edcur, hfed.calm.canq⟩,
        fun c hc => ?_, ?_⟩
      · rw [hwait] at hc
        have hcrmod := congrArg Flags.crmod hfed.flags
        exact (h.typable c hc).congr hfed.chars hcrmod
      · rw [hwait]
        exact h.room
    simp only [settle, hp, if_true]
    exact ⟨hq, hwait, hfed.chars, hfed.flags, fun hmode => (hfed.queues hmode).2⟩

/-! ## Reads -/

/-- A character off the queue gave the reader its byte, or it was the end-of-file character. -/
def Faithful (tp : Tty) (e : UInt8 × Option UInt8) : Prop :=
  e.2 = some (delivered tp (mapped tp e.1)) ∨
    (e.2 = none ∧ cceq tp.chars.eofc (mapped tp e.1) = true)

/-- A read takes characters off the front of its queue, and each of them faithfully. -/
theorem readLoop_spec (tp : Tty) (first : Bool) (n : Nat) (q : List UInt8) :
    (readLoop tp first n q).entries.map Prod.fst ++ (readLoop tp first n q).rest = q ∧
      ((∀ c ∈ q, cceq tp.chars.dsuspc (mapped tp c) = false) →
        ∀ e ∈ (readLoop tp first n q).entries, Faithful tp e) := by
  induction q generalizing first n with
  | nil => simp [readLoop]
  | cons c q ih =>
    simp only [readLoop]
    split
    · rename_i hsusp
      split
      · obtain ⟨hq, -⟩ := ih true n
        refine ⟨by simp [Taken.cons, hq], fun hd => ?_⟩
        simp [hd c List.mem_cons_self] at hsusp
      · refine ⟨by simp, fun hd => ?_⟩
        simp [hd c List.mem_cons_self] at hsusp
    · split
      · rename_i heof
        refine ⟨by simp, fun _ e he => ?_⟩
        simp only [List.mem_singleton] at he
        subst he
        exact .inr ⟨rfl, heof.1⟩
      · split
        · refine ⟨by simp, fun _ e he => ?_⟩
          simp only [List.mem_singleton] at he
          subst he
          exact .inl rfl
        · obtain ⟨hq, hf⟩ := ih false (n - 1)
          refine ⟨by simp [Taken.cons, hq], fun hd e he => ?_⟩
          simp only [Taken.cons, List.mem_cons] at he
          obtain rfl | he := he
          · exact .inl rfl
          · exact hf (fun d hd' => hd d (List.mem_cons_of_mem _ hd')) e he

/-! ## Runs -/

/-- What can happen to a terminal: a character is typed, the mode is changed, a process reads up
to `n + 1` bytes. -/
inductive Event where
  | key (c : UInt8) (crt : Bool)
  | setn (echo cbreak : Bool)
  | read (n : Nat) (crt : Bool)
deriving DecidableEq

/-- A terminal with what was typed so far and what reads have taken. -/
structure Session where
  tty : Tty
  typed : List UInt8
  taken : List (UInt8 × Option UInt8)

/-- One event. -/
def step (r : Session) : Event → Session
  | .key c crt => ⟨ttyinput true crt r.tty c, r.typed ++ [c], r.taken⟩
  | .setn echo cbreak => ⟨tiocsetn r.tty echo cbreak, r.typed, r.taken⟩
  | .read n crt =>
    ⟨(ttread true crt r.tty n).2, r.typed, r.taken ++ (ttread true crt r.tty n).1.entries⟩

/-- The order in which characters are read is the order in which they were typed: what was taken
and what waits, put together, is what was typed, and each character was read as what it is. -/
def InOrder (r : Session) : Prop :=
  r.typed = r.taken.map Prod.fst ++ waiting r.tty ∧ ∀ e ∈ r.taken, Faithful r.tty e

/-- Ordinary characters and line ends only, with room for them; and nothing goes to the queues
while the editor holds an unfinished line. -/
def Orderly (tp : Tty) : Event → Prop
  | .key c _ => Typable tp c ∧ (waiting tp).length < TTYHOG ∧
      (tp.edbuf = [] ∨ (editing tp = true ∧ (tp.flags.pendin = true → tp.rawq = [])))
  | .setn _ _ => True
  | .read _ _ => tp.flags.pendin = true → editing tp = true → tp.edbuf = [] ∨ tp.rawq = []

/-- A step that meets the condition. -/
def OrderlyStep (r : Session) (e : Event) (r' : Session) : Prop :=
  Orderly r.tty e ∧ r' = step r e

theorem Faithful.congr {e : UInt8 × Option UInt8} (h : Faithful tp e)
    (hchars : tp'.chars = tp.chars) (hcrmod : tp'.flags.crmod = tp.flags.crmod)
    (hpass8 : tp'.flags.pass8 = tp.flags.pass8) : Faithful tp' e := by
  simpa only [Faithful, delivered, mapped, hchars, hcrmod, hpass8] using h

/-- What a run keeps. -/
def Kept (r : Session) : Prop := Quiet r.tty ∧ InOrder r

/-- A terminal with the same special characters and the same mapping of bytes. -/
structure Alike (tp tp' : Tty) : Prop where
  chars : tp'.chars = tp.chars
  crmod : tp'.flags.crmod = tp.flags.crmod
  pass8 : tp'.flags.pass8 = tp.flags.pass8

/-- An event that adds `cs` behind what waits and takes `es` off the front. -/
theorem kept_next {r r' : Session} (cs : List UInt8) (es : List (UInt8 × Option UInt8))
    (h : Kept r) (hcalm : Calm r'.tty) (halike : Alike r.tty r'.tty) (htyped : r'.typed = r.typed ++ cs)
    (htaken : r'.taken = r.taken ++ es)
    (hwait : waiting r.tty ++ cs = es.map Prod.fst ++ waiting r'.tty)
    (hcs : ∀ c ∈ cs, Typable r.tty c) (hroom : (waiting r.tty).length + cs.length ≤ TTYHOG)
    (hes : ∀ e ∈ es, Faithful r.tty e) : Kept r' := by
  obtain ⟨hquiet, horder, hfaith⟩ := h
  refine ⟨⟨hcalm, fun d hd => ?_, ?_⟩, ?_, fun e he => ?_⟩
  · have hmem : d ∈ waiting r.tty ++ cs := by
      rw [hwait]
      exact List.mem_append_right _ hd
    obtain hd | hd := List.mem_append.mp hmem
    · exact (hquiet.typable d hd).congr halike.chars halike.crmod
    · exact (hcs d hd).congr halike.chars halike.crmod
  · have hlen := congrArg List.length hwait
    simp only [List.length_append] at hlen
    omega
  · rw [htyped, htaken, horder, List.append_assoc, hwait, List.map_append, List.append_assoc]
  · rw [htaken, List.mem_append] at he
    obtain he | he := he
    · exact (hfaith e he).congr halike.chars halike.crmod halike.pass8
    · exact (hes e he).congr halike.chars halike.crmod halike.pass8

theorem Settled.alike (h : Settled tp tp') : Alike tp tp' := by
  have hcrmod := congrArg Flags.crmod h.flags
  have hpass8 := congrArg Flags.pass8 h.flags
  exact ⟨h.chars, hcrmod, hpass8⟩

theorem kept_key {r : Session} (h : Kept r) {c : UInt8} {crt : Bool}
    (hok : Orderly r.tty (.key c crt)) : Kept (step r (.key c crt)) := by
  obtain ⟨htypable, hroom, hmode⟩ := hok
  have hsafe : r.tty.flags.pendin = true → editing r.tty = true →
      r.tty.edbuf = [] ∨ r.tty.rawq = [] := by
    intro hp _
    obtain hed | ⟨-, hraw⟩ := hmode
    · exact .inl hed
    · exact .inr (hraw hp)
  have hset := settle_quiet crt h.1 hsafe
  have hfed : Fed (settle true crt r.tty) (ttyinput true crt r.tty c) [c] :=
    fed_inputChar hset.quiet.calm (htypable.congr hset.chars hset.alike.crmod)
      (by rw [hset.waiting]; exact hroom)
  have hediting : editing (settle true crt r.tty) = editing r.tty := by
    simp only [editing, hset.flags, Flags.settled]
  have hwait : waiting r.tty ++ [c] = waiting (ttyinput true crt r.tty c) := by
    rw [← hset.waiting]
    cases hm : editing r.tty with
    | true => exact (hfed.edit (hediting.trans hm)).symm
    | false =>
      -- outside the editor the unfinished line has to be empty
      have hempty : r.tty.edbuf = [] := by
        obtain hed | ⟨he, -⟩ := hmode
        · exact hed
        · simp [hm] at he
      obtain ⟨hq, hed⟩ := hfed.queues (hediting.trans hm)
      have hed' : (settle true crt r.tty).edbuf = [] := (hset.edbuf hm).trans hempty
      simp only [waiting, hq, hed, hed', List.append_nil]
  have halike : Alike r.tty (ttyinput true crt r.tty c) := by
    refine ⟨hfed.chars.trans hset.chars, ?_, ?_⟩
    · rw [hfed.flags]
      exact hset.alike.crmod
    · rw [hfed.flags]
      exact hset.alike.pass8
  refine kept_next [c] [] h hfed.calm halike rfl (by simp [step]) ?_ ?_ ?_ nofun
  · simpa [step] using hwait
  · simpa using htypable
  · simp only [List.length_singleton]
    omega

theorem kept_setn {r : Session} (h : Kept r) (echo cbreak : Bool) :
    Kept (step r (.setn echo cbreak)) := by
  have hcalm := h.1.calm
  have hspec : Calm (tiocsetn r.tty echo cbreak) ∧
      waiting r.tty = waiting (tiocsetn r.tty echo cbreak) ∧
      Alike r.tty (tiocsetn r.tty echo cbreak) := by
    simp only [tiocsetn]
    split
    · rename_i hsame
      exact ⟨⟨hcalm.raw, hcalm.lnch, hcalm.edesc, hcalm.edcur, fun hcb => hcalm.canq (hsame.trans hcb)⟩,
        rfl, rfl, rfl, rfl⟩
    · cases cbreak with
      | true =>
        exact ⟨⟨hcalm.raw, hcalm.lnch, hcalm.edesc, hcalm.edcur, fun _ => rfl⟩, by simp [waiting],
          rfl, rfl, rfl⟩
      | false =>
        exact ⟨⟨hcalm.raw, hcalm.lnch, hcalm.edesc, hcalm.edcur, fun hcb => by cases hcb⟩, rfl, rfl,
          rfl, rfl⟩
  obtain ⟨hcalm', hwait, halike⟩ := hspec
  refine kept_next [] [] h hcalm' halike (by simp [step]) (by simp [step]) ?_ nofun
    ?_ nofun
  · simpa [step] using hwait
  · simpa using h.1.room

theorem kept_read {r : Session} (h : Kept r) {n : Nat} {crt : Bool}
    (hok : Orderly r.tty (.read n crt)) : Kept (step r (.read n crt)) := by
  have hset := settle_quiet crt h.1 hok
  have hcalm := hset.quiet.calm
  have hdsusp (c : UInt8) (hc : c ∈ waiting (settle true crt r.tty)) :
      cceq (settle true crt r.tty).chars.dsuspc (mapped (settle true crt r.tty) c) = false :=
    (hset.quiet.typable c hc).noDsusp
  have hspec : Calm (ttread true crt r.tty n).2 ∧
      waiting (settle true crt r.tty) =
        (ttread true crt r.tty n).1.entries.map Prod.fst ++ waiting (ttread true crt r.tty n).2 ∧
      Alike (settle true crt r.tty) (ttread true crt r.tty n).2 ∧
      ∀ e ∈ (ttread true crt r.tty n).1.entries, Faithful (settle true crt r.tty) e := by
    simp only [ttread, hcalm.raw, Bool.false_eq_true, if_false]
    split
    · rename_i hcb
      obtain ⟨hq, hf⟩ := readLoop_spec (settle true crt r.tty) true n
        (settle true crt r.tty).rawq
      refine ⟨⟨hcalm.raw, hcalm.lnch, hcalm.edesc, hcalm.edcur, hcalm.canq⟩, ?_, ⟨rfl, rfl, rfl⟩,
        hf fun c hc => hdsusp c (by simp [waiting, hc])⟩
      simp only [waiting, hcalm.canq hcb, List.nil_append]
      conv_lhs => rw [← hq]
      rw [List.append_assoc]
    · obtain ⟨hq, hf⟩ := readLoop_spec (settle true crt r.tty) true n
        (settle true crt r.tty).canq
      refine ⟨⟨hcalm.raw, hcalm.lnch, hcalm.edesc, hcalm.edcur, fun hcb => absurd hcb ‹_›⟩, ?_,
        ⟨rfl, rfl, rfl⟩, hf fun c hc => hdsusp c (by simp [waiting, hc])⟩
      simp only [waiting]
      conv_lhs => rw [← hq]
      simp only [List.append_assoc]
  obtain ⟨hcalm', hwait, halike, hfaith⟩ := hspec
  have hback := hset.alike
  refine kept_next [] _ h hcalm'
    ⟨halike.chars.trans hback.chars, halike.crmod.trans hback.crmod, halike.pass8.trans hback.pass8⟩
    (by simp [step]) rfl ?_ nofun ?_ ?_
  · rw [List.append_nil, ← hset.waiting]
    exact hwait
  · simpa using h.1.room
  · exact fun e he => (hfaith e he).congr hback.chars.symm hback.crmod.symm hback.pass8.symm

/-- In every run of orderly steps characters are read in the order they were typed. -/
theorem typed_order_kept {tp : Tty} {events : List Event} {r : Session} (hcalm : Calm tp)
    (hempty : waiting tp = []) (hrun : Lib.Steps OrderlyStep ⟨tp, [], []⟩ events r) : InOrder r := by
  have hstart : Kept ⟨tp, [], []⟩ :=
    ⟨⟨hcalm, by simp [hempty], by simp [hempty]⟩, by simp [hempty], nofun⟩
  refine (hrun.invariant Kept (fun r e r' h hstep => ?_) hstart).2
  obtain ⟨hok, rfl⟩ := hstep
  cases e with
  | key c crt => exact kept_key h hok
  | setn echo cbreak => exact kept_setn h echo cbreak
  | read n crt => exact kept_read h hok

theorem calm_fresh : Calm fresh := ⟨rfl, rfl, rfl, rfl, nofun⟩

/-- A line typed in the editor, with echo switched off behind it, and another one. -/
def orderlyEvents : List Event :=
  [.key 97 true, .key 10 true, .setn false false, .key 98 true, .key 10 true, .read 9 true]

theorem typed_order_kept_two_lines :
    Lib.Steps OrderlyStep ⟨fresh, [], []⟩ orderlyEvents
        (orderlyEvents.foldl step ⟨fresh, [], []⟩) ∧
      InOrder (orderlyEvents.foldl step ⟨fresh, [], []⟩) := by
  have hrun : Lib.Steps OrderlyStep ⟨fresh, [], []⟩ orderlyEvents
      (orderlyEvents.foldl step ⟨fresh, [], []⟩) := by
    refine .cons ⟨⟨?_, ?_, ?_⟩, rfl⟩ (.cons ⟨⟨?_, ?_, ?_⟩, rfl⟩
      (.cons ⟨trivial, rfl⟩ (.cons ⟨⟨?_, ?_, ?_⟩, rfl⟩ (.cons ⟨⟨?_, ?_, ?_⟩, rfl⟩
      (.cons ⟨fun h => absurd h (by decide +kernel), rfl⟩ (.refl _))))))
    all_goals first | decide +kernel | (constructor <;> decide +kernel)
  exact ⟨hrun, typed_order_kept calm_fresh rfl hrun⟩

/-- The line begun in the editor, then echo off, then the rest of the line. -/
def overtakingEvents : List Event :=
  [.key 97 true, .setn false false, .key 98 true, .key 10 true, .read 9 true]

/-- The first character typed is not read, and the two typed behind it are. -/
theorem typed_order_broken :
    (overtakingEvents.foldl step ⟨fresh, [], []⟩).typed = [97, 98, 10] ∧
      (overtakingEvents.foldl step ⟨fresh, [], []⟩).taken = [(98, some 98), (10, some 10)] ∧
      ¬ InOrder (overtakingEvents.foldl step ⟨fresh, [], []⟩) := by
  have htyped : (overtakingEvents.foldl step ⟨fresh, [], []⟩).typed = [97, 98, 10] := by
    decide +kernel
  have htaken : (overtakingEvents.foldl step ⟨fresh, [], []⟩).taken =
      [(98, some 98), (10, some 10)] := by
    decide +kernel
  refine ⟨htyped, htaken, fun h => ?_⟩
  have horder := h.1
  rw [htyped, htaken] at horder
  simp at horder

end DiscoBsd.Terminal
