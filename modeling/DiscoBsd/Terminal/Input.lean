import Mathlib.Data.List.DropRight
import Mathlib.Tactic

/-!
# Terminal input

`sys/kern/tty.c` takes typed characters in `ttyinput` and gives them to readers in `ttread`. In
between a character may be in the line editor's buffer, in the raw queue or in the canonical
queue, and `TIOCSETN` may change the mode that says which. This file is the input side: what
`ttyinput`, `tty_edit`, `ttypend`, `ttioctl` and `ttread` do to the three buffers. Echo, output
and flow control are left out, and the pool of character blocks does not run out.
-/

namespace DiscoBsd.Terminal

/-- `_POSIX_VDISABLE`: a special character that is switched off. -/
def VDISABLE : UInt8 := 0xFF

/-- `CCEQ`: is `c` the special character `val`? -/
def cceq (val c : UInt8) : Bool := c == val && val != VDISABLE

/-- The most characters that may wait. -/
def TTYHOG : Nat := 255

/-- The size of the editor's buffer. -/
def EDBUFSIZE : Nat := 256

/-- The number of lines the editor remembers. -/
def TTYEDITHISTORY : Nat := 8

/-- The special characters of a terminal. -/
structure Chars where
  erase : UInt8
  kill : UInt8
  intrc : UInt8
  quitc : UInt8
  startc : UInt8
  stopc : UInt8
  eofc : UInt8
  brkc : UInt8
  suspc : UInt8
  dsuspc : UInt8
  rprntc : UInt8
  flushc : UInt8
  werasc : UInt8
  lnextc : UInt8
deriving DecidableEq

/-- The defaults of `ttychars`. -/
def Chars.default : Chars :=
  ⟨0x7F, 21, 3, 28, 17, 19, 4, VDISABLE, 26, 25, 18, 15, 23, 22⟩

/-- The mode bits that matter for input. -/
structure Flags where
  raw : Bool
  cbreak : Bool
  echo : Bool
  crmod : Bool
  pass8 : Bool
  noflsh : Bool
  pendin : Bool
deriving DecidableEq

/-- A terminal. `edbuf` is the part of `t_edbuf` in use; the history ring is the editor's. -/
structure Tty where
  flags : Flags
  chars : Chars
  lnch : Bool
  typen : Bool
  rawq : List UInt8
  canq : List UInt8
  edbuf : List UInt8
  edcur : Nat
  edesc : Nat
  edparm : Int
  edhpos : Nat
  hist : Nat → List UInt8
  hcount : Nat
  hnext : Nat

/-- A terminal nothing was typed at yet, in cooked mode with echo. -/
def fresh : Tty where
  flags := ⟨false, false, true, false, false, false, false⟩
  chars := .default
  lnch := false
  typen := false
  rawq := []
  canq := []
  edbuf := []
  edcur := 0
  edesc := 0
  edparm := 0
  edhpos := 0
  hist := fun _ => []
  hcount := 0
  hnext := 0

/-- `putc` to the raw queue. -/
def pushRaw (tp : Tty) (c : UInt8) : Tty := { tp with rawq := tp.rawq ++ [c] }

/-- `ttbreakc`: does `c` end a line? -/
def breakc (tp : Tty) (c : UInt8) : Bool :=
  c == 10 || cceq tp.chars.eofc c || cceq tp.chars.brkc c || (c == 13 && tp.flags.crmod)

/-- A space or a tab. -/
def isBlank (c : UInt8) : Bool := c == 32 || c == 9

/-- The characters before a word at the end: blanks behind the word go with it. -/
def eraseWord (q : List UInt8) : List UInt8 := (q.rdropWhile isBlank).rdropWhile fun c => !isBlank c

/-- The special characters that erase, in both input paths. -/
def erases (tp : Tty) (c : UInt8) : Bool := cceq tp.chars.erase c || c == 8

/-! ## The line editor -/

/-- Remember a line, unless it is empty or repeats the last one. -/
def remember (tp : Tty) : Tty :=
  let prev := (tp.hnext + TTYEDITHISTORY - 1) % TTYEDITHISTORY
  if tp.edbuf = [] ∨ (0 < tp.hcount ∧ tp.hist prev = tp.edbuf) then tp
  else { tp with
    hist := Function.update tp.hist tp.hnext tp.edbuf
    hnext := (tp.hnext + 1) % TTYEDITHISTORY
    hcount := if tp.hcount < TTYEDITHISTORY then tp.hcount + 1 else tp.hcount }

/-- `ted_commit`: the edited line and its delimiter go to the canonical queue. -/
def tedCommit (tp : Tty) (c : UInt8) : Tty :=
  let tp := remember tp
  { tp with
    rawq := []
    canq := tp.canq ++ (tp.rawq ++ tp.edbuf ++ [c])
    edhpos := 0
    edbuf := []
    edcur := 0
    edesc := 0 }

/-- `ted_set_line`: another line instead of the edited one, with the cursor at its end. -/
def tedSetLine (tp : Tty) (s : List UInt8) : Tty := { tp with edbuf := s, edcur := s.length }

/-- The history line at a recall depth. -/
def recalled (tp : Tty) (depth : Nat) : List UInt8 :=
  tp.hist ((tp.hnext + TTYEDITHISTORY - depth) % TTYEDITHISTORY)

/-- `ted_hist_up`. -/
def tedHistUp (tp : Tty) : Tty :=
  if tp.hcount ≤ tp.edhpos then tp
  else tedSetLine { tp with edhpos := tp.edhpos + 1 } (recalled tp (tp.edhpos + 1))

/-- `ted_hist_down`. -/
def tedHistDown (tp : Tty) : Tty :=
  if tp.edhpos = 0 then tp
  else if tp.edhpos = 1 then tedSetLine { tp with edhpos := 0 } []
  else tedSetLine { tp with edhpos := tp.edhpos - 1 } (recalled tp (tp.edhpos - 1))

/-- What the final character of an `ESC[` sequence does. -/
def escFinal (tp : Tty) (c : UInt8) : Tty :=
  let tp := { tp with edesc := 0 }
  if c = 67 then { tp with edcur := if tp.edcur < tp.edbuf.length then tp.edcur + 1 else tp.edcur }
  else if c = 68 then { tp with edcur := tp.edcur - 1 }
  else if c = 65 then tedHistUp tp
  else if c = 66 then tedHistDown tp
  else if c = 72 ∨ (c = 126 ∧ tp.edparm = 1) then { tp with edcur := 0 }
  else if c = 70 ∨ (c = 126 ∧ tp.edparm = 4) then { tp with edcur := tp.edbuf.length }
  else if c = 126 ∧ tp.edparm = 3 then { tp with edbuf := tp.edbuf.eraseIdx tp.edcur }
  else tp

/-- A character at the cursor. -/
def insertChar (tp : Tty) (c : UInt8) : Tty :=
  { tp with edbuf := tp.edbuf.take tp.edcur ++ c :: tp.edbuf.drop tp.edcur, edcur := tp.edcur + 1 }

/-- The editor on a character that is no part of an escape sequence. -/
def editChar (tp : Tty) (c : UInt8) : Tty :=
  if c = 27 then { tp with edesc := 1 }
  else if breakc tp c then tedCommit tp c
  else if erases tp c ∨ c = 0x7F then
    { tp with edbuf := if tp.edcur = 0 then tp.edbuf else tp.edbuf.eraseIdx (tp.edcur - 1),
              edcur := tp.edcur - 1 }
  else if cceq tp.chars.kill c then { tp with edbuf := [], edcur := 0 }
  else if cceq tp.chars.werasc c then
    let kept := eraseWord (tp.edbuf.take tp.edcur)
    { tp with edbuf := kept ++ tp.edbuf.drop tp.edcur, edcur := kept.length }
  else if cceq tp.chars.rprntc c then tp
  else if c &&& 0x80 ≠ 0 ∨ (32 ≤ c ∧ c < 0x7F) then
    if EDBUFSIZE - 1 ≤ tp.edbuf.length ∨
        TTYHOG ≤ tp.rawq.length + tp.canq.length + tp.edbuf.length then tp
    else insertChar tp (c &&& 0x7F)
  else tp

/-- `tty_edit`: one character for the line editor. -/
def ttyEdit (tp : Tty) (c : UInt8) : Tty :=
  if tp.edesc = 1 then
    if c = 91 then { tp with edesc := 2, edparm := 0 } else editChar { tp with edesc := 0 } c
  else if tp.edesc = 2 then
    if 48 ≤ c ∧ c ≤ 57 then
      { tp with edparm := (tp.edparm * 10 + (c.toNat - 48)).bmod (2 ^ 16) }
    else escFinal tp c
  else editChar tp c

/-! ## Typed characters -/

/-- `ttyflush` of the read side. -/
def ttyflush (tp : Tty) : Tty :=
  { tp with canq := [], rawq := [], lnch := false, typen := false, edbuf := [], edcur := 0,
            edesc := 0, edhpos := 0 }

/-- The kill character in the plain path. Which of the two ways empties the queue depends on what
is on the screen; the second one stops behind a zero byte. -/
def killRaw (crt : Bool) (q : List UInt8) : List UInt8 :=
  if crt then [] else (q.dropWhile (· != 0)).tail

/-- The plain cooked path: the line stays in the raw queue until a delimiter comes. -/
def cookedInput (crt : Bool) (tp : Tty) (c : UInt8) : Tty :=
  if erases tp c then { tp with rawq := tp.rawq.dropLast }
  else if cceq tp.chars.kill c then { tp with rawq := killRaw crt tp.rawq, lnch := false, typen := false }
  else if cceq tp.chars.werasc c then { tp with rawq := eraseWord tp.rawq }
  else if cceq tp.chars.rprntc c then tp
  else if TTYHOG ≤ tp.rawq.length + tp.canq.length then tp
  else if breakc tp c then { tp with rawq := [], canq := tp.canq ++ (tp.rawq ++ [c]) }
  else pushRaw tp c

theorem and_seven {c : UInt8} (h : c < 0x80) : c &&& 0x7F = c := by
  have hlt : c.toNat < 2 ^ 7 := UInt8.lt_iff_toNat_lt.mp h
  refine UInt8.toNat_inj.mp ?_
  rw [UInt8.toNat_and, show (0x7F : UInt8).toNat = 2 ^ 7 - 1 from rfl,
    Nat.and_two_pow_sub_one_eq_mod, Nat.mod_eq_of_lt hlt]

/-- The high bit of a character: it is dropped on input, and set by a literal-next before it. -/
def marked (tp : Tty) (c : UInt8) : UInt8 :=
  let c := if tp.typen = false ∧ tp.flags.pass8 = false then c &&& 0x7F else c
  if tp.lnch then c ||| 0x80 else c

/-- `ttyinput` once there is no pending input. `ttyedit` says whether the editor is built in. -/
def inputChar (ttyedit crt : Bool) (tp : Tty) (c : UInt8) : Tty :=
  if tp.flags.raw then
    if TTYHOG < tp.rawq.length then ttyflush tp else pushRaw tp c
  else
    let c := marked tp c
    let tp := { tp with lnch := false }
    if cceq tp.chars.lnextc c then { tp with lnch := true }
    else if cceq tp.chars.flushc c then tp
    else if cceq tp.chars.suspc c then if tp.flags.noflsh then tp else ttyflush tp
    else if cceq tp.chars.stopc c ∨ cceq tp.chars.startc c then tp
    else if cceq tp.chars.intrc c ∨ cceq tp.chars.quitc c then
      if tp.flags.noflsh then tp else ttyflush tp
    else if tp.flags.cbreak then
      if TTYHOG < tp.rawq.length then tp else pushRaw tp c
    else if ttyedit ∧ tp.flags.echo then ttyEdit tp c
    else cookedInput crt tp c

/-- The mode bits with the pending bit cleared. -/
def Flags.settled (f : Flags) : Flags := { f with pendin := false }

/-- The raw queue is taken away to be typed again. -/
def pendStart (tp : Tty) : Tty := { tp with flags := tp.flags.settled, typen := true, rawq := [] }

/-- `ttypend`: the raw queue is typed again. -/
def ttypend (ttyedit crt : Bool) (tp : Tty) : Tty :=
  { tp.rawq.foldl (inputChar ttyedit crt) (pendStart tp) with typen := false }

/-- Input that is still pending comes first. -/
def settle (ttyedit crt : Bool) (tp : Tty) : Tty :=
  if tp.flags.pendin then ttypend ttyedit crt tp else tp

/-- `ttyinput`: a character is typed. -/
def ttyinput (ttyedit crt : Bool) (tp : Tty) (c : UInt8) : Tty :=
  inputChar ttyedit crt (settle ttyedit crt tp) c

/-! ## Mode changes and reads -/

/-- `TIOCSETN` with the special characters as they are and no raw mode on either side: echo and
half-cooked mode are set. -/
def tiocsetn (tp : Tty) (echo cbreak : Bool) : Tty :=
  let flags := { tp.flags with echo := echo, cbreak := cbreak }
  if tp.flags.cbreak = cbreak then { tp with flags := flags }
  else if cbreak then { tp with flags := flags, rawq := tp.canq ++ tp.rawq, canq := [] }
  else { tp with flags := { flags with pendin := true } }

/-- What a read took: the characters off the queue, each with the byte it gave the reader if it
gave one; what is left; and whether the reader went to sleep instead of returning. -/
structure Taken where
  entries : List (UInt8 × Option UInt8)
  rest : List UInt8
  blocked : Bool

/-- The byte a queued character gives the reader. -/
def delivered (tp : Tty) (c : UInt8) : UInt8 := if tp.flags.pass8 then c else c &&& 0x7F

/-- Carriage return is read as newline in `CRMOD`. -/
def mapped (tp : Tty) (c : UInt8) : UInt8 := if tp.flags.crmod ∧ c = 13 then 10 else c

/-- One more character in front of what was taken. -/
def Taken.cons (e : UInt8 × Option UInt8) (t : Taken) : Taken := ⟨e :: t.entries, t.rest, t.blocked⟩

/-- The loop of `ttread` with room for `n + 1` bytes. A delayed suspend character as the first
one starts over. -/
def readLoop (tp : Tty) (first : Bool) : Nat → List UInt8 → Taken
  | _, [] => ⟨[], [], first⟩
  | n, c :: q =>
    let d := mapped tp c
    if cceq tp.chars.dsuspc d then
      if first then (readLoop tp true n q).cons (c, none) else ⟨[(c, none)], q, false⟩
    else if cceq tp.chars.eofc d ∧ tp.flags.cbreak = false then ⟨[(c, none)], q, false⟩
    else if n = 0 ∨ (tp.flags.cbreak = false ∧ breakc tp d) then
      ⟨[(c, some (delivered tp d))], q, false⟩
    else (readLoop tp false (n - 1) q).cons (c, some (delivered tp d))

/-- What raw mode gives a reader with room for `n + 1` bytes. -/
def readRaw (n : Nat) (q : List UInt8) : Taken :=
  ⟨(q.take (n + 1)).map fun c => (c, some c), q.drop (n + 1), q.isEmpty⟩

/-- `ttread` of up to `n + 1` bytes. -/
def ttread (ttyedit crt : Bool) (tp : Tty) (n : Nat) : Taken × Tty :=
  let tp := settle ttyedit crt tp
  if tp.flags.raw then
    let t := readRaw n tp.rawq
    (t, { tp with rawq := t.rest })
  else if tp.flags.cbreak then
    let t := readLoop tp true n tp.rawq
    (t, { tp with rawq := t.rest })
  else
    let t := readLoop tp true n tp.canq
    (t, { tp with canq := t.rest })

end DiscoBsd.Terminal
