import DiscoBsd.Lib.Int32
import DiscoBsd.Lib.Stateful
import Mathlib.Logic.Function.Basic

/-!
# The text of a song

How `mml` turns its text into a list of operations for each channel. The text is parsed twice: at first
the operations are only counted, so that the lists can be allocated at their size. `load` is that part
of `main`. Texts are lists of characters, which end where the list does or at a NUL.

The list of a channel has the bytes that were asked of `malloc`, which is taken to have them, and an
operation that does not lie within those is written outside.
-/

namespace DiscoBsd.Mml

open Lib

def WHOLE : Nat := 384

def MAXDEPTH : Int := 8

def NWAVE : Int := 16

def NMACRO : Int := 32

/-- The four channels, A to D. -/
abbrev Channel := Fin 4

scoped instance fourNeZero : NeZero 4 := ⟨by decide⟩

def channels : List Channel := [0, 1, 2, 3]

inductive Code where
  | note | slur | rest | wait | tempo | vol | env | duty | wave | nstep | pan | sweep | vib | porta
  | slide | pofs | loop | rep | endrep
  deriving DecidableEq

structure Op where
  code : Code
  a : Int
  b : Nat
  deriving DecidableEq

/-- `sizeof(struct op)`. -/
def OP_SIZE : Nat := 6

/-- The list of a channel. `nops` is how often it was counted up, of which the `int` of the program has
the low 32 bits; `room` is the size of the list in bytes. -/
structure Chan where
  nops : Nat
  maxops : Int
  room : Nat
  ops : List Op

/-- The variables of the parser that go with the text. -/
structure Text where
  cp : List Char
  lineno : Nat
  octave : Channel → Int
  deflen : Channel → Nat
  slurnext : Bool
  depth : Channel → Int

structure State where
  text : Text
  macroText : Nat → Option (List Char)
  wave : Nat → List Nat
  wavedef : Nat → Bool
  counting : Bool
  ch : Channel → Chan

/-- Why a parse comes to no result: the steps it was given are spent, an operation is written outside
its list, or an error. -/
inductive Stop where
  | spent
  | outside
  | fatal (line : Nat) (msg : String)
  deriving DecidableEq

/-- What reads the text, and has no business with the lists. -/
abbrev Reader := StateT Text (Except Stop)

abbrev Parser := StateT State (Except Stop)

/-- A reader within the parser. -/
def onText {α : Type} (p : Reader α) : Parser α := fun s =>
  (p.run s.text).map fun r => (r.1, { s with text := r.2 })

instance : MonadLift Reader Parser := ⟨onText⟩

def fatal {α : Type} (msg : String) : Reader α := fun t => .error (.fatal t.lineno msg)

/-- An error unless `c`. -/
def require (c : Prop) [Decidable c] (msg : String) : Reader Unit :=
  if c then pure () else fatal msg

/-- `*cp`. -/
def peek : Reader Char := fun t => .ok (t.cp.headD '\x00', t)

/-- `cp += n`. -/
def advance (n : Nat) : Reader Unit := modify fun t => { t with cp := t.cp.drop n }

/-- `cp = x`. -/
def setcp (x : List Char) : Reader Unit := modify fun t => { t with cp := x }

/-- Whether the text goes on with `w`, as `strncmp` has it. -/
def ahead (w : String) : Reader Bool := fun t => .ok (w.toList.isPrefixOf t.cp, t)

/-- The characters from here for as long as `q` holds of them, with `cp` behind them. -/
def span (q : Char → Bool) : Reader (List Char) := fun t =>
  .ok (t.cp.takeWhile q, { t with cp := t.cp.dropWhile q })

def isBlank (c : Char) : Bool := c == ' ' || c == '\t' || c == '\r'

def skipblank : Reader Unit := do
  let _ ← span isBlank
  return ()

def isdig (c : Char) : Bool := '0' ≤ c && c ≤ '9'

/-- The value of digits, in an `int`. -/
def digits (ds : List Char) : Int :=
  ds.foldl (fun n d => int32 (n * 10 + ((d.toNat : Int) - '0'.toNat))) 0

/-- `number`, with the value that it puts into its argument. -/
def number : Reader (Option Int) := do
  skipblank
  let ds ← span isdig
  return if ds = [] then none else some (digits ds)

/-- `needint`. -/
def needint (what : String) : Reader Int := do
  skipblank
  if (← peek) = '-' then
    advance 1
    match ← number with
    | none => fatal ("expected a number after " ++ what)
    | some n => return int32 (-n)
  else
    match ← number with
    | none => fatal ("expected a number after " ++ what)
    | some n => return n

/-- A length: `units` of 0 is the default. -/
structure Len where
  units : Nat
  dots : Nat

/-- The length that `getlen` reads before the dots, and whether there is one. -/
def getunits : Reader (Nat × Bool) := do
  if (← peek) = '=' then
    advance 1
    match ← number with
    | none => fatal "bad note length"
    | some n =>
      require (1 ≤ n ∧ n ≤ WHOLE) "bad note length"
      return (2 * n.toNat, true)
  else
    match ← number with
    | none => return (0, false)
    | some n =>
      require (1 ≤ n ∧ n ≤ WHOLE) "bad note length"
      return (WHOLE / n.toNat, true)

/-- `getlen`, with its result and the length it puts into its argument. -/
def getlen : Reader (Bool × Len) := do
  let (u, any) ← getunits
  let dots ← span (· == '.')
  return (any || dots != [], ⟨u, dots.length⟩)

/-- Each dot adds half of what the one before it added. -/
def dotted : Nat → Nat → Nat → Nat
  | 0, u, _ => u
  | d + 1, u, add => dotted d (u + add) (add / 2)

/-- The length before the dots. -/
def Len.base (l : Len) (deflen : Nat) : Nat := if l.units = 0 then deflen else l.units

/-- `units`, for a channel whose default length is `deflen`. -/
def Len.total (l : Len) (deflen : Nat) : Nat :=
  dotted l.dots (l.base deflen) (l.base deflen / 2)

/-- `units`. -/
def units (l : Len) (c : Channel) : Reader Nat := fun t => .ok (l.total (t.deflen c), t)

/-- An `int` in a `short`. -/
def short (a : Int) : Int := a.bmod (2 ^ 16)

/-- `p->nops++`. -/
def State.count (s : State) (c : Channel) : State :=
  { s with ch := Function.update s.ch c { s.ch c with nops := (s.ch c).nops + 1 } }

/-- The operation is written and counted. -/
def State.write (s : State) (c : Channel) (o : Op) : State :=
  { s with
    ch := Function.update s.ch c
      { s.ch c with nops := (s.ch c).nops + 1, ops := (s.ch c).ops ++ [o] } }

/-- Whether the operation that comes next lies within the list. -/
def Chan.Inside (p : Chan) : Prop := 0 ≤ int32 p.nops ∧ (int32 p.nops + 1) * OP_SIZE ≤ p.room

instance (p : Chan) : Decidable p.Inside := inferInstanceAs (Decidable (_ ∧ _))

/-- `addop`. -/
def addop (c : Channel) (code : Code) (a : Int) (b : Nat) : Parser Unit := do
  require (b ≤ 65535) "note too long"
  let s ← get
  if s.counting then set (s.count c)
  else if int32 (s.ch c).nops = (s.ch c).maxops then fatal (α := Unit) "internal: operation count"
  else if (s.ch c).Inside then set (s.write c ⟨code, short a, b⟩)
  else throw .outside

/-- The channels of a mask. -/
def masked (mask : Nat) : List Channel := channels.filter fun c => mask.testBit c

/-- `addop` for each channel of the mask. -/
def addops (mask : Nat) (code : Code) (a : Int) (b : Nat) : Parser Unit :=
  (masked mask).forM fun c => addop c code a b

/-- What comes before the length of a note: its pitch, with a sharp or a flat. -/
def pitch (cmd : Char) : Reader Int := do
  let n := [9, 11, 0, 2, 4, 5, 7].getD (cmd.toNat - 'a'.toNat) 0
  if (← peek) = '+' ∨ (← peek) = '#' then
    advance 1
    return n + 1
  else if (← peek) = '-' then
    advance 1
    return n - 1
  else return n

/-- Whether a tie comes next: `^` or `&`, and a length. -/
def tied : Reader Bool := fun t =>
  let next := (t.cp.drop 1).headD '\x00'
  .ok ((t.cp.headD '\x00' == '^' || t.cp.headD '\x00' == '&') &&
    (isdig next || next == '.' || next == '='), t)

/-- The lengths of the ties, of which there may be `n` more. -/
def ties : Nat → Reader (List Len)
  | 0 => do
    if ← tied then fatal "too many ties" else return []
  | n + 1 => do
    if ← tied then
      advance 1
      let (_, l) ← getlen
      return l :: (← ties n)
    else return []

/-- What follows a note: the next one is slurred if it comes after an `&`. -/
def slurred : Reader Unit := do
  modify fun t => { t with slurnext := false }
  skipblank
  let save ← get
  if (← peek) = '&' then
    advance 1
    skipblank
    let c ← peek
    if 'a' ≤ c ∧ c ≤ 'g' then modify fun t => { t with slurnext := true }
    else setcp save.cp
  else return ()

/-- The operation that a note of pitch `n` is on channel `c`. -/
def noteop (n : Int) (l : Len) (ls : List Len) (c : Channel) : Reader (Code × Int × Nat) := do
  let t ← get
  let u := ls.foldl (fun u l => u + l.total (t.deflen c)) (l.total (t.deflen c))
  return (if t.slurnext then .slur else .note, t.octave c * 12 + n, u)

/-- A note on channel `c`. -/
def noteadd (n : Int) (l : Len) (ls : List Len) (c : Channel) : Parser Unit := do
  let (code, a, b) ← noteop n l ls c
  addop c code a b

/-- A note. -/
def note (mask : Nat) (cmd : Char) : Parser Unit := do
  let n ← pitch cmd
  let (_, l) ← getlen
  let ls ← ties 8
  (masked mask).forM fun c => noteadd n l ls c
  slurred

/-- A rest, or a wait, on channel `c`. -/
def restadd (l : Len) (code : Code) (c : Channel) : Parser Unit := do
  let u ← units l c
  addop c code 0 u

/-- A rest, or a wait. -/
def rest (mask : Nat) (code : Code) : Parser Unit := do
  let (_, l) ← getlen
  (masked mask).forM fun c => restadd l code c

def setoctave (c : Channel) (o : Int) : Reader Unit :=
  modify fun t => { t with octave := Function.update t.octave c o }

def octavecmd (mask : Nat) : Reader Unit := do
  let n ← needint "o"
  require (1 ≤ n ∧ n ≤ 8) "octave must be 1 to 8"
  (masked mask).forM fun c => setoctave c n

/-- `octave[c] += d`. -/
def octaveadd (d : Int) (c : Channel) : Reader Unit := do
  let o := (← get).octave c + d
  setoctave c o
  require (1 ≤ o ∧ o ≤ 8) "octave out of range"

/-- `<` and `>`. -/
def octaveby (mask : Nat) (d : Int) : Reader Unit := (masked mask).forM fun c => octaveadd d c

/-- `deflen[c] = units(&l, c)`. -/
def setdeflen (l : Len) (c : Channel) : Reader Unit := do
  let u ← units l c
  modify fun t => { t with deflen := Function.update t.deflen c u }

def lengthcmd (mask : Nat) : Reader Unit := do
  let (any, l) ← getlen
  require (any ∧ l.units ≠ 0) "expected a length after l"
  (masked mask).forM fun c => setdeflen l c

def tempocmd (mask : Nat) : Parser Unit := do
  let n ← needint "t"
  require (0 ≤ n ∧ n ≤ 1000) "tempo must be 1 to 1000"
  if n > 0 then addops mask .tempo n 0 else return ()

def volumecmd (mask : Nat) : Parser Unit := do
  let n ← needint "v"
  (masked mask).forM fun c => do
    require (0 ≤ n ∧ n ≤ if c = 2 then 3 else 15)
      (if c = 2 then "channel C volume is 0 to 3" else "volume is 0 to 15")
    addop c .vol n 0

def pancmd (mask : Nat) : Parser Unit := do
  let n ← needint "y"
  addops mask .pan (if n < 0 then -1 else if n > 0 then 1 else 0) 0

/-- A channel has one bracket more that is open, or one less. -/
def deepen (c : Channel) (d : Int) : Reader Unit :=
  modify fun t => { t with depth := Function.update t.depth c (t.depth c + d) }

/-- `++depth[c]`, no more than `MAXDEPTH`. -/
def enter (c : Channel) : Reader Unit := do
  deepen c 1
  require ((← get).depth c ≤ MAXDEPTH) "[ ] nested too deep"

/-- `--depth[c]`, no less than 0. -/
def leave (c : Channel) : Reader Unit := do
  deepen c (-1)
  require (0 ≤ (← get).depth c) "] without ["

/-- `[` -/
def openrep (mask : Nat) : Parser Unit :=
  (masked mask).forM fun c => do
    enter c
    addop c .rep 0 0

/-- The count of a `]`. -/
def repcount : Reader Int := do
  let n := (← number).getD 2
  require (1 ≤ n ∧ n ≤ 255) "repeat count must be 1 to 255"
  return n

/-- `]` -/
def closerep (mask : Nat) : Parser Unit := do
  ((masked mask).forM leave : Reader Unit)
  let n ← repcount
  addops mask .endrep n 0

/-- The delay of a vibrato, when there is one. -/
def vibdelay : Reader Nat := do
  skipblank
  if (← peek) = ',' then
    advance 1
    skipblank
    let c ← peek
    require (isdig c ∨ c = '=') "expected a length for the @v delay"
    let (any, l) ← getlen
    require (any = true) "expected a length for the @v delay"
    return (← units l 0) / 2
  else return 0

/-- What `pitchcmd` reads: the operation. -/
def pitchargs : Reader (Code × Int × Nat) := do
  if ← ahead "po" then
    advance 2
    let n ← needint "@po"
    require (-127 ≤ n ∧ n ≤ 127) "@po is -127 to 127"
    return (.pofs, n, 0)
  else if (← peek) = 'p' then
    advance 1
    let n ← needint "@p"
    require (0 ≤ n ∧ n ≤ 127) "@p is 0 to 127"
    return (.porta, n, 0)
  else if (← peek) = 's' then
    advance 1
    let n ← needint "@s"
    require (-127 ≤ n ∧ n ≤ 127) "@s is -127 to 127"
    return (.slide, n, 0)
  else
    advance 1
    let n ← needint "@v"
    skipblank
    if (← peek) = ',' then
      advance 1
      let v ← needint "@v"
      let b ← vibdelay
      require (0 ≤ n ∧ n ≤ 15 ∧ 0 ≤ v ∧ v ≤ 4) "@v is speed 0..15, depth 0..4"
      return (.vib, if n = 0 ∨ v = 0 then 0 else n + 16 * v, b)
    else
      require (n = 0) "@v needs speed,depth"
      return (.vib, 0, 0)

def pitchcmd (mask : Nat) : Parser Unit := do
  require (mask.testBit 3 = false) "@v, @p, @s and @po are not for channel D"
  let (code, a, b) ← pitchargs
  (masked (mask % 8)).forM fun c => addop c code a b

/-- An error unless wave `n` has been defined. -/
def wavechecked (n : Int) : Parser Unit := do
  let s ← get
  require (0 ≤ n ∧ n < NWAVE ∧ s.wavedef n.toNat) "wave not defined"

/-- `@wave`, `@ve`, `@wd`, `@ns` and `@sw`, each for some of the channels. -/
def wavecmd (mask : Nat) : Parser Unit := do
  let n ← needint "@wave"
  wavechecked n
  require (mask &&& 0xb = 0) "@wave is for channel C only"
  addop 2 .wave n 0

def envcmd (mask : Nat) : Parser Unit := do
  let n ← needint "@ve"
  require (-7 ≤ n ∧ n ≤ 7) "@ve is -7 to 7"
  require (mask.testBit 2 = false) "@ve is not for channel C"
  addops mask .env (if n > 0 then 8 + n else -n) 0

def dutycmd (mask : Nat) : Parser Unit := do
  let n ← needint "@wd"
  require (0 ≤ n ∧ n ≤ 3) "@wd is 0 to 3"
  require (mask &&& 0xc = 0) "@wd is for channels A and B only"
  addops (mask % 4) .duty n 0

def noisecmd (mask : Nat) : Parser Unit := do
  let n ← needint "@ns"
  require (0 ≤ n ∧ n ≤ 1) "@ns is 0 or 1"
  require (mask &&& 0x7 = 0) "@ns is for channel D only"
  addop 3 .nstep n 0

def sweepcmd (mask : Nat) : Parser Unit := do
  let n ← needint "@sw"
  skipblank
  require ((← (peek : Reader Char)) = ',') "@sw needs time,shift"
  advance 1
  let v ← needint "@sw"
  require (0 ≤ n ∧ n ≤ 7 ∧ -7 ≤ v ∧ v ≤ 7) "@sw is 0..7,-7..7"
  require (mask &&& 0xe = 0) "@sw is for channel A only"
  addop 0 .sweep (16 * n + if v < 0 then 8 - v else v) 0

/-- The text of macro `n`. -/
def macrotext (n : Int) : Parser (List Char) := do
  let s ← get
  match (if 0 ≤ n ∧ n < NMACRO then s.macroText n.toNat else none) with
  | none => fatal (α := List Char) "macro not defined"
  | some t => return t

/-- `@@n`, with `call` the parse of a macro's text. -/
def macrocmd (call : List Char → Parser Unit) : Parser Unit := do
  let n ← needint "@@"
  let t ← macrotext n
  let save ← (get : Reader Text)
  call t
  setcp save.cp

/-- The commands that begin with `@`. -/
def atcmd (call : List Char → Parser Unit) (mask : Nat) : Parser Unit := do
  if (← (peek : Reader Char)) = '@' then
    advance 1
    macrocmd call
  else if ← ahead "wave" then
    advance 4
    wavecmd mask
  else if ← ahead "ve" then
    advance 2
    envcmd mask
  else if ← ahead "wd" then
    advance 2
    dutycmd mask
  else if ← ahead "ns" then
    advance 2
    noisecmd mask
  else if ← ahead "sw" then
    advance 2
    sweepcmd mask
  else if (← (peek : Reader Char)) = 'v' ∨ (← (peek : Reader Char)) = 'p' ∨
      (← (peek : Reader Char)) = 's' then
    pitchcmd mask
  else fatal (α := Unit) "unknown or unsupported @ command"

/-- What `commands` does for `cmd`. -/
def command (call : List Char → Parser Unit) (mask : Nat) (cmd : Char) : Parser Unit :=
  if 'a' ≤ cmd ∧ cmd ≤ 'g' then note mask cmd
  else match cmd with
    | 'r' => rest mask .rest
    | 'w' | '^' | '&' => rest mask .wait
    | 'o' => octavecmd mask
    | '<' => octaveby mask (-1)
    | '>' => octaveby mask 1
    | 'l' => lengthcmd mask
    | 't' => tempocmd mask
    | 'v' => volumecmd mask
    | 'y' => pancmd mask
    | 'L' => addops mask .loop 0 0
    | '[' => openrep mask
    | ']' => closerep mask
    | '@' => atcmd call mask
    | _ => fatal (α := Unit) "unknown command"

/-- One turn of `commands`: whether there was a command. -/
def commandTurn (call : List Char → Parser Unit) (mask : Nat) : Parser Bool := do
  skipblank
  let c ← (peek : Reader Char)
  if c = '\x00' ∨ c = '\n' ∨ c = ';' then return false
  else
    advance 1
    command call mask c
    return true

/-- `commands`. -/
def commands (call : List Char → Parser Unit) (mask : Nat) : Parser Unit := do
  let t ← (get : Reader Text)
  repeatM .spent (commandTurn call mask) (t.cp.length + 1)

/-- The text between the braces of a definition, which `malloc` is taken to have room for. -/
def braces : Reader (List Char) := do
  skipblank
  require ((← peek) = '=') "expected ="
  advance 1
  skipblank
  require ((← peek) = '{') "expected \x7b"
  advance 1
  let body ← span fun c => c != '\x7d' && c != '\x00'
  modify fun t => { t with lineno := t.lineno + body.count '\n' }
  require ((← peek) ≠ '\x00') "missing \x7d"
  advance 1
  return body

/-- One sample of a wave. -/
def sample : Reader Nat := do
  let _ ← span fun c => c == ' ' || c == '\t' || c == '\n' || c == '\r' || c == ','
  match ← number with
  | none => fatal "a wave is 32 numbers 0 to 15"
  | some v =>
    require (v ≤ 15) "a wave is 32 numbers 0 to 15"
    return (v % 256).toNat

def samples : Nat → Reader (List Nat)
  | 0 => return []
  | n + 1 => do
    let v ← sample
    return v :: (← samples n)

/-- The wave of a definition, and its number. -/
def wavetext : Reader (Nat × List Nat) := do
  let n ← needint "@wave"
  require (0 ≤ n ∧ n < NWAVE) "wave number must be 0 to 15"
  let t ← braces
  let save ← get
  setcp t
  let w ← samples 32
  setcp save.cp
  return (n.toNat, w)

def setwave (n : Nat) (w : List Nat) : Parser Unit :=
  modify fun s => { s with
    wave := Function.update s.wave n w
    wavedef := Function.update s.wavedef n true }

/-- `wavedefine`. -/
def wavedefine : Parser Unit := do
  let (n, w) ← wavetext
  setwave n w

/-- The number and the text of a macro's definition. -/
def macrobody : Reader (Nat × List Char) := do
  let n ← needint "@@"
  require (0 ≤ n ∧ n < NMACRO) "macro number must be 0 to 31"
  let t ← braces
  return (n.toNat, t)

def setmacro (n : Nat) (t : List Char) : Parser Unit :=
  modify fun s => { s with macroText := Function.update s.macroText n (some t) }

/-- The definition of a macro. -/
def macrodefine : Parser Unit := do
  let (n, t) ← macrobody
  setmacro n t

/-- The channels that a line is for. -/
def names : Reader Nat := do
  let cs ← span fun c => 'A' ≤ c && c ≤ 'D'
  return cs.foldl (fun m c => m ||| 1 <<< (c.toNat - 'A'.toNat)) 0

/-- A line of the song. -/
def songline (call : Nat → List Char → Parser Unit) : Parser Unit := do
  let m ← names
  require (m ≠ 0) "a line starts with channel names A-D"
  commands (call m) m

/-- The end of a line. -/
def newline (mask : Nat) : Reader Unit := do
  advance 1
  modify fun t => { t with lineno := if mask = 0 then t.lineno + 1 else t.lineno }

/-- One turn of `parse`: whether there was more text. -/
def line (call : Nat → List Char → Parser Unit) (mask : Nat) : Parser Bool := do
  skipblank
  let c ← (peek : Reader Char)
  if c = '\x00' then return false
  else if c = '\n' then
    newline mask
    return true
  else if c = ';' then
    let _ ← span fun c => c != '\x00' && c != '\n'
    return true
  else if mask ≠ 0 then
    commands (call mask) mask
    return true
  else if ← ahead "@wave" then
    advance 5
    wavedefine
    return true
  else if ← ahead "@@" then
    advance 2
    macrodefine
    return true
  else
    songline call
    return true

/-- No bracket is open at the end of a song. -/
def closed : Reader Unit :=
  channels.forM fun c => do require ((← get).depth c = 0) "[ without ]"

/-- `parse`, of which there may be `n` calls within each other. -/
def parse : Nat → Nat → List Char → Parser Unit
  | 0, _, _ => throw .spent
  | n + 1, mask, text => do
    setcp text
    repeatM .spent (line (parse n) mask) (text.length + 1)
    if mask = 0 then closed else return ()

/-- The variables as the program starts. -/
def State.init : State where
  text :=
    { cp := []
      lineno := 1
      octave := fun _ => 4
      deflen := fun _ => WHOLE / 4
      slurnext := false
      depth := fun _ => 0 }
  macroText _ := none
  wave _ := []
  wavedef _ := false
  counting := true
  ch _ := ⟨0, 0, 0, []⟩

/-- The list of a channel is allocated: `malloc` is asked for `maxops * sizeof(struct op)` bytes, a
`size_t` of 32 bits. -/
def Chan.alloc (p : Chan) : Chan where
  nops := 0
  maxops := int32 p.nops
  room := if 0 < int32 p.nops then ((int32 p.nops).toNat * OP_SIZE) % 2 ^ 32 else 0
  ops := []

/-- What `main` does between the two parses. -/
def State.between (s : State) : State :=
  { s with
    counting := false
    ch := fun c => (s.ch c).alloc
    text :=
      { s.text with
        lineno := 1
        octave := fun _ => 4
        deflen := fun _ => WHOLE / 4
        slurnext := false } }

/-- The first parse, which counts. -/
def count (n : Nat) (text : List Char) : Except Stop State :=
  ((parse n 0 text).run State.init).map Prod.snd

/-- The second parse, after the first one has come to `s`. -/
def fill (n : Nat) (text : List Char) (s : State) : Except Stop State :=
  ((parse n 0 text).run s.between).map Prod.snd

/-- Both parses. -/
def load (n : Nat) (text : List Char) : Except Stop State := do
  let s ← count n text
  fill n text s

end DiscoBsd.Mml
