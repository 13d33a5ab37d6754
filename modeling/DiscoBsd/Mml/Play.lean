import DiscoBsd.Mml.Parse

/-!
# The player

How `mml` plays a song: each channel runs its list of operations until one takes time, and `play` lets
the channel go on whose turn comes first, or lets its effects have an update. The words that go to the
device are collected in `out`; the device is taken to accept them. An `unsigned long` is a number
modulo 2^32.
-/

namespace DiscoBsd.Mml

open Lib

def W_WAIT : Nat := 0x8000

def W_REG : Nat := 0x4000

/-- An `unsigned long`. -/
def ulong (n : Nat) : Nat := n % 2 ^ 32

/-- Where a channel is in its list. -/
structure Cursor where
  pc : Nat
  looppc : Int
  nloop : Nat
  sp : Nat
  rpc : Nat → Nat
  rcnt : Nat → Int

structure Player where
  cur : Cursor
  us : Nat
  rem : Nat
  tempo : Int
  vol : Int
  env : Int
  duty : Int
  nstep : Int
  done : Bool
  vib : Int
  vdelay : Nat
  porta : Int
  slide : Int
  pofs : Int
  sounding : Bool
  base : Int
  target : Int
  vpos : Nat
  vwait : Nat
  vofs : Int
  ticks : Nat
  lastout : Int
  modon : Bool
  modus : Nat
  modstep : Nat
  modk : Nat

/-- What is played, and how often it loops. -/
structure Song where
  ops : Channel → List Op
  wave : Nat → List Nat
  loops : Int

/-- The variables of the player. -/
structure Music where
  pl : Channel → Player
  out : List Nat
  outms : Nat
  panmask : Nat

/-- What the next operation of a channel does to its place in the list: it is at its end; goes back to
its loop; plays an operation; touches `rpc` or `rcnt` outside their bounds; or finds no room for a
repeat. -/
inductive Turn where
  | ended
  | back (p : Cursor)
  | play (o : Op) (p : Cursor)
  | outside
  | internal

/-- The part of the loop of `step` that is about the place in the list. -/
def Cursor.turn (ops : List Op) (loops : Int) (p : Cursor) : Turn :=
  match ops[p.pc]? with
  | none =>
    if p.looppc < 0 ∨ p.looppc ≥ ops.length ∨ (loops ≥ 0 ∧ p.nloop ≥ loops) then .ended
    else .back { p with nloop := p.nloop + 1, pc := p.looppc.toNat, sp := 0 }
  | some o =>
    let p := { p with pc := p.pc + 1 }
    match o.code with
    | .loop => .play o { p with looppc := p.pc }
    | .rep =>
      if p.sp = MAXDEPTH then .internal
      else if p.sp < MAXDEPTH then
        .play o
          { p with
            rpc := Function.update p.rpc p.sp p.pc
            rcnt := Function.update p.rcnt p.sp 0
            sp := p.sp + 1 }
      else .outside
    | .endrep =>
      -- `p->sp - 1` is the index into both arrays
      if 0 ≤ (p.sp : Int) - 1 ∧ (p.sp : Int) - 1 < MAXDEPTH then
        let n := p.rcnt (p.sp - 1) + 1
        let p := { p with rcnt := Function.update p.rcnt (p.sp - 1) n }
        if n < o.a then .play o { p with pc := p.rpc (p.sp - 1) }
        else .play o { p with sp := p.sp - 1 }
      else .outside
    | _ => .play o p

/-! ## The words of the stream -/

def Music.word (m : Music) (w : Nat) : Music := { m with out := m.out ++ [w] }

/-- `reg`. -/
def Music.reg (m : Music) (r : Nat) (v : Int) : Music :=
  (m.word (W_REG ||| r)).word (v % 2 ^ 16).toNat

/-- The waits of `d` milliseconds, of which there are no more than `n`. -/
def waits : Nat → Nat → List Nat
  | 0, _ => []
  | n + 1, d => if d = 0 then [] else (W_WAIT ||| min d 32767) :: waits n (d - 32767)

/-- `until`. -/
def Music.until (m : Music) (ms : Nat) : Music :=
  if m.outms < ms then
    { m with out := m.out ++ waits (ms - m.outms) (ms - m.outms), outms := ms }
  else m

/-! ## Pitch -/

def c0mhz : List Nat :=
  [16352, 17324, 18354, 19445, 20602, 21827, 23125, 24500, 25957, 27500, 29135, 30868]

def clampreg (x : Int) : Int := if x < 0 then 0 else if x > 2047 then 2047 else x

/-- `freqreg`. -/
def freqreg (note : Int) (base : Nat) : Int :=
  let note := note.toNat
  let f := c0mhz.getD (note % 12) 0 <<< (note / 12)
  clampreg (2048 - ((base + f / 2) / f : Nat))

/-- `noisereg`. -/
def noisereg (note : Int) : Int :=
  let o := note.tdiv 12
  let r := 8 - o
  let s := 15 - note.tmod 12
  let r := if r < 0 then 0 else r
  let r := if r > 7 then 7 else r
  16 * s + r

def wavevol : List Int := [0, 3, 2, 1]

def freqaddr : List Nat := [0x64, 0x6c, 0x74]

def envreg : List Nat := [0x62, 0x68, 0, 0x78]

def qsine : List Int := [0, 6, 12, 19, 24, 30, 36, 41, 45, 49, 53, 56, 59, 61, 63, 64, 64]

/-- `vibofs`. -/
def vibofs (pos : Nat) (depth : Nat) : Int :=
  let i := pos % 16
  let q := pos / 16
  let v := if q % 2 = 1 then qsine.getD (16 - i) 0 else qsine.getD i 0
  let v := (2 ^ (depth - 1) * v + 32) / 64
  if q / 2 % 2 = 1 then -v else v

/-! ## Effects -/

/-- `modwanted`. -/
def Player.modwanted (p : Player) : Bool :=
  if p.sounding = false then false
  else if p.vib ≠ 0 then true
  else if p.porta ≠ 0 then p.base ≠ p.target
  else if p.slide > 0 then p.base < 2047
  else p.slide < 0 ∧ p.base > 0

/-- `modsched`. -/
def Player.modsched (p : Player) (now : Nat) : Player :=
  let tick := 1250000 / p.tempo.toNat
  let tick := if tick = 0 then 1 else tick
  let modk := (10000 + tick - 1) / tick
  { p with
    modk := modk
    modstep := ulong (tick * modk)
    modon := p.modwanted
    modus := ulong (now + tick * modk) }

def Music.set (m : Music) (c : Channel) (p : Player) : Music :=
  { m with pl := Function.update m.pl c p }

/-- `pitchout`. -/
def Music.pitchout (m : Music) (c : Channel) : Music :=
  let p := m.pl c
  let x := clampreg (p.base + p.vofs)
  if x ≠ p.lastout then (m.reg (freqaddr.getD c 0) x).set c { p with lastout := x } else m

/-- One tick of the effects. -/
def Player.modtick1 (p : Player) : Player :=
  let p : Player := { p with ticks := p.ticks + 1 }
  let p : Player :=
    if p.ticks % 4 = 0 then
      if p.porta ≠ 0 then
        let d := p.target - p.base
        let d := if d > p.porta then p.porta else d
        let d := if d < -p.porta then -p.porta else d
        { p with base := p.base + d }
      else if p.slide ≠ 0 then { p with base := clampreg (p.base + p.slide) }
      else p
    else p
  if p.vib ≠ 0 then
    if p.vwait > 0 then { p with vwait := p.vwait - 1 }
    else { p with vpos := (p.vpos + p.vib.toNat % 16) % 64 }
  else p

/-- The ticks of an update, and the vibrato after them. -/
def Player.modticks (p : Player) : Player :=
  let p := Nat.repeat Player.modtick1 p.modk p
  { p with vofs := if p.vib ≠ 0 ∧ p.vwait = 0 then vibofs p.vpos (p.vib.toNat / 16) else 0 }

/-- When the next update comes. -/
def Player.modnext (p : Player) : Player :=
  { p with modon := p.modwanted, modus := ulong (p.modus + p.modstep) }

/-- `modtick`. -/
def Music.modtick (m : Music) (c : Channel) : Music :=
  let m := m.until ((m.pl c).modus / 1000)
  let m := (m.set c (m.pl c).modticks).pitchout c
  m.set c (m.pl c).modnext

/-- `mute`. -/
def Music.mute (m : Music) (c : Channel) : Music :=
  let m := m.set c { m.pl c with sounding := false, modon := false }
  if c = 2 then m.reg 0x70 0 else m.reg (envreg.getD c 0) 0

/-- `loadwave`. -/
def Music.loadwave (m : Music) (w : List Nat) : Music :=
  let m := m.reg 0x70 0x40
  let m := (List.range 8).foldl (fun m i =>
    m.reg (0x90 + 2 * i)
      ((w.getD (4 * i) 0 <<< 4 ||| w.getD (4 * i + 1) 0) |||
        (w.getD (4 * i + 2) 0 <<< 4 ||| w.getD (4 * i + 3) 0) <<< 8 : Nat)) m
  m.reg 0x70 0x00

/-- The envelope register of a note. -/
def Player.envelope (p : Player) : Nat :=
  p.vol.toNat <<< 12 ||| (if p.env.toNat &&& 8 ≠ 0 then 0x800 else 0) |||
    (p.env.toNat &&& 7) <<< 8

/-- What `noteon` writes first, unless the note is slurred. -/
def Music.notestart (m : Music) (c : Channel) : Music :=
  let p := m.pl c
  if c = 2 then (m.reg 0x70 0x80).reg 0x72 (wavevol.getD (p.vol.toNat % 4) 0 * 2 ^ 13)
  else m.reg (if c = 0 then 0x62 else 0x68) (p.envelope ||| p.duty.toNat <<< 6 : Nat)

/-- `noteon`. -/
def Music.noteon (m : Music) (c : Channel) (note : Int) (slur : Bool) : Music :=
  let p := m.pl c
  if c = 3 then
    let m := if slur then m else m.reg 0x78 p.envelope
    m.reg 0x7c (((if slur then 0 else 0x8000) ||| p.nstep.toNat <<< 3 |||
      (noisereg note).toNat : Nat))
  else
    let m := if slur then m else m.notestart c
    let x := clampreg (freqreg note (if c = 2 then 65536000 else 131072000) + p.pofs)
    let p := { p with target := x }
    let p := if p.porta = 0 ∨ p.sounding = false then { p with base := x } else p
    let m :=
      if slur then (m.set c p).pitchout c
      else
        let x := clampreg p.base
        (m.reg (freqaddr.getD c 0) (0x8000 + x)).set c
          { p with vpos := 0, vofs := 0, ticks := 0, vwait := p.vdelay, lastout := x }
    let p := { m.pl c with sounding := true }
    m.set c (p.modsched p.us)

/-- `modchange`. -/
def Music.modchange (m : Music) (c : Channel) : Music :=
  let p := m.pl c
  if p.sounding = false then m
  else
    let m := (m.set c (if p.vib = 0 then { p with vofs := 0 } else p)).pitchout c
    m.set c ((m.pl c).modsched (m.pl c).us)

/-! ## Time -/

/-- The loop of `duration`, with the time so far and the remainder: 3000 units in a turn. -/
def durationLoop (tempo : Nat) : Nat → Nat → Nat → Nat → Nat × Nat
  | 0, _, us, rem => (us, rem)
  | k + 1, u, us, rem =>
    if u = 0 then (us, rem)
    else
      let n := min u 3000 * 625000 + rem
      durationLoop tempo k (u - 3000) (us + n / tempo) (n % tempo)

/-- `p->us += duration(p, u)`. -/
def Player.wait (p : Player) (u : Nat) : Player :=
  let r := durationLoop p.tempo.toNat u u 0 p.rem
  { p with us := ulong (p.us + r.1), rem := r.2 }

/-- A change of the tempo of a channel. -/
def Player.settempo (p : Player) (a : Int) (now : Nat) : Player :=
  let p := { p with rem := if p.tempo ≠ a then 0 else p.rem, tempo := a }
  if p.sounding then p.modsched now else p

/-- The channel enables of `OP_PAN`. -/
def panbits (panmask : Nat) (c : Channel) (a : Int) : Nat :=
  (panmask &&& (0xffff ^^^ 0x1100 <<< c.val)) |||
    (if a ≤ 0 then 0x1000 else 0) <<< c.val ||| (if a ≥ 0 then 0x0100 else 0) <<< c.val

/-- What `step` does for an operation besides following the list. -/
def Music.carryout (song : Song) (m : Music) (c : Channel) (o : Op) : Music :=
  let p := m.pl c
  match o.code with
  | .note =>
    let m := m.noteon c o.a false
    m.set c ((m.pl c).wait o.b)
  | .slur =>
    let m := m.noteon c o.a true
    m.set c ((m.pl c).wait o.b)
  | .rest =>
    let m := m.mute c
    m.set c ((m.pl c).wait o.b)
  | .wait => m.set c (p.wait o.b)
  | .tempo => { m with pl := fun k => (m.pl k).settempo o.a p.us }
  | .vib => (m.set c { p with vib := o.a, vdelay := o.b }).modchange c
  | .porta =>
    (m.set c
      { p with
        porta := o.a
        slide := 0
        base := if o.a = 0 then p.target else p.base }).modchange c
  | .slide => (m.set c { p with slide := o.a, porta := 0 }).modchange c
  | .pofs => m.set c { p with pofs := o.a }
  | .vol => m.set c { p with vol := o.a }
  | .env => m.set c { p with env := o.a }
  | .duty => m.set c { p with duty := o.a }
  | .wave => m.loadwave (song.wave o.a.toNat)
  | .nstep => m.set c { p with nstep := o.a }
  | .pan =>
    let m := { m with panmask := panbits m.panmask c o.a }
    m.reg 0x80 (m.panmask ||| 0x77 : Nat)
  | .sweep => m.reg 0x60 o.a
  | .loop | .rep | .endrep => m

/-- How far a call of `step` has come. -/
inductive Outcome where
  | spent
  | outside
  | internal
  | ended
  | timed
  deriving DecidableEq

/-- A call of `step`, with the operations that it has played. -/
structure Stepped where
  outcome : Outcome
  played : List Op
  music : Music

def Music.goto (m : Music) (c : Channel) (p : Cursor) : Music :=
  m.set c { m.pl c with cur := p }

/-- The loop of `step`, of `n` turns at most. -/
def stepLoop (song : Song) (c : Channel) : Nat → Music → Stepped
  | 0, m => ⟨.spent, [], m⟩
  | n + 1, m =>
    match (m.pl c).cur.turn (song.ops c) song.loops with
    | .ended => ⟨.ended, [], m.mute c⟩
    | .outside => ⟨.outside, [], m⟩
    | .internal => ⟨.internal, [], m⟩
    | .back p => stepLoop song c n (m.goto c p)
    | .play o p =>
      let m := (m.goto c p).carryout song c o
      if o.code ∈ [.note, .slur, .rest, .wait] then ⟨.timed, [o], m⟩
      else
        let r := stepLoop song c n m
        { r with played := o :: r.played }

/-- `step`. -/
def step (song : Song) (c : Channel) (n : Nat) (m : Music) : Stepped :=
  stepLoop song c n (m.until ((m.pl c).us / 1000))

/-! ## The loop of `play` -/

def triangle : List Nat := List.range 16 ++ (List.range 16).reverse

/-- The variables of a player as they are before the first operation. -/
def Player.init (song : Song) (c : Channel) : Player where
  cur := ⟨0, -1, 0, 0, fun _ => 0, fun _ => 0⟩
  us := 0
  rem := 0
  tempo := 120
  vol := if c = 2 then 3 else 15
  env := 0
  duty := 2
  nstep := 0
  done := (song.ops c).length = 0
  vib := 0
  vdelay := 0
  porta := 0
  slide := 0
  pofs := 0
  sounding := false
  base := 0
  target := 0
  vpos := 0
  vwait := 0
  vofs := 0
  ticks := 0
  lastout := -1
  modon := false
  modus := 0
  modstep := 0
  modk := 0

/-- What `play` does before its loop. -/
def Music.start (song : Song) : Music :=
  let m : Music := ⟨Player.init song, [], 0, 0xff00⟩
  let m := (m.reg 0x80 0xff77).reg 0x60 0
  (channels.foldl Music.mute m).loadwave triangle

/-- The channel whose operation or update is the earliest, with its time and whether it is an
update. -/
def Music.best (m : Music) : Option (Channel × Nat × Bool) :=
  channels.foldl (fun best c =>
    let p := m.pl c
    if p.done then best
    else
      let mod := p.modon ∧ p.modus < p.us
      let t := if mod then p.modus else p.us
      match best with
      | none => some (c, t, mod)
      | some b => if t < b.2.1 then some (c, t, mod) else some b) none

/-- The times are kept in range after channel `c` has gone on. -/
def Music.rebase (m : Music) (c : Channel) : Music :=
  if (m.pl c).us > 2000000000 then
    let base := channels.foldl (fun base d =>
      if (m.pl d).done = false ∧ (m.pl d).us < base then (m.pl d).us else base) (m.pl c).us
    let base := base - base % 1000
    { m with
      pl := fun d =>
        let p := m.pl d
        if p.done then p
        else { p with us := p.us - base, modus := p.modus - base }
      outms := ulong (m.outms + 2 ^ 32 - base / 1000) }
  else m

/-- A state of `play` at the top of its loop, with what each channel has played. -/
structure Playing where
  music : Music
  played : Channel → List Op

/-- One turn of the loop of `play`. In a call of `step` there may be any number of turns. -/
inductive PlayTurn (song : Song) : Playing → Playing → Prop where
  | update {s : Playing} {c : Channel} {t : Nat} (h : s.music.best = some (c, t, true)) :
      PlayTurn song s ⟨(s.music.modtick c).rebase c, s.played⟩
  | timed {s : Playing} {c : Channel} {t n : Nat} (h : s.music.best = some (c, t, false))
      (hstep : (step song c n s.music).outcome = .timed) :
      PlayTurn song s
        ⟨(step song c n s.music).music.rebase c,
          Function.update s.played c (s.played c ++ (step song c n s.music).played)⟩
  | ended {s : Playing} {c : Channel} {t n : Nat} (h : s.music.best = some (c, t, false))
      (hstep : (step song c n s.music).outcome = .ended) :
      PlayTurn song s
        ⟨((step song c n s.music).music.set c
            { (step song c n s.music).music.pl c with done := true }).rebase c,
          Function.update s.played c (s.played c ++ (step song c n s.music).played)⟩

/-- The states that `play` comes to. -/
inductive Reached (song : Song) : Playing → Prop where
  | start : Reached song ⟨Music.start song, fun _ => []⟩
  | turn {s s' : Playing} (h : Reached song s) (hturn : PlayTurn song s s') : Reached song s'

/-- The song that has been parsed. -/
def State.song (s : State) (loops : Int) : Song := ⟨fun c => (s.ch c).ops, s.wave, loops⟩

/-! ## What leaves the places alone -/

/-- No channel is at another place in its list. -/
def Music.Stays (m m' : Music) : Prop := ∀ d, (m'.pl d).cur = (m.pl d).cur

theorem Music.Stays.trans {m₁ m₂ m₃ : Music} (h : m₁.Stays m₂) (k : m₂.Stays m₃) : m₁.Stays m₃ :=
  fun d => (k d).trans (h d)

theorem stays_set (m : Music) {c : Channel} {p : Player} (hp : p.cur = (m.pl c).cur) :
    m.Stays (m.set c p) := by
  intro d
  show (Function.update m.pl c p d).cur = _
  by_cases hd : d = c
  · subst hd
    rw [Function.update_self, hp]
  · rw [Function.update_of_ne hd]

/-- What an effect does nothing to: where the channel is, its tempo with what is left over of it, and its
time. -/
def Player.place (p : Player) : Cursor × Int × Nat × Nat := (p.cur, p.tempo, p.rem, p.us)

/-- Only effects and the stream are changed. -/
def Music.Calm (m m' : Music) : Prop := ∀ d, (m'.pl d).place = (m.pl d).place

theorem Music.Calm.trans {m₁ m₂ m₃ : Music} (h : m₁.Calm m₂) (k : m₂.Calm m₃) : m₁.Calm m₃ :=
  fun d => (k d).trans (h d)

theorem Music.Calm.stays {m m' : Music} (h : m.Calm m') : m.Stays m' :=
  fun d => congrArg Prod.fst (h d)

theorem calm_set (m : Music) {c : Channel} {p : Player} (hp : p.place = (m.pl c).place) :
    m.Calm (m.set c p) := by
  intro d
  show (Function.update m.pl c p d).place = _
  by_cases hd : d = c
  · subst hd
    rw [Function.update_self, hp]
  · rw [Function.update_of_ne hd]

@[simp] theorem set_pl_self (m : Music) (c : Channel) (p : Player) : (m.set c p).pl c = p :=
  Function.update_self ..

@[simp] theorem set_pl_of_ne (m : Music) {c d : Channel} (p : Player) (h : d ≠ c) :
    (m.set c p).pl d = m.pl d :=
  Function.update_of_ne h ..

theorem calm_until (m : Music) (ms : Nat) : m.Calm (m.until ms) := by
  intro d
  unfold Music.until
  split <;> rfl

theorem calm_reg (m : Music) (r : Nat) (v : Int) : m.Calm (m.reg r v) := fun _ => rfl

theorem calm_pitchout (m : Music) (c : Channel) : m.Calm (m.pitchout c) := by
  unfold Music.pitchout
  simp only
  split
  · exact (calm_reg m _ _).trans (calm_set _ rfl)
  · exact fun _ => rfl

theorem modtick1_place (p : Player) : p.modtick1.place = p.place := by
  unfold Player.modtick1
  simp only
  split_ifs <;> rfl

theorem modticks_place (p : Player) : p.modticks.place = p.place := by
  have hrepeat : ∀ n, (Nat.repeat Player.modtick1 n p).place = p.place := by
    intro n
    induction n with
    | zero => rfl
    | succ n ih =>
        show (Nat.repeat Player.modtick1 n p).modtick1.place = _
        rw [modtick1_place, ih]
  exact hrepeat p.modk

theorem calm_modtick (m : Music) (c : Channel) : m.Calm (m.modtick c) := by
  unfold Music.modtick
  refine (calm_until m ((m.pl c).modus / 1000)).trans (Music.Calm.trans ?_ (calm_set _ rfl))
  exact (calm_set _ (modticks_place _)).trans (calm_pitchout _ c)

theorem calm_mute (m : Music) (c : Channel) : m.Calm (m.mute c) := by
  unfold Music.mute
  have hset := calm_set m (c := c) (p := { m.pl c with sounding := false, modon := false }) rfl
  split
  · exact hset.trans (calm_reg _ _ _)
  · exact hset.trans (calm_reg _ _ _)

theorem calm_loadwave (m : Music) (w : List Nat) : m.Calm (m.loadwave w) := by
  have hfold : ∀ (xs : List Nat) (f : Nat → Nat × Int) (m : Music),
      m.Calm (xs.foldl (fun m i => m.reg (f i).1 (f i).2) m) := by
    intro xs f
    induction xs with
    | nil => exact fun _ _ => rfl
    | cons x xs ih => exact fun m => (calm_reg m _ _).trans (ih _)
  exact (calm_reg m _ _).trans
    ((hfold (List.range 8) (fun i => (_, _)) _).trans (calm_reg _ _ _))

theorem calm_notestart (m : Music) (c : Channel) : m.Calm (m.notestart c) := by
  unfold Music.notestart
  simp only
  split
  · exact (calm_reg m _ _).trans (calm_reg _ _ _)
  · exact calm_reg m _ _

theorem calm_noteon (m : Music) (c : Channel) (note : Int) (slur : Bool) :
    m.Calm (m.noteon c note slur) := by
  unfold Music.noteon
  simp only
  split
  · cases slur with
    | false => exact (calm_reg m _ _).trans (calm_reg _ _ _)
    | true => exact calm_reg m _ _
  · refine Music.Calm.trans ?_ (calm_set _ rfl)
    cases slur with
    | false =>
        refine (calm_notestart m c).trans ((calm_reg _ _ _).trans (calm_set _ ?_))
        rw [calm_reg _ _ _ c, calm_notestart m c c]
        split <;> rfl
    | true =>
        refine (calm_set m ?_).trans (calm_pitchout _ c)
        split <;> rfl

theorem calm_modchange (m : Music) (c : Channel) : m.Calm (m.modchange c) := by
  unfold Music.modchange
  simp only
  split
  · exact fun _ => rfl
  · refine Music.Calm.trans (Music.Calm.trans (calm_set m ?_) (calm_pitchout _ c))
      (calm_set _ rfl)
    split <;> rfl

theorem settempo_cur (p : Player) (a : Int) (now : Nat) : (p.settempo a now).cur = p.cur := by
  unfold Player.settempo
  simp only
  split <;> rfl

/-- What an operation does is nothing to the places. -/
theorem stays_carryout (song : Song) (m : Music) (c : Channel) (o : Op) :
    m.Stays (m.carryout song c o) := by
  unfold Music.carryout
  simp only
  split
  · exact (calm_noteon m c _ _).stays.trans (stays_set _ rfl)
  · exact (calm_noteon m c _ _).stays.trans (stays_set _ rfl)
  · exact (calm_mute m c).stays.trans (stays_set _ rfl)
  · exact stays_set m rfl
  · exact fun d => settempo_cur _ _ _
  · exact Music.Stays.trans (stays_set m (by rfl)) (calm_modchange _ c).stays
  · exact Music.Stays.trans (stays_set m (by rfl)) (calm_modchange _ c).stays
  · exact Music.Stays.trans (stays_set m (by rfl)) (calm_modchange _ c).stays
  · exact stays_set m rfl
  · exact stays_set m rfl
  · exact stays_set m rfl
  · exact stays_set m rfl
  · exact (calm_loadwave m _).stays
  · exact stays_set m rfl
  · exact (calm_reg _ _ _).stays
  · exact (calm_reg _ _ _).stays
  · exact fun _ => rfl
  · exact fun _ => rfl
  · exact fun _ => rfl

theorem stays_rebase (m : Music) (c : Channel) : m.Stays (m.rebase c) := by
  intro d
  unfold Music.rebase
  split
  · simp only
    split <;> rfl
  · rfl

end DiscoBsd.Mml
