import DiscoBsd.Kern.Uio
import DiscoBsd.Lib.Circular
import DiscoBsd.Lib.Steps

/-!
# The PCM driver and its ring

The variables of the driver, its interrupt and its entry points. A writer is a sequence of steps
between which `audio_tick` may interrupt it: what it does at `splhigh` is one step, and each store
into `abuf` is one. Other processes run while no writer holds the processor, which it gives up only
in `sleep`. `stored`, `written` and `played` record the indices stored to, the samples taken from the
users and those that the play index has passed; a frame has a sample for each channel.
-/

namespace DiscoBsd.Audio

open Kern Lib

def ASAMPLES : Nat := 9216

def AGUARD : Nat := 1024

def HALF : Nat := (ASAMPLES + AGUARD) / 2

def ASAMPLES_ST : Nat := 4608

def AGUARD_ST : Nat := HALF - ASAMPLES_ST

def ARESERVE : Nat := 256

def AUDIO_RATE_MIN : Int := 2000

def AUDIO_RATE_MAX : Int := 24000

def AUDIO_RATE_DEF : Nat := 8192

/-- The timer's input clock. -/
def TCLK : Nat := 16777216 / 1024

/-- The timer's counts for a tick of 10 ms. -/
def TICKS_CNT : Nat := 16777216 / 1024 / 100

/-- The variables of the driver. -/
structure Driver where
  audio_rate : Nat
  audio_open : Bool
  audio_stereo : Bool
  a_rsize : Nat
  a_gsize : Nat
  audio_playing : Bool
  a_wr : Nat
  a_play : Nat
  a_used : Nat
  a_acc : Nat
  a_last_tm3 : UInt16
  abuf : Nat → UInt8

/-- `audio_init`. -/
def audio_init : Driver where
  audio_rate := AUDIO_RATE_DEF
  audio_open := false
  audio_stereo := false
  a_rsize := ASAMPLES
  a_gsize := AGUARD
  audio_playing := false
  a_wr := 0
  a_play := 0
  a_used := 0
  a_acc := 0
  a_last_tm3 := 0
  abuf := fun _ => 0

/-! ## Frames -/

/-- Where the rings start: the left one at `abuf`, the right one at `RBASE`. -/
def bases (stereo : Bool) : List Nat := if stereo then [0, HALF] else [0]

/-- The samples at an index of the rings. -/
def frame (stereo : Bool) (abuf : Nat → UInt8) (i : Nat) : List UInt8 :=
  (bases stereo).map fun base => abuf (base + i)

/-- Interleaved samples as frames. -/
def frames (stereo : Bool) : List UInt8 → List (List UInt8)
  | l :: r :: samples => if stereo then [l, r] :: frames stereo samples
      else [l] :: frames stereo (r :: samples)
  | [l] => if stereo then [] else [[l]]
  | [] => []

/-- The frames that are written and not yet played. -/
def Driver.pending (a : Driver) : List (List UInt8) :=
  circRead a.a_rsize (frame a.audio_stereo a.abuf) a.a_play a.a_used

/-! ## Hardware and interrupt -/

/-- `audio_hw_start`, with the count of Timer3. -/
def audio_hw_start (tm3 : UInt16) (a : Driver) : Driver :=
  { a with a_acc := 0, a_last_tm3 := tm3, audio_playing := true }

/-- `audio_hw_stop`. -/
def audio_hw_stop (a : Driver) : Driver := { a with audio_playing := false }

/-- The ticks that `audio_tick` takes as elapsed. -/
def elapsed (now last : UInt16) : Nat :=
  let e := (now - last).toNat
  if e = 0 then 1 else if e > 64 then 64 else e

/-- `audio_tick`, with the number of frames that have been played. -/
def audio_tick (now : UInt16) (a : Driver) : Nat × Driver :=
  if a.audio_playing = false then (0, a)
  else
    let acc := (a.a_acc + elapsed now a.a_last_tm3 * a.audio_rate * TICKS_CNT) % 4294967296
    let nsamp := acc / TCLK
    let a := { a with a_last_tm3 := now, a_acc := acc - nsamp * TCLK }
    if nsamp = 0 then (0, a)
    else if nsamp ≥ a.a_used then (a.a_used, audio_hw_stop { a with a_play := a.a_wr, a_used := 0 })
    else
      (nsamp,
        { a with
          a_used := a.a_used - nsamp
          a_play :=
            if a.a_play + nsamp ≥ a.a_rsize then a.a_play + nsamp - a.a_rsize else a.a_play + nsamp })

/-! ## Opening -/

inductive Errno where
  | ok
  | enxio
  | ebusy
  deriving DecidableEq

/-- The rate and the number of channels that a minor selects. -/
def minorMode : Nat → Option (Nat × Bool)
  | 0 => some (AUDIO_RATE_DEF, false)
  | 1 => some (16384, false)
  | 2 => some (AUDIO_RATE_DEF, true)
  | 3 => some (16384, true)
  | 4 => some (4096, false)
  | 5 => some (4096, true)
  | _ => none

/-- `audioopen`. -/
def audioopen (minor : Nat) (a : Driver) : Errno × Driver :=
  match minorMode minor with
  | none => (.enxio, a)
  | some (rate, stereo) =>
      let a := { a with audio_rate := rate, audio_stereo := stereo }
      if a.audio_open then (.ebusy, a)
      else
        (.ok,
          { a with
            audio_open := true
            a_rsize := if stereo then ASAMPLES_ST else ASAMPLES
            a_gsize := if stereo then AGUARD_ST else AGUARD
            a_wr := 0
            a_play := 0
            a_used := 0
            a_acc := 0
            audio_playing := false
            abuf := fun _ => 0 })

/-! ## Writing -/

/-- Where a writer is. -/
inductive Phase where
  /-- At the top of the loop. -/
  | check
  /-- Before the critical section that waits for room. -/
  | wait
  /-- Behind it. -/
  | room (free : Nat)
  /-- `done` of `n` frames have been taken, with these stores still to be made. -/
  | copy (n done : Nat) (todo : List (Nat × UInt8))
  /-- In `audio_mirror`, with these bytes still to be copied. -/
  | mirror (n : Nat) (todo : List (Nat × Nat))
  /-- Before the critical section that takes the frames in. -/
  | commit (n : Nat)
  /-- At `out`. -/
  | out

/-- A call of `audiowrite`. -/
structure Writer where
  uio : List (List UInt8)
  prebuf : Nat
  cap : Nat
  phase : Phase

/-- The start of `audiowrite`. -/
def audiowrite (uio : List (List UInt8)) (a : Driver) : Writer where
  uio := uio
  prebuf := if a.audio_stereo then a.a_rsize - a.a_rsize / 4 else a.a_rsize / 2
  cap := a.a_rsize - ARESERVE
  phase := .check

/-- The stores that put frames into the rings from an index on. -/
def frameStores (stereo : Bool) (wr : Nat) : List (List UInt8) → List (Nat × UInt8)
  | [] => []
  | samples :: rest =>
      (bases stereo).zipWith (fun base sample => (base + wr, sample)) samples ++
        frameStores stereo (wr + 1) rest

/-- The bytes that `audio_mirror` copies for a ring, from and to. -/
def audio_mirror (a : Driver) (n base : Nat) : List (Nat × Nat) :=
  if a.a_wr < a.a_gsize then
    (List.range (min (a.a_gsize - a.a_wr) n)).map fun i =>
      (base + (a.a_wr + i), base + (a.a_rsize + a.a_wr + i))
  else []

/-! ## The system -/

/-- The driver, whether it is held open and whether it is being closed, the writer that has the
processor and those that sleep. `taken` are the frames that the writer has taken and not yet counted. -/
structure Machine where
  audio : Driver
  held : Bool
  closing : Bool
  current : Option Writer
  asleep : List Writer
  stored : List Nat
  taken : List (List UInt8)
  written : List (List UInt8)
  played : List (List UInt8)

/-- The system after `audio_init`. -/
def start : Machine where
  audio := audio_init
  held := false
  closing := false
  current := none
  asleep := []
  stored := []
  taken := []
  written := []
  played := []

/-- A byte is stored into `abuf`. -/
def Machine.store (m : Machine) (i : Nat) (sample : UInt8) : Machine :=
  { m with
    audio := { m.audio with abuf := Function.update m.audio.abuf i sample }
    stored := i :: m.stored }

/-- The writer goes on at a phase. -/
def Machine.goto (m : Machine) (w : Writer) (phase : Phase) : Machine :=
  { m with current := some { w with phase := phase } }

/-- Playback is started if it is not going on and a condition holds. -/
def Driver.startIf (tm3 : UInt16) (b : Bool) (a : Driver) : Driver :=
  if a.audio_playing = false ∧ b then audio_hw_start tm3 a else a

/-- `wait`: the writer sleeps, or has room. -/
def Machine.await (tm3 : UInt16) (w : Writer) (m : Machine) : Machine :=
  if m.audio.a_used ≥ w.cap then
    { m with
      audio := m.audio.startIf tm3 (decide (m.audio.a_used > 0))
      current := none
      asleep := { w with phase := .wait } :: m.asleep }
  else m.goto w (.room (w.cap - m.audio.a_used))

/-- `room`: the length of the run is worked out, and the first bytes are taken. A mono run is taken as
a whole. -/
def Machine.room (free : Nat) (w : Writer) (m : Machine) : Machine :=
  let n := min free (m.audio.a_rsize - m.audio.a_wr)
  if m.audio.audio_stereo then m.goto w (.copy (min n (resid w.uio / 2)) 0 [])
  else
    let n := min n (resid w.uio)
    let moved := uiomove n w.uio
    let taken := frames false moved.1
    { m with taken := taken }.goto { w with uio := moved.2 }
      (.copy n n (frameStores false m.audio.a_wr taken))

/-- `copy` with no store left: the next pairs are taken, or the run is mirrored. -/
def Machine.takePairs (n done : Nat) (w : Writer) (m : Machine) : Machine :=
  if done < n then
    let c := min (n - done) 64
    let moved := uiomove (c * 2) w.uio
    let taken := frames true moved.1
    { m with taken := m.taken ++ taken }.goto { w with uio := moved.2 }
      (.copy n (done + c) (frameStores true (m.audio.a_wr + done) taken))
  else m.goto w (.mirror n ((bases m.audio.audio_stereo).flatMap (audio_mirror m.audio n)))

/-- `commit`. -/
def Machine.commit (tm3 : UInt16) (n : Nat) (w : Writer) (m : Machine) : Machine :=
  let a := m.audio
  let a := { a with
    a_wr := if a.a_wr + n ≥ a.a_rsize then a.a_wr + n - a.a_rsize else a.a_wr + n
    a_used := a.a_used + n }
  { m with
    audio := a.startIf tm3 (decide (a.a_used ≥ w.prebuf))
    taken := []
    written := m.written ++ m.taken }.goto w .check

/-- `check`: whether there is input left. -/
def Machine.check (w : Writer) (m : Machine) : Machine :=
  if m.audio.audio_stereo then
    if resid w.uio < 2 then m.goto { w with uio := (uiomove 1 w.uio).2 } .out else m.goto w .wait
  else if resid w.uio = 0 then m.goto w .out
  else m.goto w .wait

/-- A step of the writer that has the processor. -/
def Machine.advance (tm3 : UInt16) (w : Writer) (m : Machine) : Machine :=
  match w.phase with
  | .check => m.check w
  | .wait => m.await tm3 w
  | .room free => m.room free w
  | .copy n done ((i, sample) :: todo) => (m.store i sample).goto w (.copy n done todo)
  | .copy n done [] => m.takePairs n done w
  | .mirror n ((src, dst) :: todo) => (m.store dst (m.audio.abuf src)).goto w (.mirror n todo)
  | .mirror n [] => m.goto w (.commit n)
  | .commit n => m.commit tm3 n w
  | .out => { m with audio := m.audio.startIf tm3 (decide (m.audio.a_used > 0)), current := none }

/-- An interrupt of Timer0. -/
def Machine.tick (now : UInt16) (m : Machine) : Machine :=
  let ticked := audio_tick now m.audio
  { m with
    audio := ticked.2
    played := m.played ++
      circRead m.audio.a_rsize (frame m.audio.audio_stereo m.audio.abuf) m.audio.a_play ticked.1 }

/-- `audioclose` has come to its loop: it sleeps while something plays. -/
def Machine.finish (m : Machine) : Machine :=
  if m.audio.audio_playing = true ∧ m.audio.a_used > 0 then m
  else { m with audio := { audio_hw_stop m.audio with audio_open := false }, closing := false }

/-- What may happen next. Sleepers are numbered. -/
inductive Event where
  | tick (now : UInt16)
  | open (minor : Nat)
  | setrate (rate : Int)
  | write (uio : List (List UInt8))
  | run (tm3 : UInt16)
  | wakeup (i : Nat)
  | signal (i : Nat)
  | close
  | finish
  | giveUp

/-- One event. A process runs when no writer has the processor, writers hold the device open, and the
last close comes when none of them is left. A signal ends the sleep of a writer or of `audioclose`. -/
def step (m : Machine) : Event → Option Machine
  | .tick now => some (m.tick now)
  | .open minor =>
      if m.current.isNone then
        let opened := audioopen minor m.audio
        some { m with audio := opened.2, held := m.held || decide (opened.1 = .ok) }
      else none
  | .setrate rate =>
      some { m with
        audio := { m.audio with
          audio_rate := (min (max rate AUDIO_RATE_MIN) AUDIO_RATE_MAX).toNat } }
  | .write uio =>
      if m.current.isNone ∧ m.held then some { m with current := some (audiowrite uio m.audio) } else none
  | .run tm3 => m.current.map fun w => m.advance tm3 w
  | .wakeup i =>
      if m.current.isNone then
        m.asleep[i]?.map fun w => { m with current := some w, asleep := m.asleep.eraseIdx i }
      else none
  | .signal i => some { m with asleep := m.asleep.eraseIdx i }
  | .close =>
      if m.current.isNone ∧ m.asleep.isEmpty ∧ m.held then some { m with held := false, closing := true }
      else none
  | .finish => if m.closing then some m.finish else none
  | .giveUp => if m.closing then some { m with closing := false } else none

end DiscoBsd.Audio
