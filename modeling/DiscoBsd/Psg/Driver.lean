import DiscoBsd.Kern.Uio
import DiscoBsd.Lib.Circular
import DiscoBsd.Lib.Int32
import DiscoBsd.Lib.Steps
import DiscoBsd.Psg.Stream

/-!
# The PSG driver

The variables of the driver, its clock interrupt and its entry points. Writers are at the top of their
loop, where each may sleep, but for one that is filling the queue with the words it has taken; the
interrupt comes between any two of its stores. `stream` records the words that have been written,
`played` the commands that were carried out, with the times of the tick and of the one before it.
-/

namespace DiscoBsd.Psg

open Kern Lib

def PSG_QSIZE : Nat := 2048

def PSG_QMASK : Nat := PSG_QSIZE - 1

def PSG_MS_PER_TICK : Nat := 10

/-- The words of the buffer of `psgwrite`. -/
def BUF : Nat := 32

/-- The variables of the driver, and what it has written to the hardware. -/
structure Driver where
  psg_head : Nat
  psg_tail : Nat
  psg_open : Bool
  psg_active : Bool
  psg_wait : Int
  psg_tm3 : UInt16
  psg_q : Nat → UInt16
  regs : List Write

/-- `psg_count`. -/
def Driver.psg_count (d : Driver) : Nat := (d.psg_head + PSG_QSIZE - d.psg_tail) % PSG_QSIZE

def Driver.put (d : Driver) (writes : List Write) : Driver := { d with regs := d.regs ++ writes }

/-- The words in the queue. -/
def Driver.queue (d : Driver) : List UInt16 := circRead PSG_QSIZE d.psg_q d.psg_tail d.psg_count

/-- `psg_silence`. -/
def psg_silence : List Write :=
  [.reg 0x60 0, .reg 0x62 0, .reg 0x68 0, .reg 0x70 0, .reg 0x78 0]

/-- What `psg_stop` writes. -/
def stopWrites : List Write := psg_silence ++ [.reg 0x80 0x1177, .mix 2]

/-- `psg_stop`. -/
def psg_stop (d : Driver) : Driver :=
  { d with psg_active := false, psg_head := 0, psg_tail := 0, psg_wait := 0 }.put stopWrites

/-- What `psgopen` writes. -/
def openWrites : List Write := psg_silence ++ [.reg 0x84 0x0080, .reg 0x80 0xff77]

/-- A word of the queue is taken off. -/
def Driver.advance (d : Driver) (n : Nat) : Driver :=
  { d with psg_tail := (d.psg_tail + n) % PSG_QSIZE }

/-- The loop of `psg_tick`, with the commands that it carries out. Each turn takes a word at least. -/
def playLoop : Nat → Driver → List Command × Driver
  | 0, d => ([], d)
  | fuel + 1, d =>
      if d.psg_wait ≤ 0 ∧ d.psg_count > 0 then
        let w := d.psg_q d.psg_tail
        if w &&& 0x8000 ≠ 0 then
          let r := playLoop fuel ({ d with psg_wait := d.psg_wait + (w &&& 0x7fff).toNat }.advance 1)
          (.one w :: r.1, r.2)
        else if w &&& 0xf000 = 0x4000 then
          if d.psg_count < 2 then ([], d)
          else
            let v := d.psg_q ((d.psg_tail + 1) % PSG_QSIZE)
            let d := if psg_regok (w &&& 0xff) then d.put [.reg (w &&& 0xff) v] else d
            let r := playLoop fuel (d.advance 2)
            (.two w v :: r.1, r.2)
        else
          let d := if w &&& 0xf000 = 0x5000 ∧ w &&& 0xfff ≤ 2 then d.put [.mix (w &&& 3)] else d
          let r := playLoop fuel (d.advance 1)
          (.one w :: r.1, r.2)
      else ([], d)

/-- What an interrupt does: the commands that it carries out, and the milliseconds that have passed
with nothing left to do. -/
structure Tick where
  played : List Command
  dry : Nat
  driver : Driver

/-- The milliseconds since the last tick, by Timer3. -/
def elapsed (now : UInt16) (d : Driver) : Nat := (now - d.psg_tm3).toNat * PSG_MS_PER_TICK

/-- `psg_tick`. -/
def psg_tick (now : UInt16) (d : Driver) : Tick :=
  if d.psg_active = false then ⟨[], 0, d⟩
  else
    let d := { d with psg_wait := int32 (d.psg_wait - elapsed now d), psg_tm3 := now }
    let r := playLoop d.psg_count d
    let d := r.2
    let dry := if d.psg_count = 0 ∧ d.psg_wait < 0 then d.psg_wait.natAbs else 0
    let d := if d.psg_count = 0 ∧ d.psg_wait < 0 then { d with psg_wait := 0 } else d
    let d := if d.psg_count = 0 ∧ d.psg_wait ≤ 0 ∧ d.psg_open = false then psg_stop d else d
    ⟨r.1, dry, d⟩

/-- `psgopen` of a device that is not open, with the count of Timer3. -/
def psgopen (tm3 : UInt16) (d : Driver) : Driver :=
  { d with
    psg_head := 0
    psg_tail := 0
    psg_wait := 0
    psg_tm3 := tm3
    psg_open := true
    psg_active := true }.put openWrites

/-- `psgclose`. -/
def psgclose (d : Driver) : Driver :=
  let d := { d with psg_open := false }
  if d.psg_count = 0 ∧ d.psg_wait ≤ 0 then psg_stop d else d

/-- What `PSGDRAIN` waits for. -/
def Driver.drained (d : Driver) : Prop := ¬ (d.psg_count > 0 ∨ d.psg_wait > 0)

/-! ## The system -/

/-- Bytes as words, the low byte first. -/
def halfwords : List UInt8 → List UInt16
  | lo :: hi :: bytes => (lo.toUInt16 ||| hi.toUInt16 <<< 8) :: halfwords bytes
  | _ => []

/-- A writer that has taken words into its buffer and stored some of them. -/
structure Fill where
  uio : List (List UInt8)
  buf : List UInt16
  stored : Nat

/-- A command that was carried out: the time of the tick, the time of the tick before, and the number of
commands that were written by then. -/
structure Entry where
  command : Command
  clock : Int
  last : Int
  ready : Nat

/-- The driver, the writers, and what has happened since the device was opened: the words written, the
commands carried out, the milliseconds that the ticks have counted and those of them in which there
was nothing to do, and the time and the number of commands written at the last tick. -/
structure Machine where
  driver : Driver
  waiting : List (List (List UInt8))
  filling : Option Fill
  stream : List UInt16
  played : List Entry
  elapsed : Nat
  dry : Nat
  last : Int
  ready : Nat

/-- The device is opened. -/
def start (tm3 : UInt16) (d : Driver) : Machine where
  driver := psgopen tm3 d
  waiting := []
  filling := none
  stream := []
  played := []
  elapsed := 0
  dry := 0
  last := 0
  ready := 0

/-- The time of the stream: what was counted while there was something to do. -/
def Machine.clock (m : Machine) : Int := m.elapsed - m.dry

/-- A clock interrupt. -/
def Machine.tick (now : UInt16) (m : Machine) : Machine :=
  if m.driver.psg_active = false then m
  else
    let t := psg_tick now m.driver
    let total := m.elapsed + Psg.elapsed now m.driver
    let clock : Int := total - m.dry
    { m with
      driver := t.driver
      played := m.played ++ t.played.map fun c => ⟨c, clock, m.last, m.ready⟩
      elapsed := total
      dry := m.dry + t.dry
      last := clock
      ready := (commands m.stream).length }

/-- The writer with this request goes through its loop: it returns, sleeps for room or takes words. -/
def Machine.take (i : Nat) (uio : List (List UInt8)) (m : Machine) : Machine :=
  if resid uio = 0 then { m with waiting := m.waiting.eraseIdx i }
  else if PSG_QMASK - m.driver.psg_count < BUF then m
  else
    let moved := uiomove (min (resid uio) (2 * BUF)) uio
    { m with waiting := m.waiting.eraseIdx i, filling := some ⟨moved.2, halfwords moved.1, 0⟩ }

/-- A word is stored into the queue. -/
def Machine.store (f : Fill) (w : UInt16) (m : Machine) : Machine :=
  let d := m.driver
  { m with
    driver := { d with psg_q := Function.update d.psg_q ((d.psg_head + f.stored) % PSG_QSIZE) w }
    filling := some { f with stored := f.stored + 1 } }

/-- The words that were stored are taken into account, and the writer is at the top of its loop. -/
def Machine.commit (f : Fill) (m : Machine) : Machine :=
  let d := m.driver
  { m with
    driver := { d with psg_head := (d.psg_head + f.buf.length) % PSG_QSIZE }
    stream := m.stream ++ f.buf
    filling := none
    waiting := f.uio :: m.waiting }

/-- What may happen next. Writers at the top of their loop are numbered. -/
inductive Event where
  | tick (now : UInt16)
  | write (uio : List (List UInt8))
  | take (i : Nat)
  | store
  | commit
  | giveUp (i : Nat)
  | close

/-- One event. A writer gives the processor up only at the top of its loop, and leaves there too: with
nothing left to write, without waiting, on a signal or on a fault. The last close comes when no
writer is left. -/
def step (m : Machine) : Event → Option Machine
  | .tick now => some (m.tick now)
  | .write uio =>
      if m.driver.psg_open = false ∨ m.filling.isSome then none
      else if resid uio % 2 = 1 then some m
      else some { m with waiting := uio :: m.waiting }
  | .take i =>
      if m.filling.isSome then none else m.waiting[i]?.map fun uio => m.take i uio
  | .store => m.filling.bind fun f => f.buf[f.stored]?.map fun w => m.store f w
  | .commit => m.filling.bind fun f => if f.stored = f.buf.length then some (m.commit f) else none
  | .giveUp i => some { m with waiting := m.waiting.eraseIdx i }
  | .close =>
      if m.driver.psg_open = true ∧ m.filling.isNone ∧ m.waiting.isEmpty then
        some { m with driver := psgclose m.driver }
      else none

end DiscoBsd.Psg
