import DiscoBsd.Lib.Circular
import DiscoBsd.Lib.Serial

/-!
# The TCP of slipd: one connection

The definitions follow `tcp.c` for one connection, from the passive open on: what a segment, the
timer, the main loop and the calls of the service do to its control block. A connection also
carries its history: the segments it emitted, the bytes `tcp_write` accepted, the bytes the
service took, and whether the peer's `FIN` was consumed.

What the connection asks its surroundings is answered from lists in the state: `now()`, `ip_room()`
and the `room` callback of the service. An answer that is missing is 0. The callbacks of the
service are the calls they make; the `closed` callbacks make none. Ports, addresses, checksums
and the IP header play no part here.
-/

namespace DiscoBsd.Tcp

open Lib

/-- Size of the send buffer of a connection. -/
def TXBUF : Nat := 2048

/-- The largest segment we accept. -/
def MYMSS : Nat := 512

/-- Retransmissions before the connection is reset. -/
def MAXRETRY : Nat := 8

/-- The longest retransmit timeout, in seconds. -/
def RTO_MAX : Nat := 16

/-- Seconds in `TIME_WAIT`. -/
def TIMEWAIT : Nat := 2

/-- Seconds to wait for the peer's `FIN`. -/
def FINWAIT2 : Nat := 60

/-- Sequence numbers. -/
abbrev Seq := BitVec 32

/-- The states of a connection. -/
inductive State where
  | closed
  | synRcvd
  | established
  | closeWait
  | lastAck
  | finWait1
  | finWait2
  | closing
  | timeWait
  deriving DecidableEq, Repr

/-- The flags of a segment. -/
structure Flags where
  fin : Bool
  syn : Bool
  rst : Bool
  psh : Bool
  ack : Bool
  deriving DecidableEq, Repr

/-- Only `TH_ACK`. -/
def Flags.ackOnly : Flags := ⟨false, false, false, false, true⟩

/-- A segment: what `tcp_input` reads from the header, and the data. -/
structure Segment where
  seq : Seq
  ack : Seq
  flags : Flags
  window : Nat
  data : List UInt8
  deriving DecidableEq, Repr

/-- The control block. -/
structure Tcb where
  state : State
  iss : Seq
  sndUna : Seq
  sndNxt : Seq
  sndWnd : Nat
  rcvNxt : Seq
  rcvAdv : Nat
  ackPending : Bool
  mss : Nat
  tx : Nat → UInt8
  txstart : Nat
  txlen : Nat
  finPending : Nat
  finSent : Bool
  rexmtAt : Nat
  rto : Nat
  retries : Nat
  twUntil : Nat

/-- The control block after `memset`. -/
def Tcb.zero : Tcb where
  state := .closed
  iss := 0
  sndUna := 0
  sndNxt := 0
  sndWnd := 0
  rcvNxt := 0
  rcvAdv := 0
  ackPending := false
  mss := 0
  tx := fun _ => 0
  txstart := 0
  txlen := 0
  finPending := 0
  finSent := false
  rexmtAt := 0
  rto := 0
  retries := 0
  twUntil := 0

/-- The answers of the surroundings: `now()`, `ip_room()` and the `room` callback. -/
structure World where
  now : List Nat
  ipRoom : List Int
  room : List Int
  deriving DecidableEq, Repr

/-- A connection: its control block, the answers to come, and its history. The segment emitted last
comes first. -/
structure Conn where
  tcb : Tcb
  world : World
  sent : List Segment
  written : List UInt8
  taken : List UInt8
  finTaken : Bool

/-- A call that a service makes. -/
inductive Call where
  | write (bytes : List UInt8)
  | close
  | abort
  deriving DecidableEq, Repr

/-- What the callbacks do that one segment may lead to: the calls they make, and how many of the bytes
it was given `input` takes, which is no more than there are. A service without `eof` is closed. -/
structure App where
  opened : List Call
  input : List UInt8 → List Call × Int
  eof : Option (List Call)
  input_le : ∀ data, (input data).2 ≤ data.length

/-- The discard service: it takes everything and makes no calls. -/
def discard : App where
  opened := []
  input := fun data => ([], data.length)
  eof := none
  input_le := fun _ => Int.le_refl _

/-! ## The surroundings -/

/-- `now()`. -/
def Conn.now (c : Conn) : Nat × Conn :=
  (c.world.now.headD 0, { c with world := { c.world with now := c.world.now.tail } })

/-- `rcv_window`: what the service can take, but never more than one segment. -/
def Conn.rcvWindow (c : Conn) : Nat × Conn :=
  let w := c.world.room.headD 0
  (min w.toNat MYMSS, { c with world := { c.world with room := c.world.room.tail } })

/-! ## Sending -/

/-- The bytes in flight, as a signed number. -/
def Tcb.inflight (tp : Tcb) : Int := (tp.sndNxt - tp.sndUna).toInt

/-- Emit one segment, with `len` bytes of the send buffer from offset `off` on. -/
def Conn.sendSeg (c : Conn) (seq : Seq) (flags : Flags) (off len : Nat) : Conn :=
  let (window, c) := c.rcvWindow
  let segment : Segment :=
    { seq := seq
      ack := c.tcb.rcvNxt
      flags := flags
      window := window
      data := circRead TXBUF c.tcb.tx (c.tcb.txstart + off) len }
  { c with
    tcb := { c.tcb with rcvAdv := window, ackPending := false }
    sent := segment :: c.sent }

/-- Answer a segment that is not acceptable in `SYN_RCVD` with a `RST`. -/
def Conn.sendReset (c : Conn) (segment : Segment) : Conn :=
  let reset : Segment :=
    { seq := segment.ack
      ack := 0
      flags := ⟨false, false, true, false, false⟩
      window := MYMSS
      data := [] }
  { c with sent := reset :: c.sent }

/-- Start the retransmit timer if it is not running. -/
def Conn.startTimer (c : Conn) : Conn :=
  if c.tcb.rexmtAt = 0 then
    let (t, c) := c.now
    { c with tcb := { c.tcb with rexmtAt := t + c.tcb.rto } }
  else c

/-- What `tcp_output` has not sent yet. -/
def Tcb.unsent (tp : Tcb) : Int :=
  if tp.finSent && decide (tp.inflight > tp.txlen) then 0 else tp.txlen - tp.inflight

/-- What the peer's window has room for. -/
def Tcb.win (tp : Tcb) : Int := tp.sndWnd - tp.inflight

/-- The length of the next segment. -/
def Tcb.nextLen (tp : Tcb) : Int :=
  let len := if tp.unsent > tp.mss then (tp.mss : Int) else tp.unsent
  if len > tp.win then tp.win else len

/-- `snd_nxt` moves on. -/
def Conn.advance (c : Conn) (n : Nat) : Conn :=
  { c with tcb := { c.tcb with sndNxt := serialAdd c.tcb.sndNxt n } }

/-- Send the next segment of data. -/
def Conn.sendData (c : Conn) : Conn :=
  let len := c.tcb.nextLen.toNat
  let c := c.sendSeg c.tcb.sndNxt ⟨false, false, false, true, true⟩ c.tcb.inflight.toNat len
  (c.advance len).startTimer

/-- The loop of `tcp_output`, over the answers of `ip_room`. -/
def Conn.outputLoop (c : Conn) : List Int → Conn
  | [] => { c with world := { c.world with ipRoom := [] } }
  | room :: rooms =>
      if c.tcb.unsent ≤ 0 ∨ c.tcb.win ≤ 0 then
        { c with world := { c.world with ipRoom := room :: rooms } }
      else if room < 40 + c.tcb.nextLen + 2 * 40 then
        { c with world := { c.world with ipRoom := rooms } }
      else c.sendData.outputLoop rooms

/-- The state after the `FIN` is out. -/
def State.afterFin : State → State
  | .established => .finWait1
  | .closeWait => .lastAck
  | state => state

/-- Send a `FIN` if the service has closed and the data are out. -/
def Conn.sendFin (c : Conn) : Conn :=
  if c.tcb.finPending ≠ 0 ∧ c.tcb.finSent = false ∧ c.tcb.inflight = c.tcb.txlen then
    let c := (c.sendSeg c.tcb.sndNxt ⟨true, false, false, false, true⟩ 0 0).advance 1
    { c with tcb := { c.tcb with finSent := true, state := c.tcb.state.afterFin } }.startTimer
  else c

/-- Send whatever the window allows, then a `FIN` if the service has closed. -/
def Conn.tcpOutput (c : Conn) : Conn :=
  if c.tcb.state = .synRcvd ∨ c.tcb.state = .closed ∨ c.tcb.state = .timeWait then c
  else (c.outputLoop c.world.ipRoom).sendFin

/-- An empty segment with the current acknowledgement. -/
def Conn.sendAck (c : Conn) : Conn := c.sendSeg c.tcb.sndNxt .ackOnly 0 0

/-- The connection is gone. -/
def Conn.drop (c : Conn) : Conn := { c with tcb := .zero }

/-! ## The calls of the service -/

/-- `tcp_write`: what fits into the send buffer is accepted. -/
def Conn.tcpWrite (c : Conn) (bytes : List UInt8) : Conn :=
  if c.tcb.finPending ≠ 0 ∨ (c.tcb.state ≠ .established ∧ c.tcb.state ≠ .closeWait) then c
  else
    let accepted := bytes.take (TXBUF - c.tcb.txlen)
    { c with
      tcb := { c.tcb with
        tx := circWrite TXBUF c.tcb.tx (c.tcb.txstart + c.tcb.txlen) accepted
        txlen := c.tcb.txlen + accepted.length }
      written := c.written ++ accepted }

/-- `tcp_close`. -/
def Conn.tcpClose (c : Conn) : Conn :=
  if c.tcb.finPending ≠ 0 then c
  else { c with tcb := { c.tcb with finPending := 1 } }.tcpOutput

/-- `tcp_abort`. -/
def Conn.tcpAbort (c : Conn) : Conn :=
  (c.sendSeg c.tcb.sndNxt ⟨false, false, true, false, true⟩ 0 0).drop

/-- One call. -/
def Conn.call (c : Conn) : Call → Conn
  | .write bytes => c.tcpWrite bytes
  | .close => c.tcpClose
  | .abort => c.tcpAbort

/-- The calls of a callback. -/
def Conn.calls (c : Conn) (calls : List Call) : Conn := calls.foldl Conn.call c

/-! ## A segment arrives -/

/-- The control block once the peer has acknowledged up to `ack`. The `FIN` takes up a sequence number
but is not in the send buffer. -/
def Tcb.ackTo (tp : Tcb) (ack : Seq) : Tcb :=
  let fin := tp.finSent && decide (ack = tp.sndNxt)
  let acked := (ack - tp.sndUna).toInt - if fin then 1 else 0
  let acked := (if acked > tp.txlen then (tp.txlen : Int) else acked).toNat
  { tp with
    finPending := if fin then 2 else tp.finPending
    txstart := (tp.txstart + acked) % TXBUF
    txlen := tp.txlen - acked
    sndUna := ack
    retries := 0
    rto := 1
    rexmtAt := 0 }

/-- `ack_input`: an acknowledgement counts if it is new and not of data that were not sent. -/
def Conn.ackInput (c : Conn) (ack : Seq) : Conn :=
  if serialLt c.tcb.sndUna ack = false ∨ serialLt c.tcb.sndNxt ack = true then c
  else
    let c := { c with tcb := c.tcb.ackTo ack }
    if c.tcb.inflight ≠ 0 then c.startTimer else c

/-- A new state, and how long it may last. -/
def Conn.waitIn (c : Conn) (state : State) (seconds : Nat) : Conn :=
  let (t, c) := c.now
  { c with tcb := { c.tcb with state := state, twUntil := t + seconds } }

/-- The peer acknowledged our `FIN`, in a state that goes on. -/
def Conn.finAcked (c : Conn) : Conn :=
  if c.tcb.finPending = 2 then
    match c.tcb.state with
    | .finWait1 => c.waitIn .finWait2 FINWAIT2
    | .closing => c.waitIn .timeWait TIMEWAIT
    | _ => c
  else c

/-- The state after the peer's `FIN`, and the callback. -/
def Conn.peerFin (c : Conn) (app : App) : Conn :=
  match c.tcb.state with
  | .established =>
      let c := { c with tcb := { c.tcb with state := .closeWait } }
      match app.eof with
      | some calls => c.calls calls
      | none => c.tcpClose
  | .finWait1 => c.waitIn (if c.tcb.finPending = 2 then .timeWait else .closing) TIMEWAIT
  | .finWait2 => c.waitIn .timeWait TIMEWAIT
  | _ => c

/-- The end of `tcp_input`: the `FIN` of a segment whose `dlen` bytes from `seq` on are dealt with. -/
def Conn.finInput (c : Conn) (seq : Seq) (dlen : Nat) (fin : Bool) (app : App) : Conn :=
  if fin = true ∧ serialAdd seq dlen = c.tcb.rcvNxt then
    { c with
      tcb := { c.tcb with rcvNxt := serialAdd c.tcb.rcvNxt 1 }
      finTaken := true }.sendAck.peerFin app
  else if c.tcb.state ≠ .closed then c.tcpOutput
  else c

/-- `n` bytes were taken; they are acknowledged later. -/
def Conn.took (c : Conn) (n : Nat) : Conn :=
  { c with tcb := { c.tcb with rcvNxt := serialAdd c.tcb.rcvNxt n, ackPending := true } }

/-- Data that are not old are given to the service, if they are the next ones. -/
def Conn.takeInput (c : Conn) (seq : Seq) (data : List UInt8) (fin : Bool) (app : App) : Conn :=
  if seq ≠ c.tcb.rcvNxt then c.sendAck
  else
    let took := (app.input data).2
    let c := { c with taken := c.taken ++ data.take took.toNat }.calls (app.input data).1
    if c.tcb.state = .closed then c
    else (c.took took.toNat).finInput seq data.length (fin && decide ((data.length : Int) ≤ took)) app

/-- Data in a state that takes data: what is old is cut off. `old` is positive, unless the segment
starts exactly `2 ^ 31` before `rcv_nxt`: there `dlen - old` wraps around to a negative number. -/
def Conn.dataInput (c : Conn) (segment : Segment) (app : App) : Conn :=
  if serialLt segment.seq c.tcb.rcvNxt then
    let old := (c.tcb.rcvNxt - segment.seq).toInt
    if old ≥ segment.data.length then
      c.sendAck.finInput segment.seq 0 segment.flags.fin app
    else if old < 0 then c.finInput c.tcb.rcvNxt 0 false app
    else c.takeInput c.tcb.rcvNxt (segment.data.drop old.toNat) segment.flags.fin app
  else c.takeInput segment.seq segment.data segment.flags.fin app

/-- The states in which data are taken. -/
def State.takesData (state : State) : Bool :=
  state = .established || state = .finWait1 || state = .finWait2

/-- What is in the segment besides the acknowledgement. -/
def Conn.textInput (c : Conn) (segment : Segment) (app : App) : Conn :=
  if segment.data = [] ∧ segment.flags.fin = false ∧
      serialLt segment.seq c.tcb.rcvNxt = true then c.sendAck
  else if segment.data ≠ [] ∧ c.tcb.state.takesData then c.dataInput segment app
  else c.finInput segment.seq segment.data.length segment.flags.fin app

/-- The peer's window. -/
def Conn.setWindow (c : Conn) (window : Nat) : Conn :=
  { c with tcb := { c.tcb with sndWnd := window } }

/-- `tcp_input` after the handshake. -/
def Conn.segInput (c : Conn) (segment : Segment) (app : App) : Conn :=
  let c := (c.ackInput segment.ack).setWindow segment.window
  if c.tcb.finPending = 2 ∧ c.tcb.state = .lastAck then c.drop
  else c.finAcked.textInput segment app

/-- A `RST` counts if it is in the window. -/
def Conn.rstInput (c : Conn) (seq : Seq) : Conn :=
  if serialLe c.tcb.rcvNxt seq then
    let (window, c) := c.rcvWindow
    if serialLt seq (serialAdd c.tcb.rcvNxt (window + 1)) then c.drop else c
  else c

/-- A `SYN` for a connection that is there. -/
def Conn.synInput (c : Conn) (seq : Seq) : Conn :=
  if c.tcb.state = .synRcvd ∧ serialAdd seq 1 = c.tcb.rcvNxt then
    c.sendSeg c.tcb.iss ⟨false, true, false, false, true⟩ 0 0
  else c.sendAck

/-- The acknowledgement of our `SYN`. -/
def Conn.established (c : Conn) (ack : Seq) : Conn :=
  { c with tcb := { c.tcb with sndUna := ack, rexmtAt := 0, retries := 0, state := .established } }

/-- `tcp_input`, for a segment of this connection. -/
def Conn.tcpInput (c : Conn) (segment : Segment) (app : App) : Conn :=
  if c.tcb.state = .closed then c
  else if segment.flags.rst then c.rstInput segment.seq
  else if segment.flags.syn then c.synInput segment.seq
  else if segment.flags.ack = false then c
  else if c.tcb.state = .synRcvd then
    if segment.ack ≠ serialAdd c.tcb.iss 1 then c.sendReset segment
    else
      let c := (c.established segment.ack).calls app.opened
      if c.tcb.state = .closed then c else c.segInput segment app
  else c.segInput segment app

/-! ## The timer and the main loop -/

/-- The state when the `FIN` has to be sent again. -/
def State.beforeFin : State → State
  | .finWait1 => .established
  | .lastAck | .closing => .closeWait
  | state => state

/-- Go back to the oldest unacknowledged byte. -/
def Conn.goBack (c : Conn) : Conn :=
  { c with tcb := { c.tcb with
      sndNxt := c.tcb.sndUna
      finSent := false
      state := if c.tcb.finSent then c.tcb.state.beforeFin else c.tcb.state } }

/-- Send from the oldest unacknowledged byte on; into a window of 0, one byte. -/
def Conn.resend (c : Conn) : Conn :=
  if c.tcb.sndWnd = 0 ∧ c.tcb.txlen > 0 then
    ((c.sendSeg c.tcb.sndNxt .ackOnly 0 1).advance 1).startTimer
  else c.tcpOutput

/-- The retransmit timer has run out. -/
def Conn.timeout (c : Conn) : Conn :=
  let c := { c with tcb := { c.tcb with rexmtAt := 0, retries := c.tcb.retries + 1 } }
  if c.tcb.retries > MAXRETRY then c.tcpAbort
  else
    let c := { c with tcb := { c.tcb with rto := min (c.tcb.rto * 2) RTO_MAX } }
    if c.tcb.state = .synRcvd then
      (c.sendSeg c.tcb.iss ⟨false, true, false, false, true⟩ 0 0).startTimer
    else
      let c := c.goBack.resend
      if c.tcb.rexmtAt = 0 ∧ c.tcb.inflight ≠ 0 then c.startTimer else c

/-- `tcp_timer`, for this connection. -/
def Conn.tcpTimer (c : Conn) : Conn :=
  let (t, c) := c.now
  if c.tcb.state = .closed then c
  else if c.tcb.state = .timeWait ∨ c.tcb.state = .finWait2 then
    if c.tcb.twUntil ≤ t then c.drop else c
  else if c.tcb.rexmtAt ≠ 0 ∧ c.tcb.rexmtAt ≤ t then c.timeout
  else if c.tcb.rexmtAt = 0 ∧ c.tcb.sndWnd = 0 ∧ c.tcb.txlen > 0 then c.startTimer
  else c

/-- Send a delayed acknowledgement, or tell the peer that our window has opened. -/
def Conn.updateWindow (c : Conn) : Conn :=
  if c.tcb.ackPending then c.sendAck
  else
    let (window, c) := c.rcvWindow
    if window ≥ c.tcb.rcvAdv + MYMSS / 2 then c.sendAck
    else if c.tcb.rcvAdv = 0 then
      let (window, c) := c.rcvWindow
      if window > 0 then c.sendAck else c
    else c

/-- `tcp_poll`, for this connection; `calls` are those of the `poll` callback. -/
def Conn.tcpPoll (c : Conn) (calls : List Call) : Conn :=
  let c := if c.tcb.state = .established ∨ c.tcb.state = .closeWait then c.calls calls else c
  if c.tcb.state = .closed ∨ c.tcb.state = .synRcvd ∨ c.tcb.state = .timeWait then c
  else c.tcpOutput.updateWindow

/-! ## Runs -/

/-- What happens to a connection. -/
inductive Event where
  | input (segment : Segment) (app : App)
  | timer
  | poll (calls : List Call)
  | output
  | call (call : Call)

/-- One event, with the answers the surroundings give during it. -/
structure Label where
  event : Event
  world : World

/-- What an event does. -/
def Conn.handle (c : Conn) : Event → Conn
  | .input segment app => c.tcpInput segment app
  | .timer => c.tcpTimer
  | .poll calls => c.tcpPoll calls
  | .output => c.tcpOutput
  | .call call => c.call call

/-- One event. -/
def Conn.step (c : Conn) (label : Label) : Conn :=
  { c with world := label.world }.handle label.event

/-- The passive open by a `SYN` with sequence number `seq`. -/
def passiveOpen (world : World) (iss seq : Seq) (window mss : Nat) : Conn :=
  let tcb : Tcb :=
    { Tcb.zero with
      state := .synRcvd
      rcvNxt := serialAdd seq 1
      iss := iss
      sndUna := iss
      sndNxt := serialAdd iss 1
      sndWnd := window
      mss := mss
      rto := 1 }
  let c : Conn :=
    { tcb := tcb, world := world, sent := [], written := [], taken := [], finTaken := false }
  (c.sendSeg iss ⟨false, true, false, false, true⟩ 0 0).startTimer

end DiscoBsd.Tcp
