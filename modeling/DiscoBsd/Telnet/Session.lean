import DiscoBsd.Lib.Steps
import DiscoBsd.Tcp.Tcb

/-!
# The telnet service of slipd: one session

`telnet.c` for one connection, on the connection of `tcp.c`: what the client sends goes through the state
machine of `telnet_input` to the pseudo-terminal, what the terminal prints goes through `telnet_poll` to
the connection. The kernel's part, the terminal and the death of `login`, is in the arguments of the
events. A session carries its history: what was read from the terminal, and the options it sent.
-/

namespace DiscoBsd.Telnet

open DiscoBsd.Tcp

def INBUF : Nat := 256

def IAC : UInt8 := 255

def DONT : UInt8 := 254

def DO : UInt8 := 253

def WONT : UInt8 := 252

def WILL : UInt8 := 251

def SB : UInt8 := 250

def SE : UInt8 := 240

def OPT_ECHO : UInt8 := 1

def OPT_SGA : UInt8 := 3

def OPT_NAWS : UInt8 := 31

inductive State where
  | data
  | iac
  | opt
  | sb
  | sbiac
  | cr
  deriving DecidableEq

/-- A connection and its session. `tp` says whether the session is still there, `pid` whether `login` is;
`ws` is the window size that the terminal was told last. -/
structure Session where
  conn : Conn
  tp : Bool
  pid : Bool
  killed : Bool
  state : State
  optcmd : UInt8
  sb : List UInt8
  input : List UInt8
  ws : Option (Nat × Nat)
  output : List UInt8
  options : List (UInt8 × UInt8)

namespace Session

/-- `tcp_room`. -/
def room (k : Session) : Nat := TXBUF - k.conn.tcb.txlen

def sendOpt (k : Session) (cmd opt : UInt8) : Session :=
  { k with
    conn := k.conn.tcpWrite [IAC, cmd, opt]
    options := k.options ++ [(cmd, opt)] }

/-- `IAC SB ... IAC SE` is done. -/
def subneg (k : Session) : Session :=
  match k.sb with
  | [opt, colHigh, colLow, rowHigh, rowLow] =>
      if opt ≠ OPT_NAWS then k
      else
        { k with ws := some (colHigh.toNat * 256 + colLow.toNat, rowHigh.toNat * 256 + rowLow.toNat) }
  | _ => k

end Session

/-- What the client's command about an option is answered with. -/
def reply (cmd opt : UInt8) : Option UInt8 :=
  if (opt = OPT_ECHO ∨ opt = OPT_SGA) ∧ (cmd = DO ∨ cmd = WILL) then none
  else if opt = OPT_NAWS ∧ (cmd = WILL ∨ cmd = WONT) then none
  else if cmd = DO then some WONT
  else if cmd = WILL then some DONT
  else none

namespace Session

def option (k : Session) (cmd opt : UInt8) : Session :=
  match reply cmd opt with
  | some answer => k.sendOpt answer opt
  | none => k

/-- A byte in the state `S_DATA`. -/
def dataByte (k : Session) (c : UInt8) : Session :=
  if c = IAC then { k with state := .iac }
  else
    let k := { k with input := k.input ++ [c] }
    if c = 13 then { k with state := .cr } else k

/-- A byte of the subnegotiation, if there is room for it. -/
def sbByte (k : Session) (c : UInt8) : Session :=
  if k.sb.length < 8 then { k with sb := k.sb ++ [c] } else k

/-- The body of the loop of `telnet_input`. -/
def byte (k : Session) (c : UInt8) : Session :=
  match k.state with
  | .cr =>
      let k := { k with state := .data }
      if c = 10 ∨ c = 0 then k else k.dataByte c
  | .data => k.dataByte c
  | .iac =>
      let k := { k with state := .data }
      if c = IAC then { k with input := k.input ++ [c] }
      else if WILL ≤ c ∧ c ≤ DONT then { k with optcmd := c, state := .opt }
      else if c = SB then { k with sb := [], state := .sb }
      else k
  | .opt => { k.option k.optcmd c with state := .data }
  | .sb => if c = IAC then { k with state := .sbiac } else k.sbByte c
  | .sbiac =>
      if c = SE then { k.subneg with state := .data }
      else { (if c = IAC then k.sbByte c else k) with state := .sb }

def inputLoop (k : Session) : List UInt8 → Nat × Session
  | [] => (0, k)
  | c :: b =>
      if k.input.length < INBUF then
        let (i, k) := (k.byte c).inputLoop b
        (i + 1, k)
      else (0, k)

/-- `telnet_input`: how many bytes it takes, and the session after that. -/
def telnetInput (k : Session) (b : List UInt8) : Nat × Session :=
  if k.tp then k.inputLoop b else (b.length, k)

end Session

/-- Double `IAC` in what the terminal prints. -/
def escape (b : List UInt8) : List UInt8 :=
  b.flatMap fun c => if c = IAC then [IAC, c] else [c]

/-- What the client is told when the kernel has killed `login`. -/
def killedText : List UInt8 :=
  "\r\nslipd: login session killed (out of memory?)\r\n".toList.map fun c => UInt8.ofNat c.toNat

namespace Session

/-- The session is over: `login` is gone, and its output is out. -/
def logout (k : Session) : Session :=
  let conn := if k.killed then k.conn.tcpWrite killedText else k.conn
  { k with conn := conn.tcpClose, tp := false }

/-- `telnet_poll`. The terminal takes `wrote` bytes; `read` is what it prints, as far as it is asked for,
or `none` for an error. -/
def telnetPoll (k : Session) (ready : Bool) (wrote : Nat) (read : Option (List UInt8)) : Session :=
  if k.tp = false then k
  else
    let k := { k with input := k.input.drop wrote }
    let n := min (k.room / 2) 128
    if n > 0 ∧ (ready ∨ k.pid = false) then
      match read with
      | some b =>
          let b := b.take n
          if b ≠ [] then { k with conn := k.conn.tcpWrite (escape b), output := k.output ++ b }
          else if k.pid = false then k.logout
          else k
      | none => if k.pid = false then k.logout else k
    else k

end Session

inductive Event where
  | input (b : List UInt8)
  | poll (ready : Bool) (wrote : Nat) (read : Option (List UInt8))
  | died (killed : Bool)
  | eof
  | ack (ack : Seq) (world : World)
  | output (world : World)
  | timer (world : World)

namespace Session

/-- `tcp.c` goes on with the connection; `telnet_closed` ends the session with it. -/
def goOn (k : Session) (conn : Conn) : Session :=
  { k with conn := conn, tp := k.tp && decide (conn.tcb.state ≠ .closed) }

def event (k : Session) : Event → Session
  | .input b => (k.telnetInput b).2
  | .poll ready wrote read => k.telnetPoll ready wrote read
  | .died killed => { k with pid := false, killed := killed }
  | .eof => if k.tp then { k with conn := k.conn.tcpClose, tp := false } else k
  | .ack ack world => k.goOn ({ k.conn with world := world }.ackInput ack)
  | .output world => k.goOn { k.conn with world := world }.tcpOutput
  | .timer world => k.goOn { k.conn with world := world }.tcpTimer

/-- A session on a connection, with a terminal and a `login`. -/
def start (conn : Conn) : Session where
  conn := conn
  tp := true
  pid := true
  killed := false
  state := .data
  optcmd := 0
  sb := []
  input := []
  ws := none
  output := []
  options := []

/-- `telnet_open`, if there is a terminal and a `login`. -/
def telnetOpen (conn : Conn) : Session :=
  (((start conn).sendOpt WILL OPT_ECHO).sendOpt WILL OPT_SGA).sendOpt DO OPT_NAWS

end Session

end DiscoBsd.Telnet
