import DiscoBsd.Telnet.Session
import Mathlib.Data.Bool.AllAny

/-!
# The telnet output is well formed

A telnet client reads a stream of data bytes, doubled `IAC`s and option commands of three bytes.
`telnet_poll` asks the terminal for no more than half the room, so that what it writes always fits; an
option reply fits if the room is not one or two bytes. As long as that is so, the client decodes what
the terminal printed, and options that were sent.
-/

namespace DiscoBsd.Telnet

open DiscoBsd.Lib DiscoBsd.Tcp

/-! ## The client's reading -/

/-- What a client takes from the stream. -/
inductive Item where
  | data (b : UInt8)
  | command (cmd opt : UInt8)

namespace Item

def bytes : Item → List UInt8
  | data b => if b = IAC then [IAC, b] else [b]
  | command cmd opt => [IAC, cmd, opt]

def data? : Item → Option UInt8
  | data b => some b
  | command _ _ => none

def command? : Item → Option (UInt8 × UInt8)
  | data _ => none
  | command cmd opt => some (cmd, opt)

end Item

/-- A client reads the stream. -/
def decode : List UInt8 → Option (List Item)
  | [] => some []
  | b :: rest =>
      if b ≠ IAC then (decode rest).map (Item.data b :: ·)
      else
        match rest with
        | [] => none
        | c :: rest =>
            if c = IAC then (decode rest).map (Item.data IAC :: ·)
            else if WILL ≤ c ∧ c ≤ DONT then
              match rest with
              | [] => none
              | opt :: rest => (decode rest).map (Item.command c opt :: ·)
            else none

/-- The commands about options. -/
def IsOption (cmd : UInt8) : Prop := WILL ≤ cmd ∧ cmd ≤ DONT

theorem decode_data {b : UInt8} (h : b ≠ IAC) (rest : List UInt8) :
    decode (b :: rest) = (decode rest).map (Item.data b :: ·) := by
  rw [decode.eq_def]
  exact if_pos h

theorem decode_iac (rest : List UInt8) :
    decode (IAC :: IAC :: rest) = (decode rest).map (Item.data IAC :: ·) := by
  rw [decode.eq_def]
  rfl

theorem decode_command {cmd : UInt8} (h : IsOption cmd) (opt : UInt8) (rest : List UInt8) :
    decode (IAC :: cmd :: opt :: rest) = (decode rest).map (Item.command cmd opt :: ·) := by
  have hne : cmd ≠ IAC := by
    rintro rfl
    exact absurd h.2 (by decide)
  have hcmd : WILL ≤ cmd ∧ cmd ≤ DONT := h
  rw [decode.eq_def]
  dsimp only
  rw [if_neg (fun hiac => hiac rfl), if_neg hne, if_pos hcmd]

theorem decode_item (item : Item) (hoption : ∀ o ∈ item.command?, IsOption o.1)
    (rest : List UInt8) : decode (item.bytes ++ rest) = (decode rest).map (item :: ·) := by
  cases item with
  | data b =>
      rw [Item.bytes]
      split
      · rename_i heq
        rw [heq]
        exact decode_iac rest
      · rename_i hne
        exact decode_data hne rest
  | command cmd opt => exact decode_command (hoption (cmd, opt) rfl) opt rest

theorem decode_append (items : List Item)
    (hoption : ∀ o ∈ items.filterMap Item.command?, IsOption o.1) (rest : List UInt8) :
    decode (items.flatMap Item.bytes ++ rest) = (decode rest).map (items ++ ·) := by
  induction items with
  | nil => exact Option.map_id'.symm
  | cons item items ih =>
      have hitem : ∀ o ∈ item.command?, IsOption o.1 := fun o ho =>
        hoption o (List.mem_filterMap.mpr ⟨item, List.mem_cons_self, ho⟩)
      have hitems : ∀ o ∈ items.filterMap Item.command?, IsOption o.1 := by
        intro o ho
        obtain ⟨item', hmem, hsome⟩ := List.mem_filterMap.mp ho
        exact hoption o (List.mem_filterMap.mpr ⟨item', List.mem_cons_of_mem _ hmem, hsome⟩)
      rw [List.flatMap_cons, List.append_assoc, decode_item item hitem, ih hitems, Option.map_map]
      rfl

theorem decode_plain (text : List UInt8) (hplain : ∀ b ∈ text, b ≠ IAC) :
    decode text = some (text.map Item.data) := by
  induction text with
  | nil => rfl
  | cons b text ih =>
      rw [decode_data (hplain b List.mem_cons_self), ih fun c hc => hplain c (List.mem_cons_of_mem b hc)]
      rfl

theorem escape_eq (b : List UInt8) : escape b = (b.map Item.data).flatMap Item.bytes :=
  (List.flatMap_map Item.data Item.bytes b).symm

theorem length_escape_le (b : List UInt8) : (escape b).length ≤ 2 * b.length := by
  induction b with
  | nil => exact Nat.le_refl 0
  | cons c b ih =>
      have hone : (if c = IAC then [IAC, c] else [c]).length ≤ 2 := by
        split
        · exact Nat.le_refl 2
        · exact Nat.le_succ 1
      rw [escape, List.flatMap_cons, List.length_append, List.length_cons]
      rw [escape] at ih
      omega

theorem data_map (b : List UInt8) :
    (b.map Item.data).filterMap Item.data? = b ∧ (b.map Item.data).filterMap Item.command? = [] := by
  constructor
  · rw [List.filterMap_map]
    exact List.filterMap_some
  · rw [List.filterMap_map]
    exact List.filterMap_eq_nil_iff.mpr fun _ _ => rfl

/-! ## The connection -/

/-- A connection on which neither side has closed. -/
structure IsOpen (c : Conn) : Prop where
  state : c.tcb.state = .established
  pending : c.tcb.finPending = 0
  sent : c.tcb.finSent = false

/-- What sending and acknowledgements leave alone. -/
def link (c : Conn) : Tcp.State × Nat × Bool × List UInt8 :=
  (c.tcb.state, c.tcb.finPending, c.tcb.finSent, c.written)

theorem IsOpen.of_link {c c' : Conn} (h : IsOpen c) (hlink : link c' = link c) : IsOpen c' := by
  obtain ⟨hstate, hpending, hsent, -⟩ : _ ∧ _ ∧ _ ∧ _ := by
    simpa only [link, Prod.mk.injEq] using hlink
  exact ⟨hstate.trans h.state, hpending.trans h.pending, hsent.trans h.sent⟩

theorem written_of_link {c c' : Conn} (hlink : link c' = link c) : c'.written = c.written :=
  congrArg (·.2.2.2) hlink

theorem link_startTimer (c : Conn) : link c.startTimer = link c := by
  rw [Conn.startTimer]
  split <;> rfl

theorem link_outputLoop (c : Conn) (rooms : List Int) : link (c.outputLoop rooms) = link c := by
  induction rooms generalizing c with
  | nil => rfl
  | cons room rooms ih =>
      rw [Conn.outputLoop]
      split
      · rfl
      · split
        · rfl
        · rw [ih, Conn.sendData]
          exact link_startTimer _

theorem link_tcpOutput {c : Conn} (h : IsOpen c) : link c.tcpOutput = link c := by
  rw [Conn.tcpOutput]
  split
  · rfl
  · have hlink := link_outputLoop c c.world.ipRoom
    have hpending := (h.of_link hlink).pending
    rw [Conn.sendFin, if_neg (fun hfin => hfin.1 hpending)]
    exact hlink

theorem link_ackInput {c : Conn} (h : IsOpen c) (ack : Seq) : link (c.ackInput ack) = link c := by
  rw [Conn.ackInput]
  split
  · rfl
  · have hack : link { c with tcb := c.tcb.ackTo ack } = link c := by
      simp [link, Tcb.ackTo, h.sent]
    dsimp only
    split
    · exact (link_startTimer _).trans hack
    · exact hack

theorem link_goBack {c : Conn} (h : IsOpen c) : link c.goBack = link c := by
  simp [link, Conn.goBack, h.sent]

theorem link_resend {c : Conn} (h : IsOpen c) : link c.resend = link c := by
  rw [Conn.resend]
  split
  · exact link_startTimer _
  · exact link_tcpOutput h

/-- A timeout at most drops the connection. -/
theorem link_timeout {c : Conn} (h : IsOpen c) :
    link c.timeout = link c ∨ c.timeout.tcb.state = .closed := by
  have hsyn : c.tcb.state ≠ .synRcvd := by
    rw [h.state]
    exact nofun
  rw [Conn.timeout]
  dsimp only
  split
  · exact .inr rfl
  · have hopen : IsOpen { c with tcb := { c.tcb with
        rexmtAt := 0
        retries := c.tcb.retries + 1
        rto := min (c.tcb.rto * 2) RTO_MAX } } := ⟨h.state, h.pending, h.sent⟩
    have hback := link_goBack hopen
    have hresend := (link_resend (hopen.of_link hback)).trans hback
    split
    · exact .inl ((link_startTimer _).trans hresend)
    · exact .inl hresend

theorem link_tcpTimer {c : Conn} (h : IsOpen c) :
    link c.tcpTimer = link c ∨ c.tcpTimer.tcb.state = .closed := by
  have hopen : IsOpen c.now.2 := h.of_link rfl
  rw [Conn.tcpTimer]
  dsimp only
  rw [hopen.state, if_neg nofun, if_neg (by decide)]
  split
  · exact link_timeout hopen
  · split
    · exact .inl (link_startTimer _)
    · exact .inl rfl

theorem IsOpen.tcpWrite {c : Conn} (h : IsOpen c) (bytes : List UInt8) :
    IsOpen (c.tcpWrite bytes) ∧
      (c.tcpWrite bytes).written = c.written ++ bytes.take (TXBUF - c.tcb.txlen) := by
  have haccepts : ¬ (c.tcb.finPending ≠ 0 ∨
      (c.tcb.state ≠ .established ∧ c.tcb.state ≠ .closeWait)) := by
    rw [h.state, h.pending]
    decide
  rw [Conn.tcpWrite, if_neg haccepts]
  exact ⟨⟨h.state, h.pending, h.sent⟩, rfl⟩

/-! ## Whatever the state of the connection -/

theorem written_sendFin (c : Conn) : c.sendFin.written = c.written := by
  rw [Conn.sendFin]
  split
  · exact (written_of_link (link_startTimer _)).trans rfl
  · rfl

theorem written_tcpOutput (c : Conn) : c.tcpOutput.written = c.written := by
  rw [Conn.tcpOutput]
  split
  · rfl
  · rw [written_sendFin]
    exact written_of_link (link_outputLoop c c.world.ipRoom)

theorem written_tcpClose (c : Conn) : c.tcpClose.written = c.written := by
  rw [Conn.tcpClose]
  split
  · rfl
  · exact (written_tcpOutput _).trans rfl

theorem written_ackInput (c : Conn) (ack : Seq) : (c.ackInput ack).written = c.written := by
  rw [Conn.ackInput]
  split
  · rfl
  · dsimp only
    split
    · exact (written_of_link (link_startTimer _)).trans rfl
    · rfl

theorem written_timeout (c : Conn) : c.timeout.written = c.written := by
  have hresend : ∀ c : Conn, c.resend.written = c.written := by
    intro c
    rw [Conn.resend]
    split
    · exact (written_of_link (link_startTimer _)).trans rfl
    · exact written_tcpOutput c
  rw [Conn.timeout]
  dsimp only
  split
  · rfl
  · split
    · exact (written_of_link (link_startTimer _)).trans rfl
    · split
      · exact (written_of_link (link_startTimer _)).trans (hresend _)
      · exact hresend _

theorem written_tcpTimer (c : Conn) : c.tcpTimer.written = c.written := by
  rw [Conn.tcpTimer]
  dsimp only
  split
  · rfl
  · split
    · split <;> rfl
    · split
      · exact written_timeout _
      · split
        · exact (written_of_link (link_startTimer _)).trans rfl
        · rfl

/-! ## Sessions -/

namespace Session

/-- A byte of the client that is answered finds no room at all, or enough. -/
def Fits (k : Session) (c : UInt8) : Prop :=
  k.state = .opt → reply k.optcmd c ≠ none → k.room = 0 ∨ 3 ≤ k.room

/-- So do all bytes that `telnet_input` takes. -/
def Roomy (k : Session) : List UInt8 → Prop
  | [] => True
  | c :: b => k.input.length < INBUF → k.Fits c ∧ (k.byte c).Roomy b

def Proper (k : Session) : Event → Prop
  | .input b => k.tp = true → k.Roomy b
  | _ => True

def Step (k : Session) (e : Event) (k' : Session) : Prop := k.Proper e ∧ k' = k.event e

/-- The stream consists of what the terminal printed and of options that were sent; behind it there may
be a text at the end of the session. -/
structure Streams (k : Session) (items : List Item) (text : List UInt8) : Prop where
  written : k.conn.written = items.flatMap Item.bytes ++ text
  data : items.filterMap Item.data? = k.output
  commands : (items.filterMap Item.command?).Sublist k.options
  options : ∀ o ∈ k.options, IsOption o.1
  text : text <+: killedText

structure Sound (k : Session) : Prop where
  live : k.tp = true → IsOpen k.conn ∧ ∃ items, k.Streams items []
  stream : ∃ items text, k.Streams items text

theorem Sound.of_live {k : Session} (hopen : IsOpen k.conn) {items : List Item}
    (h : k.Streams items []) : k.Sound :=
  ⟨fun _ => ⟨hopen, items, h⟩, items, [], h⟩

/-- A live session. -/
def Live (k : Session) : Prop := k.tp = true ∧ IsOpen k.conn ∧ ∃ items, k.Streams items []

theorem Live.sound {k : Session} (h : k.Live) : k.Sound := by
  obtain ⟨-, hopen, items, hstreams⟩ := h
  exact .of_live hopen hstreams

/-- Only the connection and the history count. -/
theorem Live.congr {k k' : Session} (h : k.Live) (htp : k'.tp = k.tp) (hconn : k'.conn = k.conn)
    (houtput : k'.output = k.output) (hoptions : k'.options = k.options) : k'.Live := by
  obtain ⟨hlive, hopen, items, hstreams⟩ := h
  refine ⟨htp.trans hlive, hconn ▸ hopen, items, ?_, ?_, ?_, ?_, hstreams.text⟩
  · rw [hconn]
    exact hstreams.written
  · rw [houtput]
    exact hstreams.data
  · rw [hoptions]
    exact hstreams.commands
  · rw [hoptions]
    exact hstreams.options

/-- An option is sent whole, or not at all. -/
theorem Live.sendOpt {k : Session} (h : k.Live) (cmd : UInt8) (hcmd : IsOption cmd) (opt : UInt8)
    (hroom : k.room = 0 ∨ 3 ≤ k.room) : (k.sendOpt cmd opt).Live := by
  obtain ⟨hlive, hopen, items, hstreams⟩ := h
  obtain ⟨hopen', hwritten⟩ := hopen.tcpWrite [IAC, cmd, opt]
  rw [hstreams.written, List.append_nil] at hwritten
  have hoptions : ∀ o ∈ k.options ++ [(cmd, opt)], IsOption o.1 := by
    intro o ho
    rcases List.mem_append.mp ho with hold | hnew
    · exact hstreams.options o hold
    · rw [List.mem_singleton.mp hnew]
      exact hcmd
  rcases hroom with hnone | hroom
  · refine ⟨hlive, hopen', items, ?_, hstreams.data,
      hstreams.commands.trans (List.sublist_append_left ..), hoptions, hstreams.text⟩
    rw [room] at hnone
    rw [hnone, List.take_zero] at hwritten
    exact hwritten
  · refine ⟨hlive, hopen', items ++ [.command cmd opt], ?_, ?_, ?_, hoptions, hstreams.text⟩
    · rw [room] at hroom
      rw [List.take_of_length_le hroom] at hwritten
      rw [List.flatMap_append, List.append_nil]
      exact hwritten
    · rw [List.filterMap_append, hstreams.data]
      exact List.append_nil _
    · rw [List.filterMap_append]
      exact hstreams.commands.append (List.Sublist.refl [(cmd, opt)])

theorem isOption_of_reply {cmd opt answer : UInt8} (h : reply cmd opt = some answer) :
    IsOption answer := by
  have hanswer : answer = WONT ∨ answer = DONT := by
    rw [reply] at h
    split at h
    · cases h
    · split at h
      · cases h
      · split at h
        · exact .inl (Option.some.inj h).symm
        · split at h
          · exact .inr (Option.some.inj h).symm
          · cases h
  rcases hanswer with rfl | rfl
  · exact ⟨by decide, by decide⟩
  · exact ⟨by decide, by decide⟩

theorem Live.option {k : Session} (h : k.Live) {cmd opt : UInt8}
    (hroom : reply cmd opt ≠ none → k.room = 0 ∨ 3 ≤ k.room) : (k.option cmd opt).Live := by
  rw [Session.option]
  cases hreply : reply cmd opt with
  | none => exact h
  | some answer =>
      refine h.sendOpt answer (isOption_of_reply hreply) opt (hroom ?_)
      rw [hreply]
      exact Option.some_ne_none answer

theorem Live.dataByte {k : Session} (h : k.Live) (c : UInt8) : (k.dataByte c).Live := by
  rw [Session.dataByte]
  split
  · exact h.congr rfl rfl rfl rfl
  · dsimp only
    split <;> exact h.congr rfl rfl rfl rfl

theorem Live.sbByte {k : Session} (h : k.Live) (c : UInt8) : (k.sbByte c).Live := by
  rw [Session.sbByte]
  split
  · exact h.congr rfl rfl rfl rfl
  · exact h

theorem Live.subneg {k : Session} (h : k.Live) : k.subneg.Live := by
  rw [Session.subneg]
  split
  · split
    · exact h
    · exact h.congr rfl rfl rfl rfl
  · exact h

theorem Live.byte {k : Session} (h : k.Live) {c : UInt8} (hfits : k.Fits c) : (k.byte c).Live := by
  rw [Session.byte]
  cases hstate : k.state with
  | cr =>
      have hdata : { k with state := .data }.Live := h.congr rfl rfl rfl rfl
      dsimp only
      split
      · exact hdata
      · exact hdata.dataByte c
  | data => exact h.dataByte c
  | iac =>
      dsimp only
      split
      · exact h.congr rfl rfl rfl rfl
      · split
        · exact h.congr rfl rfl rfl rfl
        · split <;> exact h.congr rfl rfl rfl rfl
  | opt => exact (h.option (hfits hstate)).congr rfl rfl rfl rfl
  | sb =>
      dsimp only
      split
      · exact h.congr rfl rfl rfl rfl
      · exact h.sbByte c
  | sbiac =>
      dsimp only
      split
      · exact h.subneg.congr rfl rfl rfl rfl
      · split
        · exact (h.sbByte c).congr rfl rfl rfl rfl
        · exact h.congr rfl rfl rfl rfl

theorem Live.inputLoop {k : Session} (h : k.Live) {b : List UInt8} (hroomy : k.Roomy b) :
    (k.inputLoop b).2.Live := by
  induction b generalizing k with
  | nil => exact h
  | cons c b ih =>
      rw [Session.inputLoop]
      split
      · rename_i hroom
        obtain ⟨hfits, hrest⟩ := hroomy hroom
        exact ih (h.byte hfits) hrest
      · exact h

/-- What the terminal printed is written whole. -/
theorem Live.print {k : Session} (h : k.Live) {b : List UInt8} (hb : b.length ≤ k.room / 2) :
    { k with conn := k.conn.tcpWrite (escape b), output := k.output ++ b }.Live := by
  obtain ⟨hlive, hopen, items, hstreams⟩ := h
  obtain ⟨hopen', hwritten⟩ := hopen.tcpWrite (escape b)
  obtain ⟨hdata, hcommands⟩ := data_map b
  have hroom : (escape b).length ≤ TXBUF - k.conn.tcb.txlen := by
    have := length_escape_le b
    rw [room] at hb
    omega
  refine ⟨hlive, hopen', items ++ b.map Item.data, ?_, ?_, ?_, hstreams.options, hstreams.text⟩
  · rw [List.take_of_length_le hroom, hstreams.written, List.append_nil] at hwritten
    rw [List.flatMap_append, List.append_nil, ← escape_eq]
    exact hwritten
  · rw [List.filterMap_append, hdata, hstreams.data]
  · rw [List.filterMap_append, hcommands, List.append_nil]
    exact hstreams.commands

theorem Live.logout {k : Session} (h : k.Live) : k.logout.Sound := by
  obtain ⟨-, hopen, items, hstreams⟩ := h
  refine ⟨nofun, items, ?_⟩
  by_cases hkilled : k.killed = true
  · refine ⟨killedText.take (TXBUF - k.conn.tcb.txlen), ?_, hstreams.data, hstreams.commands,
      hstreams.options, List.take_prefix ..⟩
    have hwritten := (hopen.tcpWrite killedText).2
    rw [hstreams.written, List.append_nil] at hwritten
    rw [Session.logout, if_pos hkilled]
    exact (written_tcpClose _).trans hwritten
  · refine ⟨[], ?_, hstreams.data, hstreams.commands, hstreams.options, hstreams.text⟩
    rw [Session.logout, if_neg hkilled]
    exact (written_tcpClose _).trans hstreams.written

theorem Live.telnetPoll {k : Session} (h : k.Live) (ready : Bool) (wrote : Nat)
    (read : Option (List UInt8)) : (k.telnetPoll ready wrote read).Sound := by
  have htaken : { k with input := k.input.drop wrote }.Live := h.congr rfl rfl rfl rfl
  rw [Session.telnetPoll, if_neg (by rw [h.1]; exact nofun)]
  dsimp only
  split
  · cases read with
    | none =>
        dsimp only
        split
        · exact htaken.logout
        · exact htaken.sound
    | some b =>
        dsimp only
        split
        · refine (htaken.print ?_).sound
          rw [List.length_take]
          show min (min (k.room / 2) 128) b.length ≤ k.room / 2
          omega
        · split
          · exact htaken.logout
          · exact htaken.sound
  · exact htaken.sound

theorem Sound.of_written {k k' : Session} (h : k.Sound) (hwritten : k'.conn.written = k.conn.written)
    (houtput : k'.output = k.output) (hoptions : k'.options = k.options)
    (hlive : k'.tp = true → k.tp = true ∧ IsOpen k'.conn) : k'.Sound := by
  have hkept : ∀ items text, k.Streams items text → k'.Streams items text := by
    intro items text hstreams
    exact ⟨hwritten.trans hstreams.written, houtput ▸ hstreams.data, hoptions ▸ hstreams.commands,
      hoptions ▸ hstreams.options, hstreams.text⟩
  constructor
  · intro htp
    obtain ⟨hbefore, hopen⟩ := hlive htp
    obtain ⟨-, items, hstreams⟩ := h.live hbefore
    exact ⟨hopen, items, hkept items [] hstreams⟩
  · obtain ⟨items, text, hstreams⟩ := h.stream
    exact ⟨items, text, hkept items text hstreams⟩

/-- The rest of `tcp.c` leaves the stream alone. -/
theorem Sound.goOn {k : Session} (h : k.Sound) {conn : Conn}
    (hwritten : conn.written = k.conn.written)
    (hopen : IsOpen k.conn → link conn = link k.conn ∨ conn.tcb.state = .closed) :
    (k.goOn conn).Sound := by
  refine h.of_written hwritten rfl rfl fun htp => ?_
  obtain ⟨hbefore, hstate⟩ := Bool.and_eq_true_iff.mp htp
  have hbeforeOpen := (h.live hbefore).1
  refine ⟨hbefore, ?_⟩
  rcases hopen hbeforeOpen with hlink | hclosed
  · exact hbeforeOpen.of_link hlink
  · exact absurd hclosed (of_decide_eq_true hstate)

theorem Sound.event {k : Session} {e : Event} (h : k.Sound) (hproper : k.Proper e) :
    (k.event e).Sound := by
  have hlive : k.tp = true → k.Live := fun htp => ⟨htp, h.live htp⟩
  cases e with
  | input b =>
      rw [Session.event, telnetInput]
      split
      · rename_i htp
        exact ((hlive htp).inputLoop (hproper htp)).sound
      · exact h
  | poll ready wrote read =>
      by_cases htp : k.tp = true
      · exact (hlive htp).telnetPoll ready wrote read
      · rw [Session.event, Session.telnetPoll, if_pos (Bool.eq_false_iff.mpr htp)]
        exact h
  | died killed => exact h.of_written rfl rfl rfl fun htp => ⟨htp, (h.live htp).1⟩
  | eof =>
      rw [Session.event]
      split
      · exact h.of_written (written_tcpClose _) rfl rfl nofun
      · exact h
  | ack ack world =>
      exact h.goOn (written_ackInput _ ack) fun hopen =>
        .inl (link_ackInput (c := { k.conn with world := world })
          ⟨hopen.state, hopen.pending, hopen.sent⟩ ack)
  | output world =>
      exact h.goOn (written_tcpOutput _) fun hopen =>
        .inl (link_tcpOutput (c := { k.conn with world := world })
          ⟨hopen.state, hopen.pending, hopen.sent⟩)
  | timer world =>
      exact h.goOn (written_tcpTimer _) fun hopen =>
        link_tcpTimer (c := { k.conn with world := world }) ⟨hopen.state, hopen.pending, hopen.sent⟩

/-! ## Runs -/

/-- A connection that is just there, with an empty send buffer. -/
structure Fresh (c : Conn) : Prop where
  isOpen : IsOpen c
  txlen : c.tcb.txlen = 0
  written : c.written = []

theorem fresh_established (world : World) (iss seq : Seq) (window mss : Nat) :
    Fresh ((passiveOpen world iss seq window mss).established (serialAdd iss 1)) :=
  ⟨⟨rfl, rfl, rfl⟩, rfl, rfl⟩

theorem txlen_tcpWrite {c : Conn} (h : IsOpen c) (bytes : List UInt8) :
    (c.tcpWrite bytes).tcb.txlen = c.tcb.txlen + (bytes.take (TXBUF - c.tcb.txlen)).length := by
  have haccepts : ¬ (c.tcb.finPending ≠ 0 ∨
      (c.tcb.state ≠ .established ∧ c.tcb.state ≠ .closeWait)) := by
    rw [h.state, h.pending]
    decide
  rw [Conn.tcpWrite, if_neg haccepts]

/-- A live session between two commands of the client, with all its bytes still in the send buffer. -/
structure Filled (k : Session) (stream : List UInt8) : Prop where
  live : k.Live
  txlen : k.conn.tcb.txlen = stream.length
  written : k.conn.written = stream
  state : k.state = .data
  input : k.input = []

theorem Filled.sendOpt {k : Session} {stream : List UInt8} (h : k.Filled stream) (cmd : UInt8)
    (hcmd : IsOption cmd) (opt : UInt8) (hroom : stream.length + 3 ≤ TXBUF) :
    (k.sendOpt cmd opt).Filled (stream ++ [IAC, cmd, opt]) := by
  have hfits : [IAC, cmd, opt].length ≤ TXBUF - k.conn.tcb.txlen := by
    rw [h.txlen]
    exact Nat.le_sub_of_add_le' hroom
  have htxlen := txlen_tcpWrite h.live.2.1 [IAC, cmd, opt]
  have hwritten := (h.live.2.1.tcpWrite [IAC, cmd, opt]).2
  rw [List.take_of_length_le hfits] at htxlen hwritten
  refine ⟨h.live.sendOpt cmd hcmd opt (.inr hfits), ?_, ?_, h.state, h.input⟩
  · rw [List.length_append, ← h.txlen]
    exact htxlen
  · rw [← h.written]
    exact hwritten

/-- What `telnet_open` sends. -/
def offers : List UInt8 :=
  [IAC, WILL, OPT_ECHO] ++ [IAC, WILL, OPT_SGA] ++ [IAC, DO, OPT_NAWS]

theorem filled_telnetOpen {c : Conn} (h : Fresh c) : (telnetOpen c).Filled offers := by
  have hstart : (start c).Filled [] :=
    ⟨⟨rfl, h.isOpen, [], h.written, rfl, List.Sublist.refl [], nofun, List.nil_prefix⟩, h.txlen,
      h.written, rfl, rfl⟩
  have hecho := hstart.sendOpt WILL ⟨by decide, by decide⟩ OPT_ECHO (by decide)
  have hsga := hecho.sendOpt WILL ⟨by decide, by decide⟩ OPT_SGA (by decide)
  exact hsga.sendOpt DO ⟨by decide, by decide⟩ OPT_NAWS (by decide)

/-- In a run in which every option reply finds no room or room for three bytes, the stream that the
connection accepted consists of data bytes, doubled `IAC`s and whole option commands: a client decodes
what the terminal printed, in the end perhaps followed by part of the text about a killed login, and
options that were sent. -/
theorem telnet_well_formed {c : Conn} (h : Fresh c) {events : List Event} {k : Session}
    (hrun : Steps Step (telnetOpen c) events k) :
    ∃ items text, k.conn.written = items.flatMap Item.bytes ++ text ∧
      decode k.conn.written = some (items ++ text.map Item.data) ∧
      items.filterMap Item.data? = k.output ∧
      (items.filterMap Item.command?).Sublist k.options ∧
      text <+: killedText ∧ (k.tp = true → text = []) := by
  have hkept : ∀ k e k', Sound k → Step k e k' → Sound k' := by
    rintro k e k' h ⟨hproper, rfl⟩
    exact h.event hproper
  have hsound : k.Sound := Steps.invariant Sound hkept hrun (filled_telnetOpen h).live.sound
  have hread : ∀ items text, k.Streams items text →
      decode k.conn.written = some (items ++ text.map Item.data) := by
    intro items text hstreams
    have hplain : ∀ b ∈ text, b ≠ IAC := by
      have hall : ∀ b ∈ killedText, b ≠ IAC := List.all_iff_forall_prop.mp (by decide +kernel)
      exact fun b hb => hall b (hstreams.text.subset hb)
    have htext := decode_plain text hplain
    rw [hstreams.written, decode_append items
      (fun o ho => hstreams.options o (hstreams.commands.subset ho)), htext]
    rfl
  by_cases htp : k.tp = true
  · obtain ⟨-, items, hstreams⟩ := hsound.live htp
    exact ⟨items, [], hstreams.written, hread items [] hstreams, hstreams.data, hstreams.commands,
      hstreams.text, fun _ => rfl⟩
  · obtain ⟨items, text, hstreams⟩ := hsound.stream
    exact ⟨items, text, hstreams.written, hread items text hstreams, hstreams.data,
      hstreams.commands, hstreams.text, fun hlive => absurd hlive htp⟩

/-- A connection behind its handshake. -/
def handshaken : Conn := (passiveOpen ⟨[], [], []⟩ 0 7 512 512).established 1

/-- An option is refused, and the terminal prints an `IAC`. -/
theorem telnet_well_formed_refused :
    ∃ k : Session, Steps Step (telnetOpen handshaken)
        [.input [IAC, DO, 5], .poll true 0 (some [97, 255])] k ∧
      k.output = [97, 255] ∧ k.options.getLast? = some (WONT, 5) ∧
      ∃ items, decode k.conn.written = some items ∧ items.filterMap Item.data? = [97, 255] := by
  have hroomy : (telnetOpen handshaken).Roomy [IAC, DO, 5] := by
    refine fun _ => ⟨nofun, fun _ => ⟨nofun, fun _ => ⟨fun _ _ => .inr ?_, trivial⟩⟩⟩
    exact Nat.le_of_ble_eq_true rfl
  have hrun : Steps Step (telnetOpen handshaken)
      [.input [IAC, DO, 5], .poll true 0 (some [97, 255])] _ :=
    .cons ⟨fun _ => hroomy, rfl⟩ (.cons ⟨trivial, rfl⟩ (.refl _))
  obtain ⟨items, text, -, hdecode, hdata, -, -, hlive⟩ :=
    telnet_well_formed (fresh_established ⟨[], [], []⟩ 0 7 512 512) hrun
  rw [hlive rfl, List.map_nil, List.append_nil] at hdecode
  exact ⟨_, hrun, rfl, rfl, items, hdecode, hdata⟩

/-- The terminal prints a letter. -/
theorem Filled.letter {k : Session} {stream : List UInt8} (h : k.Filled stream)
    (hroom : stream.length + 2 ≤ TXBUF) :
    (k.event (.poll true 0 (some [97]))).Filled (stream ++ [97]) := by
  have hasked : min ({ k with input := k.input.drop 0 }.room / 2) 128 > 0 := by
    have hroom' : { k with input := k.input.drop 0 }.room = TXBUF - stream.length :=
      congrArg (TXBUF - ·) h.txlen
    rw [hroom']
    omega
  have htake : [(97 : UInt8)].take (min ({ k with input := k.input.drop 0 }.room / 2) 128) = [97] :=
    List.take_of_length_le hasked
  have hprinted : k.event (.poll true 0 (some [97])) =
      { k with
        input := k.input.drop 0
        conn := k.conn.tcpWrite [97]
        output := k.output ++ [97] } := by
    rw [Session.event, Session.telnetPoll, if_neg (by rw [h.live.1]; exact nofun)]
    dsimp only
    rw [if_pos ⟨hasked, .inl rfl⟩, htake]
    rfl
  have hone : 1 ≤ TXBUF - k.conn.tcb.txlen := by
    rw [h.txlen]
    omega
  have htxlen := txlen_tcpWrite h.live.2.1 [97]
  have hwritten := (h.live.2.1.tcpWrite [97]).2
  rw [List.take_of_length_le hone] at htxlen hwritten
  have hlive : { k with conn := k.conn.tcpWrite (escape [97]), output := k.output ++ [97] }.Live :=
    h.live.print (by rw [room, h.txlen]; simp only [List.length_singleton]; omega)
  rw [hprinted]
  refine ⟨hlive.congr rfl rfl rfl rfl, ?_, ?_, h.state, ?_⟩
  · rw [List.length_append, ← h.txlen]
    exact htxlen
  · rw [← h.written]
    exact hwritten
  · rw [List.drop_zero]
    exact h.input

theorem Filled.letters {k : Session} {stream : List UInt8} (n : Nat) (h : k.Filled stream)
    (hroom : stream.length + n + 1 ≤ TXBUF) :
    ((List.replicate n (.poll true 0 (some [97]))).foldl event k).Filled
      (stream ++ List.replicate n 97) := by
  induction n generalizing k stream with
  | zero =>
      simp only [List.replicate_zero, List.append_nil]
      exact h
  | succ n ih =>
      have hletter := h.letter (by omega)
      have hrest := ih hletter (by rw [List.length_append, List.length_singleton]; omega)
      rw [List.append_assoc] at hrest
      exact hrest

/-- With room for two bytes a reply is cut, and a client does not decode the stream. -/
theorem Filled.cut {k : Session} {stream : List UInt8} (hfilled : k.Filled stream)
    (hlen : stream.length = 2046) :
    decode (k.event (.input [IAC, DO, 5])).conn.written = none := by
  have hempty : k.input.length < INBUF := by
    rw [hfilled.input]
    decide
  have hreply : (k.event (.input [IAC, DO, 5])).conn = k.conn.tcpWrite [IAC, WONT, 5] := by
    rw [Session.event, telnetInput, if_pos hfilled.live.1, inputLoop, if_pos hempty, Session.byte,
      hfilled.state]
    dsimp only
    rw [Session.dataByte, if_pos rfl]
    rw [inputLoop, if_pos hempty, Session.byte]
    dsimp only
    rw [if_neg (by decide), if_pos (by decide)]
    rw [inputLoop, if_pos hempty, Session.byte]
    rfl
  have hroom : TXBUF - k.conn.tcb.txlen = 2 := by
    rw [hfilled.txlen, hlen]
    rfl
  have hwritten := (hfilled.live.2.1.tcpWrite [IAC, WONT, 5]).2
  rw [hroom, hfilled.written] at hwritten
  obtain ⟨-, -, items, hstreams⟩ := hfilled.live
  have hitems := hstreams.written
  rw [hfilled.written, List.append_nil] at hitems
  rw [hreply, hwritten, hitems, decode_append items
    (fun o ho => hstreams.options o (hstreams.commands.subset ho))]
  rfl

/-- The terminal prints until there is room for two bytes, and the client asks for an option. -/
def crowded : List Event := List.replicate 2037 (.poll true 0 (some [97])) ++ [.input [IAC, DO, 5]]

theorem telnet_reply_cut :
    decode (crowded.foldl event (telnetOpen handshaken)).conn.written = none := by
  have hopen : (telnetOpen handshaken).Filled offers :=
    filled_telnetOpen (fresh_established ⟨[], [], []⟩ 0 7 512 512)
  have hoffers : offers.length = 9 := rfl
  have hfilled := hopen.letters 2037 (by rw [hoffers]; decide)
  have hlen : (offers ++ List.replicate 2037 97).length = 2046 := by
    rw [List.length_append, List.length_replicate, hoffers]
  rw [crowded, List.foldl_append, List.foldl_cons, List.foldl_nil]
  exact hfilled.cut hlen

end Session

end DiscoBsd.Telnet
