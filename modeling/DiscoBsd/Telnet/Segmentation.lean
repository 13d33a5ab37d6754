import DiscoBsd.Telnet.Session

/-!
# What the client sends, however it is cut

A `Feed` is a session with what the client has yet to send, and the history of what came of it: the bytes that
reached the terminal and the window sizes that it was told. The client's stream may be cut anywhere,
and `telnet_input` stops wherever its buffer is full; `telnet_input_segmentation` compares every
such run with the one that offers single bytes to an empty buffer.
-/

namespace DiscoBsd.Telnet

open DiscoBsd.Lib DiscoBsd.Tcp

/-- A session, the stream to come, and what reached the terminal. -/
structure Feed where
  session : Session
  rest : List UInt8
  pty : List UInt8
  windows : List (Nat × Nat)

/-- The window sizes that one byte hands to the terminal. -/
def Session.applied (k : Session) (c : UInt8) : List (Nat × Nat) :=
  if k.state = .sbiac ∧ c = SE then ({ k with ws := none }.subneg.ws).toList else []

/-- The window sizes of several bytes. -/
def Session.appliedAll (k : Session) : List UInt8 → List (Nat × Nat)
  | [] => []
  | c :: b => k.applied c ++ (k.byte c).appliedAll b

/-- What the terminal takes out of the buffer, in `telnet_poll`. -/
def Session.moved (k : Session) : Event → List UInt8
  | .poll _ wrote _ => if k.tp then k.input.take wrote else []
  | _ => []

namespace Feed

/-- `telnet_input` is offered `b`, and what it takes is gone from the stream. -/
def offer (f : Feed) (b : List UInt8) : Feed :=
  let taken := f.session.telnetInput b
  { session := taken.2
    rest := f.rest.drop taken.1
    pty := f.pty
    windows := f.windows ++ if f.session.tp then f.session.appliedAll (b.take taken.1) else [] }

/-- Any event that brings no bytes of the client. -/
def other (f : Feed) (e : Event) : Feed :=
  { f with
    session := f.session.event e
    pty := f.pty ++ f.session.moved e }

def event (f : Feed) : Event → Feed
  | .input b => f.offer b
  | e => f.other e

/-- What is offered is the next part of the stream, of any length. -/
def Step (f : Feed) (e : Event) (f' : Feed) : Prop :=
  (∀ b, e = .input b → b <+: f.rest) ∧ f' = f.event e

/-- The service has been opened, and `stream` is to come. -/
def start (conn : Conn) (stream : List UInt8) : Feed where
  session := Session.telnetOpen conn
  rest := stream
  pty := []
  windows := []

/-- One byte is offered, and the terminal takes all of the buffer. -/
def single (f : Feed) (c : UInt8) : Feed :=
  (f.offer [c]).other (.poll false (f.offer [c]).session.input.length none)

/-- The stream one byte at a time, with the buffer never full. -/
def oneByOne (conn : Conn) (stream : List UInt8) : Feed :=
  stream.foldl single (start conn stream)

end Feed

/-! ## One byte -/

/-- Two sessions, with `p` and `q` at their terminals, that are as far in the stream: the buffers may
differ by what the terminals have taken. -/
structure Alike (p q : List UInt8) (k l : Session) : Prop where
  state : k.state = l.state
  optcmd : k.optcmd = l.optcmd
  sb : k.sb = l.sb
  data : p ++ k.input = q ++ l.input
  options : k.options = l.options

variable {p q : List UInt8} {k l m : Session}

theorem Alike.refl (p : List UInt8) (k : Session) : Alike p p k k := ⟨rfl, rfl, rfl, rfl, rfl⟩

theorem Alike.trans {r : List UInt8} (h : Alike p q k l) (h' : Alike q r l m) : Alike p r k m :=
  ⟨h.state.trans h'.state, h.optcmd.trans h'.optcmd, h.sb.trans h'.sb, h.data.trans h'.data,
    h.options.trans h'.options⟩

theorem Alike.setState (h : Alike p q k l) (state : State) :
    Alike p q { k with state := state } { l with state := state } :=
  ⟨rfl, h.optcmd, h.sb, h.data, h.options⟩

theorem Alike.push (h : Alike p q k l) (c : UInt8) :
    Alike p q { k with input := k.input ++ [c] } { l with input := l.input ++ [c] } := by
  refine ⟨h.state, h.optcmd, h.sb, ?_, h.options⟩
  show p ++ (k.input ++ [c]) = q ++ (l.input ++ [c])
  rw [← List.append_assoc, h.data, List.append_assoc]

theorem Alike.dataByte (h : Alike p q k l) (c : UInt8) :
    Alike p q (k.dataByte c) (l.dataByte c) := by
  unfold Session.dataByte
  split
  · exact h.setState .iac
  · dsimp only
    split
    · exact (h.push c).setState .cr
    · exact h.push c

theorem Alike.sendOpt (h : Alike p q k l) (cmd opt : UInt8) :
    Alike p q (k.sendOpt cmd opt) (l.sendOpt cmd opt) := by
  refine ⟨h.state, h.optcmd, h.sb, h.data, ?_⟩
  show k.options ++ [(cmd, opt)] = l.options ++ [(cmd, opt)]
  rw [h.options]

theorem Alike.option (h : Alike p q k l) (cmd opt : UInt8) :
    Alike p q (k.option cmd opt) (l.option cmd opt) := by
  unfold Session.option
  split
  · exact h.sendOpt _ opt
  · exact h

theorem Alike.sbByte (h : Alike p q k l) (c : UInt8) :
    Alike p q (k.sbByte c) (l.sbByte c) := by
  unfold Session.sbByte
  rw [h.sb]
  split
  · exact ⟨h.state, h.optcmd, rfl, h.data, h.options⟩
  · exact h

theorem subneg_frame (k : Session) : k.subneg = { k with ws := k.subneg.ws } := by
  unfold Session.subneg
  split
  · split <;> rfl
  · rfl

theorem Alike.subneg (h : Alike p q k l) : Alike p q k.subneg l.subneg := by
  rw [subneg_frame k, subneg_frame l]
  exact ⟨h.state, h.optcmd, h.sb, h.data, h.options⟩

/-- A byte leads two sessions that are alike to two that are alike. -/
theorem Alike.byte (h : Alike p q k l) (c : UInt8) : Alike p q (k.byte c) (l.byte c) := by
  unfold Session.byte
  rw [h.state]
  cases l.state with
  | cr =>
      dsimp only
      split
      · exact h.setState .data
      · exact (h.setState .data).dataByte c
  | data => exact h.dataByte c
  | iac =>
      dsimp only
      split
      · exact (h.setState .data).push c
      split
      · exact ⟨rfl, rfl, h.sb, h.data, h.options⟩
      split
      · exact ⟨rfl, h.optcmd, rfl, h.data, h.options⟩
      · exact h.setState .data
  | opt =>
      dsimp only
      rw [h.optcmd]
      exact (h.option l.optcmd c).setState .data
  | sb =>
      dsimp only
      split
      · exact h.setState .sbiac
      · exact h.sbByte c
  | sbiac =>
      dsimp only
      split
      · exact h.subneg.setState .data
      · split
        · exact (h.sbByte c).setState .sb
        · exact h.setState .sb

/-- The terminal is told the same window sizes. -/
theorem Alike.applied (h : Alike p q k l) (c : UInt8) : k.applied c = l.applied c := by
  unfold Session.applied Session.subneg
  dsimp only
  rw [h.state, h.sb]
  split
  · split
    · split <;> rfl
    · rfl
  · rfl

/-- A byte ends no session, and kills no `login`. -/
theorem byte_frame (k : Session) (c : UInt8) :
    (k.byte c).tp = k.tp ∧ (k.byte c).pid = k.pid := by
  have hoption : ∀ cmd, (k.option cmd c).tp = k.tp ∧ (k.option cmd c).pid = k.pid := by
    intro cmd
    unfold Session.option
    split <;> exact ⟨rfl, rfl⟩
  have hsb : (k.sbByte c).tp = k.tp ∧ (k.sbByte c).pid = k.pid := by
    unfold Session.sbByte
    split <;> exact ⟨rfl, rfl⟩
  have hdata : ∀ k : Session, (k.dataByte c).tp = k.tp ∧ (k.dataByte c).pid = k.pid := by
    intro k
    unfold Session.dataByte
    split
    · exact ⟨rfl, rfl⟩
    · dsimp only
      split <;> exact ⟨rfl, rfl⟩
  unfold Session.byte
  cases k.state with
  | cr =>
      dsimp only
      split
      · exact ⟨rfl, rfl⟩
      · exact hdata _
  | data => exact hdata k
  | iac =>
      dsimp only
      split
      · exact ⟨rfl, rfl⟩
      split
      · exact ⟨rfl, rfl⟩
      split <;> exact ⟨rfl, rfl⟩
  | opt => exact hoption k.optcmd
  | sb =>
      dsimp only
      split
      · exact ⟨rfl, rfl⟩
      · exact hsb
  | sbiac =>
      dsimp only
      split
      · rw [subneg_frame]
        exact ⟨rfl, rfl⟩
      · split
        · exact hsb
        · exact ⟨rfl, rfl⟩

/-! ## One call -/

namespace Session

/-- `telnet_input` acts on exactly the bytes that it takes. -/
theorem inputLoop_eq (k : Session) (b : List UInt8) :
    (k.inputLoop b).1 ≤ b.length ∧ (k.inputLoop b).2 = (b.take (k.inputLoop b).1).foldl byte k := by
  induction b generalizing k with
  | nil => exact ⟨le_refl 0, rfl⟩
  | cons c b ih =>
      unfold inputLoop
      split
      · obtain ⟨hle, hfold⟩ := ih (k.byte c)
        exact ⟨Nat.succ_le_succ hle, hfold⟩
      · exact ⟨Nat.zero_le _, rfl⟩

theorem inputLoop_pos {b : List UInt8} (hb : b ≠ []) (hroom : k.input.length < INBUF) :
    0 < (k.inputLoop b).1 := by
  cases b with
  | nil => exact absurd rfl hb
  | cons c b =>
      unfold inputLoop
      rw [if_pos hroom]
      exact Nat.succ_pos _

end Session

/-- Feeds that are as far in the stream. -/
structure Agrees (f g : Feed) : Prop where
  alike : Alike f.pty g.pty f.session g.session
  windows : f.windows = g.windows

namespace Feed

/-- A byte that is acted on. -/
def byte (f : Feed) (c : UInt8) : Feed :=
  { f with
    session := f.session.byte c
    rest := f.rest.drop 1
    windows := f.windows ++ f.session.applied c }

/-- What is offered to a session is taken byte by byte, up to some point. -/
theorem offer_eq {f : Feed} (htp : f.session.tp = true) (b : List UInt8) :
    f.offer b = (b.take (f.session.inputLoop b).1).foldl byte f ∧
      (f.session.inputLoop b).1 ≤ b.length := by
  have hall : ∀ (bytes : List UInt8) (f : Feed), bytes.foldl byte f =
      { session := bytes.foldl Session.byte f.session
        rest := f.rest.drop bytes.length
        pty := f.pty
        windows := f.windows ++ f.session.appliedAll bytes } := by
    intro bytes
    induction bytes with
    | nil =>
        intro f
        simp [Session.appliedAll]
    | cons c bytes ih =>
        intro f
        rw [List.foldl_cons, ih]
        simp [byte, Session.appliedAll]
  obtain ⟨hle, hfold⟩ := f.session.inputLoop_eq b
  refine ⟨?_, hle⟩
  unfold offer Session.telnetInput
  rw [hall, if_pos htp]
  dsimp only
  rw [if_pos htp, hfold, List.length_take, Nat.min_eq_left hle]

end Feed

theorem Agrees.trans {f g h : Feed} (hfg : Agrees f g) (hgh : Agrees g h) : Agrees f h :=
  ⟨hfg.alike.trans hgh.alike, hfg.windows.trans hgh.windows⟩

theorem Agrees.byte {f g : Feed} (h : Agrees f g) (c : UInt8) : Agrees (f.byte c) (g.byte c) := by
  refine ⟨h.alike.byte c, ?_⟩
  show f.windows ++ f.session.applied c = g.windows ++ g.session.applied c
  rw [h.windows, h.alike.applied c]

theorem Agrees.bytes {f g : Feed} (h : Agrees f g) (b : List UInt8) :
    Agrees (b.foldl Feed.byte f) (b.foldl Feed.byte g) := by
  induction b generalizing f g with
  | nil => exact h
  | cons c b ih => exact ih (h.byte c)

/-! ## The other events -/

/-- `telnet_poll` moves the buffer on to the terminal, or ends the session. -/
theorem alike_telnetPoll (p : List UInt8) (htp : k.tp = true) (ready : Bool) (wrote : Nat)
    (read : Option (List UInt8)) :
    (k.telnetPoll ready wrote read).tp = false ∨
      Alike (p ++ k.input.take wrote) p (k.telnetPoll ready wrote read) k := by
  have hdrain : ∀ k' : Session, k'.state = k.state → k'.optcmd = k.optcmd → k'.sb = k.sb →
      k'.input = k.input.drop wrote → k'.options = k.options →
      Alike (p ++ k.input.take wrote) p k' k := by
    intro k' hstate hoptcmd hsb hinput hoptions
    refine ⟨hstate, hoptcmd, hsb, ?_, hoptions⟩
    rw [hinput, List.append_assoc, List.take_append_drop]
  unfold Session.telnetPoll
  rw [if_neg (by rw [htp]; decide)]
  dsimp only
  split
  · split
    · split
      · exact Or.inr (hdrain _ rfl rfl rfl rfl rfl)
      · split
        · exact Or.inl rfl
        · exact Or.inr (hdrain _ rfl rfl rfl rfl rfl)
    · split
      · exact Or.inl rfl
      · exact Or.inr (hdrain _ rfl rfl rfl rfl rfl)
  · exact Or.inr (hdrain _ rfl rfl rfl rfl rfl)

/-- No event brings a session back. -/
theorem event_gone (hgone : k.tp = false) (e : Event) : (k.event e).tp = false := by
  have hgoOn : ∀ conn : Conn, (k.goOn conn).tp = false := by
    intro conn
    show (k.tp && decide (conn.tcb.state ≠ .closed)) = false
    rw [hgone, Bool.false_and]
  cases e with
  | input b =>
      show (k.telnetInput b).2.tp = false
      unfold Session.telnetInput
      rw [if_neg (by rw [hgone]; decide)]
      exact hgone
  | poll ready wrote read =>
      show (k.telnetPoll ready wrote read).tp = false
      unfold Session.telnetPoll
      rwa [if_pos hgone]
  | died killed => exact hgone
  | eof =>
      show (if k.tp then _ else k).tp = false
      rwa [if_neg (by rw [hgone]; decide)]
  | ack ack world => exact hgoOn _
  | output world => exact hgoOn _
  | timer world => exact hgoOn _

/-- An event that brings no bytes leaves the stream where it is, or the session is gone. -/
theorem alike_event (p : List UInt8) (htp : k.tp = true) {e : Event} (he : ∀ b, e ≠ .input b) :
    (k.event e).tp = false ∨ Alike (p ++ k.moved e) p (k.event e) k := by
  have hsame : ∀ k' : Session, k'.state = k.state → k'.optcmd = k.optcmd → k'.sb = k.sb →
      k'.input = k.input → k'.options = k.options → Alike (p ++ []) p k' k := by
    intro k' hstate hoptcmd hsb hinput hoptions
    refine ⟨hstate, hoptcmd, hsb, ?_, hoptions⟩
    rw [hinput, List.append_nil]
  cases e with
  | input b => exact absurd rfl (he b)
  | poll ready wrote read =>
      have hmoved : k.moved (.poll ready wrote read) = k.input.take wrote := if_pos htp
      rw [hmoved]
      exact alike_telnetPoll p htp ready wrote read
  | died killed => exact Or.inr (hsame _ rfl rfl rfl rfl rfl)
  | eof =>
      left
      show (if k.tp then _ else k).tp = false
      rw [if_pos htp]
  | ack ack world => exact Or.inr (hsame _ rfl rfl rfl rfl rfl)
  | output world => exact Or.inr (hsame _ rfl rfl rfl rfl rfl)
  | timer world => exact Or.inr (hsame _ rfl rfl rfl rfl rfl)

/-! ## Whole runs -/

/-- A byte that is offered to an empty buffer, which is then drained. -/
theorem single_agrees {f : Feed} (htp : f.session.tp = true) (hpid : f.session.pid = true)
    (hempty : f.session.input = []) (c : UInt8) :
    Agrees (f.single c) (f.byte c) ∧ (f.single c).session.tp = true ∧
      (f.single c).session.pid = true ∧ (f.single c).session.input = [] ∧
      (f.single c).rest = f.rest.drop 1 := by
  have hone : (f.session.inputLoop [c]).1 = 1 := by
    have hpos := f.session.inputLoop_pos (List.cons_ne_nil c []) (by rw [hempty]; decide)
    have hle := (f.session.inputLoop_eq [c]).1
    simp only [List.length_singleton] at hle
    omega
  have hoffer : f.offer [c] = f.byte c := by
    rw [(Feed.offer_eq htp [c]).1, hone]
    rfl
  obtain ⟨htp', hpid'⟩ := byte_frame f.session c
  have hlive : (f.byte c).session.tp = true := htp'.trans htp
  have hlogin : (f.byte c).session.pid = true := hpid'.trans hpid
  have hpoll : ∀ n, (f.byte c).session.telnetPoll false n none =
      { (f.byte c).session with input := (f.byte c).session.input.drop n } := by
    intro n
    unfold Session.telnetPoll
    rw [if_neg (by rw [hlive]; decide)]
    dsimp only
    rw [if_neg (by rw [hlogin]; simp)]
  unfold Feed.single
  rw [hoffer]
  unfold Feed.other Session.event Session.moved
  dsimp only
  rw [hpoll, if_pos hlive, List.take_length, List.drop_length]
  refine ⟨⟨⟨rfl, rfl, rfl, ?_, rfl⟩, rfl⟩, hlive, hlogin, rfl, rfl⟩
  exact List.append_nil _

/-- The stream one byte at a time is acted on whole. -/
theorem oneByOne_agrees (conn : Conn) (done : List UInt8) :
    Agrees (Feed.oneByOne conn done) (done.foldl Feed.byte (Feed.start conn done)) ∧
      (Feed.oneByOne conn done).session.input = [] ∧ (Feed.oneByOne conn done).rest = [] := by
  have hall : ∀ (b : List UInt8) (f g : Feed), Agrees f g → f.session.tp = true →
      f.session.pid = true → f.session.input = [] → f.rest = b →
      Agrees (b.foldl Feed.single f) (b.foldl Feed.byte g) ∧
        (b.foldl Feed.single f).session.input = [] ∧ (b.foldl Feed.single f).rest = [] := by
    intro b
    induction b with
    | nil => exact fun f g h _ _ hempty hrest => ⟨h, hempty, hrest⟩
    | cons c b ih =>
        intro f g h htp hpid hempty hrest
        obtain ⟨hagrees, htp', hpid', hempty', hrest'⟩ := single_agrees htp hpid hempty c
        refine ih _ _ (hagrees.trans (h.byte c)) htp' hpid' hempty' ?_
        rw [hrest', hrest]
        rfl
  exact hall done _ _ ⟨Alike.refl _ _, rfl⟩ rfl rfl rfl rfl

/-- A feed whose session is there has acted on a part of the stream, and the rest is to come. -/
def Acted (conn : Conn) (stream : List UInt8) (f : Feed) : Prop :=
  f.session.tp = true → ∃ done, stream = done ++ f.rest ∧
    Agrees f (done.foldl Feed.byte (Feed.start conn stream))

/-- One event. -/
theorem Acted.step {conn : Conn} {stream : List UInt8} {f f' : Feed} {e : Event}
    (h : Acted conn stream f) (hstep : f.Step e f') : Acted conn stream f' := by
  obtain ⟨hoffered, rfl⟩ := hstep
  intro hlive
  have htp : f.session.tp = true := by
    by_contra hgone
    rw [Bool.not_eq_true] at hgone
    have hgone' : (f.event e).session = f.session.event e := by cases e <;> rfl
    rw [hgone', event_gone hgone e] at hlive
    cases hlive
  obtain ⟨done, hdone, hagrees⟩ := h htp
  by_cases he : ∃ b, e = .input b
  · obtain ⟨b, rfl⟩ := he
    obtain ⟨more, hmore⟩ := hoffered b rfl
    obtain ⟨hoffer, hle⟩ := Feed.offer_eq htp b
    have hrest : (f.offer b).rest = f.rest.drop (f.session.inputLoop b).1 := by
      unfold Feed.offer Session.telnetInput
      rw [if_pos htp]
    generalize (f.session.inputLoop b).1 = i at hoffer hle hrest
    refine ⟨done ++ b.take i, ?_, ?_⟩
    · show stream = done ++ b.take i ++ (f.offer b).rest
      rw [hrest, hdone, ← hmore, List.drop_append_of_le_length hle, List.append_assoc,
        ← List.append_assoc (b.take i), List.take_append_drop]
    · show Agrees (f.offer b) _
      rw [hoffer, List.foldl_append]
      exact hagrees.bytes _
  · have hother : ∀ b, e ≠ .input b := fun b hb => he ⟨b, hb⟩
    have hevent : f.event e = f.other e := by
      cases e with
      | input b => exact absurd rfl (hother b)
      | _ => rfl
    rw [hevent] at hlive ⊢
    have halike := (alike_event f.pty htp hother).resolve_left fun hgone =>
      absurd (hlive.symm.trans hgone) (by decide)
    have hsame : Agrees (f.other e) f := ⟨halike, rfl⟩
    exact ⟨done, hdone, hsame.trans hagrees⟩

/-- However the client's stream is cut into calls, and whatever else happens while the session is there: what
has reached the terminal and its buffer, the options that were answered and the window sizes that
were applied are those of the bytes taken so far, offered one at a time to an empty buffer. And a
call takes at least a byte while there is room. -/
theorem telnet_input_segmentation {conn : Conn} {stream : List UInt8} {events : List Event}
    {f : Feed} (hrun : Steps Feed.Step (Feed.start conn stream) events f)
    (htp : f.session.tp = true) :
    (∃ done, stream = done ++ f.rest ∧
      f.pty ++ f.session.input = (Feed.oneByOne conn done).pty ∧
      f.session.options = (Feed.oneByOne conn done).session.options ∧
      f.windows = (Feed.oneByOne conn done).windows ∧
      (Feed.oneByOne conn done).session.input = [] ∧ (Feed.oneByOne conn done).rest = []) ∧
    ∀ b, b ≠ [] → b <+: f.rest → f.session.input.length < INBUF →
      (f.offer b).rest.length < f.rest.length := by
  have hacted : Acted conn stream f :=
    hrun.invariant (Acted conn stream) (fun _ _ _ h hstep => h.step hstep)
      fun _ => ⟨[], rfl, Alike.refl _ _, rfl⟩
  constructor
  · obtain ⟨done, hdone, hagrees⟩ := hacted htp
    obtain ⟨hone, hempty, hrest⟩ := oneByOne_agrees conn done
    have hstart : Agrees (Feed.start conn stream) (Feed.start conn done) :=
      ⟨Alike.refl _ _, rfl⟩
    have hsame := hagrees.trans (hstart.bytes done)
    refine ⟨done, hdone, ?_, ?_, ?_, hempty, hrest⟩
    · have hdata := hone.alike.data
      rw [hempty, List.append_nil] at hdata
      exact hsame.alike.data.trans hdata.symm
    · exact hsame.alike.options.trans hone.alike.options.symm
    · exact hsame.windows.trans hone.windows.symm
  · intro b hb hoffered hroom
    have hpos := f.session.inputLoop_pos hb hroom
    have hrest : (f.offer b).rest = f.rest.drop (f.session.inputLoop b).1 := by
      unfold Feed.offer Session.telnetInput
      rw [if_pos htp]
    have hlen := hoffered.length_le
    have := List.length_pos_of_ne_nil hb
    rw [hrest, List.length_drop]
    omega

/-- A command cut in the middle: `IAC`, `DO 5` and a letter. -/
theorem telnet_input_segmentation_cut :
    ∃ f, Steps Feed.Step (Feed.start (passiveOpen ⟨[], [], []⟩ 0 7 512 512) [IAC, DO, 5, 97])
        [.input [IAC], .input [DO, 5, 97], .poll false 1 none] f ∧
      f.pty = [97] ∧
      f.pty ++ f.session.input =
        (Feed.oneByOne (passiveOpen ⟨[], [], []⟩ 0 7 512 512) [IAC, DO, 5, 97]).pty := by
  have hrun : ∃ f, Steps Feed.Step (Feed.start (passiveOpen ⟨[], [], []⟩ 0 7 512 512)
        [IAC, DO, 5, 97]) [.input [IAC], .input [DO, 5, 97], .poll false 1 none] f ∧
      f.session.tp = true ∧ f.pty = [97] ∧ f.rest = [] := by
    refine ⟨_, .cons ⟨?_, rfl⟩ (.cons ⟨?_, rfl⟩ (.cons ⟨nofun, rfl⟩ (.refl _))),
      by decide +kernel, by decide +kernel, by decide +kernel⟩
    · rintro b ⟨⟩
      exact ⟨[DO, 5, 97], rfl⟩
    · rintro b ⟨⟩
      exact ⟨[], by decide +kernel⟩
  obtain ⟨f, hsteps, htp, hpty, hrest⟩ := hrun
  obtain ⟨⟨done, hdone, hdata, -⟩, -⟩ := telnet_input_segmentation hsteps htp
  rw [hrest, List.append_nil] at hdone
  rw [← hdone] at hdata
  exact ⟨f, hsteps, hpty, hdata⟩

end DiscoBsd.Telnet
