import DiscoBsd.Lib.Steps
import DiscoBsd.Tcp.Quiet

/-!
# The stream that a connection takes

The peer's segments are parts of one stream, lost, repeated and reordered at will. The bytes
the service takes are the stream from its beginning, `rcv_nxt` stands behind them, and the
`FIN` is consumed when there is nothing before it.

`tcp_input` compares sequence numbers modulo `2 ^ 32`. A segment is taken for what it is only
as long as it starts less than half of that from the first byte not taken yet:
`receive_stream_run` is about the runs in which every delivered segment does, and
`receive_stream_wraps` shows one that does not.
-/

namespace DiscoBsd.Tcp

open Lib

variable {r0 : Seq} {stream : List UInt8} {c c' : Conn}

/-! ## The peer and the invariant -/

/-- The segment is the part of the peer's stream from offset `p` on, and its `FIN` is at the end. -/
structure Segment.PartOf (r0 : Seq) (stream : List UInt8) (segment : Segment) (p : Nat) : Prop where
  seq : segment.seq = serialAdd r0 p
  le : p + segment.data.length ≤ stream.length
  data : segment.data = (stream.drop p).take segment.data.length
  fin : segment.flags.fin = true → p + segment.data.length = stream.length

/-- A segment that brings nothing of the stream. -/
def Segment.bare (segment : Segment) : Prop :=
  segment.flags.rst = true ∨ segment.flags.syn = true ∨
    segment.data = [] ∧ segment.flags.fin = false

/-- The offsets are less than half the sequence numbers apart. -/
def Near (p t : Nat) : Prop := p < t + 2 ^ 31 ∧ t < p + 2 ^ 31

/-- One event; what is delivered is of the peer's stream. -/
def Delivers (r0 : Seq) (stream : List UInt8) (c : Conn) (label : Label) (c' : Conn) : Prop :=
  c' = c.step label ∧ ∀ segment app, label.event = .input segment app →
    segment.bare ∨ ∃ p, segment.PartOf r0 stream p

/-- One event; what is delivered is of the peer's stream and starts near the first byte not taken. -/
def DeliversNear (r0 : Seq) (stream : List UInt8) (c : Conn) (label : Label) (c' : Conn) : Prop :=
  c' = c.step label ∧ ∀ segment app, label.event = .input segment app →
    segment.bare ∨ ∃ p, segment.PartOf r0 stream p ∧ Near p c.taken.length

/-- The receive side of a connection and the peer's stream. -/
structure Receiving (r0 : Seq) (stream : List UInt8) (c : Conn) : Prop where
  taken : c.taken <+: stream
  next : c.tcb.state ≠ .closed →
    c.tcb.rcvNxt = serialAdd r0 (c.taken.length + if c.finTaken then 1 else 0)
  seen : c.tcb.state ≠ .closed → c.tcb.state.finSeen = c.finTaken
  whole : c.finTaken = true → c.taken = stream

/-- What takes nothing from the peer keeps the invariant. -/
theorem Receiving.quiet (h : Receiving r0 stream c) (hquiet : Quiet c c') :
    Receiving r0 stream c' := by
  refine ⟨?_, ?_, ?_, ?_⟩
  · rw [hquiet.taken]
    exact h.taken
  · intro hlive
    rw [hquiet.rcvNxt.resolve_left hlive, hquiet.taken, hquiet.finTaken]
    exact h.next fun hgone => hlive (hquiet.gone hgone)
  · intro hlive
    rw [hquiet.finSeen.resolve_left hlive, hquiet.finTaken]
    exact h.seen fun hgone => hlive (hquiet.gone hgone)
  · rw [hquiet.finTaken, hquiet.taken]
    exact h.whole

/-! ## The `FIN` -/

/-- The state behind the peer's `FIN`. -/
theorem Receiving.peerFin (htaken : c.taken = stream) (hfin : c.finTaken = true)
    (hnext : c.tcb.rcvNxt = serialAdd r0 (c.taken.length + 1))
    (hstate : c.tcb.state.takesData = true) (app : App) :
    Receiving r0 stream (c.peerFin app) := by
  have hmoved : ∀ c' : Conn, c'.taken = c.taken → c'.finTaken = c.finTaken →
      c'.tcb.rcvNxt = c.tcb.rcvNxt → c'.tcb.state.finSeen = true → Receiving r0 stream c' := by
    intro c' ht hf hr hs
    refine ⟨?_, ?_, ?_, ?_⟩
    · exact ⟨[], by rw [List.append_nil, ht, htaken]⟩
    · intro _
      rw [hr, hnext, ht, hf, hfin]
      rfl
    · intro _
      rw [hs, hf, hfin]
    · intro _
      rw [ht, htaken]
  unfold Conn.peerFin
  split
  next =>
    have hwait : Receiving r0 stream { c with tcb := { c.tcb with state := .closeWait } } :=
      hmoved _ rfl rfl rfl rfl
    split
    · exact hwait.quiet (quiet_calls _ _)
    · exact hwait.quiet (quiet_tcpClose _)
  next =>
    refine hmoved _ rfl rfl rfl ?_
    unfold Conn.waitIn
    dsimp only
    split <;> rfl
  next => exact hmoved _ rfl rfl rfl rfl
  next hest hfw1 hfw2 =>
    revert hstate hest hfw1 hfw2
    cases c.tcb.state <;> simp [State.takesData]

/-- The end of `tcp_input`, when a `FIN` that is next in line has nothing before it. -/
theorem Receiving.finInput (h : Receiving r0 stream c) (hlive : c.tcb.state ≠ .closed) {seq : Seq}
    {dlen : Nat} {fin : Bool} (app : App)
    (hfin : fin = true → serialAdd seq dlen = c.tcb.rcvNxt →
      c.taken = stream ∧ c.tcb.state.takesData = true) :
    Receiving r0 stream (c.finInput seq dlen fin app) := by
  unfold Conn.finInput
  split
  next hcond =>
    obtain ⟨hwhole, hstate⟩ := hfin hcond.1 hcond.2
    have hunseen : c.finTaken = false := by
      rw [← h.seen hlive]
      revert hstate
      cases c.tcb.state <;> simp [State.takesData, State.finSeen]
    refine Receiving.peerFin (c := Conn.sendAck { c with
      tcb := { c.tcb with rcvNxt := serialAdd c.tcb.rcvNxt 1 }
      finTaken := true }) hwhole rfl ?_ hstate app
    show serialAdd c.tcb.rcvNxt 1 = serialAdd r0 (c.taken.length + 1)
    rw [h.next hlive, hunseen, serialAdd_add]
    rfl
  next => exact h.quiet (quiet_tcpOutput c)

/-! ## Data -/

/-- Bytes that continue what was taken are taken on. -/
theorem prefix_take {taken data : List UInt8} (h : taken <+: stream)
    (hdata : data = (stream.drop taken.length).take data.length) (n : Nat) :
    taken ++ data.take n <+: stream := by
  obtain ⟨rest, rfl⟩ := h
  rw [List.drop_left] at hdata
  rw [List.prefix_append_right_inj]
  refine (List.take_prefix n data).trans ?_
  rw [hdata]
  exact List.take_prefix _ _

/-- The next data of the stream, in a state that takes data. -/
theorem Receiving.takeInput (h : Receiving r0 stream c) (hstate : c.tcb.state.takesData = true)
    {seq : Seq} {data : List UInt8} {fin : Bool} (app : App)
    (hnext : seq = c.tcb.rcvNxt → data = (stream.drop c.taken.length).take data.length ∧
      (fin = true → c.taken.length + data.length = stream.length)) :
    Receiving r0 stream (c.takeInput seq data fin app) := by
  have hlive : c.tcb.state ≠ .closed := by
    intro hclosed
    rw [hclosed] at hstate
    cases hstate
  have hsyn : c.tcb.state ≠ .synRcvd := by
    intro hsyn
    rw [hsyn] at hstate
    cases hstate
  have hunseen : c.tcb.state.finSeen = false := by
    revert hstate
    cases c.tcb.state <;> simp [State.takesData, State.finSeen]
  have hfinTaken : c.finTaken = false := (h.seen hlive).symm.trans hunseen
  unfold Conn.takeInput
  split
  next => exact h.quiet (quiet_sendAck c)
  next hseq =>
    rw [not_not] at hseq
    obtain ⟨hdata, hend⟩ := hnext hseq
    have hle := app.input_le data
    -- the bytes are taken, then the callback makes its calls
    have hquiet := quiet_calls { c with taken := c.taken ++ data.take (app.input data).2.toNat }
      (app.input data).1
    dsimp only
    generalize { c with taken := c.taken ++ data.take (app.input data).2.toNat }.calls
      (app.input data).1 = d at hquiet ⊢
    have htaken : d.taken = c.taken ++ data.take (app.input data).2.toNat := hquiet.taken
    have hfin : d.finTaken = false := hquiet.finTaken.trans hfinTaken
    have hfront : d.taken <+: stream := by
      rw [htaken]
      exact prefix_take h.taken hdata _
    split
    next hclosed =>
      refine ⟨hfront, fun hd => absurd hclosed hd, fun hd => absurd hclosed hd, ?_⟩
      intro htrue
      rw [hfin] at htrue
      cases htrue
    next hd =>
      have hlen : d.taken.length = c.taken.length + (app.input data).2.toNat := by
        rw [htaken, List.length_append, List.length_take]
        omega
      have hrcv : d.tcb.rcvNxt = serialAdd r0 c.taken.length := by
        rw [hquiet.rcvNxt.resolve_left hd]
        show c.tcb.rcvNxt = _
        rw [h.next hlive, hfinTaken]
        rfl
      have hseen : d.tcb.state.finSeen = false := (hquiet.finSeen.resolve_left hd).trans hunseen
      have hdsyn : d.tcb.state ≠ .synRcvd := fun hs => hsyn (hquiet.handshake hs)
      have htook : Receiving r0 stream (d.took (app.input data).2.toNat) := by
        refine ⟨hfront, ?_, ?_, ?_⟩
        · intro _
          show serialAdd d.tcb.rcvNxt (app.input data).2.toNat = _
          show _ = serialAdd r0 (d.taken.length + if d.finTaken then 1 else 0)
          rw [hrcv, serialAdd_add, hlen, hfin]
          rfl
        · intro _
          exact hseen.trans hfin.symm
        · intro htrue
          exact absurd (hfin.symm.trans htrue) Bool.false_ne_true
      refine htook.finInput hd app ?_
      intro hall _
      simp only [Bool.and_eq_true, decide_eq_true_eq] at hall
      refine ⟨hfront.eq_of_length ?_, ?_⟩
      · show d.taken.length = _
        rw [hlen, ← hend hall.1]
        omega
      · show d.tcb.state.takesData = true
        revert hseen hdsyn hd
        cases d.tcb.state <;> simp [State.takesData, State.finSeen]

theorem Segment.PartOf.drop {segment : Segment} {p : Nat} (h : segment.PartOf r0 stream p)
    (n : Nat) :
    segment.data.drop n = (stream.drop (p + n)).take (segment.data.drop n).length := by
  rw [List.length_drop]
  calc segment.data.drop n
      = ((stream.drop p).take segment.data.length).drop n := by rw [← h.data]
    _ = (stream.drop (p + n)).take (segment.data.length - n) := by
        rw [List.drop_take, List.drop_drop]

/-- Data in a state that takes data. -/
theorem Receiving.dataInput (h : Receiving r0 stream c) (hstate : c.tcb.state.takesData = true)
    {segment : Segment} {p : Nat} (app : App) (hpart : segment.PartOf r0 stream p)
    (hnear : Near p c.taken.length) : Receiving r0 stream (c.dataInput segment app) := by
  have hlive : c.tcb.state ≠ .closed := by
    intro hclosed
    rw [hclosed] at hstate
    cases hstate
  have hfinTaken : c.finTaken = false := by
    rw [← h.seen hlive]
    revert hstate
    cases c.tcb.state <;> simp [State.takesData, State.finSeen]
  have hrcv : c.tcb.rcvNxt = serialAdd r0 c.taken.length := by
    rw [h.next hlive, hfinTaken]
    rfl
  have hseq := hpart.seq
  have hlt : serialLt segment.seq c.tcb.rcvNxt = decide (p < c.taken.length) := by
    rw [hrcv, hseq]
    exact serialLt_serialAdd hnear.1 (le_of_lt hnear.2)
  unfold Conn.dataInput
  split
  next hold =>
    rw [hlt, decide_eq_true_eq] at hold
    have hdist : (c.tcb.rcvNxt - segment.seq).toInt = (c.taken.length : Int) - p := by
      rw [hrcv, hseq]
      exact serialAdd_sub_toInt hnear.2 (by omega)
    dsimp only
    rw [hdist]
    split
    next hall =>
      -- all of it is old, and its sequence number is not the next one
      refine Receiving.finInput (h.quiet (quiet_sendAck c)) hlive app ?_
      intro _ heq
      rw [serialAdd_zero, hseq] at heq
      have := serialAdd_inj (by omega) (by have := hnear.2; omega) (heq.trans hrcv)
      omega
    next hnew =>
      have hdrop : ((c.taken.length : Int) - p).toNat = c.taken.length - p := by omega
      rw [if_neg (by omega), hdrop]
      refine h.takeInput hstate app fun _ => ⟨?_, ?_⟩
      · have hpart' := hpart.drop (c.taken.length - p)
        rwa [show p + (c.taken.length - p) = c.taken.length by omega] at hpart'
      · intro hfin
        have hend := hpart.fin hfin
        rw [List.length_drop]
        omega
  next hold =>
    rw [hlt, decide_eq_true_eq, not_lt] at hold
    refine h.takeInput hstate app fun heq => ?_
    have hp : p = c.taken.length := by
      rw [hrcv, hseq] at heq
      exact serialAdd_inj (by have := hnear.1; omega) (by omega) heq
    rw [← hp]
    exact ⟨hpart.data, hpart.fin⟩

/-- What is in a segment of the peer. -/
theorem Receiving.textInput (h : Receiving r0 stream c) (hlive : c.tcb.state ≠ .closed)
    (hsyn : c.tcb.state ≠ .synRcvd) {segment : Segment} (app : App)
    (hpeer : (segment.data = [] ∧ segment.flags.fin = false) ∨
      ∃ p, segment.PartOf r0 stream p ∧ Near p c.taken.length) :
    Receiving r0 stream (c.textInput segment app) := by
  have htakes : c.finTaken = false → c.tcb.state.takesData = true := by
    intro hfin
    have hseen := (h.seen hlive).trans hfin
    revert hseen hlive hsyn
    cases c.tcb.state <;> simp [State.takesData, State.finSeen]
  unfold Conn.textInput
  split
  · exact h.quiet (quiet_sendAck c)
  split
  next hdata =>
    rcases hpeer with hempty | ⟨p, hpart, hnear⟩
    · exact absurd hempty.1 hdata.1
    · exact h.dataInput hdata.2 app hpart hnear
  next hdata =>
    refine h.finInput hlive app ?_
    intro hfin heq
    rcases hpeer with hempty | ⟨p, hpart, hnear⟩
    · exact absurd (hempty.2.symm.trans hfin) Bool.false_ne_true
    · have hend := hpart.fin hfin
      rw [hpart.seq, serialAdd_add, hend, h.next hlive] at heq
      cases hfinTaken : c.finTaken with
      | true =>
          -- the `FIN` was consumed before, and stands behind the stream
          have hwhole := h.whole hfinTaken
          rw [hfinTaken, hwhole] at heq
          simp only [if_true] at heq
          have := serialAdd_inj (by omega) (by omega) heq
          omega
      | false =>
          have hstate := htakes hfinTaken
          have hempty : segment.data = [] := by
            by_contra hne
            exact hdata ⟨hne, hstate⟩
          rw [hempty, List.length_nil, Nat.add_zero] at hend
          rw [hfinTaken] at heq
          have hlen := serialAdd_inj (by have := hnear.1; simp; omega)
            (by have := hnear.2; simp; omega) heq
          refine ⟨h.taken.eq_of_length ?_, hstate⟩
          simpa using hlen.symm

/-- A segment after the handshake. -/
theorem Receiving.segInput (h : Receiving r0 stream c) (hlive : c.tcb.state ≠ .closed)
    (hsyn : c.tcb.state ≠ .synRcvd) {segment : Segment} (app : App)
    (hpeer : (segment.data = [] ∧ segment.flags.fin = false) ∨
      ∃ p, segment.PartOf r0 stream p ∧ Near p c.taken.length) :
    Receiving r0 stream (c.segInput segment app) := by
  have hack : Quiet c ((c.ackInput segment.ack).setWindow segment.window) :=
    (quiet_ackInput c segment.ack).trans (Quiet.same rfl rfl rfl rfl)
  unfold Conn.segInput
  dsimp only
  split
  next => exact h.quiet (hack.trans (quiet_drop _))
  next =>
    have hacked := hack.trans (quiet_finAcked _)
    refine (h.quiet hacked).textInput ?_ (fun hs => hsyn (hacked.handshake hs)) app ?_
    · unfold Conn.finAcked
      have hsame : ((c.ackInput segment.ack).setWindow segment.window).tcb.state = c.tcb.state :=
        ackInput_state c segment.ack
      split
      · split
        · exact fun hgone => by cases hgone
        · exact fun hgone => by cases hgone
        · rwa [hsame]
      · rwa [hsame]
    · rw [hacked.taken]
      exact hpeer

/-- `tcp_input`. -/
theorem Receiving.tcpInput (h : Receiving r0 stream c) {segment : Segment} (app : App)
    (hpeer : segment.bare ∨ ∃ p, segment.PartOf r0 stream p ∧ Near p c.taken.length) :
    Receiving r0 stream (c.tcpInput segment app) := by
  unfold Conn.tcpInput
  split
  next => exact h
  next hlive =>
    split
    · unfold Conn.rstInput
      split
      · dsimp only
        have hask : Quiet c c.rcvWindow.2 := Quiet.same rfl rfl rfl rfl
        split
        · exact h.quiet (hask.trans (quiet_drop _))
        · exact h.quiet hask
      · exact h
    next hrst =>
      split
      · unfold Conn.synInput
        split
        · exact h.quiet (quiet_sendSeg c _ _ _ _)
        · exact h.quiet (quiet_sendAck c)
      next hsynflag =>
        have hpeer : (segment.data = [] ∧ segment.flags.fin = false) ∨
            ∃ p, segment.PartOf r0 stream p ∧ Near p c.taken.length := by
          rcases hpeer with (hr | hs | hempty) | hpart
          · exact absurd hr hrst
          · exact absurd hs hsynflag
          · exact Or.inl hempty
          · exact Or.inr hpart
        split
        · exact h
        split
        next hstate =>
          split
          · exact h.quiet (Quiet.same rfl rfl rfl rfl)
          next =>
            -- the handshake is complete, and the callback may close at once
            have hopen : Quiet c (c.established segment.ack) := by
              refine ⟨rfl, rfl, Or.inr rfl, Or.inr ?_, fun _ => hstate, fun hgone => absurd hgone hlive⟩
              show State.established.finSeen = c.tcb.state.finSeen
              rw [hstate]
              rfl
            have hcalls := quiet_calls (c.established segment.ack) app.opened
            have hready := h.quiet (hopen.trans hcalls)
            dsimp only
            split
            · exact hready
            next hd =>
              refine hready.segInput hd ?_ app ?_
              · intro hs
                cases hcalls.handshake hs
              · rw [(hopen.trans hcalls).taken]
                exact hpeer
        next hsyn => exact h.segInput hlive hsyn app hpeer

/-! ## Whole runs -/

/-- One event. -/
theorem Receiving.step (h : Receiving r0 stream c) {label : Label}
    (hstep : DeliversNear r0 stream c label c') : Receiving r0 stream c' := by
  obtain ⟨rfl, hpeer⟩ := hstep
  have hworld : Receiving r0 stream { c with world := label.world } :=
    h.quiet (Quiet.same rfl rfl rfl rfl)
  unfold Conn.step Conn.handle
  split
  next segment app hevent => exact hworld.tcpInput app (hpeer segment app hevent)
  next => exact hworld.quiet (quiet_tcpTimer _)
  next => exact hworld.quiet (quiet_tcpPoll _ _)
  next => exact hworld.quiet (quiet_tcpOutput _)
  next => exact hworld.quiet (quiet_call _ _)

/-- In every run in which each delivered segment starts near the first byte not taken, what the service
took is a prefix of the peer's stream, `rcv_nxt` stands behind it and the `FIN`, and the `FIN` is
consumed only when all of the stream was taken. -/
theorem receive_stream_run {world : World} {iss seq : Seq} {window mss : Nat} {labels : List Label}
    (hrun : Steps (DeliversNear (serialAdd seq 1) stream) (passiveOpen world iss seq window mss)
      labels c) :
    c.taken <+: stream ∧
    (c.tcb.state ≠ .closed → c.tcb.rcvNxt =
      serialAdd (serialAdd seq 1) (c.taken.length + if c.finTaken then 1 else 0)) ∧
    (c.finTaken = true → c.taken = stream) := by
  have hinit : Receiving (serialAdd seq 1) stream (passiveOpen world iss seq window mss) := by
    refine Receiving.quiet ⟨List.nil_prefix, ?_, ?_, ?_⟩
      ((quiet_sendSeg _ _ _ _ _).trans (quiet_startTimer _))
    · intro _
      exact (serialAdd_zero _).symm
    · intro _
      rfl
    · intro hfin
      cases hfin
  have h := hrun.invariant (Receiving (serialAdd seq 1) stream)
    (fun _ _ _ hc hstep => hc.step hstep) hinit
  exact ⟨h.taken, h.next, h.whole⟩

/-- A segment of the peer, as an event. -/
def arrives (seq : Seq) (fin : Bool) (data : List UInt8) : Label :=
  ⟨.input ⟨seq, 1, ⟨fin, false, false, true, true⟩, 512, data⟩ discard, ⟨[], [], []⟩⟩

/-- The stream 10, 11, 12: its first two bytes arrive, then the last two, then the first two again,
and at last the `FIN`. -/
theorem receive_stream_run_overlap :
    ∃ c, Steps (DeliversNear 8 [10, 11, 12]) (passiveOpen ⟨[], [], []⟩ 0 7 512 512)
        [arrives 8 false [10, 11], arrives 9 false [11, 12], arrives 8 false [10, 11],
          arrives 11 true []] c ∧
      c.finTaken = true ∧ c.taken = [10, 11, 12] := by
  have hrun : ∃ c, Steps (DeliversNear 8 [10, 11, 12]) (passiveOpen ⟨[], [], []⟩ 0 7 512 512)
      [arrives 8 false [10, 11], arrives 9 false [11, 12], arrives 8 false [10, 11],
        arrives 11 true []] c ∧ c.finTaken = true := by
    refine ⟨_, .cons ⟨rfl, ?_⟩ (.cons ⟨rfl, ?_⟩ (.cons ⟨rfl, ?_⟩ (.cons ⟨rfl, ?_⟩ (.refl _)))),
      by decide +kernel⟩
    · intro segment app hevent
      cases hevent
      exact Or.inr ⟨0, ⟨by decide, by decide, by decide, by decide⟩, by decide, by decide⟩
    · intro segment app hevent
      cases hevent
      exact Or.inr ⟨1, ⟨by decide, by decide, by decide, by decide⟩, by decide, by decide⟩
    · intro segment app hevent
      cases hevent
      exact Or.inr ⟨0, ⟨by decide, by decide, by decide, by decide⟩, by decide, by decide⟩
    · intro segment app hevent
      cases hevent
      exact Or.inr ⟨3, ⟨by decide, by decide, by decide, by decide⟩, by decide, by decide⟩
  obtain ⟨c, hsteps, hfin⟩ := hrun
  have hsteps' : Steps (DeliversNear (serialAdd 7 1) [10, 11, 12])
      (passiveOpen ⟨[], [], []⟩ 0 7 512 512) _ c := hsteps
  exact ⟨c, hsteps, hfin, (receive_stream_run hsteps').2.2 hfin⟩

/-- The stream is `2 ^ 32` bytes of 0 and a 1. After the handshake its last two bytes arrive first: the 0 looks old, and
the 1 is taken for the first byte. -/
theorem receive_stream_wraps :
    ∃ stream c, Steps (Delivers 8 stream) (passiveOpen ⟨[], [], []⟩ 0 7 512 512)
        [arrives 8 false [], arrives 7 false [0, 1]] c ∧ ¬ c.taken <+: stream := by
  have hdrop : ∀ m : Nat, (List.replicate (m + 1) (0 : UInt8) ++ [1]).drop m = [0, 1] := by
    intro m
    rw [List.replicate_succ', List.append_assoc, List.drop_left' (List.length_replicate)]
    rfl
  refine ⟨List.replicate (2 ^ 32 - 1 + 1) 0 ++ [1], _,
    .cons ⟨rfl, ?_⟩ (.cons ⟨rfl, ?_⟩ (.refl _)), ?_⟩
  · intro segment app hevent
    cases hevent
    exact Or.inl (Or.inr (Or.inr ⟨rfl, rfl⟩))
  · intro segment app hevent
    cases hevent
    refine Or.inr ⟨2 ^ 32 - 1, ⟨by decide, ?_, ?_, ?_⟩⟩
    · rw [List.length_append, List.length_replicate]
      decide
    · rw [hdrop]
      rfl
    · intro hfin
      cases hfin
  · have htaken : (((passiveOpen ⟨[], [], []⟩ 0 7 512 512).step (arrives 8 false [])).step
        (arrives 7 false [0, 1])).taken = [1] := by decide +kernel
    rw [htaken, List.replicate_succ, List.cons_append, List.cons_prefix_cons]
    intro hfront
    exact absurd hfront.1 (by decide)

end DiscoBsd.Tcp
