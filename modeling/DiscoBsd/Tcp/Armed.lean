import DiscoBsd.Tcp.Send

/-!
# The retransmit timer is armed

A connection with something in flight and no timer would hang for ever. `Armed` says of a control block
that its timer runs whenever `snd_nxt` is ahead of `snd_una`, and that the ring starts inside the
buffer; every operation of `tcp.c` keeps it. Together with `Sends` this is the invariant of the
control block over whole runs, `tcb_run`.
-/

namespace DiscoBsd.Tcp

open Lib

variable {iss : Seq} {tp tp' : Tcb} {c c' : Conn}

/-- The ring and the timer of a control block. -/
structure Armed (tp : Tcb) : Prop where
  start : tp.txstart < TXBUF
  rto : tp.state ≠ .closed → 1 ≤ tp.rto
  timer : tp.sndNxt ≠ tp.sndUna → tp.rexmtAt ≠ 0
  gone : tp.state = .closed → tp.sndNxt = tp.sndUna ∧ tp.txlen = 0 ∧ tp.finSent = false

/-- The fields of the control block that this rests on. -/
def Tcb.clock (tp : Tcb) : State × Nat × Nat × Bool × Nat × Seq × Seq × Nat :=
  (tp.state, tp.txstart, tp.txlen, tp.finSent, tp.rto, tp.sndNxt, tp.sndUna, tp.rexmtAt)

theorem Armed.congr (h : Armed tp) (hclock : tp'.clock = tp.clock) : Armed tp' := by
  simp only [Tcb.clock, Prod.mk.injEq] at hclock
  obtain ⟨hstate, hstart, hlen, hsent, hrto, hnxt, huna, htimer⟩ := hclock
  constructor
  · rw [hstart]
    exact h.start
  · rw [hstate, hrto]
    exact h.rto
  · rw [hnxt, huna, htimer]
    exact h.timer
  · rw [hstate, hnxt, huna, hlen, hsent]
    exact h.gone

theorem Armed.idle (hstart : tp.txstart < TXBUF) (hrto : 1 ≤ tp.rto)
    (hlive : tp.state ≠ .closed) (hnxt : tp.sndNxt = tp.sndUna) : Armed tp :=
  ⟨hstart, fun _ => hrto, fun hne => absurd hnxt hne, fun hgone => absurd hgone hlive⟩

theorem armed_startTimer (hstart : c.tcb.txstart < TXBUF) (hrto : 1 ≤ c.tcb.rto)
    (hlive : c.tcb.state ≠ .closed) : Armed c.startTimer.tcb := by
  unfold Conn.startTimer
  split
  · refine ⟨hstart, fun _ => hrto, fun _ => ?_, fun hgone => absurd hgone hlive⟩
    show c.now.1 + c.tcb.rto ≠ 0
    omega
  next hrunning => exact ⟨hstart, fun _ => hrto, fun _ => hrunning, fun hgone => absurd hgone hlive⟩

theorem Armed.startTimer (h : Armed c.tcb) (hlive : c.tcb.state ≠ .closed) :
    Armed c.startTimer.tcb := armed_startTimer h.start (h.rto hlive) hlive

theorem Armed.setState (h : Armed tp) (hlive : tp.state ≠ .closed) (hlive' : tp'.state ≠ .closed)
    (hclock : { tp' with state := tp.state }.clock = tp.clock) : Armed tp' := by
  have hsame := h.congr hclock
  exact ⟨hsame.start, fun _ => hsame.rto hlive, hsame.timer, fun hgone => absurd hgone hlive'⟩

theorem armed_drop (c : Conn) : Armed c.drop.tcb :=
  ⟨(by decide : 0 < TXBUF), fun hlive => absurd rfl hlive, fun hne => absurd rfl hne,
    fun _ => ⟨rfl, rfl, rfl⟩⟩

/-! ## Sending -/

theorem Armed.sendSeg (h : Armed c.tcb) (seq : Seq) (flags : Flags) (off len : Nat) :
    Armed (c.sendSeg seq flags off len).tcb := h.congr rfl

theorem Armed.sendAck (h : Armed c.tcb) : Armed c.sendAck.tcb := h.congr rfl

theorem Armed.sendData (h : Armed c.tcb) (hlive : c.tcb.state ≠ .closed) :
    Armed c.sendData.tcb :=
  armed_startTimer h.start (h.rto hlive) hlive

theorem sendData_state (c : Conn) : c.sendData.tcb.state = c.tcb.state := startTimer_state _

theorem Armed.outputLoop (h : Armed c.tcb) (hlive : c.tcb.state ≠ .closed) (rooms : List Int) :
    Armed (c.outputLoop rooms).tcb ∧ (c.outputLoop rooms).tcb.state ≠ .closed := by
  induction rooms generalizing c with
  | nil => exact ⟨h.congr rfl, hlive⟩
  | cons room rooms ih =>
      unfold Conn.outputLoop
      split
      · exact ⟨h.congr rfl, hlive⟩
      · split
        · exact ⟨h.congr rfl, hlive⟩
        · exact ih (h.sendData hlive) (by rwa [sendData_state])

theorem State.afterFin_live {state : State} (hlive : state ≠ .closed) :
    state.afterFin ≠ .closed := by
  revert hlive
  cases state <;> decide

theorem Armed.sendFin (h : Armed c.tcb) (hlive : c.tcb.state ≠ .closed) :
    Armed c.sendFin.tcb := by
  unfold Conn.sendFin
  split
  · exact armed_startTimer h.start (h.rto hlive) (State.afterFin_live hlive)
  · exact h

theorem Armed.tcpOutput (h : Armed c.tcb) : Armed c.tcpOutput.tcb := by
  unfold Conn.tcpOutput
  split
  · exact h
  next hstate =>
    rw [not_or, not_or] at hstate
    obtain ⟨hloop, hlive⟩ := h.outputLoop hstate.2.1 c.world.ipRoom
    exact hloop.sendFin hlive

/-! ## The calls of the service -/

theorem Armed.tcpWrite (h : Armed c.tcb) (bytes : List UInt8) :
    Armed (c.tcpWrite bytes).tcb := by
  unfold Conn.tcpWrite
  split
  · exact h
  next hopen =>
    have hlive : c.tcb.state ≠ .closed := by
      intro hgone
      refine hopen (Or.inr ⟨?_, ?_⟩) <;> rw [hgone] <;> decide
    exact ⟨h.start, h.rto, h.timer, fun hgone => absurd hgone hlive⟩

theorem Armed.tcpClose (h : Armed c.tcb) : Armed c.tcpClose.tcb := by
  unfold Conn.tcpClose
  split
  · exact h
  · exact Armed.tcpOutput (c := { c with tcb := { c.tcb with finPending := 1 } }) (h.congr rfl)

theorem Armed.calls (h : Armed c.tcb) (calls : List Call) : Armed (c.calls calls).tcb := by
  unfold Conn.calls
  induction calls generalizing c with
  | nil => exact h
  | cons call calls ih =>
      refine ih ?_
      cases call with
      | write bytes => exact h.tcpWrite bytes
      | close => exact h.tcpClose
      | abort => exact armed_drop _

/-! ## A segment arrives -/

/-- Nothing is in flight when the difference of the sequence numbers is 0. -/
theorem inflight_eq_zero : tp.inflight = 0 ↔ tp.sndNxt = tp.sndUna := by
  unfold Tcb.inflight
  constructor
  · intro hzero
    have hsub : tp.sndNxt - tp.sndUna = 0 := BitVec.eq_of_toInt_eq hzero
    bv_omega
  · intro heq
    rw [heq, BitVec.sub_self]
    rfl

theorem Armed.ackInput (h : Armed c.tcb) (hlive : c.tcb.state ≠ .closed) (ack : Seq) :
    Armed (c.ackInput ack).tcb := by
  have hstart : ∀ n, n % TXBUF < TXBUF := fun n => Nat.mod_lt n (by decide)
  unfold Conn.ackInput
  split
  · exact h
  · dsimp only
    split
    · exact armed_startTimer (hstart _) (le_refl 1) hlive
    next hzero =>
      rw [not_not] at hzero
      exact Armed.idle (hstart _) (le_refl 1) hlive (inflight_eq_zero.mp hzero)

theorem Armed.waitIn (h : Armed c.tcb) (hlive : c.tcb.state ≠ .closed) {state : State}
    (hlive' : state ≠ .closed) (seconds : Nat) : Armed (c.waitIn state seconds).tcb :=
  h.setState hlive hlive' rfl

theorem Armed.finAcked (h : Armed c.tcb) (hlive : c.tcb.state ≠ .closed) :
    Armed c.finAcked.tcb := by
  unfold Conn.finAcked
  split
  · split
    · exact h.waitIn hlive (by decide) _
    · exact h.waitIn hlive (by decide) _
    · exact h
  · exact h

theorem Armed.peerFin (h : Armed c.tcb) (app : App) : Armed (c.peerFin app).tcb := by
  unfold Conn.peerFin
  split
  next hstate =>
    have hlive : c.tcb.state ≠ .closed := by
      rw [hstate]
      decide
    have hwait : Armed { c.tcb with state := .closeWait } := h.setState hlive nofun rfl
    split
    · exact Armed.calls (c := { c with tcb := { c.tcb with state := .closeWait } }) hwait _
    · exact Armed.tcpClose (c := { c with tcb := { c.tcb with state := .closeWait } }) hwait
  next hstate =>
    refine h.waitIn ?_ ?_ _
    · rw [hstate]
      decide
    · split <;> decide
  next hstate =>
    refine h.waitIn ?_ (by decide) _
    rw [hstate]
    decide
  · exact h

theorem Armed.finInput (h : Armed c.tcb) (seq : Seq) (dlen : Nat) (fin : Bool) (app : App) :
    Armed (c.finInput seq dlen fin app).tcb := by
  unfold Conn.finInput
  split
  · refine Armed.peerFin ?_ app
    exact h.congr rfl
  · split
    · exact h.tcpOutput
    · exact h

theorem Armed.takeInput (h : Armed c.tcb) (seq : Seq) (data : List UInt8) (fin : Bool)
    (app : App) : Armed (c.takeInput seq data fin app).tcb := by
  unfold Conn.takeInput
  split
  · exact h.sendAck
  · have hcalls : Armed ({ c with taken := c.taken ++ data.take (app.input data).2.toNat }.calls
        (app.input data).1).tcb :=
      Armed.calls (c := { c with taken := c.taken ++ data.take (app.input data).2.toNat }) h _
    dsimp only
    split
    · exact hcalls
    · refine Armed.finInput ?_ _ _ _ _
      exact hcalls.congr rfl

theorem Armed.textInput (h : Armed c.tcb) (segment : Segment) (app : App) :
    Armed (c.textInput segment app).tcb := by
  unfold Conn.textInput
  split
  · exact h.sendAck
  · split
    · unfold Conn.dataInput
      split
      · dsimp only
        split
        · exact h.sendAck.finInput _ _ _ _
        · split
          · exact h.finInput _ _ _ _
          · exact h.takeInput _ _ _ _
      · exact h.takeInput _ _ _ _
    · exact h.finInput _ _ _ _

theorem Armed.segInput (h : Armed c.tcb) (hlive : c.tcb.state ≠ .closed) (segment : Segment)
    (app : App) : Armed (c.segInput segment app).tcb := by
  have hack : Armed ((c.ackInput segment.ack).setWindow segment.window).tcb :=
    (h.ackInput hlive segment.ack).congr rfl
  unfold Conn.segInput
  dsimp only
  split
  · exact armed_drop _
  · refine (hack.finAcked ?_).textInput segment app
    show (c.ackInput segment.ack).tcb.state ≠ .closed
    rwa [ackInput_state]

/-- `tcp_input`. The handshake leaves nothing in flight. -/
theorem Armed.tcpInput (h : Armed c.tcb) (hsending : Sending iss c) (segment : Segment)
    (app : App) : Armed (c.tcpInput segment app).tcb := by
  unfold Conn.tcpInput
  split
  · exact h
  next hlive =>
    split
    · unfold Conn.rstInput
      split
      · dsimp only
        split
        · exact armed_drop _
        · exact h.congr rfl
      · exact h
    split
    · unfold Conn.synInput
      split
      · exact h.sendSeg _ _ _ _
      · exact h.sendAck
    split
    · exact h
    split
    next hstate =>
      split
      · exact h.congr rfl
      next hack =>
        rw [not_not] at hack
        have hsends := hsending.sends hlive
        have hopen : Armed (c.established segment.ack).tcb := by
          refine Armed.idle h.start (h.rto hlive) (by decide : State.established ≠ .closed) ?_
          show c.tcb.sndNxt = segment.ack
          rw [(hsends.handshake hstate).2.1, hack, hsends.iss_eq]
        have hcalls := hopen.calls app.opened
        dsimp only
        split
        · exact hcalls
        next hready => exact hcalls.segInput hready segment app
    · exact h.segInput hlive segment app

/-! ## The timer and the main loop -/

theorem State.beforeFin_live {state : State} (hlive : state ≠ .closed) :
    state.beforeFin ≠ .closed := by
  revert hlive
  cases state <;> decide

theorem Armed.resend (h : Armed c.tcb) (hlive : c.tcb.state ≠ .closed) : Armed c.resend.tcb := by
  unfold Conn.resend
  split
  · exact armed_startTimer h.start (h.rto hlive) hlive
  · exact h.tcpOutput

/-- The timer has run out, and is started again. -/
theorem Armed.timeout (h : Armed c.tcb) (hlive : c.tcb.state ≠ .closed) :
    Armed c.timeout.tcb := by
  have hrto : 1 ≤ min (c.tcb.rto * 2) RTO_MAX := by
    have hold := h.rto hlive
    have hmax : RTO_MAX = 16 := rfl
    omega
  unfold Conn.timeout
  dsimp only
  split
  · exact armed_drop _
  · split
    · exact armed_startTimer h.start hrto hlive
    · have hback : Armed (Conn.goBack { c with tcb := { c.tcb with
          rexmtAt := 0
          retries := c.tcb.retries + 1
          rto := min (c.tcb.rto * 2) RTO_MAX } }).tcb ∧
          (Conn.goBack { c with tcb := { c.tcb with
            rexmtAt := 0
            retries := c.tcb.retries + 1
            rto := min (c.tcb.rto * 2) RTO_MAX } }).tcb.state ≠ .closed := by
        have hstate : (if c.tcb.finSent then c.tcb.state.beforeFin else c.tcb.state) ≠ .closed := by
          split
          · exact State.beforeFin_live hlive
          · exact hlive
        exact ⟨Armed.idle h.start hrto hstate rfl, hstate⟩
      have hresend := hback.1.resend hback.2
      split
      next hflight =>
        -- what is in flight has its timer
        refine absurd (inflight_eq_zero.not.mp hflight.2) (fun hne => ?_)
        exact hresend.timer hne hflight.1
      · exact hresend

theorem Armed.tcpTimer (h : Armed c.tcb) : Armed c.tcpTimer.tcb := by
  have hnow : Armed c.now.2.tcb := h.congr rfl
  unfold Conn.tcpTimer
  dsimp only
  split
  · exact hnow
  next hlive =>
    split
    · split
      · exact armed_drop _
      · exact hnow
    split
    · exact hnow.timeout hlive
    split
    · exact hnow.startTimer hlive
    · exact hnow

theorem Armed.updateWindow (h : Armed c.tcb) : Armed c.updateWindow.tcb := by
  unfold Conn.updateWindow
  dsimp only
  split
  · exact h.sendAck
  split
  · exact h.congr rfl
  split
  · split <;> exact h.congr rfl
  · exact h.congr rfl

theorem Armed.tcpPoll (h : Armed c.tcb) (calls : List Call) : Armed (c.tcpPoll calls).tcb := by
  have hpoll : Armed (if c.tcb.state = .established ∨ c.tcb.state = .closeWait then
      c.calls calls else c).tcb := by
    split
    · exact h.calls calls
    · exact h
  unfold Conn.tcpPoll
  dsimp only
  generalize (if c.tcb.state = .established ∨ c.tcb.state = .closeWait then c.calls calls
    else c) = polled at hpoll ⊢
  split
  · exact hpoll
  · exact hpoll.tcpOutput.updateWindow

/-- One event. -/
theorem Armed.step (h : Armed c.tcb) (hsending : Sending iss c) (label : Label) :
    Armed (c.step label).tcb := by
  have hworld : Sending iss { c with world := label.world } := hsending.congr rfl rfl rfl
  have harmed : Armed ({ c with world := label.world } : Conn).tcb := h
  unfold Conn.step Conn.handle
  split
  · exact harmed.tcpInput hworld _ _
  · exact harmed.tcpTimer
  · exact harmed.tcpPoll _
  · exact harmed.tcpOutput
  · exact harmed.calls [_]

theorem armed_passiveOpen (world : World) (iss seq : Seq) (window mss : Nat) :
    Armed (passiveOpen world iss seq window mss).tcb :=
  armed_startTimer (by decide : 0 < TXBUF) (le_refl 1) nofun

theorem armed_run (world : World) (iss seq : Seq) (window mss : Nat) (labels : List Label) :
    Armed (labels.foldl Conn.step (passiveOpen world iss seq window mss)).tcb := by
  have hall : ∀ c, Sending iss c → Armed c.tcb → Armed (labels.foldl Conn.step c).tcb := by
    induction labels with
    | nil => exact fun c _ h => h
    | cons label labels ih => exact fun c hs h => ih _ (hs.step label) (h.step hs label)
  exact hall _ (sending_passiveOpen world iss seq window mss)
    (armed_passiveOpen world iss seq window mss)

/-- In every state that a run reaches the ring is inside its buffer, what is in flight is a part of
the send buffer, or all of it and a `FIN`, or in `SYN_RCVD` our `SYN`, and the timer runs while
anything is in flight. -/
theorem tcb_run (world : World) (iss seq : Seq) (window mss : Nat) (labels : List Label) :
    let tp := (labels.foldl Conn.step (passiveOpen world iss seq window mss)).tcb
    tp.txlen ≤ TXBUF ∧ tp.txstart < TXBUF ∧
      (tp.state = .synRcvd → (tp.sndNxt - tp.sndUna).toNat = 1) ∧
      (tp.state ≠ .synRcvd → tp.finSent = false → (tp.sndNxt - tp.sndUna).toNat ≤ tp.txlen) ∧
      (tp.finSent = true → (tp.sndNxt - tp.sndUna).toNat = tp.txlen + 1 ∨
        (tp.finPending = 2 ∧ tp.sndNxt = tp.sndUna ∧ tp.txlen = 0)) ∧
      (tp.sndNxt ≠ tp.sndUna → tp.rexmtAt ≠ 0) := by
  have harmed := armed_run world iss seq window mss labels
  have hsending := sending_run world iss seq window mss labels
  generalize labels.foldl Conn.step (passiveOpen world iss seq window mss) = c at *
  dsimp only
  have hdist : ∀ (f : Nat), f < 2 ^ 32 → c.tcb.sndNxt = serialAdd c.tcb.sndUna f →
      (c.tcb.sndNxt - c.tcb.sndUna).toNat = f := by
    intro f hf hnxt
    rw [hnxt]
    unfold serialAdd
    bv_omega
  by_cases hlive : c.tcb.state = .closed
  · obtain ⟨hnxt, hlen, hsent⟩ := harmed.gone hlive
    have hzero : (c.tcb.sndNxt - c.tcb.sndUna).toNat = 0 := by
      rw [hnxt, BitVec.sub_self]
      rfl
    rw [hzero, hlen]
    refine ⟨Nat.zero_le _, harmed.start, fun hsyn => ?_, fun _ _ => le_refl 0, fun hfin => ?_,
      harmed.timer⟩
    · rw [hlive] at hsyn
      cases hsyn
    · rw [hsent] at hfin
      cases hfin
  · have hsends := hsending.sends hlive
    have hroom := hsends.room
    have hbuf : TXBUF = 2048 := rfl
    refine ⟨hroom, harmed.start, fun hsyn => ?_, fun hsyn hsent => ?_, fun hsent => ?_,
      harmed.timer⟩
    · obtain ⟨huna, hnxt, -⟩ := hsends.handshake hsyn
      exact hdist 1 (by decide) (by rw [hnxt, huna])
    · obtain ⟨f, hf, hnxt⟩ := hsends.flight hsyn hsent
      rw [hdist f (by omega) hnxt]
      exact hf
    · by_cases hpending : c.tcb.finPending = 2
      · obtain ⟨hnxt, hlen, -⟩ := hsends.acked hpending
        exact Or.inr ⟨hpending, hnxt, hlen⟩
      · exact Or.inl (hdist _ (by omega) (hsends.flight_fin hsent hpending))

end DiscoBsd.Tcp
