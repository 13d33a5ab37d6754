import DiscoBsd.Tcp.Tcb

/-!
# What sending leaves alone

Sending, the calls of the service, acknowledgements and the timer take no data from the peer:
as long as the connection is there they keep `rcv_nxt` and what was taken, and they lead neither
into nor out of the states behind the peer's `FIN`.
-/

namespace DiscoBsd.Tcp

open Lib

/-- The states in which the peer's `FIN` has been consumed. -/
def State.finSeen : State → Bool
  | .closeWait | .lastAck | .closing | .timeWait => true
  | _ => false

/-- Nothing is taken from the peer between `c` and `c'`. -/
structure Quiet (c c' : Conn) : Prop where
  taken : c'.taken = c.taken
  finTaken : c'.finTaken = c.finTaken
  rcvNxt : c'.tcb.state = .closed ∨ c'.tcb.rcvNxt = c.tcb.rcvNxt
  finSeen : c'.tcb.state = .closed ∨ c'.tcb.state.finSeen = c.tcb.state.finSeen
  handshake : c'.tcb.state = .synRcvd → c.tcb.state = .synRcvd
  gone : c.tcb.state = .closed → c'.tcb.state = .closed

theorem Quiet.refl (c : Conn) : Quiet c c := ⟨rfl, rfl, Or.inr rfl, Or.inr rfl, id, id⟩

theorem Quiet.trans {c c' c'' : Conn} (h : Quiet c c') (h' : Quiet c' c'') : Quiet c c'' := by
  refine ⟨h'.taken.trans h.taken, h'.finTaken.trans h.finTaken, ?_, ?_,
    fun hsyn => h.handshake (h'.handshake hsyn), fun hgone => h'.gone (h.gone hgone)⟩
  · rcases h.rcvNxt with hgone | hsame
    · exact Or.inl (h'.gone hgone)
    · exact h'.rcvNxt.imp_right fun hsame' => hsame'.trans hsame
  · rcases h.finSeen with hgone | hsame
    · exact Or.inl (h'.gone hgone)
    · exact h'.finSeen.imp_right fun hsame' => hsame'.trans hsame

theorem Quiet.same {c c' : Conn} (hstate : c'.tcb.state = c.tcb.state)
    (hrcv : c'.tcb.rcvNxt = c.tcb.rcvNxt) (htaken : c'.taken = c.taken)
    (hfin : c'.finTaken = c.finTaken) : Quiet c c' := by
  refine ⟨htaken, hfin, Or.inr hrcv, Or.inr (by rw [hstate]), ?_, ?_⟩
  · rw [hstate]
    exact id
  · rw [hstate]
    exact id

/-! ## Sending -/

@[simp] theorem startTimer_state (c : Conn) : c.startTimer.tcb.state = c.tcb.state := by
  unfold Conn.startTimer
  split <;> rfl

theorem quiet_startTimer (c : Conn) : Quiet c c.startTimer := by
  unfold Conn.startTimer
  split <;> exact Quiet.same rfl rfl rfl rfl

theorem quiet_sendSeg (c : Conn) (seq : Seq) (flags : Flags) (off len : Nat) :
    Quiet c (c.sendSeg seq flags off len) := Quiet.same rfl rfl rfl rfl

theorem quiet_sendAck (c : Conn) : Quiet c c.sendAck := quiet_sendSeg c _ _ _ _

theorem quiet_sendData (c : Conn) : Quiet c c.sendData := by
  refine Quiet.trans ?_ (quiet_startTimer _)
  exact Quiet.same rfl rfl rfl rfl

theorem quiet_outputLoop (c : Conn) (rooms : List Int) : Quiet c (c.outputLoop rooms) := by
  induction rooms generalizing c with
  | nil => exact Quiet.same rfl rfl rfl rfl
  | cons room rooms ih =>
      unfold Conn.outputLoop
      split
      · exact Quiet.same rfl rfl rfl rfl
      · split
        · exact Quiet.same rfl rfl rfl rfl
        · exact (quiet_sendData c).trans (ih c.sendData)

theorem quiet_sendFin (c : Conn) : Quiet c c.sendFin := by
  unfold Conn.sendFin
  split
  · refine Quiet.trans ?_ (quiet_startTimer _)
    refine ⟨rfl, rfl, Or.inr rfl, Or.inr ?_, ?_, ?_⟩
    · show c.tcb.state.afterFin.finSeen = c.tcb.state.finSeen
      cases c.tcb.state <;> rfl
    · show c.tcb.state.afterFin = .synRcvd → c.tcb.state = .synRcvd
      cases c.tcb.state <;> decide
    · show c.tcb.state = .closed → c.tcb.state.afterFin = .closed
      cases c.tcb.state <;> decide
  · exact Quiet.refl c

theorem quiet_tcpOutput (c : Conn) : Quiet c c.tcpOutput := by
  unfold Conn.tcpOutput
  split
  · exact Quiet.refl c
  · exact (quiet_outputLoop c _).trans (quiet_sendFin _)

theorem quiet_drop (c : Conn) : Quiet c c.drop :=
  ⟨rfl, rfl, Or.inl rfl, Or.inl rfl, (fun hsyn => by cases hsyn), fun _ => rfl⟩

/-! ## The calls of the service -/

theorem quiet_tcpClose (c : Conn) : Quiet c c.tcpClose := by
  unfold Conn.tcpClose
  split
  · exact Quiet.refl c
  · refine Quiet.trans ?_ (quiet_tcpOutput _)
    exact Quiet.same rfl rfl rfl rfl

theorem quiet_call (c : Conn) (call : Call) : Quiet c (c.call call) := by
  cases call with
  | write bytes =>
      show Quiet c (c.tcpWrite bytes)
      unfold Conn.tcpWrite
      split <;> exact Quiet.same rfl rfl rfl rfl
  | close => exact quiet_tcpClose c
  | abort => exact (quiet_sendSeg c _ _ _ _).trans (quiet_drop _)

theorem quiet_calls (c : Conn) (calls : List Call) : Quiet c (c.calls calls) := by
  unfold Conn.calls
  induction calls generalizing c with
  | nil => exact Quiet.refl c
  | cons call calls ih => exact (quiet_call c call).trans (ih _)

/-! ## Acknowledgements, timer, main loop -/

theorem quiet_ackInput (c : Conn) (ack : Seq) : Quiet c (c.ackInput ack) := by
  unfold Conn.ackInput
  split
  · exact Quiet.refl c
  · have hack : Quiet c { c with tcb := c.tcb.ackTo ack } := Quiet.same rfl rfl rfl rfl
    dsimp only
    split
    · exact hack.trans (quiet_startTimer _)
    · exact hack

theorem ackInput_state (c : Conn) (ack : Seq) : (c.ackInput ack).tcb.state = c.tcb.state := by
  unfold Conn.ackInput
  split
  · rfl
  · dsimp only
    split
    · exact startTimer_state _
    · rfl

theorem quiet_waitIn {c : Conn} {state : State} (hseen : state.finSeen = c.tcb.state.finSeen)
    (hsyn : state ≠ .synRcvd) (hlive : c.tcb.state ≠ .closed) (seconds : Nat) :
    Quiet c (c.waitIn state seconds) :=
  ⟨rfl, rfl, Or.inr rfl, Or.inr hseen, fun h => absurd h hsyn, fun h => absurd h hlive⟩

theorem quiet_finAcked (c : Conn) : Quiet c c.finAcked := by
  unfold Conn.finAcked
  split
  · split
    next hstate =>
      refine quiet_waitIn ?_ (by decide) ?_ _
      · rw [hstate]
        rfl
      · rw [hstate]
        decide
    next hstate =>
      refine quiet_waitIn ?_ (by decide) ?_ _
      · rw [hstate]
        rfl
      · rw [hstate]
        decide
    · exact Quiet.refl c
  · exact Quiet.refl c

theorem quiet_goBack (c : Conn) : Quiet c c.goBack := by
  have hbefore : ∀ state : State, state.beforeFin.finSeen = state.finSeen ∧
      (state.beforeFin = .synRcvd → state = .synRcvd) ∧
      (state = .closed → state.beforeFin = .closed) := by
    intro state
    cases state <;> decide
  unfold Conn.goBack
  cases c.tcb.finSent with
  | false => exact Quiet.same rfl rfl rfl rfl
  | true =>
      obtain ⟨hseen, hsyn, hgone⟩ := hbefore c.tcb.state
      exact ⟨rfl, rfl, Or.inr rfl, Or.inr hseen, hsyn, hgone⟩

theorem quiet_resend (c : Conn) : Quiet c c.resend := by
  unfold Conn.resend
  split
  · refine Quiet.trans ?_ (quiet_startTimer _)
    exact Quiet.same rfl rfl rfl rfl
  · exact quiet_tcpOutput c

theorem quiet_timeout (c : Conn) : Quiet c c.timeout := by
  have hcount : Quiet c
      { c with tcb := { c.tcb with rexmtAt := 0, retries := c.tcb.retries + 1 } } :=
    Quiet.same rfl rfl rfl rfl
  unfold Conn.timeout
  dsimp only
  split
  · exact hcount.trans ((quiet_sendSeg _ _ _ _ _).trans (quiet_drop _))
  · split
    · refine Quiet.trans ?_ (quiet_startTimer _)
      exact Quiet.same rfl rfl rfl rfl
    · have hdouble : Quiet c { c with tcb := { c.tcb with
          rexmtAt := 0
          retries := c.tcb.retries + 1
          rto := min (c.tcb.rto * 2) RTO_MAX } } := Quiet.same rfl rfl rfl rfl
      have hresend := hdouble.trans ((quiet_goBack _).trans (quiet_resend _))
      split
      · exact hresend.trans (quiet_startTimer _)
      · exact hresend

theorem quiet_tcpTimer (c : Conn) : Quiet c c.tcpTimer := by
  have hnow : Quiet c c.now.2 := Quiet.same rfl rfl rfl rfl
  unfold Conn.tcpTimer
  dsimp only
  split
  · exact hnow
  split
  · split
    · exact hnow.trans (quiet_drop _)
    · exact hnow
  split
  · exact hnow.trans (quiet_timeout _)
  split
  · exact hnow.trans (quiet_startTimer _)
  · exact hnow

theorem quiet_updateWindow (c : Conn) : Quiet c c.updateWindow := by
  have hask : ∀ c : Conn, Quiet c c.rcvWindow.2 := fun c => Quiet.same rfl rfl rfl rfl
  unfold Conn.updateWindow
  dsimp only
  split
  · exact quiet_sendAck c
  split
  · exact (hask c).trans (quiet_sendAck _)
  split
  · split
    · exact (hask c).trans ((hask _).trans (quiet_sendAck _))
    · exact (hask c).trans (hask _)
  · exact hask c

theorem quiet_tcpPoll (c : Conn) (calls : List Call) : Quiet c (c.tcpPoll calls) := by
  have hpoll : Quiet c (if c.tcb.state = .established ∨ c.tcb.state = .closeWait then c.calls calls
      else c) := by
    split
    · exact quiet_calls c calls
    · exact Quiet.refl c
  unfold Conn.tcpPoll
  dsimp only
  generalize (if c.tcb.state = .established ∨ c.tcb.state = .closeWait then c.calls calls
    else c) = c' at hpoll ⊢
  split
  · exact hpoll
  · exact hpoll.trans ((quiet_tcpOutput _).trans (quiet_updateWindow _))

end DiscoBsd.Tcp
