import DiscoBsd.Tcp.Armed
import DiscoBsd.Tcp.Receive

/-!
# Which segments are answered

A segment that cannot be taken is to be answered with an ACK, at once or by `tcp_poll`. `Emits`
says what sending does to the history, `Follows` what the callbacks of the service do;
`tcpInput_answered_iff` says of every segment with data or a `FIN` whether it is answered.
-/

namespace DiscoBsd.Tcp

open Lib

variable {c c' c'' : Conn}

/-- Between `c` and `c'` a segment with the current `rcv_nxt` is sent; or a `RST`, if the service
aborted the connection. -/
def Acks (c c' : Conn) : Prop :=
  ∃ news, c'.sent = news ++ c.sent ∧ ∃ segment ∈ news, segment.flags.ack = true ∧
    (segment.ack = c'.tcb.rcvNxt ∨ (segment.flags.rst = true ∧ c'.tcb.state = .closed))

/-- The states in which `tcp_output` and `tcp_poll` send. -/
def State.sends : State → Bool
  | .closed | .synRcvd | .timeWait => false
  | _ => true

/-- A segment is sent, or `tcp_poll` will send one. -/
def Answered (c c' : Conn) : Prop :=
  Acks c c' ∨ (c'.tcb.ackPending = true ∧ c'.tcb.state.sends = true)

/-- `tcp_output` has something to send: data that the window and the line have room for, or the
`FIN`. -/
def Conn.HasOutput (c : Conn) : Prop :=
  c.tcb.state.sends = true ∧
    ((0 < c.tcb.unsent ∧ 0 < c.tcb.win ∧ 40 + c.tcb.nextLen + 2 * 40 ≤ c.world.ipRoom.headD 0) ∨
      (c.tcb.finPending ≠ 0 ∧ c.tcb.finSent = false ∧ c.tcb.inflight = c.tcb.txlen))

/-! ## Sending -/

/-- Segments are sent, each with the current `rcv_nxt`; if there are none, what was pending is. -/
structure Emits (c c' : Conn) : Prop where
  rcvNxt : c'.tcb.rcvNxt = c.tcb.rcvNxt
  news : ∃ news, c'.sent = news ++ c.sent ∧
    (∀ segment ∈ news, segment.flags.ack = true ∧ segment.ack = c.tcb.rcvNxt) ∧
    (news = [] → c'.tcb.ackPending = c.tcb.ackPending)

theorem Emits.same (hrcv : c'.tcb.rcvNxt = c.tcb.rcvNxt) (hsent : c'.sent = c.sent)
    (hpending : c'.tcb.ackPending = c.tcb.ackPending) : Emits c c' :=
  ⟨hrcv, [], hsent, nofun, fun _ => hpending⟩

theorem Emits.refl (c : Conn) : Emits c c := Emits.same rfl rfl rfl

theorem Emits.trans (h : Emits c c') (h' : Emits c' c'') : Emits c c'' := by
  obtain ⟨news, hsent, hacks, hpending⟩ := h.news
  obtain ⟨news', hsent', hacks', hpending'⟩ := h'.news
  refine ⟨h'.rcvNxt.trans h.rcvNxt, news' ++ news, ?_, ?_, ?_⟩
  · rw [hsent', hsent, List.append_assoc]
  · intro segment hmem
    rcases List.mem_append.mp hmem with hmem | hmem
    · rw [← h.rcvNxt]
      exact hacks' segment hmem
    · exact hacks segment hmem
  · intro hnil
    obtain ⟨hnil', hnil⟩ := List.append_eq_nil_iff.mp hnil
    exact (hpending' hnil').trans (hpending hnil)

theorem Emits.suffix (h : Emits c c') : c.sent <:+ c'.sent := by
  obtain ⟨news, hsent, -⟩ := h.news
  exact ⟨news, hsent.symm⟩

theorem Emits.acks (h : Emits c c') (hsent : c'.sent ≠ c.sent) : Acks c c' := by
  obtain ⟨news, hnews, hacks, -⟩ := h.news
  cases news with
  | nil => exact absurd hnews hsent
  | cons segment news =>
      obtain ⟨hflag, hack⟩ := hacks segment List.mem_cons_self
      exact ⟨segment :: news, hnews, segment, List.mem_cons_self, hflag,
        Or.inl (hack.trans h.rcvNxt.symm)⟩

theorem emits_sendSeg (c : Conn) (seq : Seq) (flags : Flags) (off len : Nat)
    (hflag : flags.ack = true) : Emits c (c.sendSeg seq flags off len) := by
  refine ⟨rfl, [_], rfl, ?_, nofun⟩
  intro segment hmem
  rw [List.mem_singleton.mp hmem]
  exact ⟨hflag, rfl⟩

theorem emits_startTimer (c : Conn) : Emits c c.startTimer := by
  unfold Conn.startTimer
  split <;> exact Emits.same rfl rfl rfl

theorem emits_sendData (c : Conn) : Emits c c.sendData := by
  have hseg := emits_sendSeg c c.tcb.sndNxt ⟨false, false, false, true, true⟩
    c.tcb.inflight.toNat c.tcb.nextLen.toNat rfl
  refine hseg.trans (Emits.trans ?_ (emits_startTimer _))
  exact Emits.same rfl rfl rfl

theorem emits_outputLoop (c : Conn) (rooms : List Int) : Emits c (c.outputLoop rooms) := by
  induction rooms generalizing c with
  | nil => exact Emits.same rfl rfl rfl
  | cons room rooms ih =>
      unfold Conn.outputLoop
      split
      · exact Emits.same rfl rfl rfl
      · split
        · exact Emits.same rfl rfl rfl
        · exact (emits_sendData c).trans (ih c.sendData)

theorem emits_sendFin (c : Conn) : Emits c c.sendFin := by
  unfold Conn.sendFin
  split
  · have hseg := emits_sendSeg c c.tcb.sndNxt ⟨true, false, false, false, true⟩ 0 0 rfl
    refine hseg.trans (Emits.trans ?_ (emits_startTimer _))
    exact Emits.same rfl rfl rfl
  · exact Emits.refl c

theorem emits_tcpOutput (c : Conn) : Emits c c.tcpOutput := by
  unfold Conn.tcpOutput
  split
  · exact Emits.refl c
  · exact (emits_outputLoop c _).trans (emits_sendFin _)

/-! ## When `tcp_output` sends -/

theorem outputLoop_state (c : Conn) (rooms : List Int) :
    (c.outputLoop rooms).tcb.state = c.tcb.state := by
  induction rooms generalizing c with
  | nil => rfl
  | cons room rooms ih =>
      unfold Conn.outputLoop
      split
      · rfl
      · split
        · rfl
        · exact (ih c.sendData).trans (sendData_state c)

theorem State.sends_iff (state : State) :
    state.sends = true ↔ ¬(state = .synRcvd ∨ state = .closed ∨ state = .timeWait) := by
  cases state <;> decide

/-- `tcp_output` stays among the states in which it sends. -/
theorem tcpOutput_sends (c : Conn) : c.tcpOutput.tcb.state.sends = c.tcb.state.sends := by
  have hfin : ∀ c : Conn, c.sendFin.tcb.state.sends = c.tcb.state.sends := by
    intro c
    unfold Conn.sendFin
    split
    · rw [startTimer_state]
      show c.tcb.state.afterFin.sends = c.tcb.state.sends
      cases c.tcb.state <;> rfl
    · rfl
  unfold Conn.tcpOutput
  split
  · rfl
  · rw [hfin, outputLoop_state]

/-- The loop that sends no data changes only the answers to come. -/
theorem outputLoop_silent {rooms : List Int}
    (h : ¬(0 < c.tcb.unsent ∧ 0 < c.tcb.win ∧ 40 + c.tcb.nextLen + 2 * 40 ≤ rooms.headD 0)) :
    (c.outputLoop rooms).tcb = c.tcb ∧ (c.outputLoop rooms).sent = c.sent := by
  cases rooms with
  | nil => exact ⟨rfl, rfl⟩
  | cons room rooms =>
      unfold Conn.outputLoop
      split
      · exact ⟨rfl, rfl⟩
      next hgo =>
        rw [not_or, not_le, not_le] at hgo
        rw [if_pos]
        · exact ⟨rfl, rfl⟩
        · by_contra hroom
          exact h ⟨hgo.1, hgo.2, not_lt.mp hroom⟩

/-- A segment with data goes out at once. -/
theorem outputLoop_sends {rooms : List Int} (hunsent : 0 < c.tcb.unsent) (hwin : 0 < c.tcb.win)
    (hroom : 40 + c.tcb.nextLen + 2 * 40 ≤ rooms.headD 0) :
    c.sent.length < (c.outputLoop rooms).sent.length := by
  have hlen := (nextLen_le hunsent hwin).1
  cases rooms with
  | nil =>
      rw [List.headD_nil] at hroom
      omega
  | cons room rooms =>
      rw [List.headD_cons] at hroom
      unfold Conn.outputLoop
      rw [if_neg (by omega), if_neg (by omega)]
      have hmore := (emits_outputLoop c.sendData rooms).suffix.length_le
      have hdata : c.sendData.sent.length = c.sent.length + 1 := by
        unfold Conn.sendData
        rw [(startTimer_frame _).2.1]
        rfl
      omega

/-- `tcp_output` sends exactly when there is something to send. -/
theorem tcpOutput_sent_iff (c : Conn) : c.tcpOutput.sent ≠ c.sent ↔ c.HasOutput := by
  unfold Conn.HasOutput Conn.tcpOutput
  rw [State.sends_iff]
  split
  next hstate => exact ⟨fun hne => absurd rfl hne, fun hout => absurd hstate hout.1⟩
  next hstate =>
    by_cases hdata : 0 < c.tcb.unsent ∧ 0 < c.tcb.win ∧
        40 + c.tcb.nextLen + 2 * 40 ≤ c.world.ipRoom.headD 0
    · refine ⟨fun _ => ⟨hstate, Or.inl hdata⟩, fun _ heq => ?_⟩
      have hloop := outputLoop_sends hdata.1 hdata.2.1 hdata.2.2
      have hfin := (emits_sendFin (c.outputLoop c.world.ipRoom)).suffix.length_le
      rw [heq] at hfin
      omega
    · obtain ⟨htcb, hsent⟩ := outputLoop_silent hdata
      unfold Conn.sendFin
      rw [htcb]
      split
      next hfin =>
        refine ⟨fun _ => ⟨hstate, Or.inr hfin⟩, fun _ heq => ?_⟩
        rw [(startTimer_frame _).2.1] at heq
        have hlen := congrArg List.length heq
        simp only [Conn.advance, Conn.sendSeg, List.length_cons] at hlen
        rw [show (c.outputLoop c.world.ipRoom).rcvWindow.2.sent = c.sent from hsent] at hlen
        omega
      next hfin =>
        rw [hsent]
        refine ⟨fun hne => absurd rfl hne, fun hout => ?_⟩
        rcases hout.2 with hout | hout
        · exact absurd hout hdata
        · exact absurd hout hfin

/-- `tcp_output` answers what it has output for, and leaves what is pending to `tcp_poll`. -/
theorem answered_tcpOutput (c : Conn) :
    Answered c c.tcpOutput ↔
      c.HasOutput ∨ (c.tcb.ackPending = true ∧ c.tcb.state.sends = true) := by
  have hemits := emits_tcpOutput c
  rw [← tcpOutput_sent_iff]
  unfold Answered
  rw [tcpOutput_sends]
  by_cases hsent : c.tcpOutput.sent = c.sent
  · obtain ⟨news, hnews, -, hpending⟩ := hemits.news
    rw [hsent, List.self_eq_append_left] at hnews
    rw [hpending hnews]
    refine or_congr_left ⟨?_, fun hne => absurd hsent hne⟩
    rintro ⟨news', hnews', segment, hmem, -⟩
    rw [hsent, List.self_eq_append_left] at hnews'
    rw [hnews'] at hmem
    cases hmem
  · exact ⟨fun _ => Or.inl hsent, fun _ => Or.inl (hemits.acks hsent)⟩

/-! ## The callbacks -/

/-- What callbacks do: they send and leave the connection there, or they abort it with a `RST`. -/
def Follows (c c' : Conn) : Prop :=
  (Emits c c' ∧ c'.tcb.state ≠ .closed) ∨
    (c'.tcb.state = .closed ∧ ∃ news, c'.sent = news ++ c.sent ∧ ∃ segment ∈ news,
      segment.flags.ack = true ∧ segment.flags.rst = true)

theorem Emits.follows (h : Emits c c') (h' : Follows c' c'') : Follows c c'' := by
  rcases h' with ⟨h', hlive⟩ | ⟨hgone, news', hsent', segment, hmem, hrst⟩
  · exact Or.inl ⟨h.trans h', hlive⟩
  · obtain ⟨news, hsent⟩ := h.suffix
    refine Or.inr ⟨hgone, news' ++ news, ?_, segment, List.mem_append_left news hmem, hrst⟩
    rw [hsent', ← hsent, List.append_assoc]

/-- An answer stays one. -/
theorem Acks.follow (h : Acks c c') (hlive : c'.tcb.state ≠ .closed) (h' : Follows c' c'') :
    Acks c c'' := by
  obtain ⟨news, hsent, segment, hmem, hflag, hack⟩ := h
  have hack := hack.resolve_right fun hgone => hlive hgone.2
  rcases h' with ⟨h', -⟩ | ⟨hgone, news', hsent', segment', hmem', hflag', hrst⟩
  · obtain ⟨news', hsent'⟩ := h'.suffix
    refine ⟨news' ++ news, ?_, segment, List.mem_append_right news' hmem, hflag,
      Or.inl (hack.trans h'.rcvNxt.symm)⟩
    rw [← hsent', hsent, List.append_assoc]
  · refine ⟨news' ++ news, ?_, segment', List.mem_append_left news hmem', hflag',
      Or.inr ⟨hrst, hgone⟩⟩
    rw [hsent', hsent, List.append_assoc]

theorem Follows.acks (h : Follows c c') (hgone : c'.tcb.state = .closed) : Acks c c' := by
  rcases h with ⟨-, hlive⟩ | ⟨-, news, hsent, segment, hmem, hflag, hrst⟩
  · exact absurd hgone hlive
  · exact ⟨news, hsent, segment, hmem, hflag, Or.inr ⟨hrst, hgone⟩⟩

theorem tcpOutput_live (hlive : c.tcb.state ≠ .closed) : c.tcpOutput.tcb.state ≠ .closed := by
  unfold Conn.tcpOutput
  split
  · exact hlive
  · unfold Conn.sendFin
    split
    · rw [startTimer_state]
      refine State.afterFin_live ?_
      show (c.outputLoop c.world.ipRoom).tcb.state ≠ .closed
      rwa [outputLoop_state]
    · rwa [outputLoop_state]

theorem follows_tcpClose (c : Conn) (hlive : c.tcb.state ≠ .closed) : Follows c c.tcpClose := by
  unfold Conn.tcpClose
  split
  · exact Or.inl ⟨Emits.refl c, hlive⟩
  · refine Or.inl ⟨Emits.trans ?_ (emits_tcpOutput _), tcpOutput_live hlive⟩
    exact Emits.same rfl rfl rfl

/-- Calls on a connection that is gone take nothing back. -/
theorem suffix_calls (c : Conn) (calls : List Call) : c.sent <:+ (c.calls calls).sent := by
  unfold Conn.calls
  induction calls generalizing c with
  | nil => exact List.suffix_refl _
  | cons call calls ih =>
      refine List.IsSuffix.trans ?_ (ih (c.call call))
      cases call with
      | write bytes =>
          show c.sent <:+ (c.tcpWrite bytes).sent
          unfold Conn.tcpWrite
          split <;> exact List.suffix_refl _
      | close =>
          show c.sent <:+ c.tcpClose.sent
          unfold Conn.tcpClose
          split
          · exact List.suffix_refl _
          · exact (emits_tcpOutput { c with tcb := { c.tcb with finPending := 1 } }).suffix
      | abort => exact List.suffix_cons _ _

theorem follows_calls (c : Conn) (hlive : c.tcb.state ≠ .closed) (calls : List Call) :
    Follows c (c.calls calls) := by
  induction calls generalizing c with
  | nil => exact Or.inl ⟨Emits.refl c, hlive⟩
  | cons call calls ih =>
      show Follows c ((c.call call).calls calls)
      cases call with
      | write bytes =>
          have hwrite : Emits c (c.tcpWrite bytes) ∧ (c.tcpWrite bytes).tcb.state ≠ .closed := by
            unfold Conn.tcpWrite
            split
            · exact ⟨Emits.refl c, hlive⟩
            · exact ⟨Emits.same rfl rfl rfl, hlive⟩
          exact hwrite.1.follows (ih _ hwrite.2)
      | close =>
          rcases follows_tcpClose c hlive with ⟨hclose, hlive'⟩ | ⟨hgone, hsent⟩
          · exact hclose.follows (ih _ hlive')
          · exact absurd hgone (by
              unfold Conn.tcpClose
              split
              · exact hlive
              · exact tcpOutput_live hlive)
      | abort =>
          -- the RST is out, and nothing brings the connection back
          obtain ⟨news, hsent⟩ := suffix_calls (c.call .abort) calls
          have hrst : ∃ segment : Segment, c.tcpAbort.sent = [segment] ++ c.sent ∧
              segment.flags.ack = true ∧ segment.flags.rst = true := ⟨_, rfl, rfl, rfl⟩
          obtain ⟨segment, hcons, hflags⟩ := hrst
          refine Or.inr ⟨(quiet_calls _ calls).gone rfl, news ++ [segment], ?_, segment,
            List.mem_append_right news List.mem_cons_self, hflags⟩
          rw [← hsent, List.append_assoc, ← hcons]
          rfl

/-- Calls do not lead out of the states in which we send, unless they abort. -/
theorem calls_sends (c : Conn) (calls : List Call) :
    (c.calls calls).tcb.state = .closed ∨
      (c.calls calls).tcb.state.sends = c.tcb.state.sends := by
  induction calls generalizing c with
  | nil => exact Or.inr rfl
  | cons call calls ih =>
      show ((c.call call).calls calls).tcb.state = .closed ∨
        ((c.call call).calls calls).tcb.state.sends = c.tcb.state.sends
      cases call with
      | write bytes =>
          have hwrite : (c.tcpWrite bytes).tcb.state = c.tcb.state := by
            unfold Conn.tcpWrite
            split <;> rfl
          rw [← hwrite]
          exact ih _
      | close =>
          have hclose : c.tcpClose.tcb.state.sends = c.tcb.state.sends := by
            unfold Conn.tcpClose
            split
            · rfl
            · exact tcpOutput_sends _
          rw [← hclose]
          exact ih _
      | abort => exact Or.inl ((quiet_calls _ calls).gone rfl)

/-- The callback for the peer's `FIN`. -/
theorem follows_peerFin (c : Conn) (hlive : c.tcb.state ≠ .closed) (app : App) :
    Follows c (c.peerFin app) := by
  unfold Conn.peerFin
  split
  · have hwait : Emits c { c with tcb := { c.tcb with state := .closeWait } } :=
      Emits.same rfl rfl rfl
    have hlive' : State.closeWait ≠ .closed := by decide
    dsimp only
    split
    · exact hwait.follows (follows_calls _ (by exact hlive') _)
    · exact hwait.follows (follows_tcpClose _ hlive')
  · refine Or.inl ⟨Emits.same rfl rfl rfl, ?_⟩
    show (if c.tcb.finPending = 2 then State.timeWait else State.closing) ≠ .closed
    split <;> decide
  · exact Or.inl ⟨Emits.same rfl rfl rfl, nofun⟩
  · exact Or.inl ⟨Emits.refl c, hlive⟩

/-! ## `tcp_input` -/

theorem acks_sendAck (c : Conn) : Acks c c.sendAck :=
  ⟨[_], rfl, _, List.mem_cons_self, rfl, Or.inl rfl⟩

/-- The end of `tcp_input`: a `FIN` that is the next is answered, otherwise `tcp_output` may. -/
theorem answered_finInput (hlive : c.tcb.state ≠ .closed) (seq : Seq) (dlen : Nat) (fin : Bool)
    (app : App) :
    Answered c (c.finInput seq dlen fin app) ↔
      (fin = true ∧ serialAdd seq dlen = c.tcb.rcvNxt) ∨ c.HasOutput ∨
        (c.tcb.ackPending = true ∧ c.tcb.state.sends = true) := by
  unfold Conn.finInput
  split
  next hfin =>
    refine ⟨fun _ => Or.inl hfin, fun _ => Or.inl ?_⟩
    have hack : Acks c { c with
        tcb := { c.tcb with rcvNxt := serialAdd c.tcb.rcvNxt 1 }
        finTaken := true }.sendAck := ⟨[_], rfl, _, List.mem_cons_self, rfl, Or.inl rfl⟩
    exact hack.follow hlive (follows_peerFin _ (by exact hlive) app)
  next hfin =>
    rw [answered_tcpOutput]
    exact (or_iff_right hfin).symm

/-- Data that are given to the service are always answered. -/
theorem answered_takeInput (hstate : c.tcb.state.takesData = true) (seq : Seq)
    (data : List UInt8) (fin : Bool) (app : App) :
    Answered c (c.takeInput seq data fin app) := by
  have hlive : c.tcb.state ≠ .closed := by
    intro hclosed
    rw [hclosed] at hstate
    cases hstate
  unfold Conn.takeInput
  split
  · exact Or.inl (acks_sendAck c)
  next hseq =>
    dsimp only
    have htaken : Emits c { c with taken := c.taken ++ data.take (app.input data).2.toNat } :=
      Emits.same rfl rfl rfl
    have hfollows := htaken.follows (follows_calls { c with
      taken := c.taken ++ data.take (app.input data).2.toNat } hlive (app.input data).1)
    have hcalls := calls_sends { c with taken := c.taken ++ data.take (app.input data).2.toNat }
      (app.input data).1
    generalize { c with taken := c.taken ++ data.take (app.input data).2.toNat }.calls
      (app.input data).1 = d at hfollows hcalls ⊢
    split
    next hgone => exact Or.inl (hfollows.acks hgone)
    next hd =>
      have hsends : d.tcb.state.sends = true := by
        rw [hcalls.resolve_left hd]
        revert hstate
        show c.tcb.state.takesData = true → c.tcb.state.sends = true
        cases c.tcb.state <;> decide
      have hemits := (hfollows.resolve_right fun hgone => hd hgone.1).1
      obtain ⟨news, hsent⟩ := hemits.suffix
      have hfin := (answered_finInput (c := d.took (app.input data).2.toNat) hd seq data.length
        (fin && decide ((data.length : Int) ≤ (app.input data).2)) app).mpr
        (Or.inr (Or.inr ⟨rfl, hsends⟩))
      refine hfin.imp_left ?_
      rintro ⟨news', hsent', segment, hmem, hack⟩
      refine ⟨news' ++ news, ?_, segment, List.mem_append_left news hmem, hack⟩
      rw [hsent', List.append_assoc, hsent]
      rfl

/-- The comparison of a segment's start with `rcv_nxt`. -/
theorem sub_toInt_cases {seq rcvNxt : Seq} (hlt : serialLt seq rcvNxt = true) :
    (rcvNxt - seq).toInt < 0 ↔ seq = serialAdd rcvNxt (2 ^ 31) := by
  unfold serialLt at hlt
  rw [decide_eq_true_eq, BitVec.toInt_eq_toNat_cond] at hlt
  rw [BitVec.toInt_eq_toNat_cond]
  unfold serialAdd
  constructor
  · intro hneg
    split at hneg <;> split at hlt <;> bv_omega
  · rintro rfl
    split <;> bv_omega

/-- Data in a state that takes data are answered, but for those that start exactly `2 ^ 31` before
`rcv_nxt`. -/
theorem answered_dataInput (hstate : c.tcb.state.takesData = true) (segment : Segment)
    (app : App) :
    Answered c (c.dataInput segment app) ↔
      segment.seq ≠ serialAdd c.tcb.rcvNxt (2 ^ 31) ∨ c.HasOutput ∨
        (c.tcb.ackPending = true ∧ c.tcb.state.sends = true) := by
  have hlive : c.tcb.state ≠ .closed := by
    intro hclosed
    rw [hclosed] at hstate
    cases hstate
  unfold Conn.dataInput
  split
  next hlt =>
    have hcases := sub_toInt_cases hlt
    have hne : segment.seq ≠ c.tcb.rcvNxt := by
      intro heq
      rw [heq] at hlt
      unfold serialLt at hlt
      rw [BitVec.sub_self] at hlt
      cases hlt
    dsimp only
    split
    next hold =>
      -- all of it is old: the ACK is out before the `FIN` is looked at
      have hfar : segment.seq ≠ serialAdd c.tcb.rcvNxt (2 ^ 31) := fun heq => by
        have := hcases.mpr heq
        omega
      refine ⟨fun _ => Or.inl hfar, fun _ => Or.inl ?_⟩
      unfold Conn.finInput
      have hack : c.sendAck.tcb.state ≠ .closed := hlive
      rw [if_neg, if_pos hack]
      · exact (acks_sendAck c).follow hlive (Or.inl ⟨emits_tcpOutput _, tcpOutput_live hlive⟩)
      · rintro ⟨-, heq⟩
        rw [serialAdd_zero] at heq
        exact hne heq
    · split
      next hneg =>
        rw [answered_finInput hlive, or_iff_right (fun hfin => by cases hfin.1),
          or_iff_right (not_not.mpr (hcases.mp hneg))]
      next hpos =>
        exact ⟨fun _ => Or.inl fun heq => hpos (hcases.mpr heq),
          fun _ => answered_takeInput hstate _ _ _ app⟩
  next hnlt =>
    refine ⟨fun _ => Or.inl ?_, fun _ => answered_takeInput hstate _ _ _ app⟩
    rintro heq
    refine hnlt ?_
    rw [heq]
    unfold serialLt serialAdd
    rw [decide_eq_true_eq, BitVec.toInt_eq_toNat_cond]
    split <;> bv_omega

/-- The connection once `ack_input` and the window have been dealt with. -/
def Conn.acked (c : Conn) (segment : Segment) : Conn :=
  (c.ackInput segment.ack).setWindow segment.window

/-- The segment acknowledges our `FIN` in `LAST_ACK`. -/
def Conn.Ends (c : Conn) (segment : Segment) : Prop :=
  (c.acked segment).tcb.finPending = 2 ∧ c.tcb.state = .lastAck

/-- Data in a state that takes data, not exactly `2 ^ 31` before `rcv_nxt`. -/
def Conn.Compares (c : Conn) (segment : Segment) : Prop :=
  segment.data ≠ [] ∧ c.tcb.state.takesData = true ∧
    segment.seq ≠ serialAdd c.tcb.rcvNxt (2 ^ 31)

/-- A `FIN` at `rcv_nxt`, behind no data or data that the state does not take. -/
def Conn.NextFin (c : Conn) (segment : Segment) : Prop :=
  ¬(segment.data ≠ [] ∧ c.tcb.state.takesData = true) ∧ segment.flags.fin = true ∧
    serialAdd segment.seq segment.data.length = c.tcb.rcvNxt

/-- After the acknowledgement there is something else to send, or an acknowledgement was pending. -/
def Conn.Rides (c : Conn) (segment : Segment) : Prop :=
  (c.acked segment).finAcked.HasOutput ∨
    (c.tcb.ackPending = true ∧ (c.acked segment).finAcked.tcb.state.sends = true)

/-- Dealing with the acknowledgement sends nothing and takes nothing. -/
theorem acked_frame (c : Conn) (segment : Segment) :
    (c.acked segment).sent = c.sent ∧ (c.acked segment).tcb.rcvNxt = c.tcb.rcvNxt ∧
      (c.acked segment).tcb.ackPending = c.tcb.ackPending ∧
      (c.acked segment).tcb.state = c.tcb.state := by
  have htimer : ∀ d : Conn, d.startTimer.tcb.rcvNxt = d.tcb.rcvNxt ∧
      d.startTimer.tcb.ackPending = d.tcb.ackPending := by
    intro d
    unfold Conn.startTimer
    split <;> exact ⟨rfl, rfl⟩
  refine ⟨?_, ?_, ?_, ackInput_state c segment.ack⟩ <;>
    simp only [Conn.acked, Conn.setWindow, Conn.ackInput] <;> split
  · rfl
  · split
    · exact (startTimer_frame _).2.1
    · rfl
  · rfl
  · split
    · exact (htimer _).1
    · rfl
  · rfl
  · split
    · exact (htimer _).2
    · rfl

/-- Nor does the acknowledgement of our `FIN`. -/
theorem finAcked_frame (c : Conn) :
    c.finAcked.sent = c.sent ∧ c.finAcked.tcb.rcvNxt = c.tcb.rcvNxt ∧
      c.finAcked.tcb.ackPending = c.tcb.ackPending ∧
      c.finAcked.tcb.state.takesData = c.tcb.state.takesData ∧
      (c.tcb.state ≠ .closed → c.finAcked.tcb.state ≠ .closed) := by
  unfold Conn.finAcked
  split
  · split
    next hstate => exact ⟨rfl, rfl, rfl, by rw [hstate]; rfl, fun _ => nofun⟩
    next hstate => exact ⟨rfl, rfl, rfl, by rw [hstate]; rfl, fun _ => nofun⟩
    · exact ⟨rfl, rfl, rfl, rfl, id⟩
  · exact ⟨rfl, rfl, rfl, rfl, id⟩

/-- A segment with data or a `FIN`, after the handshake. -/
theorem answered_segInput (hlive : c.tcb.state ≠ .closed) {segment : Segment} (app : App)
    (htext : segment.data ≠ [] ∨ segment.flags.fin = true) :
    Answered c (c.segInput segment app) ↔
      ¬ c.Ends segment ∧ (c.Compares segment ∨ c.NextFin segment ∨ c.Rides segment) := by
  obtain ⟨hsent, hrcv, hpending, hstate⟩ := acked_frame c segment
  obtain ⟨hsent', hrcv', hpending', htakes, hlive'⟩ := finAcked_frame (c.acked segment)
  unfold Conn.segInput
  show Answered c (if (c.acked segment).tcb.finPending = 2 ∧
    (c.acked segment).tcb.state = .lastAck then _ else _) ↔ _
  rw [hstate]
  split
  next hends =>
    -- the connection is gone, and nothing was sent
    refine ⟨?_, fun h => absurd hends h.1⟩
    rintro (⟨news, hnews, segment', hmem, -⟩ | ⟨hfalse, -⟩)
    · have hnil : news = [] := List.self_eq_append_left.mp (hsent.symm.trans hnews)
      rw [hnil] at hmem
      cases hmem
    · cases hfalse
  next hends =>
    rw [hstate] at hlive' htakes
    rw [hrcv] at hrcv'
    rw [hpending] at hpending'
    rw [hsent] at hsent'
    have hrides : c.Rides segment ↔ (c.acked segment).finAcked.HasOutput ∨
        ((c.acked segment).finAcked.tcb.ackPending = true ∧
          (c.acked segment).finAcked.tcb.state.sends = true) := by
      unfold Conn.Rides
      rw [hpending']
    rw [and_iff_right (show ¬ c.Ends segment from hends), hrides]
    unfold Conn.Compares Conn.NextFin
    rw [← hrcv', ← htakes]
    show Answered c ((c.acked segment).finAcked.textInput segment app) ↔ _
    have hfrom : ∀ x : Conn, Answered c x ↔ Answered (c.acked segment).finAcked x := by
      intro x
      unfold Answered Acks
      rw [hsent']
    rw [hfrom]
    have hgo := hlive' hlive
    generalize (c.acked segment).finAcked = d at hgo ⊢
    unfold Conn.textInput
    rw [if_neg]
    · split
      next hdata =>
        rw [answered_dataInput hdata.2]
        simp only [hdata, ne_eq, not_false_eq_true, true_and, not_true_eq_false, false_and,
          false_or]
      next hdata =>
        rw [answered_finInput hgo]
        simp only [hdata, not_false_eq_true, true_and]
        rw [← and_assoc]
        exact (or_iff_right fun hcompares => hdata hcompares.1).symm
    · rintro ⟨hnil, hfin, -⟩
      rcases htext with htext | htext
      · exact htext hnil
      · exact absurd (hfin.symm.trans htext) Bool.false_ne_true

/-! ## `tcp_poll` -/

theorem emits_updateWindow (c : Conn) : Emits c c.updateWindow := by
  have hask : ∀ c : Conn, Emits c c.rcvWindow.2 := fun c => Emits.same rfl rfl rfl
  have hack : ∀ c : Conn, Emits c c.sendAck := fun c => emits_sendSeg c _ .ackOnly 0 0 rfl
  unfold Conn.updateWindow
  dsimp only
  split
  · exact hack c
  split
  · exact (hask c).trans (hack _)
  split
  · split
    · exact (hask c).trans ((hask _).trans (hack _))
    · exact (hask c).trans (hask _)
  · exact hask c

/-- A pending acknowledgement goes out with the next pass of the main loop. -/
theorem tcpPoll_acks (hpending : c.tcb.ackPending = true) (hsends : c.tcb.state.sends = true)
    (calls : List Call) : Acks c (c.tcpPoll calls) := by
  have hlive : c.tcb.state ≠ .closed := by
    intro hgone
    rw [hgone] at hsends
    cases hsends
  have hpoll : Follows c (if c.tcb.state = .established ∨ c.tcb.state = .closeWait then
        c.calls calls else c) ∧
      ((if c.tcb.state = .established ∨ c.tcb.state = .closeWait then c.calls calls
        else c).tcb.state = .closed ∨
      (if c.tcb.state = .established ∨ c.tcb.state = .closeWait then c.calls calls
        else c).tcb.state.sends = true) := by
    split
    · exact ⟨follows_calls c hlive calls, hsends ▸ calls_sends c calls⟩
    · exact ⟨Or.inl ⟨Emits.refl c, hlive⟩, Or.inr hsends⟩
  unfold Conn.tcpPoll
  dsimp only
  generalize (if c.tcb.state = .established ∨ c.tcb.state = .closeWait then c.calls calls
    else c) = d at hpoll ⊢
  obtain ⟨hfollows, hstate⟩ := hpoll
  split
  next hquit =>
    refine hfollows.acks (hstate.resolve_right fun hsends' => ?_)
    rw [State.sends_iff] at hsends'
    tauto
  next hgo =>
    rw [not_or] at hgo
    have hemits := (hfollows.resolve_right fun hgone => hgo.1 hgone.1).1
    have hout := hemits.trans (emits_tcpOutput d)
    refine (hout.trans (emits_updateWindow _)).acks fun heq => ?_
    have hlen := hout.suffix.length_le
    rcases hwait : d.tcpOutput.tcb.ackPending with _ | _
    · -- something was sent already
      obtain ⟨news, hsent, -, hsame⟩ := hout.news
      have hnil : news = [] := by
        have hmore := (emits_updateWindow d.tcpOutput).suffix.length_le
        rw [heq, hsent, List.length_append] at hmore
        exact List.length_eq_zero_iff.mp (by omega)
      have := hsame hnil
      rw [hwait, hpending] at this
      cases this
    · unfold Conn.updateWindow at heq
      rw [if_pos hwait] at heq
      have hcons := congrArg List.length heq
      simp only [Conn.sendAck, Conn.sendSeg, List.length_cons] at hcons
      have hask : d.tcpOutput.rcvWindow.2.sent = d.tcpOutput.sent := rfl
      rw [hask] at hcons
      omega

/-- A segment with data or a `FIN` is answered, by `tcp_input` or by the next `tcp_poll`, in these cases
and in no others: it carries a `SYN`; or it does not end the connection, and its data are compared
with `rcv_nxt`, its `FIN` stands at `rcv_nxt`, or the acknowledgement rides on something else. -/
theorem text_answered_iff (c : Conn) (segment : Segment) (app : App)
    (hlive : c.tcb.state ≠ .closed) (hsyn : c.tcb.state ≠ .synRcvd)
    (hack : segment.flags.ack = true) (hrst : segment.flags.rst = false)
    (htext : segment.data ≠ [] ∨ segment.flags.fin = true) :
    (Answered c (c.tcpInput segment app) ↔ segment.flags.syn = true ∨
      (¬ c.Ends segment ∧ (c.Compares segment ∨ c.NextFin segment ∨ c.Rides segment))) ∧
    ∀ (world : World) (calls : List Call),
      (c.tcpInput segment app).tcb.ackPending = true →
      (c.tcpInput segment app).tcb.state.sends = true →
      Acks (c.tcpInput segment app)
        ({ c.tcpInput segment app with world := world }.tcpPoll calls) := by
  constructor
  · unfold Conn.tcpInput
    rw [if_neg hlive, if_neg (by rw [hrst]; decide)]
    split
    next hflag =>
      refine ⟨fun _ => Or.inl hflag, fun _ => Or.inl ?_⟩
      unfold Conn.synInput
      rw [if_neg fun hsame => hsyn hsame.1]
      exact acks_sendAck c
    next hflag =>
      rw [if_neg (by rw [hack]; decide), or_iff_right hflag]
      exact answered_segInput hlive app htext
  · intro world calls hpending hsends
    exact tcpPoll_acks (c := { c.tcpInput segment app with world := world }) hpending hsends calls

/-- A segment two bytes ahead of `rcv_nxt`, in `ESTABLISHED`. -/
theorem text_answered_iff_ahead :
    ∃ c segment, c = [arrives 8 false []].foldl Conn.step (passiveOpen ⟨[], [], []⟩ 0 7 512 512) ∧
      segment = Segment.mk 10 1 .ackOnly 512 [12] ∧ Answered c (c.tcpInput segment discard) := by
  refine ⟨_, _, rfl, rfl, ?_⟩
  refine (text_answered_iff _ _ discard (by decide +kernel) (by decide +kernel) rfl rfl
    (Or.inl (by decide))).1.mpr (Or.inr ⟨fun hends => ?_, Or.inl ⟨by decide, ?_, ?_⟩⟩)
  · revert hends
    unfold Conn.Ends
    decide +kernel
  · decide +kernel
  · decide +kernel

/-- The service closes, the peer acknowledges our `FIN` and sends its own, and the acknowledgement of that
gets lost. -/
def closedFirst : List Label :=
  [arrives 8 false [], ⟨.call .close, ⟨[], [], []⟩⟩,
    ⟨.input ⟨8, 2, ⟨true, false, false, false, true⟩, 512, []⟩ discard, ⟨[], [], []⟩⟩]

/-- The peer's `FIN` arrives again in `TIME_WAIT`, and gets no answer. -/
theorem retransmitted_fin_unanswered :
    ∃ c segment, c = closedFirst.foldl Conn.step (passiveOpen ⟨[], [], []⟩ 0 7 512 512) ∧
      c.tcb.state = .timeWait ∧
      segment = Segment.mk 8 2 ⟨true, false, false, false, true⟩ 512 [] ∧
      c.tcb.rcvNxt = 9 ∧ ¬ Answered c (c.tcpInput segment discard) := by
  refine ⟨_, _, rfl, by decide +kernel, rfl, by decide +kernel, ?_⟩
  rintro (⟨news, hsent, segment, hmem, -⟩ | ⟨hpending, -⟩)
  · have hsame : ((closedFirst.foldl Conn.step (passiveOpen ⟨[], [], []⟩ 0 7 512 512)).tcpInput
        (Segment.mk 8 2 ⟨true, false, false, false, true⟩ 512 []) discard).sent =
        (closedFirst.foldl Conn.step (passiveOpen ⟨[], [], []⟩ 0 7 512 512)).sent := by
      decide +kernel
    rw [hsame, List.self_eq_append_left] at hsent
    rw [hsent] at hmem
    cases hmem
  · revert hpending
    decide +kernel

end DiscoBsd.Tcp
