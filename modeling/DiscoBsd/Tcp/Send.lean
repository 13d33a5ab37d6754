import Mathlib.Data.List.Infix
import DiscoBsd.Tcp.Quiet

/-!
# What a connection sends

`Sends` ties the control block to the stream of the bytes that `tcp_write` accepted: the send
buffer is the tail of the stream that is not acknowledged yet, `snd_una` stands at its first
byte, and `snd_nxt` at most at its end or, with a `FIN` out, one beyond. Every emitted segment
`Carries` its part of the stream. Each operation of `tcp.c` keeps this.
-/

namespace DiscoBsd.Tcp

open Lib

variable {iss : Seq} {tp tp' : Tcb} {written : List UInt8} {c : Conn}

/-! ## The invariant -/

/-- The states before our `FIN` is out. -/
def State.unfinished (state : State) : Bool :=
  state = .synRcvd || state = .established || state = .closeWait

/-- The fields of the control block that the send side rests on. -/
def Tcb.core (tp : Tcb) :
    State × Seq × Seq × Seq × (Nat → UInt8) × Nat × Nat × Nat × Bool × Nat :=
  (tp.state, tp.iss, tp.sndUna, tp.sndNxt, tp.tx, tp.txstart, tp.txlen, tp.finPending, tp.finSent,
    tp.mss)

/-- The send side of a control block and the stream accepted so far. -/
structure Sends (iss : Seq) (tp : Tcb) (written : List UInt8) : Prop where
  iss_eq : tp.iss = iss
  room : tp.txlen ≤ TXBUF
  kept : tp.txlen ≤ written.length
  buffer : circRead TXBUF tp.tx tp.txstart tp.txlen = written.drop (written.length - tp.txlen)
  una : tp.state ≠ .synRcvd → tp.finPending ≠ 2 →
    tp.sndUna = serialAdd iss (1 + (written.length - tp.txlen))
  handshake : tp.state = .synRcvd →
    tp.sndUna = iss ∧ tp.sndNxt = serialAdd iss 1 ∧ written = []
  flight : tp.state ≠ .synRcvd → tp.finSent = false →
    ∃ f, f ≤ tp.txlen ∧ tp.sndNxt = serialAdd tp.sndUna f
  flight_fin : tp.finSent = true → tp.finPending ≠ 2 →
    tp.sndNxt = serialAdd tp.sndUna (tp.txlen + 1)
  acked : tp.finPending = 2 → tp.sndNxt = tp.sndUna ∧ tp.txlen = 0 ∧ tp.finSent = true
  pending : tp.finSent = true → tp.finPending ≠ 0
  finished : tp.finSent = !tp.state.unfinished

/-- The segment carries its part of the stream, and a `FIN` stands at its end. -/
structure Segment.Carries (iss : Seq) (written : List UInt8) (segment : Segment) : Prop where
  data : segment.data ≠ [] → ∃ p, segment.seq = serialAdd iss (1 + p) ∧
    p + segment.data.length ≤ written.length ∧
    segment.data = (written.drop p).take segment.data.length
  fin : segment.flags.fin = true → segment.seq = serialAdd iss (1 + written.length)

/-- The invariant of a connection. -/
structure Sending (iss : Seq) (c : Conn) : Prop where
  carries : ∀ segment ∈ c.sent, segment.Carries iss c.written
  fin_out : ∀ segment ∈ c.sent, segment.flags.fin = true →
    c.tcb.state = .closed ∨ c.tcb.finPending ≠ 0
  sends : c.tcb.state ≠ .closed → Sends iss c.tcb c.written
  settled : c.tcb.finPending = 2 → c.tcb.state = .finWait2 ∨ c.tcb.state = .timeWait

/-- Only the core of the control block counts. -/
theorem Sends.congr (h : Sends iss tp written) (hcore : tp'.core = tp.core) :
    Sends iss tp' written := by
  simp only [Tcb.core, Prod.mk.injEq] at hcore
  obtain ⟨hstate, hiss, huna, hnxt, htx, hstart, hlen, hpending, hsent, -⟩ := hcore
  constructor
  · rw [hiss]
    exact h.iss_eq
  · rw [hlen]
    exact h.room
  · rw [hlen]
    exact h.kept
  · rw [htx, hstart, hlen]
    exact h.buffer
  · rw [hstate, hpending, huna, hlen]
    exact h.una
  · rw [hstate, huna, hnxt]
    exact h.handshake
  · rw [hstate, hsent, hlen, hnxt, huna]
    exact h.flight
  · rw [hsent, hpending, hnxt, huna, hlen]
    exact h.flight_fin
  · rw [hpending, hnxt, huna, hlen, hsent]
    exact h.acked
  · rw [hsent, hpending]
    exact h.pending
  · rw [hsent, hstate]
    exact h.finished

/-- A change of the connection that leaves the core and the history alone. -/
theorem Sending.congr {c' : Conn} (h : Sending iss c) (hcore : c'.tcb.core = c.tcb.core)
    (hsent : c'.sent = c.sent) (hwritten : c'.written = c.written) : Sending iss c' := by
  have hfields := hcore
  simp only [Tcb.core, Prod.mk.injEq] at hfields
  obtain ⟨hstate, -, -, -, -, -, -, hpending, -⟩ := hfields
  refine ⟨?_, ?_, ?_, ?_⟩
  · rw [hsent, hwritten]
    exact h.carries
  · rw [hsent, hstate, hpending]
    exact h.fin_out
  · rw [hstate, hwritten]
    intro hlive
    exact (h.sends hlive).congr hcore
  · rw [hstate, hpending]
    exact h.settled

/-! ## Emitting segments -/

theorem startTimer_frame (c : Conn) :
    c.startTimer.tcb.core = c.tcb.core ∧ c.startTimer.sent = c.sent ∧
      c.startTimer.written = c.written := by
  unfold Conn.startTimer
  split <;> exact ⟨rfl, rfl, rfl⟩

theorem Sending.startTimer (h : Sending iss c) : Sending iss c.startTimer := by
  obtain ⟨hcore, hsent, hwritten⟩ := startTimer_frame c
  exact h.congr hcore hsent hwritten

/-- Emitting a segment that carries its part of the stream. -/
theorem Sending.sendSeg {seq : Seq} {flags : Flags} {off len : Nat} (h : Sending iss c)
    (hdata : 0 < len → ∃ p, seq = serialAdd iss (1 + p) ∧ p + len ≤ c.written.length ∧
      circRead TXBUF c.tcb.tx (c.tcb.txstart + off) len = (c.written.drop p).take len)
    (hfin : flags.fin = true → seq = serialAdd iss (1 + c.written.length) ∧
      c.tcb.finPending ≠ 0) :
    Sending iss (c.sendSeg seq flags off len) := by
  refine ⟨?_, ?_, ?_, h.settled⟩
  · intro segment hmem
    rcases List.mem_cons.mp hmem with rfl | hmem
    · constructor
      · intro hne
        dsimp only at hne ⊢
        simp only [circRead_length]
        refine hdata (Nat.pos_of_ne_zero ?_)
        rintro rfl
        exact hne rfl
      · intro hf
        exact (hfin hf).1
    · exact h.carries segment hmem
  · intro segment hmem hf
    rcases List.mem_cons.mp hmem with rfl | hmem
    · exact Or.inr (hfin hf).2
    · exact h.fin_out segment hmem hf
  · intro hlive
    exact (h.sends hlive).congr rfl

theorem Sending.sendSeg_empty {seq : Seq} {flags : Flags} (h : Sending iss c)
    (hfin : flags.fin = false) : Sending iss (c.sendSeg seq flags 0 0) := by
  refine h.sendSeg (fun hlen => absurd hlen (Nat.lt_irrefl 0)) ?_
  intro hf
  rw [hfin] at hf
  cases hf

theorem Sending.sendAck (h : Sending iss c) : Sending iss c.sendAck := h.sendSeg_empty rfl

/-! ## `tcp_output` -/

theorem inflight_eq {f : Nat} (hnxt : tp.sndNxt = serialAdd tp.sndUna f) (hf : f < 2 ^ 31) :
    tp.inflight = f := by
  have hsub : (serialAdd tp.sndUna f - serialAdd tp.sndUna 0).toInt = (f : Int) - (0 : Nat) :=
    serialAdd_sub_toInt (by omega) (by omega)
  rw [serialAdd_zero] at hsub
  unfold Tcb.inflight
  rw [hnxt, hsub]
  omega

theorem Sends.inflight_unfinished (h : Sends iss tp written) (hsyn : tp.state ≠ .synRcvd)
    (hsent : tp.finSent = false) :
    ∃ f, f ≤ tp.txlen ∧ tp.sndNxt = serialAdd tp.sndUna f ∧ tp.inflight = f := by
  obtain ⟨f, hf, hnxt⟩ := h.flight hsyn hsent
  have hroom := h.room
  unfold TXBUF at hroom
  exact ⟨f, hf, hnxt, inflight_eq hnxt (by omega)⟩

/-- With the `FIN` out there is nothing to send. -/
theorem Sends.unsent_finished (h : Sends iss tp written) (hsent : tp.finSent = true) :
    tp.unsent = 0 := by
  have hroom := h.room
  unfold TXBUF at hroom
  unfold Tcb.unsent
  by_cases hpending : tp.finPending = 2
  · obtain ⟨hnxt, hlen, -⟩ := h.acked hpending
    have hflight : tp.inflight = (0 : Nat) :=
      inflight_eq (by rw [serialAdd_zero, hnxt]) (by omega)
    simp [hsent, hflight, hlen]
  · have hflight := inflight_eq (h.flight_fin hsent hpending) (by omega)
    rw [if_pos]
    simp only [hsent, hflight, Bool.true_and, decide_eq_true_eq]
    omega

theorem Sending.setTcb (h : Sending iss c)
    (hout : c.tcb.state = .closed ∨ c.tcb.finPending ≠ 0 → tp'.state = .closed ∨ tp'.finPending ≠ 0)
    (hsends : tp'.state ≠ .closed → Sends iss tp' c.written)
    (hsettled : tp'.finPending = 2 → tp'.state = .finWait2 ∨ tp'.state = .timeWait) :
    Sending iss { c with tcb := tp' } :=
  ⟨h.carries, fun segment hmem hfin => hout (h.fin_out segment hmem hfin), hsends, hsettled⟩

/-- `snd_nxt` moves on in the send buffer. -/
theorem Sending.advance {f n : Nat} (h : Sending iss c) (hsyn : c.tcb.state ≠ .synRcvd)
    (hsent : c.tcb.finSent = false) (hnxt : c.tcb.sndNxt = serialAdd c.tcb.sndUna f)
    (hn : f + n ≤ c.tcb.txlen) : Sending iss (c.advance n) := by
  refine h.setTcb id ?_ h.settled
  intro hlive
  have hsends := h.sends hlive
  refine ⟨hsends.iss_eq, hsends.room, hsends.kept, hsends.buffer, hsends.una, ?_, ?_, ?_, ?_,
    hsends.pending, hsends.finished⟩
  · intro hstate
    exact absurd hstate hsyn
  · intro _ _
    refine ⟨f + n, hn, ?_⟩
    show serialAdd c.tcb.sndNxt n = serialAdd c.tcb.sndUna (f + n)
    rw [hnxt, serialAdd_add]
  · intro hfin
    exact absurd (hsent.symm.trans hfin) Bool.false_ne_true
  · intro hpending
    exact absurd (hsent.symm.trans (hsends.acked hpending).2.2) Bool.false_ne_true

/-- What is sent from offset `f` on is the stream from there on. -/
theorem Sends.part {f n : Nat} (h : Sends iss tp written) (hsyn : tp.state ≠ .synRcvd)
    (hpending : tp.finPending ≠ 2) (hnxt : tp.sndNxt = serialAdd tp.sndUna f)
    (hn : f + n ≤ tp.txlen) :
    ∃ p, tp.sndNxt = serialAdd iss (1 + p) ∧ p + n ≤ written.length ∧
      circRead TXBUF tp.tx (tp.txstart + f) n = (written.drop p).take n := by
  have hkept := h.kept
  refine ⟨written.length - tp.txlen + f, ?_, by omega, ?_⟩
  · rw [hnxt, h.una hsyn hpending, serialAdd_add, Nat.add_assoc]
  · rw [circRead_slice tp.tx hn, h.buffer, List.drop_drop]

theorem nextLen_le (hunsent : 0 < tp.unsent) (hwin : 0 < tp.win) :
    0 ≤ tp.nextLen ∧ tp.nextLen ≤ tp.unsent := by
  unfold Tcb.nextLen
  dsimp only
  split <;> split <;> omega

/-- One segment of data. -/
theorem Sending.sendData (h : Sending iss c) (hclosed : c.tcb.state ≠ .closed)
    (hsyn : c.tcb.state ≠ .synRcvd) (hunsent : 0 < c.tcb.unsent) (hwin : 0 < c.tcb.win) :
    Sending iss c.sendData ∧ c.sendData.tcb.state = c.tcb.state := by
  have hsends := h.sends hclosed
  have hsent : c.tcb.finSent = false := by
    by_contra hsent
    rw [Bool.not_eq_false] at hsent
    rw [hsends.unsent_finished hsent] at hunsent
    exact absurd hunsent (lt_irrefl 0)
  have hpending : c.tcb.finPending ≠ 2 := fun hpending =>
    absurd (hsent.symm.trans (hsends.acked hpending).2.2) Bool.false_ne_true
  obtain ⟨f, hf, hnxt, hflight⟩ := hsends.inflight_unfinished hsyn hsent
  obtain ⟨hnonneg, hle⟩ := nextLen_le hunsent hwin
  have hroom : f + c.tcb.nextLen.toNat ≤ c.tcb.txlen := by
    unfold Tcb.unsent at hle
    simp only [hsent, Bool.false_and, Bool.false_eq_true, if_false, hflight] at hle
    omega
  have hpart := hsends.part hsyn hpending hnxt hroom
  have hoff : c.tcb.inflight.toNat = f := by omega
  unfold Conn.sendData
  dsimp only
  rw [hoff]
  have hseg : Sending iss (c.sendSeg c.tcb.sndNxt ⟨false, false, false, true, true⟩ f
      c.tcb.nextLen.toNat) := h.sendSeg (fun _ => hpart) fun hfin => absurd hfin Bool.false_ne_true
  refine ⟨(hseg.advance hsyn hsent hnxt hroom).startTimer, ?_⟩
  rw [startTimer_state]
  rfl

/-- The loop of `tcp_output`. -/
theorem Sending.outputLoop (h : Sending iss c) (hclosed : c.tcb.state ≠ .closed)
    (hsyn : c.tcb.state ≠ .synRcvd) (rooms : List Int) :
    Sending iss (c.outputLoop rooms) ∧ (c.outputLoop rooms).tcb.state = c.tcb.state := by
  induction rooms generalizing c with
  | nil => exact ⟨h.congr rfl rfl rfl, rfl⟩
  | cons room rooms ih =>
      unfold Conn.outputLoop
      split
      · exact ⟨h.congr rfl rfl rfl, rfl⟩
      · split
        · exact ⟨h.congr rfl rfl rfl, rfl⟩
        · rename_i hgo _
          rw [not_or, not_le, not_le] at hgo
          obtain ⟨hdata, hstate⟩ := h.sendData hclosed hsyn hgo.1 hgo.2
          obtain ⟨hloop, hsame⟩ := ih hdata (hstate ▸ hclosed) (hstate ▸ hsyn)
          exact ⟨hloop, hsame.trans hstate⟩

/-- The `FIN` goes out at the end of the stream. -/
theorem Sending.sendFin (h : Sending iss c) (hclosed : c.tcb.state ≠ .closed)
    (hsyn : c.tcb.state ≠ .synRcvd) : Sending iss c.sendFin := by
  unfold Conn.sendFin
  split
  next hfin =>
    obtain ⟨hpending, hsent, hall⟩ := hfin
    have hsends := h.sends hclosed
    have hpending' : c.tcb.finPending ≠ 2 := fun hpending =>
      absurd (hsent.symm.trans (hsends.acked hpending).2.2) Bool.false_ne_true
    obtain ⟨f, hf, hnxt, hflight⟩ := hsends.inflight_unfinished hsyn hsent
    have hlen : f = c.tcb.txlen := by omega
    subst hlen
    have hend : c.tcb.sndNxt = serialAdd iss (1 + c.written.length) := by
      rw [hnxt, hsends.una hsyn hpending', serialAdd_add]
      have hkept := hsends.kept
      congr 1
      omega
    have hseg : Sending iss (c.sendSeg c.tcb.sndNxt ⟨true, false, false, false, true⟩ 0 0) :=
      h.sendSeg (fun hlen => absurd hlen (Nat.lt_irrefl 0)) fun _ => ⟨hend, hpending⟩
    have hstate : c.tcb.state.afterFin.unfinished = false ∧ c.tcb.state.afterFin ≠ .synRcvd := by
      have hfinished := hsends.finished
      rw [hsent] at hfinished
      revert hfinished hsyn
      cases c.tcb.state <;> decide
    refine Sending.startTimer (hseg.setTcb (fun _ => Or.inr hpending) (fun _ => ?_) fun htwo =>
      absurd htwo hpending')
    refine ⟨hsends.iss_eq, hsends.room, hsends.kept, hsends.buffer, ?_, ?_, ?_, ?_, ?_, ?_, ?_⟩
    · intro _ _
      exact hsends.una hsyn hpending'
    · intro hsyn'
      exact absurd hsyn' hstate.2
    · intro _ hsent'
      cases hsent'
    · intro _ _
      show serialAdd c.tcb.sndNxt 1 = serialAdd c.tcb.sndUna (c.tcb.txlen + 1)
      rw [hnxt, serialAdd_add]
    · intro htwo
      exact absurd htwo hpending'
    · intro _
      exact hpending
    · show true = !c.tcb.state.afterFin.unfinished
      rw [hstate.1]
      rfl
  next => exact h

theorem Sending.tcpOutput (h : Sending iss c) : Sending iss c.tcpOutput := by
  unfold Conn.tcpOutput
  split
  next => exact h
  next hstate =>
    rw [not_or, not_or] at hstate
    obtain ⟨hloop, hsame⟩ := h.outputLoop hstate.2.1 hstate.1 c.world.ipRoom
    exact hloop.sendFin (hsame ▸ hstate.2.1) (hsame ▸ hstate.1)

/-! ## The calls of the service -/

/-- A part of the stream stays where it is when more is accepted. -/
theorem Segment.Carries.append {segment : Segment} (h : segment.Carries iss written)
    (hfin : segment.flags.fin = false) (more : List UInt8) :
    segment.Carries iss (written ++ more) := by
  constructor
  · intro hne
    obtain ⟨p, hseq, hle, hdata⟩ := h.data hne
    refine ⟨p, hseq, ?_, ?_⟩
    · rw [List.length_append]
      omega
    · rw [List.drop_append_of_le_length (by omega), List.take_append_of_le_length]
      · exact hdata
      · rw [List.length_drop]
        omega
  · intro hf
    exact absurd (hfin.symm.trans hf) Bool.false_ne_true

/-- `tcp_write`. -/
theorem Sending.tcpWrite (h : Sending iss c) (bytes : List UInt8) :
    Sending iss (c.tcpWrite bytes) := by
  unfold Conn.tcpWrite
  split
  next => exact h
  next hopen =>
    have hpending : c.tcb.finPending = 0 := by
      by_contra hpending
      exact hopen (Or.inl hpending)
    have hstate : c.tcb.state = .established ∨ c.tcb.state = .closeWait := by
      by_contra hstate
      exact hopen (Or.inr (not_or.mp hstate))
    have hclosed : c.tcb.state ≠ .closed := by
      rcases hstate with hstate | hstate <;> rw [hstate] <;> decide
    have hsyn : c.tcb.state ≠ .synRcvd := by
      rcases hstate with hstate | hstate <;> rw [hstate] <;> decide
    have hsends := h.sends hclosed
    have hsent : c.tcb.finSent = false := by
      by_contra hsent
      rw [Bool.not_eq_false] at hsent
      exact hsends.pending hsent hpending
    have hkept := hsends.kept
    have hroom := hsends.room
    have hlen : (bytes.take (TXBUF - c.tcb.txlen)).length ≤ TXBUF - c.tcb.txlen :=
      List.length_take_le _ _
    refine ⟨?_, ?_, ?_, ?_⟩
    · intro segment hmem
      refine (h.carries segment hmem).append ?_ _
      -- a segment with `FIN` would have closed the stream
      by_contra hfin
      rw [Bool.not_eq_false] at hfin
      exact (h.fin_out segment hmem hfin).elim hclosed fun hne => hne hpending
    · exact h.fin_out
    · intro _
      have hbase : (c.written ++ bytes.take (TXBUF - c.tcb.txlen)).length -
          (c.tcb.txlen + (bytes.take (TXBUF - c.tcb.txlen)).length) =
            c.written.length - c.tcb.txlen := by
        rw [List.length_append]
        omega
      refine ⟨hsends.iss_eq, ?_, ?_, ?_, ?_, ?_, ?_, ?_, ?_, ?_, hsends.finished⟩
      · dsimp only
        omega
      · dsimp only
        rw [List.length_append]
        omega
      · dsimp only
        rw [hbase, circRead_write _ (by omega), hsends.buffer,
          List.drop_append_of_le_length (by omega)]
      · intro _ htwo
        dsimp only
        rw [hbase]
        exact hsends.una hsyn htwo
      · intro hstate'
        exact absurd hstate' hsyn
      · intro _ _
        obtain ⟨f, hf, hnxt⟩ := hsends.flight hsyn hsent
        exact ⟨f, by dsimp only; omega, hnxt⟩
      · intro hfin
        exact absurd (hsent.symm.trans hfin) Bool.false_ne_true
      · intro htwo
        dsimp only at htwo
        rw [hpending] at htwo
        cases htwo
      · intro hfin
        exact absurd (hsent.symm.trans hfin) Bool.false_ne_true
    · exact h.settled

/-- `tcp_close`. -/
theorem Sending.tcpClose (h : Sending iss c) : Sending iss c.tcpClose := by
  unfold Conn.tcpClose
  split
  next => exact h
  next hpending =>
    rw [not_not] at hpending
    refine Sending.tcpOutput (h.setTcb (fun _ => Or.inr (Nat.one_ne_zero)) ?_ ?_)
    · intro hlive
      have hsends := h.sends hlive
      have hsent : c.tcb.finSent = false := by
        by_contra hsent
        rw [Bool.not_eq_false] at hsent
        exact hsends.pending hsent hpending
      refine ⟨hsends.iss_eq, hsends.room, hsends.kept, hsends.buffer, ?_, hsends.handshake,
        hsends.flight, ?_, ?_, ?_, hsends.finished⟩
      · intro hsyn _
        exact hsends.una hsyn (by omega)
      · intro hfin
        exact absurd (hsent.symm.trans hfin) Bool.false_ne_true
      · intro htwo
        cases htwo
      · intro _
        exact Nat.one_ne_zero
    · intro htwo
      cases htwo

theorem Sending.drop (hcarries : ∀ segment ∈ c.sent, segment.Carries iss c.written) :
    Sending iss c.drop := by
  refine ⟨hcarries, fun _ _ _ => Or.inl rfl, ?_, ?_⟩
  · intro hlive
    exact absurd rfl hlive
  · intro htwo
    cases htwo

theorem Sending.tcpAbort (h : Sending iss c) : Sending iss c.tcpAbort :=
  Sending.drop (h.sendSeg_empty rfl).carries

/-- The calls of a callback. -/
theorem Sending.calls (h : Sending iss c) (calls : List Call) : Sending iss (c.calls calls) := by
  unfold Conn.calls
  induction calls generalizing c with
  | nil => exact h
  | cons call calls ih =>
      refine ih ?_
      cases call with
      | write bytes => exact h.tcpWrite bytes
      | close => exact h.tcpClose
      | abort => exact h.tcpAbort

/-! ## A segment arrives -/

/-- The send buffer after its first `n` bytes are acknowledged. -/
theorem Sends.buffer_acked {n : Nat} (h : Sends iss tp written) (hn : n ≤ tp.txlen) :
    circRead TXBUF tp.tx ((tp.txstart + n) % TXBUF) (tp.txlen - n) =
      written.drop (written.length - (tp.txlen - n)) := by
  have hkept := h.kept
  rw [circRead_mod, circRead_slice tp.tx (show n + (tp.txlen - n) ≤ tp.txlen by omega), h.buffer,
    List.drop_drop, List.take_of_length_le]
  · congr 1
    omega
  · rw [List.length_drop]
    omega

/-- The first `k` bytes of the send buffer are acknowledged, but not a `FIN`. -/
theorem ackTo_data {k : Nat} (hk : k ≤ tp.txlen) (hroom : tp.txlen ≤ TXBUF)
    (hfin : (tp.finSent && decide (serialAdd tp.sndUna k = tp.sndNxt)) = false) :
    (tp.ackTo (serialAdd tp.sndUna k)).core =
      ({ tp with
        txstart := (tp.txstart + k) % TXBUF
        txlen := tp.txlen - k
        sndUna := serialAdd tp.sndUna k } : Tcb).core := by
  have hsub : (serialAdd tp.sndUna k - serialAdd tp.sndUna 0).toInt = (k : Int) - (0 : Nat) := by
    unfold TXBUF at hroom
    exact serialAdd_sub_toInt (by omega) (by omega)
  rw [serialAdd_zero] at hsub
  have hacked : (if (k : Int) - (0 : Nat) - 0 > tp.txlen then (tp.txlen : Int)
      else (k : Int) - (0 : Nat) - 0).toNat = k := by
    split <;> omega
  unfold Tcb.ackTo Tcb.core
  simp only [hfin, Bool.false_eq_true, if_false, hsub, hacked]

/-- Everything is acknowledged, the `FIN` included. -/
theorem ackTo_fin (hroom : tp.txlen ≤ TXBUF) (hsent : tp.finSent = true)
    (hnxt : tp.sndNxt = serialAdd tp.sndUna (tp.txlen + 1)) :
    (tp.ackTo tp.sndNxt).core =
      ({ tp with
        finPending := 2
        txstart := (tp.txstart + tp.txlen) % TXBUF
        txlen := 0
        sndUna := tp.sndNxt } : Tcb).core := by
  have hsub : (serialAdd tp.sndUna (tp.txlen + 1) - serialAdd tp.sndUna 0).toInt =
      ((tp.txlen + 1 : Nat) : Int) - (0 : Nat) := by
    unfold TXBUF at hroom
    exact serialAdd_sub_toInt (by omega) (by omega)
  rw [serialAdd_zero, ← hnxt] at hsub
  have hacked : (if ((tp.txlen + 1 : Nat) : Int) - (0 : Nat) - 1 > tp.txlen then (tp.txlen : Int)
      else ((tp.txlen + 1 : Nat) : Int) - (0 : Nat) - 1).toNat = tp.txlen := by
    split <;> omega
  unfold Tcb.ackTo Tcb.core
  simp only [hsent, decide_true, Bool.and_self, if_true, hsub, hacked, Nat.sub_self]

/-- An acknowledgement of something in flight moves the send buffer along. -/
theorem Sends.ackTo {ack : Seq} (h : Sends iss tp written) (hsyn : tp.state ≠ .synRcvd)
    (hnew : serialLt tp.sndUna ack = true) (hold : serialLt tp.sndNxt ack = false) :
    Sends iss (tp.ackTo ack) written := by
  have hroom := h.room
  have hkept := h.kept
  have hroom' : tp.txlen < 2 ^ 31 - 1 := by
    unfold TXBUF at hroom
    omega
  -- the case of data only, before and after the `FIN` is out
  have hdata : ∀ k, 0 < k → k ≤ tp.txlen → tp.finPending ≠ 2 →
      (tp.finSent && decide (serialAdd tp.sndUna k = tp.sndNxt)) = false →
      (tp.finSent = false → ∃ f, k ≤ f ∧ f ≤ tp.txlen ∧ tp.sndNxt = serialAdd tp.sndUna f) →
      Sends iss (tp.ackTo (serialAdd tp.sndUna k)) written := by
    intro k _ hk hpending hfin hflight
    refine Sends.congr ?_ (ackTo_data hk hroom hfin)
    refine ⟨h.iss_eq, ?_, ?_, h.buffer_acked hk, ?_, ?_, ?_, ?_, ?_, h.pending, h.finished⟩
    · dsimp only
      omega
    · dsimp only
      omega
    · intro _ _
      dsimp only
      rw [h.una hsyn hpending, serialAdd_add]
      congr 1
      omega
    · intro hstate
      exact absurd hstate hsyn
    · intro _ hsent
      obtain ⟨f, hkf, hf, hnxt⟩ := hflight hsent
      refine ⟨f - k, ?_, ?_⟩
      · dsimp only
        omega
      · dsimp only
        rw [hnxt, serialAdd_add]
        congr 1
        omega
    · intro hsent _
      dsimp only
      rw [h.flight_fin hsent hpending, serialAdd_add]
      congr 1
      omega
    · intro htwo
      exact absurd htwo hpending
  cases hsent : tp.finSent with
  | false =>
      have hpending : tp.finPending ≠ 2 := fun htwo =>
        absurd (hsent.symm.trans (h.acked htwo).2.2) Bool.false_ne_true
      obtain ⟨f, hf, hnxt⟩ := h.flight hsyn hsent
      rw [hnxt] at hold
      obtain ⟨k, hpos, hk, rfl⟩ := serial_between (by omega) hnew hold
      refine hdata k hpos (by omega) hpending ?_ fun _ => ⟨f, hk, hf, hnxt⟩
      rw [hsent, Bool.false_and]
  | true =>
      by_cases hpending : tp.finPending = 2
      · -- nothing is in flight
        obtain ⟨hnxt, -, -⟩ := h.acked hpending
        rw [hnxt, hnew] at hold
        cases hold
      · have hnxt := h.flight_fin hsent hpending
        rw [hnxt] at hold
        obtain ⟨k, hpos, hk, rfl⟩ := serial_between (by omega) hnew hold
        by_cases hend : k = tp.txlen + 1
        · subst hend
          rw [← hnxt]
          refine Sends.congr ?_ (ackTo_fin hroom hsent hnxt)
          refine ⟨h.iss_eq, Nat.zero_le _, Nat.zero_le _, ?_, ?_, ?_, ?_, ?_, ?_, ?_, h.finished⟩
          · dsimp only
            rw [Nat.sub_zero, List.drop_length, circRead_zero]
          · intro _ htwo
            exact absurd rfl htwo
          · intro hstate
            exact absurd hstate hsyn
          · intro _ hfalse
            exact absurd (hfalse.symm.trans hsent) Bool.false_ne_true
          · intro _ htwo
            exact absurd rfl htwo
          · intro _
            exact ⟨rfl, rfl, hsent⟩
          · intro _ hzero
            cases hzero
        · refine hdata k hpos (by omega) hpending ?_ ?_
          · rw [hsent, Bool.true_and, decide_eq_false_iff_not, hnxt]
            intro heq
            exact hend (serialAdd_inj (by omega) (by omega) heq)
          · intro hfalse
            exact absurd (hfalse.symm.trans hsent) Bool.false_ne_true

/-- `ack_input` emits nothing and accepts nothing. -/
theorem ackInput_frame (c : Conn) (ack : Seq) :
    (c.ackInput ack).sent = c.sent ∧ (c.ackInput ack).written = c.written ∧
      (c.tcb.finPending ≠ 0 → (c.ackInput ack).tcb.finPending ≠ 0) := by
  have hpending : c.tcb.finPending ≠ 0 → (c.tcb.ackTo ack).finPending ≠ 0 := by
    intro hne
    unfold Tcb.ackTo
    dsimp only
    split
    · exact Nat.succ_ne_zero 1
    · exact hne
  unfold Conn.ackInput
  split
  · exact ⟨rfl, rfl, id⟩
  · dsimp only
    split
    · obtain ⟨hcore, hsent, hwritten⟩ := startTimer_frame { c with tcb := c.tcb.ackTo ack }
      simp only [Tcb.core, Prod.mk.injEq] at hcore
      refine ⟨hsent, hwritten, ?_⟩
      rw [hcore.2.2.2.2.2.2.2.1]
      exact hpending
    · exact ⟨rfl, rfl, hpending⟩

/-- `ack_input`. -/
theorem Sends.ackInput (h : Sends iss c.tcb c.written) (hsyn : c.tcb.state ≠ .synRcvd) (ack : Seq) :
    Sends iss (c.ackInput ack).tcb c.written := by
  unfold Conn.ackInput
  split
  next => exact h
  next hnew =>
    rw [not_or, Bool.not_eq_false, Bool.not_eq_true] at hnew
    have hack := h.ackTo hsyn hnew.1 hnew.2
    dsimp only
    split
    · exact hack.congr (startTimer_frame { c with tcb := c.tcb.ackTo ack }).1
    · exact hack

/-- The state changes, but not whether our `FIN` is out. -/
theorem Sends.setState (h : Sends iss tp written) (state : State) (hsyn : tp.state ≠ .synRcvd)
    (hsyn' : state ≠ .synRcvd) (hfinished : state.unfinished = tp.state.unfinished) :
    Sends iss { tp with state := state } written := by
  refine ⟨h.iss_eq, h.room, h.kept, h.buffer, fun _ => h.una hsyn, ?_, fun _ => h.flight hsyn,
    h.flight_fin, h.acked, h.pending, ?_⟩
  · intro hstate
    exact absurd hstate hsyn'
  · show tp.finSent = !state.unfinished
    rw [hfinished]
    exact h.finished

/-- The change of state when our `FIN` is acknowledged. -/
theorem Sending.finAcked (hcarries : ∀ segment ∈ c.sent, segment.Carries iss c.written)
    (hout : ∀ segment ∈ c.sent, segment.flags.fin = true →
      c.tcb.state = .closed ∨ c.tcb.finPending ≠ 0)
    (hclosed : c.tcb.state ≠ .closed) (hsends : Sends iss c.tcb c.written)
    (hlast : ¬ (c.tcb.finPending = 2 ∧ c.tcb.state = .lastAck)) : Sending iss c.finAcked := by
  unfold Conn.finAcked
  split
  next htwo =>
    have hfinished := hsends.finished
    rw [(hsends.acked htwo).2.2] at hfinished
    have hpending : c.tcb.finPending ≠ 0 := by omega
    split
    next hstate =>
      refine ⟨hcarries, fun _ _ _ => Or.inr hpending, fun _ => ?_, fun _ => Or.inl rfl⟩
      refine Sends.congr (hsends.setState .finWait2 ?_ (by decide) ?_) rfl
      · rw [hstate]
        decide
      · rw [hstate]
        rfl
    next hstate =>
      refine ⟨hcarries, fun _ _ _ => Or.inr hpending, fun _ => ?_, fun _ => Or.inr rfl⟩
      refine Sends.congr (hsends.setState .timeWait ?_ (by decide) ?_) rfl
      · rw [hstate]
        decide
      · rw [hstate]
        rfl
    next hfw hcl =>
      refine ⟨hcarries, hout, fun _ => hsends, fun _ => ?_⟩
      have hlast' : c.tcb.state ≠ .lastAck := fun hstate => hlast ⟨htwo, hstate⟩
      revert hfinished hfw hcl hlast' hclosed
      cases c.tcb.state <;> simp [State.unfinished]
  next htwo => exact ⟨hcarries, hout, fun _ => hsends, fun h => absurd h htwo⟩

/-- The peer's `FIN`. -/
theorem Sending.peerFin (h : Sending iss c) (app : App) : Sending iss (c.peerFin app) := by
  unfold Conn.peerFin
  split
  next hstate =>
    have hclosed : c.tcb.state ≠ .closed := by rw [hstate]; decide
    have hpending : c.tcb.finPending ≠ 2 := by
      intro htwo
      rcases h.settled htwo with hs | hs <;> rw [hstate] at hs <;> cases hs
    have hwait : Sending iss { c with tcb := { c.tcb with state := .closeWait } } := by
      refine h.setTcb ?_ (fun _ => (h.sends hclosed).setState _ ?_ (by decide) ?_) ?_
      · exact fun hout => Or.inr (hout.resolve_left hclosed)
      · rw [hstate]
        decide
      · rw [hstate]
        rfl
      · exact fun htwo => absurd htwo hpending
    split
    · exact hwait.calls _
    · exact hwait.tcpClose
  next hstate =>
    have hclosed : c.tcb.state ≠ .closed := by rw [hstate]; decide
    have hpending : c.tcb.finPending ≠ 2 := by
      intro htwo
      rcases h.settled htwo with hs | hs <;> rw [hstate] at hs <;> cases hs
    have hsends : Sends iss { c.tcb with state := .closing } c.written := by
      refine (h.sends hclosed).setState _ ?_ (by decide) ?_
      · rw [hstate]
        decide
      · rw [hstate]
        rfl
    rw [if_neg hpending]
    refine ⟨h.carries, ?_, fun _ => hsends.congr rfl, fun htwo => absurd htwo hpending⟩
    intro segment hmem hfin
    exact Or.inr ((h.fin_out segment hmem hfin).resolve_left hclosed)
  next hstate =>
    have hclosed : c.tcb.state ≠ .closed := by rw [hstate]; decide
    have hsends : Sends iss { c.tcb with state := .timeWait } c.written := by
      refine (h.sends hclosed).setState _ ?_ (by decide) ?_
      · rw [hstate]
        decide
      · rw [hstate]
        rfl
    refine ⟨h.carries, ?_, fun _ => hsends.congr rfl, fun _ => Or.inr rfl⟩
    intro segment hmem hfin
    exact Or.inr ((h.fin_out segment hmem hfin).resolve_left hclosed)
  next => exact h

/-- The end of `tcp_input`. -/
theorem Sending.finInput (h : Sending iss c) (seq : Seq) (dlen : Nat) (fin : Bool) (app : App) :
    Sending iss (c.finInput seq dlen fin app) := by
  unfold Conn.finInput
  split
  · have hnext : Sending iss { c with
        tcb := { c.tcb with rcvNxt := serialAdd c.tcb.rcvNxt 1 }
        finTaken := true } := h.congr rfl rfl rfl
    exact hnext.sendAck.peerFin app
  · split
    · exact h.tcpOutput
    · exact h

/-- Data for the service. -/
theorem Sending.takeInput (h : Sending iss c) (seq : Seq) (data : List UInt8) (fin : Bool)
    (app : App) : Sending iss (c.takeInput seq data fin app) := by
  unfold Conn.takeInput
  split
  · exact h.sendAck
  · have htaken : Sending iss
        { c with taken := c.taken ++ data.take (app.input data).2.toNat } := h.congr rfl rfl rfl
    have hcalls := htaken.calls (app.input data).1
    dsimp only
    split
    · exact hcalls
    · have htook : Sending iss (({ c with taken := c.taken ++ data.take (app.input data).2.toNat }.calls
          (app.input data).1).took (app.input data).2.toNat) := hcalls.congr rfl rfl rfl
      exact htook.finInput _ _ _ _

/-- What is in the segment besides the acknowledgement. -/
theorem Sending.textInput (h : Sending iss c) (segment : Segment) (app : App) :
    Sending iss (c.textInput segment app) := by
  unfold Conn.textInput
  split
  · exact h.sendAck
  · split
    · unfold Conn.dataInput
      split
      · dsimp only
        split
        · exact h.sendAck.finInput _ _ _ _
        · split
          · exact h.finInput _ _ _ _
          · exact h.takeInput _ _ _ _
      · exact h.takeInput _ _ _ _
    · exact h.finInput _ _ _ _

/-- A segment after the handshake. -/
theorem Sending.segInput (h : Sending iss c) (hclosed : c.tcb.state ≠ .closed)
    (hsyn : c.tcb.state ≠ .synRcvd) (segment : Segment) (app : App) :
    Sending iss (c.segInput segment app) := by
  obtain ⟨hsent, hwritten, hpending⟩ := ackInput_frame c segment.ack
  have hsends := (h.sends hclosed).ackInput hsyn segment.ack
  have hcarries : ∀ s ∈ (c.ackInput segment.ack).sent,
      s.Carries iss (c.ackInput segment.ack).written := by
    rw [hsent, hwritten]
    exact h.carries
  unfold Conn.segInput
  dsimp only
  split
  next => exact Sending.drop hcarries
  next hlast =>
    have hacked : Sending iss ((c.ackInput segment.ack).setWindow segment.window).finAcked := by
      refine Sending.finAcked hcarries ?_ ?_ ?_ hlast
      · intro s hmem hfin
        right
        refine hpending ((h.fin_out s ?_ hfin).resolve_left hclosed)
        rw [← hsent]
        exact hmem
      · show (c.ackInput segment.ack).tcb.state ≠ .closed
        rw [ackInput_state]
        exact hclosed
      · show Sends iss _ (c.ackInput segment.ack).written
        rw [hwritten]
        exact hsends.congr rfl
    exact hacked.textInput segment app

/-- Our `SYN` is acknowledged. -/
theorem Sending.established (h : Sending iss c) (hstate : c.tcb.state = .synRcvd) :
    Sending iss (c.established (serialAdd c.tcb.iss 1)) := by
  have hclosed : c.tcb.state ≠ .closed := by rw [hstate]; decide
  have hsends := h.sends hclosed
  obtain ⟨-, hnxt, hempty⟩ := hsends.handshake hstate
  have hsent : c.tcb.finSent = false := by
    rw [hsends.finished, hstate]
    rfl
  have hpending : c.tcb.finPending ≠ 2 := fun htwo =>
    absurd (hsent.symm.trans (hsends.acked htwo).2.2) Bool.false_ne_true
  refine h.setTcb ?_ ?_ fun htwo => absurd htwo hpending
  · exact fun hout => Or.inr (hout.resolve_left hclosed)
  · intro _
    refine ⟨hsends.iss_eq, hsends.room, hsends.kept, hsends.buffer, ?_, ?_, ?_, ?_, ?_,
      hsends.pending, ?_⟩
    · intro _ _
      dsimp only
      rw [hsends.iss_eq, hempty, List.length_nil, Nat.zero_sub]
    · intro hsyn
      cases hsyn
    · intro _ _
      refine ⟨0, Nat.zero_le _, ?_⟩
      dsimp only
      rw [hnxt, serialAdd_zero, hsends.iss_eq]
    · intro hfin
      exact absurd (hsent.symm.trans hfin) Bool.false_ne_true
    · intro htwo
      exact absurd htwo hpending
    · exact hsent

/-- `tcp_input`. -/
theorem Sending.tcpInput (h : Sending iss c) (segment : Segment) (app : App) :
    Sending iss (c.tcpInput segment app) := by
  unfold Conn.tcpInput
  split
  next => exact h
  next hclosed =>
    split
    · unfold Conn.rstInput
      split
      · dsimp only
        split
        · exact Sending.drop h.carries
        · exact h.congr rfl rfl rfl
      · exact h
    split
    · unfold Conn.synInput
      split
      · exact h.sendSeg_empty rfl
      · exact h.sendAck
    split
    · exact h
    split
    next hstate =>
      split
      · -- the reset carries nothing
        refine ⟨?_, ?_, h.sends, h.settled⟩
        · intro s hmem
          rcases List.mem_cons.mp hmem with rfl | hmem
          · exact ⟨fun hne => absurd rfl hne, fun hfin => absurd hfin Bool.false_ne_true⟩
          · exact h.carries s hmem
        · intro s hmem hfin
          rcases List.mem_cons.mp hmem with rfl | hmem
          · exact absurd hfin Bool.false_ne_true
          · exact h.fin_out s hmem hfin
      next hack =>
        rw [not_not] at hack
        have hopen := (h.established hstate).calls app.opened
        rw [← hack] at hopen
        dsimp only
        split
        · exact hopen
        next hlive =>
          refine hopen.segInput hlive ?_ segment app
          intro hsyn
          cases (quiet_calls _ app.opened).handshake hsyn
    next hsyn => exact h.segInput hclosed hsyn segment app

/-! ## The timer and the main loop -/

/-- Going back to the oldest unacknowledged byte. -/
theorem Sending.goBack (h : Sending iss c) (hclosed : c.tcb.state ≠ .closed)
    (hsyn : c.tcb.state ≠ .synRcvd) (hwait : c.tcb.state ≠ .finWait2)
    (htime : c.tcb.state ≠ .timeWait) :
    Sending iss c.goBack ∧ c.goBack.tcb.finSent = false ∧ c.goBack.tcb.state ≠ .closed ∧
      c.goBack.tcb.state ≠ .synRcvd ∧ c.goBack.tcb.sndNxt = c.goBack.tcb.sndUna := by
  have hsends := h.sends hclosed
  have hpending : c.tcb.finPending ≠ 2 := fun htwo => (h.settled htwo).elim hwait htime
  have hstate : c.goBack.tcb.state.unfinished = true ∧ c.goBack.tcb.state ≠ .closed ∧
      c.goBack.tcb.state ≠ .synRcvd := by
    have hfinished := hsends.finished
    unfold Conn.goBack
    dsimp only
    cases hsent : c.tcb.finSent with
    | false =>
        rw [hsent] at hfinished
        simp only [Bool.false_eq_true, if_false]
        exact ⟨by simpa using hfinished, hclosed, hsyn⟩
    | true =>
        rw [hsent] at hfinished
        simp only [if_true]
        revert hfinished hclosed hsyn hwait htime
        cases c.tcb.state <;> decide
  refine ⟨h.setTcb ?_ ?_ ?_, rfl, hstate.2.1, hstate.2.2, rfl⟩
  · exact fun hout => Or.inr (hout.resolve_left hclosed)
  · intro _
    refine ⟨hsends.iss_eq, hsends.room, hsends.kept, hsends.buffer, ?_, ?_, ?_, ?_, ?_, ?_, ?_⟩
    · exact fun _ _ => hsends.una hsyn hpending
    · exact fun hsyn' => absurd hsyn' hstate.2.2
    · exact fun _ _ => ⟨0, Nat.zero_le _, (serialAdd_zero _).symm⟩
    · exact fun hfin => absurd hfin Bool.false_ne_true
    · exact fun htwo => absurd htwo hpending
    · exact fun hfin => absurd hfin Bool.false_ne_true
    · show false = !c.goBack.tcb.state.unfinished
      rw [hstate.1]
      rfl
  · exact fun htwo => absurd htwo hpending

/-- Sending again from the oldest unacknowledged byte on. -/
theorem Sending.resend (h : Sending iss c) (hclosed : c.tcb.state ≠ .closed)
    (hsyn : c.tcb.state ≠ .synRcvd) (hsent : c.tcb.finSent = false)
    (hnxt : c.tcb.sndNxt = c.tcb.sndUna) : Sending iss c.resend := by
  unfold Conn.resend
  split
  next hprobe =>
    have hsends := h.sends hclosed
    have hpending : c.tcb.finPending ≠ 2 := fun htwo =>
      absurd (hsent.symm.trans (hsends.acked htwo).2.2) Bool.false_ne_true
    have hzero : c.tcb.sndNxt = serialAdd c.tcb.sndUna 0 := by
      rw [serialAdd_zero, hnxt]
    have hone : 0 + 1 ≤ c.tcb.txlen := hprobe.2
    have hseg : Sending iss (c.sendSeg c.tcb.sndNxt .ackOnly 0 1) :=
      h.sendSeg (fun _ => hsends.part hsyn hpending hzero hone)
        fun hfin => absurd hfin Bool.false_ne_true
    exact (hseg.advance hsyn hsent hzero hone).startTimer
  next => exact h.tcpOutput

/-- The retransmit timer runs out. -/
theorem Sending.timeout (h : Sending iss c) (hclosed : c.tcb.state ≠ .closed)
    (hwait : c.tcb.state ≠ .finWait2) (htime : c.tcb.state ≠ .timeWait) :
    Sending iss c.timeout := by
  unfold Conn.timeout
  dsimp only
  split
  · exact Sending.tcpAbort (h.congr rfl rfl rfl)
  · have hdouble : Sending iss { c with tcb := { c.tcb with
        rexmtAt := 0
        retries := c.tcb.retries + 1
        rto := min (c.tcb.rto * 2) RTO_MAX } } := h.congr rfl rfl rfl
    split
    · exact (hdouble.sendSeg_empty rfl).startTimer
    next hsyn =>
      obtain ⟨hback, hsent, hlive, hsyn', hnxt⟩ := hdouble.goBack hclosed hsyn hwait htime
      have hresend := hback.resend hlive hsyn' hsent hnxt
      split
      · exact hresend.startTimer
      · exact hresend

/-- `tcp_timer`. -/
theorem Sending.tcpTimer (h : Sending iss c) : Sending iss c.tcpTimer := by
  have hnow : Sending iss c.now.2 := h.congr rfl rfl rfl
  unfold Conn.tcpTimer
  dsimp only
  split
  · exact hnow
  next hclosed =>
    split
    · split
      · exact Sending.drop h.carries
      · exact hnow
    next hstate =>
      rw [not_or] at hstate
      split
      · exact hnow.timeout hclosed hstate.2 hstate.1
      split
      · exact hnow.startTimer
      · exact hnow

/-- Window updates. -/
theorem Sending.updateWindow (h : Sending iss c) : Sending iss c.updateWindow := by
  have hask : ∀ c : Conn, Sending iss c → Sending iss c.rcvWindow.2 := fun c h =>
    h.congr rfl rfl rfl
  unfold Conn.updateWindow
  dsimp only
  split
  · exact h.sendAck
  split
  · exact (hask c h).sendAck
  split
  · split
    · exact (hask _ (hask c h)).sendAck
    · exact hask _ (hask c h)
  · exact hask c h

/-- `tcp_poll`. -/
theorem Sending.tcpPoll (h : Sending iss c) (calls : List Call) : Sending iss (c.tcpPoll calls) := by
  have hpoll : Sending iss (if c.tcb.state = .established ∨ c.tcb.state = .closeWait then
      c.calls calls else c) := by
    split
    · exact h.calls calls
    · exact h
  unfold Conn.tcpPoll
  dsimp only
  generalize (if c.tcb.state = .established ∨ c.tcb.state = .closeWait then c.calls calls
    else c) = c' at hpoll ⊢
  split
  · exact hpoll
  · exact hpoll.tcpOutput.updateWindow

/-- One event. -/
theorem Sending.step (h : Sending iss c) (label : Label) : Sending iss (c.step label) := by
  have hworld : Sending iss { c with world := label.world } := h.congr rfl rfl rfl
  unfold Conn.step Conn.handle
  split
  · exact hworld.tcpInput _ _
  · exact hworld.tcpTimer
  · exact hworld.tcpPoll _
  · exact hworld.tcpOutput
  · exact hworld.calls [_]

/-- A connection that was just opened. -/
theorem sending_passiveOpen (world : World) (iss seq : Seq) (window mss : Nat) :
    Sending iss (passiveOpen world iss seq window mss) := by
  refine Sending.startTimer (Sending.sendSeg_empty ⟨?_, ?_, ?_, ?_⟩ rfl)
  · intro segment hmem
    cases hmem
  · intro segment hmem
    cases hmem
  · intro _
    refine ⟨rfl, Nat.zero_le _, Nat.zero_le _, rfl, ?_, ?_, ?_, ?_, ?_, ?_, rfl⟩
    · exact fun hsyn => absurd rfl hsyn
    · exact fun _ => ⟨rfl, rfl, rfl⟩
    · exact fun hsyn => absurd rfl hsyn
    · exact fun hfin => absurd hfin Bool.false_ne_true
    · exact fun htwo => by cases htwo
    · exact fun hfin => absurd hfin Bool.false_ne_true
  · intro htwo
    cases htwo

theorem sending_run (world : World) (iss seq : Seq) (window mss : Nat) (labels : List Label) :
    Sending iss (labels.foldl Conn.step (passiveOpen world iss seq window mss)) := by
  have hall : ∀ c, Sending iss c → Sending iss (labels.foldl Conn.step c) := by
    induction labels with
    | nil => exact fun c h => h
    | cons label labels ih => exact fun c h => ih _ (h.step label)
  exact hall _ (sending_passiveOpen world iss seq window mss)

end DiscoBsd.Tcp
