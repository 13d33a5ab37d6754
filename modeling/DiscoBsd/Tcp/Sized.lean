import DiscoBsd.Tcp.Armed

/-!
# Every data segment carries data

The segment size is fixed when a connection is opened. `Sized` says that it still stands in the control
block, and that no segment went out with `PSH` and without data; every operation of `tcp.c` keeps
this when the size is at least 1.
-/

namespace DiscoBsd.Tcp

open Lib

variable {m : Nat} {c c' : Conn}

/-- The segment size, and the data segments sent so far. -/
structure Sized (m : Nat) (c : Conn) : Prop where
  mss : c.tcb.state ≠ .closed → c.tcb.mss = m
  full : ∀ segment ∈ c.sent, segment.flags.psh = true → segment.data ≠ []

theorem Sized.frame (h : Sized m c) (hmss : c'.tcb.mss = c.tcb.mss) (hsent : c'.sent = c.sent)
    (hlive : c'.tcb.state ≠ .closed → c.tcb.state ≠ .closed) : Sized m c' := by
  constructor
  · intro hgo
    rw [hmss]
    exact h.mss (hlive hgo)
  · rw [hsent]
    exact h.full

theorem Sized.drop (h : Sized m c) : Sized m c.drop := ⟨fun hlive => absurd rfl hlive, h.full⟩

theorem startTimer_mss (c : Conn) : c.startTimer.tcb.mss = c.tcb.mss := by
  unfold Conn.startTimer
  split <;> rfl

theorem Sized.startTimer (h : Sized m c) : Sized m c.startTimer := by
  refine h.frame (startTimer_mss c) (startTimer_frame c).2.1 ?_
  rw [startTimer_state]
  exact id

/-! ## Sending -/

/-- A segment that is not a data segment, or one that carries data. -/
theorem Sized.sendSeg (h : Sized m c) (seq : Seq) {flags : Flags} (off : Nat) {len : Nat}
    (hlen : flags.psh = true → len ≠ 0) : Sized m (c.sendSeg seq flags off len) := by
  refine ⟨h.mss, fun segment hmem hpsh => ?_⟩
  rcases List.mem_cons.mp hmem with rfl | hmem
  · intro hnil
    have hzero := congrArg List.length hnil
    rw [circRead_length] at hzero
    exact hlen hpsh hzero
  · exact h.full segment hmem hpsh

theorem Sized.sendAck (h : Sized m c) : Sized m c.sendAck := h.sendSeg _ 0 nofun

theorem nextLen_pos {tp : Tcb} (hmss : 1 ≤ tp.mss) (hunsent : 0 < tp.unsent) (hwin : 0 < tp.win) :
    1 ≤ tp.nextLen ∧ tp.nextLen ≤ tp.mss := by
  unfold Tcb.nextLen
  dsimp only
  split <;> split <;> omega

theorem Sized.sendData (h : Sized m c) (hm : 1 ≤ m) (hlive : c.tcb.state ≠ .closed)
    (hunsent : 0 < c.tcb.unsent) (hwin : 0 < c.tcb.win) : Sized m c.sendData := by
  have hpos := nextLen_pos (hm.trans_eq (h.mss hlive).symm) hunsent hwin
  have hseg : Sized m (c.sendSeg c.tcb.sndNxt ⟨false, false, false, true, true⟩
      c.tcb.inflight.toNat c.tcb.nextLen.toNat) := h.sendSeg _ _ fun _ => by omega
  refine Sized.startTimer (hseg.frame ?_ ?_ ?_)
  · rfl
  · rfl
  · exact id

theorem Sized.outputLoop (h : Sized m c) (hm : 1 ≤ m) (hlive : c.tcb.state ≠ .closed)
    (rooms : List Int) : Sized m (c.outputLoop rooms) ∧
      (c.outputLoop rooms).tcb.state ≠ .closed := by
  induction rooms generalizing c with
  | nil => exact ⟨h.frame rfl rfl id, hlive⟩
  | cons room rooms ih =>
      unfold Conn.outputLoop
      split
      · exact ⟨h.frame rfl rfl id, hlive⟩
      · split
        · exact ⟨h.frame rfl rfl id, hlive⟩
        next hgo _ =>
          rw [not_or, not_le, not_le] at hgo
          exact ih (h.sendData hm hlive hgo.1 hgo.2) (by rwa [sendData_state])

theorem Sized.sendFin (h : Sized m c) (hlive : c.tcb.state ≠ .closed) : Sized m c.sendFin := by
  unfold Conn.sendFin
  split
  · have hseg : Sized m (c.sendSeg c.tcb.sndNxt ⟨true, false, false, false, true⟩ 0 0) :=
      h.sendSeg _ 0 nofun
    refine Sized.startTimer (hseg.frame ?_ ?_ ?_)
    · rfl
    · rfl
    · exact fun _ => hlive
  · exact h

theorem Sized.tcpOutput (h : Sized m c) (hm : 1 ≤ m) : Sized m c.tcpOutput := by
  unfold Conn.tcpOutput
  split
  · exact h
  next hstate =>
    rw [not_or, not_or] at hstate
    obtain ⟨hloop, hlive⟩ := h.outputLoop hm hstate.2.1 c.world.ipRoom
    exact hloop.sendFin hlive

/-! ## The calls of the service -/

theorem Sized.tcpClose (h : Sized m c) (hm : 1 ≤ m) : Sized m c.tcpClose := by
  unfold Conn.tcpClose
  split
  · exact h
  · refine Sized.tcpOutput (h.frame ?_ ?_ ?_) hm
    · rfl
    · rfl
    · exact id

theorem Sized.tcpAbort (h : Sized m c) : Sized m c.tcpAbort := by
  have hrst : Sized m (c.sendSeg c.tcb.sndNxt ⟨false, false, true, false, true⟩ 0 0) :=
    h.sendSeg _ 0 nofun
  exact hrst.drop

theorem Sized.calls (h : Sized m c) (hm : 1 ≤ m) (calls : List Call) :
    Sized m (c.calls calls) := by
  unfold Conn.calls
  induction calls generalizing c with
  | nil => exact h
  | cons call calls ih =>
      refine ih ?_
      cases call with
      | write bytes =>
          show Sized m (c.tcpWrite bytes)
          unfold Conn.tcpWrite
          split
          · exact h
          · exact h.frame rfl rfl id
      | close => exact h.tcpClose hm
      | abort => exact h.tcpAbort

/-! ## A segment arrives -/

theorem Sized.ackInput (h : Sized m c) (ack : Seq) : Sized m (c.ackInput ack) := by
  unfold Conn.ackInput
  split
  · exact h
  · have hack : Sized m { c with tcb := c.tcb.ackTo ack } := h.frame rfl rfl id
    dsimp only
    split
    · exact hack.startTimer
    · exact hack

theorem Sized.waitIn (h : Sized m c) (hlive : c.tcb.state ≠ .closed) (state : State)
    (seconds : Nat) : Sized m (c.waitIn state seconds) := h.frame rfl rfl fun _ => hlive

theorem Sized.finAcked (h : Sized m c) (hlive : c.tcb.state ≠ .closed) : Sized m c.finAcked := by
  unfold Conn.finAcked
  split
  · split
    · exact h.waitIn hlive _ _
    · exact h.waitIn hlive _ _
    · exact h
  · exact h

theorem Sized.peerFin (h : Sized m c) (hm : 1 ≤ m) (hlive : c.tcb.state ≠ .closed) (app : App) :
    Sized m (c.peerFin app) := by
  unfold Conn.peerFin
  split
  · have hwait : Sized m { c with tcb := { c.tcb with state := .closeWait } } :=
      h.frame rfl rfl fun _ => hlive
    dsimp only
    split
    · exact hwait.calls hm _
    · exact hwait.tcpClose hm
  · exact h.waitIn hlive _ _
  · exact h.waitIn hlive _ _
  · exact h

theorem Sized.finInput (h : Sized m c) (hm : 1 ≤ m) (hlive : c.tcb.state ≠ .closed) (seq : Seq)
    (dlen : Nat) (fin : Bool) (app : App) : Sized m (c.finInput seq dlen fin app) := by
  unfold Conn.finInput
  split
  · have hrcv : Sized m { c with
        tcb := { c.tcb with rcvNxt := serialAdd c.tcb.rcvNxt 1 }
        finTaken := true } := h.frame rfl rfl id
    exact hrcv.sendAck.peerFin hm hlive app
  · exact h.tcpOutput hm

theorem Sized.takeInput (h : Sized m c) (hm : 1 ≤ m) (seq : Seq) (data : List UInt8) (fin : Bool)
    (app : App) : Sized m (c.takeInput seq data fin app) := by
  unfold Conn.takeInput
  split
  · exact h.sendAck
  · have htaken : Sized m { c with taken := c.taken ++ data.take (app.input data).2.toNat } :=
      h.frame rfl rfl id
    have hcalls := htaken.calls hm (app.input data).1
    dsimp only
    split
    · exact hcalls
    next hlive =>
      refine Sized.finInput ?_ hm (by exact hlive) _ _ _ app
      exact hcalls.frame rfl rfl id

theorem Sized.textInput (h : Sized m c) (hm : 1 ≤ m) (hlive : c.tcb.state ≠ .closed)
    (segment : Segment) (app : App) : Sized m (c.textInput segment app) := by
  unfold Conn.textInput
  split
  · exact h.sendAck
  · split
    · unfold Conn.dataInput
      split
      · dsimp only
        split
        · exact h.sendAck.finInput hm hlive _ _ _ _
        · split
          · exact h.finInput hm hlive _ _ _ _
          · exact h.takeInput hm _ _ _ _
      · exact h.takeInput hm _ _ _ _
    · exact h.finInput hm hlive _ _ _ _

theorem Sized.segInput (h : Sized m c) (hm : 1 ≤ m) (hlive : c.tcb.state ≠ .closed)
    (segment : Segment) (app : App) : Sized m (c.segInput segment app) := by
  have hack : Sized m ((c.ackInput segment.ack).setWindow segment.window) :=
    (h.ackInput segment.ack).frame rfl rfl id
  have hlive' : ((c.ackInput segment.ack).setWindow segment.window).tcb.state ≠ .closed := by
    show (c.ackInput segment.ack).tcb.state ≠ .closed
    rwa [ackInput_state]
  unfold Conn.segInput
  dsimp only
  split
  · exact hack.drop
  · refine (hack.finAcked hlive').textInput hm ?_ segment app
    unfold Conn.finAcked
    split
    · split
      · exact fun hgone => by cases hgone
      · exact fun hgone => by cases hgone
      · exact hlive'
    · exact hlive'

/-- `tcp_input`. -/
theorem Sized.tcpInput (h : Sized m c) (hm : 1 ≤ m) (segment : Segment) (app : App) :
    Sized m (c.tcpInput segment app) := by
  unfold Conn.tcpInput
  split
  · exact h
  next hlive =>
    split
    · unfold Conn.rstInput
      split
      · have hask : Sized m c.rcvWindow.2 := h.frame rfl rfl id
        dsimp only
        split
        · exact hask.drop
        · exact hask
      · exact h
    split
    · unfold Conn.synInput
      split
      · exact h.sendSeg _ 0 nofun
      · exact h.sendAck
    split
    · exact h
    split
    · split
      · refine ⟨h.mss, fun reset hmem hpsh => ?_⟩
        rcases List.mem_cons.mp hmem with rfl | hmem
        · cases hpsh
        · exact h.full reset hmem hpsh
      · have hopen : Sized m (c.established segment.ack) := h.frame rfl rfl fun _ => hlive
        have hcalls := hopen.calls hm app.opened
        dsimp only
        split
        · exact hcalls
        next hready => exact hcalls.segInput hm hready segment app
    · exact h.segInput hm hlive segment app

/-! ## The timer and the main loop -/

theorem Sized.resend (h : Sized m c) (hm : 1 ≤ m) : Sized m c.resend := by
  unfold Conn.resend
  split
  · have hprobe : Sized m (c.sendSeg c.tcb.sndNxt .ackOnly 0 1) := h.sendSeg _ 0 nofun
    refine Sized.startTimer (hprobe.frame ?_ ?_ ?_)
    · rfl
    · rfl
    · exact id
  · exact h.tcpOutput hm

theorem Sized.timeout (h : Sized m c) (hm : 1 ≤ m) (hlive : c.tcb.state ≠ .closed) :
    Sized m c.timeout := by
  have hcount : Sized m
      { c with tcb := { c.tcb with rexmtAt := 0, retries := c.tcb.retries + 1 } } :=
    h.frame rfl rfl id
  have hdouble : Sized m { c with tcb := { c.tcb with
      rexmtAt := 0
      retries := c.tcb.retries + 1
      rto := min (c.tcb.rto * 2) RTO_MAX } } := h.frame rfl rfl id
  unfold Conn.timeout
  dsimp only
  split
  · exact hcount.tcpAbort
  · split
    · refine Sized.startTimer (hdouble.sendSeg _ 0 ?_)
      exact nofun
    · have hback : Sized m (Conn.goBack { c with tcb := { c.tcb with
          rexmtAt := 0
          retries := c.tcb.retries + 1
          rto := min (c.tcb.rto * 2) RTO_MAX } }) := hdouble.frame rfl rfl fun _ => hlive
      have hresend := hback.resend hm
      split
      · exact hresend.startTimer
      · exact hresend

theorem Sized.tcpTimer (h : Sized m c) (hm : 1 ≤ m) : Sized m c.tcpTimer := by
  have hnow : Sized m c.now.2 := h.frame rfl rfl id
  unfold Conn.tcpTimer
  dsimp only
  split
  · exact hnow
  next hlive =>
    split
    · split
      · exact hnow.drop
      · exact hnow
    split
    · exact hnow.timeout hm hlive
    split
    · exact hnow.startTimer
    · exact hnow

theorem Sized.updateWindow (h : Sized m c) : Sized m c.updateWindow := by
  have hask : ∀ {c : Conn}, Sized m c → Sized m c.rcvWindow.2 := fun h => h.frame rfl rfl id
  unfold Conn.updateWindow
  dsimp only
  split
  · exact h.sendAck
  split
  · exact (hask h).sendAck
  split
  · split
    · exact (hask (hask h)).sendAck
    · exact hask (hask h)
  · exact hask h

theorem Sized.tcpPoll (h : Sized m c) (hm : 1 ≤ m) (calls : List Call) :
    Sized m (c.tcpPoll calls) := by
  have hpoll : Sized m (if c.tcb.state = .established ∨ c.tcb.state = .closeWait then
      c.calls calls else c) := by
    split
    · exact h.calls hm calls
    · exact h
  unfold Conn.tcpPoll
  dsimp only
  generalize (if c.tcb.state = .established ∨ c.tcb.state = .closeWait then c.calls calls
    else c) = polled at hpoll ⊢
  split
  · exact hpoll
  · exact (hpoll.tcpOutput hm).updateWindow

/-! ## Whole runs -/

/-- One event. -/
theorem Sized.step (h : Sized m c) (hm : 1 ≤ m) (label : Label) : Sized m (c.step label) := by
  have hworld : Sized m { c with world := label.world } := h.frame rfl rfl id
  unfold Conn.step Conn.handle
  split
  · exact hworld.tcpInput hm _ _
  · exact hworld.tcpTimer hm
  · exact hworld.tcpPoll hm _
  · exact hworld.tcpOutput hm
  · exact hworld.calls hm [_]

theorem sized_passiveOpen (world : World) (iss seq : Seq) (window mss : Nat) :
    Sized mss (passiveOpen world iss seq window mss) := by
  refine Sized.startTimer ⟨fun _ => rfl, fun segment hmem hpsh => ?_⟩
  rw [List.mem_singleton.mp hmem] at hpsh
  cases hpsh

theorem sized_run (hm : 1 ≤ m) (world : World) (iss seq : Seq) (window : Nat)
    (labels : List Label) :
    Sized m (labels.foldl Conn.step (passiveOpen world iss seq window m)) := by
  have hall : ∀ c, Sized m c → Sized m (labels.foldl Conn.step c) := by
    induction labels with
    | nil => exact fun c h => h
    | cons label labels ih => exact fun c h => ih _ (h.step hm label)
  exact hall _ (sized_passiveOpen world iss seq window m)

end DiscoBsd.Tcp
