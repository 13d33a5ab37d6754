import DiscoBsd.Tcp.Send

/-!
# The stream that a connection sends, over whole runs

`send_stream_run` is about every run from the passive open on, with any acknowledgements and any
calls. Sequence numbers wrap around: they name an offset in the stream modulo `2 ^ 32`, and
`send_stream_wraps` is a run in which the first sequence number of the stream comes round again
with another byte.
-/

namespace DiscoBsd.Tcp

open Lib

theorem offset_eq {iss seq : Seq} {p : Nat} (hp : p < 2 ^ 32) (hseq : seq = serialAdd iss (1 + p)) :
    (seq - iss - 1).toNat = p := by
  subst hseq
  unfold serialAdd
  bv_omega

/-- In every run, each data segment carries the part of the accepted stream that starts at an offset
its sequence number names, a `FIN` stands just behind the last byte ever accepted, and while the
stream has at most `2 ^ 32` bytes a sequence number names one offset and always carries the same
byte. -/
theorem send_stream_run (world : World) (iss seq : Seq) (window mss : Nat) (labels : List Label)
    (c : Conn) (hrun : c = labels.foldl Conn.step (passiveOpen world iss seq window mss)) :
    (∀ segment ∈ c.sent, segment.data ≠ [] → ∃ p, segment.seq = serialAdd iss (1 + p) ∧
      p + segment.data.length ≤ c.written.length ∧
      segment.data = (c.written.drop p).take segment.data.length) ∧
    (∀ segment ∈ c.sent, segment.flags.fin = true →
      segment.seq = serialAdd iss (1 + c.written.length)) ∧
    (c.written.length ≤ 2 ^ 32 →
      (∀ segment ∈ c.sent, segment.data ≠ [] → segment.data =
        (c.written.drop (segment.seq - iss - 1).toNat).take segment.data.length) ∧
      ∀ first ∈ c.sent, ∀ second ∈ c.sent, ∀ i j : Nat, ∀ b b' : UInt8,
        first.data[i]? = some b → second.data[j]? = some b' →
        serialAdd first.seq i = serialAdd second.seq j → b = b') := by
  have hsending := sending_run world iss seq window mss labels
  rw [← hrun] at hsending
  refine ⟨fun segment hmem => (hsending.carries segment hmem).data,
    fun segment hmem => (hsending.carries segment hmem).fin, ?_⟩
  intro hlen
  have hdata : ∀ segment ∈ c.sent, segment.data ≠ [] → segment.data =
      (c.written.drop (segment.seq - iss - 1).toNat).take segment.data.length := by
    intro segment hmem hne
    obtain ⟨p, hseq, hle, heq⟩ := (hsending.carries segment hmem).data hne
    have hpos : 0 < segment.data.length := List.length_pos_of_ne_nil hne
    rw [offset_eq (by omega) hseq]
    exact heq
  refine ⟨hdata, ?_⟩
  -- a byte of a segment is the byte of the stream at its offset
  have hbyte : ∀ segment ∈ c.sent, ∀ (i : Nat) (b : UInt8), segment.data[i]? = some b →
      ∃ q, q < c.written.length ∧ serialAdd segment.seq i = serialAdd iss (1 + q) ∧
        c.written[q]? = some b := by
    intro segment hmem i b hget
    have hi : i < segment.data.length := (List.getElem?_eq_some_iff.mp hget).1
    have hne : segment.data ≠ [] := List.ne_nil_of_length_pos (by omega)
    obtain ⟨p, hseq, hle, heq⟩ := (hsending.carries segment hmem).data hne
    refine ⟨p + i, by omega, ?_, ?_⟩
    · rw [hseq, serialAdd_add, Nat.add_assoc]
    · rw [heq, List.getElem?_take_of_lt hi, List.getElem?_drop] at hget
      exact hget
  intro first hfirst second hsecond i j b b' hb hb' hsame
  obtain ⟨q, hq, hfirst, hget⟩ := hbyte first hfirst i b hb
  obtain ⟨q', hq', hsecond, hget'⟩ := hbyte second hsecond j b' hb'
  have hserial : serialAdd iss (1 + q) = serialAdd iss (1 + q') := by
    rw [← hfirst, ← hsecond]
    exact hsame
  have hqq : q = q' := by
    have := serialAdd_inj (by omega) (by omega) hserial
    omega
  subst hqq
  exact Option.some.inj (hget.symm.trans hget')

/-- The peer sends nothing but an acknowledgement up to `ack`. -/
def ackUpTo (rcv ack : Seq) : Label :=
  ⟨.input ⟨rcv, ack, .ackOnly, 512, []⟩ discard, ⟨[], [], []⟩⟩

/-- Three bytes are written and sent, one is acknowledged, the service closes, and a timeout sends
everything else again. -/
def resendRun : List Label :=
  [ackUpTo 8 1, ⟨.call (.write [10, 11, 12]), ⟨[], [], []⟩⟩, ⟨.output, ⟨[3], [1000], []⟩⟩,
    ackUpTo 8 2, ⟨.call .close, ⟨[4], [], []⟩⟩, ⟨.timer, ⟨[9], [1000], []⟩⟩]

theorem send_stream_run_resend :
    (resendRun.foldl Conn.step (passiveOpen ⟨[], [], []⟩ 0 7 512 512)).sent.map
        (fun s => (s.seq, s.data, s.flags.fin)) =
      [(4, [], true), (2, [11, 12], false), (4, [], true), (1, [10, 11, 12], false),
        (0, [], false)] ∧
    ∀ segment ∈ (resendRun.foldl Conn.step (passiveOpen ⟨[], [], []⟩ 0 7 512 512)).sent,
      segment.flags.fin = true → segment.seq = serialAdd 0 (1 +
        (resendRun.foldl Conn.step (passiveOpen ⟨[], [], []⟩ 0 7 512 512)).written.length) :=
  ⟨by decide +kernel, (send_stream_run ⟨[], [], []⟩ 0 7 512 512 resendRun _ rfl).2.1⟩

/-! ## The sequence numbers wrap around -/

/-- An established connection with everything acknowledged, after the bytes `bytes`. -/
structure Idle (iss rcv : Seq) (bytes : List UInt8) (c : Conn) : Prop where
  state : c.tcb.state = .established
  una : c.tcb.sndUna = serialAdd iss (1 + bytes.length)
  nxt : c.tcb.sndNxt = c.tcb.sndUna
  rcv_eq : c.tcb.rcvNxt = rcv
  wnd : c.tcb.sndWnd = 512
  mss : c.tcb.mss = 512
  txlen : c.tcb.txlen = 0
  pending : c.tcb.finPending = 0
  unfinished : c.tcb.finSent = false
  written : c.written = bytes

/-- The same connection with one more byte in flight. -/
structure InFlight (iss rcv : Seq) (bytes : List UInt8) (b : UInt8) (c : Conn) : Prop where
  state : c.tcb.state = .established
  una : c.tcb.sndUna = serialAdd iss (1 + bytes.length)
  nxt : c.tcb.sndNxt = serialAdd c.tcb.sndUna 1
  rcv_eq : c.tcb.rcvNxt = rcv
  mss : c.tcb.mss = 512
  txlen : c.tcb.txlen = 1
  pending : c.tcb.finPending = 0
  unfinished : c.tcb.finSent = false
  written : c.written = bytes ++ [b]
  sent : ∃ segment ∈ c.sent, segment.seq = serialAdd iss (1 + bytes.length) ∧ segment.data = [b]

/-- The output of a connection with something to send, when the line has room for one segment. -/
theorem tcpOutput_one {c : Conn} {room : Int} (hstate : c.tcb.state = .established)
    (hworld : c.world.ipRoom = [room]) (hunsent : 0 < c.tcb.unsent) (hwin : 0 < c.tcb.win)
    (hroom : 40 + c.tcb.nextLen + 2 * 40 ≤ room) (hpending : c.tcb.finPending = 0) :
    c.tcpOutput = { c.sendData with world := { c.sendData.world with ipRoom := [] } } := by
  have hkept : c.sendData.tcb.finPending = 0 := by
    have hcore := (startTimer_frame ((c.sendSeg c.tcb.sndNxt ⟨false, false, false, true, true⟩
      c.tcb.inflight.toNat c.tcb.nextLen.toNat).advance c.tcb.nextLen.toNat)).1
    simp only [Tcb.core, Prod.mk.injEq] at hcore
    exact hcore.2.2.2.2.2.2.2.1.trans hpending
  unfold Conn.tcpOutput
  rw [if_neg (by rw [hstate]; decide), hworld, Conn.outputLoop, if_neg (by omega),
    if_neg (by omega), Conn.outputLoop]
  unfold Conn.sendFin
  rw [if_neg (fun hfin => hfin.1 hkept)]

/-- The same connection with one more byte in its send buffer, and room on the line. -/
structure Ready (iss rcv : Seq) (bytes : List UInt8) (b : UInt8) (c : Conn) : Prop where
  state : c.tcb.state = .established
  una : c.tcb.sndUna = serialAdd iss (1 + bytes.length)
  nxt : c.tcb.sndNxt = c.tcb.sndUna
  rcv_eq : c.tcb.rcvNxt = rcv
  wnd : c.tcb.sndWnd = 512
  mss : c.tcb.mss = 512
  txlen : c.tcb.txlen = 1
  byte : circRead TXBUF c.tcb.tx c.tcb.txstart 1 = [b]
  pending : c.tcb.finPending = 0
  unfinished : c.tcb.finSent = false
  written : c.written = bytes ++ [b]
  line : c.world.ipRoom = [1000]

/-- The service writes one byte. -/
theorem Idle.write_one {iss rcv : Seq} {bytes : List UInt8} {c : Conn} (h : Idle iss rcv bytes c)
    (b : UInt8) : Ready iss rcv bytes b
      { c.step ⟨.call (.write [b]), ⟨[], [], []⟩⟩ with world := ⟨[], [1000], []⟩ } := by
  have hwrite : c.step ⟨.call (.write [b]), ⟨[], [], []⟩⟩ =
      { c with
        world := ⟨[], [], []⟩
        tcb := { c.tcb with tx := circWrite TXBUF c.tcb.tx c.tcb.txstart [b], txlen := 1 }
        written := bytes ++ [b] } := by
    simp [Conn.step, Conn.handle, Conn.call, Conn.tcpWrite, h.state, h.pending, h.txlen, TXBUF,
      h.written]
  have hbyte : circRead TXBUF (circWrite TXBUF c.tcb.tx c.tcb.txstart [b]) c.tcb.txstart 1 = [b] :=
    circRead_write_self _ (show 1 ≤ TXBUF by decide)
  rw [hwrite]
  exact ⟨h.state, h.una, h.nxt, h.rcv_eq, h.wnd, h.mss, rfl, hbyte, h.pending, h.unfinished, rfl,
    rfl⟩

/-- The byte is sent. -/
theorem Ready.output {iss rcv : Seq} {bytes : List UInt8} {b : UInt8} {c : Conn}
    (h : Ready iss rcv bytes b c) : InFlight iss rcv bytes b c.tcpOutput := by
  have hflight : c.tcb.inflight = 0 := by
    unfold Tcb.inflight
    rw [h.nxt, BitVec.sub_self]
    rfl
  have hunsent : c.tcb.unsent = 1 := by
    simp [Tcb.unsent, hflight, h.unfinished, h.txlen]
  have hwin : c.tcb.win = 512 := by
    simp [Tcb.win, hflight, h.wnd]
  have hlen : c.tcb.nextLen = 1 := by
    simp [Tcb.nextLen, hunsent, hwin, h.mss]
  have hsend : c.sendData = ((c.sendSeg c.tcb.sndNxt ⟨false, false, false, true, true⟩ 0
      1).advance 1).startTimer := by
    unfold Conn.sendData
    rw [hlen, hflight]
    rfl
  obtain ⟨hcore, hsent, hwritten⟩ := startTimer_frame ((c.sendSeg c.tcb.sndNxt
    ⟨false, false, false, true, true⟩ 0 1).advance 1)
  have hquiet := quiet_sendData c
  rw [← hsend] at hcore hsent hwritten
  simp only [Tcb.core, Prod.mk.injEq] at hcore
  obtain ⟨hs, -, hu, hn, -, -, ht, hp, hf, hm⟩ := hcore
  rw [tcpOutput_one h.state h.line (by omega) (by omega) (by omega) h.pending]
  refine ⟨hs.trans h.state, hu.trans h.una, ?_, ?_, hm.trans h.mss, ht.trans h.txlen,
    hp.trans h.pending, hf.trans h.unfinished, hwritten.trans h.written, ?_⟩
  · dsimp only
    rw [hn, hu]
    show serialAdd c.tcb.sndNxt 1 = serialAdd c.tcb.sndUna 1
    rw [h.nxt]
  · rcases hquiet.rcvNxt with hgone | hsame
    · rw [hs.trans h.state] at hgone
      cases hgone
    · exact hsame.trans h.rcv_eq
  · dsimp only
    rw [hsent]
    refine ⟨_, List.mem_cons_self, h.nxt.trans h.una, ?_⟩
    exact h.byte

/-- With nothing to say and no room on the line, `tcp_output` changes nothing. -/
theorem tcpOutput_none {c : Conn} (hline : c.world.ipRoom = []) (hpending : c.tcb.finPending = 0) :
    c.tcpOutput.tcb = c.tcb ∧ c.tcpOutput.written = c.written := by
  unfold Conn.tcpOutput
  split
  · exact ⟨rfl, rfl⟩
  · rw [hline, Conn.outputLoop]
    unfold Conn.sendFin
    rw [if_neg (fun hfin => hfin.1 hpending)]
    exact ⟨rfl, rfl⟩

/-- A segment that carries nothing but an acknowledgement, before anything is closed. -/
theorem segInput_ack {c : Conn} {segment : Segment} {app : App} (hdata : segment.data = [])
    (hfin : segment.flags.fin = false) (hseq : (c.ackInput segment.ack).tcb.rcvNxt = segment.seq)
    (hpending : (c.ackInput segment.ack).tcb.finPending = 0)
    (hlive : (c.ackInput segment.ack).tcb.state ≠ .closed) :
    c.segInput segment app = ((c.ackInput segment.ack).setWindow segment.window).tcpOutput := by
  have hpending' : ((c.ackInput segment.ack).setWindow segment.window).tcb.finPending ≠ 2 := by
    show (c.ackInput segment.ack).tcb.finPending ≠ 2
    omega
  have hnext : serialLt segment.seq
      ((c.ackInput segment.ack).setWindow segment.window).tcb.rcvNxt = false := by
    show serialLt segment.seq (c.ackInput segment.ack).tcb.rcvNxt = false
    rw [hseq]
    simp [serialLt]
  unfold Conn.segInput
  dsimp only
  rw [if_neg fun hlast => hpending' hlast.1]
  unfold Conn.finAcked
  rw [if_neg hpending']
  unfold Conn.textInput
  rw [if_neg fun hold => Bool.false_ne_true (hnext.symm.trans hold.2.2),
    if_neg fun hsome => hsome.1 hdata]
  unfold Conn.finInput
  rw [if_neg fun hclose => Bool.false_ne_true (hfin.symm.trans hclose.1)]
  exact if_pos hlive

/-- The byte is acknowledged. -/
theorem InFlight.acked {iss rcv : Seq} {bytes : List UInt8} {b : UInt8} {c : Conn}
    (h : InFlight iss rcv bytes b c) (hline : c.world.ipRoom = []) :
    Idle iss rcv (bytes ++ [b])
      (c.tcpInput ⟨rcv, serialAdd iss (2 + bytes.length), .ackOnly, 512, []⟩ discard) := by
  have hack : serialAdd iss (2 + bytes.length) = serialAdd c.tcb.sndUna 1 := by
    rw [h.una, serialAdd_add]
    congr 1
    omega
  have hnew : serialLt c.tcb.sndUna (serialAdd c.tcb.sndUna 1) = true := by
    have hlt : serialLt (serialAdd c.tcb.sndUna 0) (serialAdd c.tcb.sndUna 1) = decide (0 < 1) :=
      serialLt_serialAdd (by omega) (by omega)
    rwa [serialAdd_zero] at hlt
  have hold : serialLt c.tcb.sndNxt (serialAdd c.tcb.sndUna 1) = false := by
    rw [h.nxt, serialLt_serialAdd (by omega) (by omega)]
    rfl
  rw [hack]
  -- the connection after `ack_input`
  obtain ⟨hcore, hline'⟩ : (c.ackInput (serialAdd c.tcb.sndUna 1)).tcb.core =
      (c.tcb.ackTo (serialAdd c.tcb.sndUna 1)).core ∧
      (c.ackInput (serialAdd c.tcb.sndUna 1)).world.ipRoom = [] := by
    unfold Conn.ackInput
    rw [if_neg (by simp [hnew, hold])]
    dsimp only
    split
    · refine ⟨(startTimer_frame _).1, ?_⟩
      unfold Conn.startTimer
      split <;> exact hline
    · exact ⟨rfl, hline⟩
  rw [ackTo_data (by rw [h.txlen]) (by rw [h.txlen]; decide) (by rw [h.unfinished]; rfl)] at hcore
  simp only [Tcb.core, Prod.mk.injEq] at hcore
  obtain ⟨hs, -, hu, hn, -, -, ht, hp, hf, hm⟩ := hcore
  obtain ⟨-, hwritten, -⟩ := ackInput_frame c (serialAdd c.tcb.sndUna 1)
  have hlive : (c.ackInput (serialAdd c.tcb.sndUna 1)).tcb.state ≠ .closed := by
    rw [hs, h.state]
    decide
  have hrcv := (quiet_ackInput c (serialAdd c.tcb.sndUna 1)).rcvNxt.resolve_left hlive
  have hseg : c.segInput ⟨rcv, serialAdd c.tcb.sndUna 1, .ackOnly, 512, []⟩ discard =
      ((c.ackInput (serialAdd c.tcb.sndUna 1)).setWindow 512).tcpOutput :=
    segInput_ack rfl rfl (hrcv.trans h.rcv_eq) (hp.trans h.pending) hlive
  have hinput : c.tcpInput ⟨rcv, serialAdd c.tcb.sndUna 1, .ackOnly, 512, []⟩ discard =
      ((c.ackInput (serialAdd c.tcb.sndUna 1)).setWindow 512).tcpOutput := by
    rw [← hseg]
    simp [Conn.tcpInput, h.state, Flags.ackOnly]
  obtain ⟨htcb, hwr⟩ := tcpOutput_none (c := (c.ackInput (serialAdd c.tcb.sndUna 1)).setWindow 512)
    hline' (hp.trans h.pending)
  rw [hinput]
  constructor
  · rw [htcb]
    exact hs.trans h.state
  · rw [htcb]
    show (c.ackInput (serialAdd c.tcb.sndUna 1)).tcb.sndUna = _
    rw [hu, ← hack, List.length_append, List.length_singleton]
    congr 1
    omega
  · rw [htcb]
    exact hn.trans (h.nxt.trans hu.symm)
  · rw [htcb]
    exact hrcv.trans h.rcv_eq
  · rw [htcb]
    rfl
  · rw [htcb]
    exact hm.trans h.mss
  · rw [htcb]
    show (c.ackInput (serialAdd c.tcb.sndUna 1)).tcb.txlen = 0
    rw [ht, h.txlen]
  · rw [htcb]
    exact hp.trans h.pending
  · rw [htcb]
    exact hf.trans h.unfinished
  · rw [hwr]
    exact hwritten.trans h.written

/-- One byte is written, sent and acknowledged. -/
def oneByte (iss rcv : Seq) (n : Nat) (b : UInt8) : List Label :=
  [⟨.call (.write [b]), ⟨[], [], []⟩⟩, ⟨.output, ⟨[], [1000], []⟩⟩,
    ackUpTo rcv (serialAdd iss (2 + n))]

/-- Any number of bytes may be written, sent and acknowledged one by one. -/
theorem exists_idle {iss rcv : Seq} {c : Conn} (h : Idle iss rcv [] c) (bytes : List UInt8) :
    ∃ labels : List Label, Idle iss rcv bytes (labels.foldl Conn.step c) := by
  induction bytes using List.reverseRecOn with
  | nil => exact ⟨[], h⟩
  | append_singleton bytes b ih =>
      obtain ⟨labels, hidle⟩ := ih
      refine ⟨labels ++ oneByte iss rcv bytes.length b, ?_⟩
      rw [List.foldl_append]
      have hflight := (hidle.write_one b).output
      have hworld : InFlight iss rcv bytes b
          { (({ (labels.foldl Conn.step c).step ⟨.call (.write [b]), ⟨[], [], []⟩⟩ with
              world := ⟨[], [1000], []⟩ } : Conn).tcpOutput) with world := ⟨[], [], []⟩ } :=
        ⟨hflight.state, hflight.una, hflight.nxt, hflight.rcv_eq, hflight.mss, hflight.txlen,
          hflight.pending, hflight.unfinished, hflight.written, hflight.sent⟩
      exact hworld.acked rfl

/-- The peer opens the connection with sequence number 7 and acknowledges our `SYN`; our initial
sequence number is 0. -/
def opened : Conn :=
  (passiveOpen ⟨[], [], []⟩ 0 7 512 512).step (ackUpTo 8 1)

theorem idle_opened : Idle 0 8 [] opened := by
  constructor <;> decide

/-- After `2 ^ 32` bytes of 0 the service writes a 1: it is sent with the sequence number of the first
byte. -/
theorem send_stream_wraps :
    ∃ labels : List Label,
      ∃ segment ∈ (labels.foldl Conn.step (passiveOpen ⟨[], [], []⟩ 0 7 512 512)).sent,
        segment.data ≠ [] ∧ segment.data ≠
          ((labels.foldl Conn.step (passiveOpen ⟨[], [], []⟩ 0 7 512 512)).written.drop
            (segment.seq - 0 - 1).toNat).take segment.data.length := by
  obtain ⟨labels, hidle⟩ := exists_idle idle_opened (List.replicate (2 ^ 32) 0)
  have hflight := (hidle.write_one 1).output
  obtain ⟨segment, hmem, hseq, hdata⟩ := hflight.sent
  have hone : segment.seq = 1 := by
    rw [hseq, List.length_replicate]
    decide
  refine ⟨ackUpTo 8 1 :: (labels ++
    [⟨.call (.write [1]), ⟨[], [], []⟩⟩, ⟨.output, ⟨[], [1000], []⟩⟩]), segment, ?_, ?_, ?_⟩
  · rw [List.foldl_cons, List.foldl_append]
    exact hmem
  · rw [hdata]
    exact List.cons_ne_nil _ _
  · rw [List.foldl_cons, List.foldl_append]
    have hwritten : (List.foldl Conn.step (labels.foldl Conn.step opened)
        [⟨.call (.write [1]), ⟨[], [], []⟩⟩, ⟨.output, ⟨[], [1000], []⟩⟩]).written =
          List.replicate (2 ^ 32) 0 ++ [1] := hflight.written
    show segment.data ≠ List.take _ (List.drop _ (List.foldl Conn.step (labels.foldl Conn.step opened)
      [⟨.call (.write [1]), ⟨[], [], []⟩⟩, ⟨.output, ⟨[], [1000], []⟩⟩]).written)
    rw [hwritten, hdata, hone]
    have hhead : ∀ m : Nat, 0 < m → List.take 1 (List.replicate m (0 : UInt8) ++ [1]) = [0] := by
      intro m hm
      obtain ⟨k, rfl⟩ := Nat.exists_eq_add_of_lt hm
      rw [Nat.zero_add, List.replicate_succ]
      rfl
    rw [show ((1 : Seq) - 0 - 1).toNat = 0 by decide, List.drop_zero,
      show [(1 : UInt8)].length = 1 from rfl, hhead _ (by omega)]
    decide

end DiscoBsd.Tcp
