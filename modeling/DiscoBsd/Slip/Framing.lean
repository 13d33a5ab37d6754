import DiscoBsd.Lib.Bytes
import DiscoBsd.Lib.Circular
import DiscoBsd.Lib.Steps

/-!
# SLIP framing

The transmit ring and the frame decoder of `slipd`. `slip_send` puts a packet into the ring with its
END and ESC bytes escaped, `tx_flush` writes out what the line takes, and `slip_input` takes the
bytes of a read apart into packets. A packet that is handed to `ip_input` may be answered in its own
buffer, so what `ip_input` leaves there is arbitrary.

`slip_round_trip` is the result: whatever `tx_flush` wrote and however the line is read, the packets
that were accepted are delivered, in order.
-/

namespace DiscoBsd.Slip

open DiscoBsd.Lib

def MTU : Nat := 1500

def TXQ : Nat := 4096

def SLIP_END : UInt8 := 0xC0

def SLIP_ESC : UInt8 := 0xDB

def SLIP_ESC_END : UInt8 := 0xDC

def SLIP_ESC_ESC : UInt8 := 0xDD

/-! ## The transmit ring -/

/-- The output queue. -/
structure Tx where
  txq : Bytes
  txhead : Nat
  txlen : Nat

namespace Tx

/-- Free space in the output queue, in packet bytes. -/
def ip_room (tx : Tx) : Int :=
  let n := ((TXQ : Int) - tx.txlen - 2).tdiv 2
  if n < 0 then 0 else n

def txput (tx : Tx) (c : UInt8) : Tx :=
  { tx with
    txq := Function.update tx.txq ((tx.txhead + tx.txlen) % TXQ) c
    txlen := tx.txlen + 1 }

/-- One byte of a packet, escaped where it has to be. -/
def putByte (tx : Tx) (c : UInt8) : Tx :=
  if c = SLIP_END then (tx.txput SLIP_ESC).txput SLIP_ESC_END
  else if c = SLIP_ESC then (tx.txput SLIP_ESC).txput SLIP_ESC_ESC
  else tx.txput c

def slip_send (tx : Tx) (p : List UInt8) : Tx :=
  if tx.ip_room < p.length then tx
  else (p.foldl putByte (tx.txput SLIP_END)).txput SLIP_END

/-- Write out what the line takes. The list holds what each `write` answers: nothing for an error, or
the number of bytes taken, which is at most the number offered. The answer is what was written, the
value returned and the ring. -/
def tx_flush (tx : Tx) : List (Option Nat) → Option (List UInt8 × Int × Tx)
  | [] => if 0 < tx.txlen then none else some ([], 0, tx)
  | answer :: answers =>
      if 0 < tx.txlen then
        let n := if tx.txlen < TXQ - tx.txhead then tx.txlen else TXQ - tx.txhead
        match answer with
        | none => some ([], -1, tx)
        | some k =>
            if n < k then none
            else
              let out := bytesAt tx.txq tx.txhead k
              let tx' := { tx with txhead := (tx.txhead + k) % TXQ, txlen := tx.txlen - k }
              if k < n then some (out, 0, tx')
              else (tx'.tx_flush answers).map fun done => (out ++ done.1, done.2)
      else some ([], 0, tx)

/-- The bytes that wait in the ring. -/
def queued (tx : Tx) : List UInt8 := circRead TXQ tx.txq tx.txhead tx.txlen

end Tx

/-- What the daemon's main loop does with the ring. -/
inductive Event where
  | slip_send (p : List UInt8)
  | tx_flush (answers : List (Option Nat))

/-- The ring, the bytes written to the line so far and the packets that were accepted. -/
structure Sender where
  tx : Tx
  line : List UInt8
  accepted : List (List UInt8)

namespace Sender

def boot (txq : Bytes) : Sender := ⟨⟨txq, 0, 0⟩, [], []⟩

def event (s : Sender) : Event → Option Sender
  | .slip_send p =>
      some { s with
        tx := s.tx.slip_send p
        accepted := if s.tx.ip_room < p.length then s.accepted else s.accepted ++ [p] }
  | .tx_flush answers =>
      (s.tx.tx_flush answers).map fun done => { s with tx := done.2.2, line := s.line ++ done.1 }

end Sender

/-! ## The decoder -/

/-- The packet being received and the packets handed to `ip_input`. -/
structure Rx where
  rxpkt : Bytes
  rxlen : Nat
  rxesc : Bool
  rxdrop : Bool
  delivered : List (List UInt8)

namespace Rx

def boot (rxpkt : Bytes) : Rx := ⟨rxpkt, 0, false, false, []⟩

variable (ip_input : Bytes → Nat → Bytes)

/-- Store a byte of the packet, or drop the frame when there is no room. -/
def store (rx : Rx) (c : UInt8) : Rx :=
  if rx.rxlen < MTU then
    { rx with rxpkt := Function.update rx.rxpkt rx.rxlen c, rxlen := rx.rxlen + 1 }
  else { rx with rxdrop := true }

/-- The loop body of `slip_input`. -/
def input (rx : Rx) (c : UInt8) : Rx :=
  if c = SLIP_END then
    let rx :=
      if 0 < rx.rxlen ∧ rx.rxdrop = false then
        { rx with
          rxpkt := ip_input rx.rxpkt rx.rxlen
          delivered := rx.delivered ++ [bytesAt rx.rxpkt 0 rx.rxlen] }
      else rx
    { rx with rxlen := 0, rxesc := false, rxdrop := false }
  else if rx.rxesc then
    { rx with rxesc := false }.store
      (if c = SLIP_ESC_END then SLIP_END else if c = SLIP_ESC_ESC then SLIP_ESC else c)
  else if c = SLIP_ESC then { rx with rxesc := true }
  else rx.store c

def slip_input (rx : Rx) (b : List UInt8) : Rx := b.foldl (input ip_input) rx

end Rx

/-! ## Frames -/

/-- A byte of a packet as it is on the line. -/
def stuff (c : UInt8) : List UInt8 :=
  if c = SLIP_END then [SLIP_ESC, SLIP_ESC_END]
  else if c = SLIP_ESC then [SLIP_ESC, SLIP_ESC_ESC]
  else [c]

/-- A packet as it is on the line. -/
def frame (p : List UInt8) : List UInt8 := SLIP_END :: (p.flatMap stuff ++ [SLIP_END])

/-- The packet bytes that the bytes of a frame stand for, after an ESC or not. -/
def unstuff : Bool → List UInt8 → List UInt8
  | _, [] => []
  | true, c :: rest =>
      (if c = SLIP_ESC_END then SLIP_END else if c = SLIP_ESC_ESC then SLIP_ESC else c) ::
        unstuff false rest
  | false, c :: rest => if c = SLIP_ESC then unstuff true rest else c :: unstuff false rest

/-- A line that carries the frames of the packets, with END bytes and oversized frames of any make
between them. -/
inductive Carries : List (List UInt8) → List UInt8 → Prop where
  | nil : Carries [] []
  | idle {packets line} : Carries packets line → Carries packets (SLIP_END :: line)
  | oversized {packets line} (body : List UInt8) :
      SLIP_END ∉ body → MTU < (unstuff false body).length → Carries packets line →
      Carries packets (body ++ SLIP_END :: line)
  | frame {packets line} (p : List UInt8) :
      Carries packets line → Carries (p :: packets) (frame p ++ line)

theorem carries_frames (packets : List (List UInt8)) :
    Carries packets (packets.map frame).flatten := by
  induction packets with
  | nil => exact .nil
  | cons p packets ih =>
      rw [List.map_cons, List.flatten_cons]
      exact .frame p ih

theorem end_not_mem_stuff (c : UInt8) : SLIP_END ∉ stuff c := by
  unfold stuff
  split
  · decide
  · split
    · decide
    · rename_i hend _
      simpa using Ne.symm hend

theorem end_not_mem_body (p : List UInt8) : SLIP_END ∉ p.flatMap stuff := by
  intro h
  obtain ⟨c, -, hc⟩ := List.mem_flatMap.mp h
  exact end_not_mem_stuff c hc

/-- Escaping is undone. -/
theorem unstuff_stuff (p : List UInt8) : unstuff false (p.flatMap stuff) = p := by
  induction p with
  | nil => rfl
  | cons c p ih =>
      rw [List.flatMap_cons]
      by_cases hend : c = SLIP_END
      · subst hend
        simpa [stuff, unstuff] using ih
      · by_cases hesc : c = SLIP_ESC
        · subst hesc
          simp [stuff, unstuff, ih, show SLIP_ESC ≠ SLIP_END by decide,
            show SLIP_ESC_ESC ≠ SLIP_ESC_END by decide]
        · simp [stuff, unstuff, hend, hesc, ih]

theorem stuff_length (c : UInt8) : (stuff c).length ≤ 2 := by
  unfold stuff
  split
  · exact le_rfl
  · split
    · exact le_rfl
    · exact Nat.le_succ 1

/-- A frame takes two bytes for each byte of its packet at most, and two more. -/
theorem frame_length (p : List UInt8) : (frame p).length ≤ 2 * p.length + 2 := by
  have hbody : (p.flatMap stuff).length ≤ 2 * p.length := by
    induction p with
    | nil => exact le_rfl
    | cons c p ih =>
        have := stuff_length c
        rw [List.flatMap_cons, List.length_append, List.length_cons]
        omega
  simp only [frame, List.length_cons, List.length_append, List.length_nil]
  omega

/-! ## Sending -/

namespace Tx

variable {tx tx' : Tx}

theorem queued_txput (c : UInt8) (hroom : tx.txlen < TXQ) :
    (tx.txput c).queued = tx.queued ++ [c] := by
  have hwrite : circRead TXQ (circWrite TXQ tx.txq (tx.txhead + tx.txlen) [c]) tx.txhead
      (tx.txlen + [c].length) = circRead TXQ tx.txq tx.txhead tx.txlen ++ [c] :=
    circRead_write tx.txq hroom
  simpa [queued, txput, circWrite] using hwrite

/-- Bytes put into the ring one after the other. -/
theorem queued_foldl (cs : List UInt8) (hroom : tx.txlen + cs.length ≤ TXQ) :
    (cs.foldl txput tx).queued = tx.queued ++ cs ∧
      (cs.foldl txput tx).txlen = tx.txlen + cs.length ∧
      (cs.foldl txput tx).txhead = tx.txhead := by
  induction cs generalizing tx with
  | nil => simp
  | cons c cs ih =>
      simp only [List.length_cons] at hroom
      have hlen : (tx.txput c).txlen = tx.txlen + 1 := rfl
      have hrest : (tx.txput c).txlen + cs.length ≤ TXQ := by omega
      obtain ⟨hqueued, hlength, hhead⟩ := ih hrest
      refine ⟨?_, ?_, hhead⟩
      · rw [List.foldl_cons, hqueued, queued_txput c (by omega), List.append_assoc,
          List.singleton_append]
      · rw [List.foldl_cons, hlength, hlen, List.length_cons]
        omega

theorem putByte_eq (tx : Tx) (c : UInt8) : tx.putByte c = (stuff c).foldl txput tx := by
  unfold putByte stuff
  split
  · rfl
  · split <;> rfl

/-- An accepted packet is put into the ring as its frame. -/
theorem slip_send_eq (p : List UInt8) (hroom : ¬ tx.ip_room < p.length) :
    tx.slip_send p = (frame p).foldl txput tx := by
  have hbody : ∀ (cs : List UInt8) (tx : Tx),
      cs.foldl putByte tx = (cs.flatMap stuff).foldl txput tx := by
    intro cs
    induction cs with
    | nil => exact fun tx => rfl
    | cons c cs ih =>
        intro tx
        rw [List.foldl_cons, ih, putByte_eq, List.flatMap_cons, List.foldl_append]
  rw [slip_send, if_neg hroom, hbody, frame, List.foldl_cons, List.foldl_append]
  rfl

/-- The room test covers the worst case. -/
theorem room_frame {p : List UInt8} (hp : 0 < p.length) (hroom : ¬ tx.ip_room < p.length) :
    tx.txlen + (frame p).length ≤ TXQ := by
  have hframe := frame_length p
  unfold ip_room at hroom
  dsimp only at hroom
  rcases Int.lt_or_le ((TXQ : Int) - tx.txlen - 2) 0 with hneg | hpos
  · -- C division rounds towards zero, so the quotient is not positive
    obtain ⟨d, hd⟩ : ∃ d : Int, (TXQ : Int) - tx.txlen - 2 = -d := ⟨_, (Int.neg_neg _).symm⟩
    rw [hd, Int.neg_tdiv, Int.tdiv_eq_ediv_of_nonneg (by omega)] at hroom
    split at hroom <;> omega
  · rw [Int.tdiv_eq_ediv_of_nonneg hpos] at hroom
    split at hroom <;> omega

theorem slip_send_queued {p : List UInt8} (hp : 0 < p.length) (hroom : ¬ tx.ip_room < p.length) :
    (tx.slip_send p).queued = tx.queued ++ frame p ∧ (tx.slip_send p).txlen ≤ TXQ := by
  have hframe := room_frame hp hroom
  obtain ⟨hqueued, hlength, -⟩ := queued_foldl (frame p) hframe
  rw [slip_send_eq p hroom]
  exact ⟨hqueued, by omega⟩

/-- A write of the first `k` bytes takes them out of the ring. -/
theorem queued_advance {k : Nat} (hk : k ≤ tx.txlen) (hend : k ≤ TXQ - tx.txhead) :
    tx.queued = bytesAt tx.txq tx.txhead k ++
      Tx.queued { tx with txhead := (tx.txhead + k) % TXQ, txlen := tx.txlen - k } := by
  obtain ⟨rest, hrest⟩ := Nat.exists_eq_add_of_le hk
  have hread : circRead TXQ tx.txq tx.txhead k = bytesAt tx.txq tx.txhead k := by
    refine List.map_congr_left fun i hi => ?_
    rw [List.mem_range] at hi
    rw [Nat.mod_eq_of_lt (by omega)]
  simp only [queued]
  rw [hrest, circRead_add, hread, circRead_mod, Nat.add_sub_cancel_left]

/-- However the writes come back, what is written and what still waits is what waited before. -/
theorem tx_flush_queued {answers : List (Option Nat)} {out : List UInt8} {code : Int}
    (h : tx.tx_flush answers = some (out, code, tx')) :
    tx.queued = out ++ tx'.queued ∧ tx'.txlen ≤ tx.txlen := by
  induction answers generalizing tx out with
  | nil =>
      unfold tx_flush at h
      split at h
      · cases h
      · cases h
        exact ⟨rfl, le_rfl⟩
  | cons answer answers ih =>
      unfold tx_flush at h
      split at h
      · cases answer with
        | none =>
            cases h
            exact ⟨rfl, le_rfl⟩
        | some k =>
            dsimp only at h
            generalize hn : (if tx.txlen < TXQ - tx.txhead then tx.txlen else TXQ - tx.txhead) = n
              at h
            have hle : n ≤ tx.txlen ∧ n ≤ TXQ - tx.txhead := by
              split at hn <;> omega
            split at h
            · cases h
            · rename_i hk
              rw [queued_advance (k := k) (by omega) (by omega)]
              split at h
              · cases h
                exact ⟨rfl, Nat.sub_le _ _⟩
              · obtain ⟨⟨rest, code', final⟩, hrest, heq⟩ := Option.map_eq_some_iff.mp h
                cases heq
                obtain ⟨hqueued, hlength⟩ := ih hrest
                refine ⟨?_, hlength.trans (Nat.sub_le _ _)⟩
                rw [hqueued, List.append_assoc]
      · cases h
        exact ⟨rfl, le_rfl⟩

end Tx

/-! ## Receiving -/

namespace Rx

variable {ip_input : Bytes → Nat → Bytes} {rx : Rx}

theorem slip_input_append (rx : Rx) (b b' : List UInt8) :
    rx.slip_input ip_input (b ++ b') = (rx.slip_input ip_input b).slip_input ip_input b' :=
  List.foldl_append

/-- In the middle of a frame that stands for the bytes `got` so far. -/
structure Holding (rx : Rx) (got : List UInt8) (esc : Bool) (delivered : List (List UInt8)) :
    Prop where
  length : rx.rxlen = min got.length MTU
  bytes : bytesAt rx.rxpkt 0 rx.rxlen = got.take MTU
  esc : rx.rxesc = esc
  drop : rx.rxdrop = decide (MTU < got.length)
  delivered : rx.delivered = delivered

variable {got : List UInt8} {delivered : List (List UInt8)}

theorem Holding.store {esc : Bool} (h : Holding rx got esc delivered) (c : UInt8) :
    Holding (rx.store c) (got ++ [c]) esc delivered := by
  have hlength := h.length
  unfold Rx.store
  split
  · rename_i hroom
    have hgot : got.length < MTU := by omega
    have hlen : rx.rxlen = got.length := by omega
    refine ⟨?_, ?_, h.esc, ?_, h.delivered⟩
    · simp only [List.length_append, List.length_singleton]
      omega
    · have hbytes := h.bytes
      rw [List.take_of_length_le (by omega)] at hbytes
      rw [List.take_of_length_le (by simp only [List.length_append, List.length_singleton]; omega)]
      simp only [bytesAt, List.range_succ, List.map_append, List.map_singleton, Nat.zero_add,
        Function.update_self]
      congr 1
      rw [← hbytes, bytesAt]
      refine List.map_congr_left fun i hi => ?_
      rw [List.mem_range] at hi
      rw [Nat.zero_add, Function.update_of_ne (by omega)]
    · rw [h.drop]
      simp only [List.length_append, List.length_singleton, decide_eq_decide]
      omega
  · rename_i hroom
    have hgot : MTU ≤ got.length := by omega
    refine ⟨?_, ?_, h.esc, ?_, h.delivered⟩
    · simp only [List.length_append, List.length_singleton]
      omega
    · rw [h.bytes, List.take_append_of_le_length hgot]
    · simp only [List.length_append, List.length_singleton, Bool.true_eq, decide_eq_true_eq]
      omega

variable (ip_input) in
/-- The bytes of a frame, up to its END. -/
theorem Holding.body {esc : Bool} (body : List UInt8) (hend : SLIP_END ∉ body)
    (h : Holding rx got esc delivered) :
    ∃ esc', Holding (rx.slip_input ip_input body) (got ++ unstuff esc body) esc' delivered := by
  induction body generalizing rx got esc with
  | nil => exact ⟨esc, by simpa [slip_input, unstuff] using h⟩
  | cons c body ih =>
      obtain ⟨hc, hbody⟩ := not_or.mp (List.mem_cons.not.mp hend)
      have hc' : c ≠ SLIP_END := Ne.symm hc
      cases esc with
      | true =>
          have hstep : rx.input ip_input c = { rx with rxesc := false }.store
              (if c = SLIP_ESC_END then SLIP_END else if c = SLIP_ESC_ESC then SLIP_ESC else c) := by
            rw [input, if_neg hc', if_pos h.esc]
          have hplain : Holding { rx with rxesc := false } got false delivered :=
            ⟨h.length, h.bytes, rfl, h.drop, h.delivered⟩
          obtain ⟨esc', hrest⟩ := ih hbody (hplain.store
            (if c = SLIP_ESC_END then SLIP_END else if c = SLIP_ESC_ESC then SLIP_ESC else c))
          refine ⟨esc', ?_⟩
          rw [List.append_assoc, List.singleton_append] at hrest
          rw [slip_input, List.foldl_cons, hstep]
          exact hrest
      | false =>
          have hesc : ¬ rx.rxesc = true := by simp [h.esc]
          by_cases heq : c = SLIP_ESC
          · have hstep : rx.input ip_input c = { rx with rxesc := true } := by
              rw [input, if_neg hc', if_neg hesc, if_pos heq]
            have hmarked : Holding { rx with rxesc := true } got true delivered :=
              ⟨h.length, h.bytes, rfl, h.drop, h.delivered⟩
            obtain ⟨esc', hrest⟩ := ih hbody hmarked
            refine ⟨esc', ?_⟩
            rw [slip_input, List.foldl_cons, hstep, unstuff, if_pos heq]
            exact hrest
          · have hstep : rx.input ip_input c = rx.store c := by
              rw [input, if_neg hc', if_neg hesc, if_neg heq]
            obtain ⟨esc', hrest⟩ := ih hbody (h.store c)
            refine ⟨esc', ?_⟩
            rw [List.append_assoc, List.singleton_append] at hrest
            rw [slip_input, List.foldl_cons, hstep, unstuff, if_neg heq]
            exact hrest

variable (ip_input) in
/-- An END hands over the packet, unless the frame is empty or oversized, and starts afresh. -/
theorem Holding.finish {esc : Bool} (h : Holding rx got esc delivered) :
    Holding (rx.input ip_input SLIP_END) [] false
      (delivered ++ if 0 < got.length ∧ got.length ≤ MTU then [got] else []) := by
  have hlength := h.length
  have hMTU : 0 < MTU := by decide
  have hdrop : rx.rxdrop = false ↔ got.length ≤ MTU := by
    rw [h.drop, decide_eq_false_iff_not, Nat.not_lt]
  have hguard : (0 < rx.rxlen ∧ rx.rxdrop = false) ↔ 0 < got.length ∧ got.length ≤ MTU := by
    rw [hdrop]
    omega
  rw [input, if_pos rfl]
  refine ⟨rfl, rfl, rfl, rfl, ?_⟩
  by_cases hpacket : 0 < got.length ∧ got.length ≤ MTU
  · have hbytes := h.bytes
    rw [List.take_of_length_le hpacket.2] at hbytes
    simp only [if_pos hpacket, if_pos (hguard.mpr hpacket), h.delivered, hbytes]
  · simp only [if_neg hpacket, if_neg (hguard.not.mpr hpacket), h.delivered, List.append_nil]

/-- Between frames. -/
def Idle (rx : Rx) (delivered : List (List UInt8)) : Prop := Holding rx [] false delivered

theorem idle_boot (rxpkt : Bytes) : Idle (boot rxpkt) [] := ⟨rfl, rfl, rfl, rfl, rfl⟩

variable (ip_input) in
theorem Idle.frame (h : Idle rx delivered) {body : List UInt8} (hend : SLIP_END ∉ body) :
    Idle (rx.slip_input ip_input (body ++ [SLIP_END])) (delivered ++
      if 0 < (unstuff false body).length ∧ (unstuff false body).length ≤ MTU
      then [unstuff false body] else []) := by
  obtain ⟨esc', hbody⟩ := Holding.body ip_input body hend h
  rw [List.nil_append] at hbody
  rw [slip_input_append]
  exact hbody.finish ip_input

variable (ip_input) in
theorem Idle.ends (h : Idle rx delivered) : Idle (rx.slip_input ip_input [SLIP_END]) delivered := by
  have hempty : SLIP_END ∉ ([] : List UInt8) := List.not_mem_nil
  simpa [unstuff] using h.frame ip_input hempty

variable (ip_input) in
/-- The packets of a line are delivered in order, the oversized ones apart. -/
theorem Idle.carries {packets : List (List UInt8)} {line : List UInt8} (hline : Carries packets line)
    (hpackets : ∀ p ∈ packets, 0 < p.length) (h : Idle rx delivered) :
    Idle (rx.slip_input ip_input line)
      (delivered ++ packets.filter fun p => decide (p.length ≤ MTU)) := by
  induction hline generalizing rx delivered with
  | nil => simpa [slip_input] using h
  | idle _ ih =>
      rw [← List.singleton_append, slip_input_append]
      exact ih hpackets (h.ends ip_input)
  | oversized body hend hlong _ ih =>
      have hidle := h.frame ip_input hend
      rw [if_neg (by omega), List.append_nil] at hidle
      rw [← List.singleton_append, ← List.append_assoc, slip_input_append]
      exact ih hpackets hidle
  | frame p _ ih =>
      rename_i packets line _
      obtain ⟨hp, hrest⟩ := List.forall_mem_cons.mp hpackets
      have hidle := (h.ends ip_input).frame ip_input (end_not_mem_body p)
      rw [unstuff_stuff] at hidle
      have hfinal := ih hrest hidle
      have hdelivered : (delivered ++ (if 0 < p.length ∧ p.length ≤ MTU then [p] else [])) ++
          packets.filter (fun p => decide (p.length ≤ MTU)) =
          delivered ++ (p :: packets).filter fun p => decide (p.length ≤ MTU) := by
        by_cases hle : p.length ≤ MTU
        · simp [hp, hle]
        · simp [hle]
      rw [hdelivered] at hfinal
      rw [Slip.frame, ← List.singleton_append, List.append_assoc, slip_input_append,
        slip_input_append]
      exact hfinal

end Rx

/-! ## Both ends of the line -/

/-- The ring never overflows, and what was written and what waits are the frames accepted. -/
structure Sender.Framed (s : Sender) : Prop where
  room : s.tx.txlen ≤ TXQ
  stream : s.line ++ s.tx.queued = (s.accepted.map frame).flatten
  nonempty : ∀ p ∈ s.accepted, 0 < p.length

theorem Sender.framed_boot (txq : Bytes) : (boot txq).Framed :=
  ⟨Nat.zero_le _, rfl, by simp [boot]⟩

/-- Every call keeps the stream of frames. -/
theorem Sender.Framed.event {s s' : Sender} {event : Event} (h : s.Framed)
    (hp : ∀ p, event = .slip_send p → 0 < p.length) (hstep : s.event event = some s') :
    s'.Framed := by
  cases event with
  | slip_send p =>
      cases hstep
      by_cases hroom : s.tx.ip_room < p.length
      · have hrefused : s.tx.slip_send p = s.tx := if_pos hroom
        refine ⟨?_, ?_, ?_⟩
        · simpa only [hrefused] using h.room
        · simpa only [hrefused, if_pos hroom] using h.stream
        · simpa only [if_pos hroom] using h.nonempty
      · obtain ⟨hqueued, hlength⟩ := Tx.slip_send_queued (hp p rfl) hroom
        refine ⟨hlength, ?_, ?_⟩
        · simp only [if_neg hroom, hqueued]
          rw [← List.append_assoc, h.stream, List.map_append, List.flatten_append]
          simp
        · simp only [if_neg hroom]
          intro q hq
          rcases List.mem_append.mp hq with hq | hq
          · exact h.nonempty q hq
          · rw [List.mem_singleton.mp hq]
            exact hp p rfl
  | tx_flush answers =>
      obtain ⟨⟨out, code, tx'⟩, hflush, heq⟩ := Option.map_eq_some_iff.mp hstep
      cases heq
      obtain ⟨hqueued, hlength⟩ := Tx.tx_flush_queued hflush
      refine ⟨hlength.trans h.room, ?_, h.nonempty⟩
      have hstream := h.stream
      rw [hqueued, ← List.append_assoc] at hstream
      exact hstream

/-- A run of the sender whose packets all have a byte at least. -/
theorem Sender.framed_run {events : List Event} {s s' : Sender}
    (hpackets : ∀ p, Event.slip_send p ∈ events → 0 < p.length)
    (hrun : Steps (Steps.Of Sender.event) s events s') (h : s.Framed) : s'.Framed := by
  induction hrun with
  | refl _ => exact h
  | cons hstep _ ih =>
      refine ih (fun p hp => hpackets p (List.mem_cons_of_mem _ hp)) (h.event ?_ hstep)
      rintro p rfl
      exact hpackets p List.mem_cons_self

/-- Framing round trip: after any run of sends and flushes the ring holds at most `TXQ` bytes and
the line carries the frames of the accepted packets; and a line that carries them, with any number
of END bytes and oversized frames between them and read in chunks of any sizes, delivers exactly
those packets, in order, that are not oversized themselves. -/
theorem slip_round_trip {events : List Event} {txq : Bytes} {s : Sender}
    (hpackets : ∀ p, Event.slip_send p ∈ events → 0 < p.length)
    (hrun : Steps (Steps.Of Sender.event) (Sender.boot txq) events s) :
    s.tx.txlen ≤ TXQ ∧ Carries s.accepted (s.line ++ s.tx.queued) ∧
      ∀ (ip_input : Bytes → Nat → Bytes) (rxpkt : Bytes) (line : List UInt8)
        (chunks : List (List UInt8)), Carries s.accepted line → chunks.flatten = line →
        (chunks.foldl (Rx.slip_input ip_input) (Rx.boot rxpkt)).delivered =
          s.accepted.filter fun p => decide (p.length ≤ MTU) := by
  have hframed := Sender.framed_run hpackets hrun (Sender.framed_boot txq)
  refine ⟨hframed.room, ?_, ?_⟩
  · rw [hframed.stream]
    exact carries_frames s.accepted
  · intro ip_input rxpkt line chunks hline hchunks
    have hjoin : chunks.foldl (Rx.slip_input ip_input) (Rx.boot rxpkt) =
        (Rx.boot rxpkt).slip_input ip_input line := by
      rw [← hchunks, Rx.slip_input, List.foldl_flatten]
      rfl
    rw [hjoin]
    exact (Rx.Idle.carries ip_input hline hframed.nonempty (Rx.idle_boot rxpkt)).delivered

/-- Two packets, the second all END and ESC, written out in three pieces and read byte by byte. -/
theorem slip_round_trip_escapes :
    ∃ s, Steps (Steps.Of Sender.event) (Sender.boot fun _ => 0)
        [.slip_send [0x45], .tx_flush [some 2], .slip_send [0xC0, 0xDB], .tx_flush [some 5, none],
          .tx_flush [some 2]] s ∧
      s.line = [0xC0, 0x45, 0xC0, 0xC0, 0xDB, 0xDC, 0xDB, 0xDD, 0xC0] ∧
      ((s.line.map fun c => [c]).foldl (Rx.slip_input fun pkt _ => pkt)
        (Rx.boot fun _ => 0)).delivered = [[0x45], [0xC0, 0xDB]] := by
  have hrun : Steps (Steps.Of Sender.event) (Sender.boot fun _ => 0)
      [.slip_send [0x45], .tx_flush [some 2], .slip_send [0xC0, 0xDB], .tx_flush [some 5, none],
        .tx_flush [some 2]] _ := Steps.of_foldlM rfl
  have htrip := slip_round_trip (by simp) hrun
  refine ⟨_, hrun, by decide, ?_⟩
  exact htrip.2.2 _ _ _ _ htrip.2.1 (by decide)

end DiscoBsd.Slip
