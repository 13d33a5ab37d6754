import DiscoBsd.Klog.Ring
import DiscoBsd.Lib.Steps

/-!
# Runs of the kernel log

`logwrt_spec` and `logread_spec` say what a call does to the bytes in the ring. The writer counts an
overrun when its data do not fit behind the unread data. It takes a ring that is full with the
reader at 0 for an empty one, and it may fill a ring up to a reader anywhere else, which a reader
takes for empty; `logwrt_kept_iff` says that in these cases, and in no others, bytes are lost without
an overrun.
-/

namespace DiscoBsd.Klog

open Lib

/-! ## Runs of cells that do not reach the end of the ring -/

theorem store_eq_circWrite {size x : Nat} (ring : Nat → UInt8) {items : List UInt8}
    (h : x + items.length ≤ size) : store ring x items = circWrite size ring x items := by
  induction items generalizing ring x with
  | nil => rfl
  | cons item items ih =>
      rw [List.length_cons] at h
      rw [store, circWrite, Nat.mod_eq_of_lt (by omega), ih _ (by omega)]

theorem bytes_eq_circRead {size x n : Nat} (ring : Nat → UInt8) (h : x + n ≤ size) :
    bytes ring x n = circRead size ring x n := by
  induction n generalizing x with
  | zero => rfl
  | succ n ih => rw [bytes, circRead_succ, Nat.mod_eq_of_lt (by omega), ih (by omega)]

theorem circWrite_mod {size x y : Nat} (ring : Nat → UInt8) {items : List UInt8}
    (h : x ≡ y [MOD size]) : circWrite size ring x items = circWrite size ring y items := by
  induction items generalizing ring x y with
  | nil => rfl
  | cons item items ih => rw [circWrite, circWrite, show x % size = y % size from h, ih _ (h.add_right 1)]

theorem circRead_congr_start {size x y : Nat} (ring : Nat → UInt8) (n : Nat)
    (h : x ≡ y [MOD size]) : circRead size ring x n = circRead size ring y n := by
  rw [← circRead_mod size ring x, show x % size = y % size from h, circRead_mod]

namespace Log

variable {mp mp' : Log} {buf : List UInt8}

/-! ## Writing -/

/-- The write index is `c` bytes behind the read index, going round. -/
def Stands (mp : Log) (c : Nat) : Prop := mp.msg_bufx ≡ mp.msg_bufr + c [MOD MSG_BSIZE]

/-- The room from a write index in the ring that is `c` bytes behind the reader. -/
theorem roomFrom_spec {c bufx : Nat} (infront : Int) (hr : mp.msg_bufr ≤ MSG_BSIZE)
    (hbufx : bufx < MSG_BSIZE) (hs : bufx ≡ mp.msg_bufr + c [MOD MSG_BSIZE]) (hc : c < MSG_BSIZE)
    (hfront : mp.msg_bufr ≤ bufx → infront = MSG_BSIZE - bufx) :
    (mp.roomFrom bufx infront).bufx = bufx ∧ (mp.roomFrom bufx infront).writer = MSG_BSIZE - c ∧
      0 < (mp.roomFrom bufx infront).infront ∧
      (mp.roomFrom bufx infront).infront ≤ MSG_BSIZE - c ∧
      bufx + (mp.roomFrom bufx infront).infront ≤ MSG_BSIZE := by
  unfold Nat.ModEq at hs
  simp only [MSG_BSIZE] at hr hbufx hs hc hfront
  unfold roomFrom
  simp only [MSG_BSIZE]
  by_cases hlt : (mp.msg_bufr : Int) - bufx < 0
  · have := hfront (by omega)
    rw [if_pos hlt]
    dsimp only
    omega
  · rw [if_neg hlt]
    by_cases heq : (mp.msg_bufr : Int) - bufx = 0
    · have := hfront (by omega)
      rw [if_pos heq]
      dsimp only
      omega
    · rw [if_neg heq]
      dsimp only
      omega

/-- What the writer computes when it is less than a whole ring behind the reader. -/
theorem room_spec {c : Nat} (hb : mp.Bounded) (hs : mp.Stands c) (hc : c < MSG_BSIZE) :
    mp.room.bufx ≡ mp.msg_bufr + c [MOD MSG_BSIZE] ∧ mp.room.writer = MSG_BSIZE - c ∧
      0 < mp.room.infront ∧ mp.room.infront ≤ MSG_BSIZE - c ∧
      mp.room.bufx + mp.room.infront ≤ MSG_BSIZE := by
  have hx := hb.bufx
  have hr := hb.bufr
  unfold room
  dsimp only
  by_cases hwrap : (MSG_BSIZE : Int) - mp.msg_bufx ≤ 0
  · -- the write index stood at the end of the ring
    have hend : mp.msg_bufx = 0 + MSG_BSIZE := by omega
    have hzero : 0 ≡ mp.msg_bufr + c [MOD MSG_BSIZE] :=
      (Nat.add_modEq_right (n := MSG_BSIZE) (a := 0)).symm.trans (hend ▸ hs)
    rw [if_pos hwrap]
    obtain ⟨hbufx, hrest⟩ := roomFrom_spec (MSG_BSIZE - mp.msg_bufr) hr (by decide) hzero hc
      (by omega)
    rw [hbufx]
    exact ⟨hzero, hrest⟩
  · rw [if_neg hwrap]
    obtain ⟨hbufx, hrest⟩ := roomFrom_spec (MSG_BSIZE - mp.msg_bufx) hr (by omega) hs hc fun _ => rfl
    rw [hbufx]
    exact ⟨hs, hrest⟩

/-- `mp'` is `mp` after `buf` has been written behind its first `c` unread bytes. -/
structure Wrote (mp : Log) (c : Nat) (buf : List UInt8) (mp' : Log) : Prop where
  magic : mp'.msg_magic = mp.msg_magic
  bufr : mp'.msg_bufr = mp.msg_bufr
  sc_overrun : mp'.sc_overrun = mp.sc_overrun
  bounded : mp'.Bounded
  stands : mp'.Stands (c + buf.length)
  read : circRead MSG_BSIZE mp'.msg_bufc mp.msg_bufr (c + buf.length) =
    circRead MSG_BSIZE mp.msg_bufc mp.msg_bufr c ++ buf
  moved : buf ≠ [] → 0 < mp'.msg_bufx
  still : buf = [] → mp' = mp

/-- One `bcopy` into the ring. -/
theorem copied_wrote {c bufx : Nat} (hb : mp.Bounded) (hbufx : bufx ≡ mp.msg_bufr + c [MOD MSG_BSIZE])
    (hbuf : buf ≠ []) (hend : bufx + buf.length ≤ MSG_BSIZE) (hroom : c + buf.length ≤ MSG_BSIZE) :
    Wrote mp c buf (mp.copied bufx buf) where
  magic := rfl
  bufr := rfl
  sc_overrun := rfl
  bounded := ⟨hend, hb.bufr⟩
  stands := by
    show bufx + buf.length ≡ mp.msg_bufr + (c + buf.length) [MOD MSG_BSIZE]
    rw [← Nat.add_assoc]
    exact hbufx.add_right _
  read := by
    show circRead MSG_BSIZE (store mp.msg_bufc bufx buf) _ _ = _
    rw [store_eq_circWrite _ hend, circWrite_mod _ hbufx, circRead_write _ hroom]
  moved := fun _ => by
    have hlen := List.length_pos_iff.mpr hbuf
    show 0 < bufx + buf.length
    omega
  still := fun h => absurd h hbuf

theorem Wrote.trans {c : Nat} {more : List UInt8} {mp'' : Log} (hfirst : Wrote mp c buf mp')
    (hbuf : buf ≠ []) (hmore : Wrote mp' (c + buf.length) more mp'') :
    Wrote mp c (buf ++ more) mp'' where
  magic := hmore.magic.trans hfirst.magic
  bufr := hmore.bufr.trans hfirst.bufr
  sc_overrun := hmore.sc_overrun.trans hfirst.sc_overrun
  bounded := hmore.bounded
  stands := by
    rw [List.length_append, ← Nat.add_assoc]
    exact hmore.stands
  read := by
    have hread := hmore.read
    rw [hfirst.bufr] at hread
    rw [List.length_append, ← Nat.add_assoc, hread, hfirst.read, List.append_assoc]
  moved := fun _ => by
    by_cases h : more = []
    · rw [hmore.still h]
      exact hfirst.moved hbuf
    · exact hmore.moved h
  still := fun h => absurd (List.append_eq_nil_iff.mp h).1 hbuf

/-- Data that fit are written without an overrun. The induction is on the fuel: a turn writes at
least one byte, up to the end of the ring or the reader. -/
theorem logwrt_loop_fits {c fuel : Nat} (hb : mp.Bounded) (hs : mp.Stands c)
    (hroom : c + buf.length ≤ MSG_BSIZE) (hfuel : buf.length < fuel) :
    ∃ mp', logwrtLoop fuel mp buf = some mp' ∧ Wrote mp c buf mp' := by
  induction fuel generalizing mp c buf with
  | zero => omega
  | succ fuel ih =>
      by_cases hnil : buf = []
      · subst hnil
        refine ⟨mp, rfl, ⟨rfl, rfl, rfl, hb, hs, (List.append_nil _).symm, ?_, fun _ => rfl⟩⟩
        exact fun h => absurd rfl h
      have hlen := List.length_pos_iff.mpr hnil
      obtain ⟨hbufx, hwriter, hpos, hle, hend⟩ := room_spec hb hs (by omega)
      have hmin : ((min mp.room.infront buf.length).toNat : Int) = min mp.room.infront buf.length :=
        Int.toNat_of_nonneg (by omega)
      generalize hn : (min mp.room.infront buf.length).toNat = n at *
      have htake : (buf.take n).length = n := List.length_take_of_le (by omega)
      have htaken : buf.take n ≠ [] := List.ne_nil_of_length_pos (by omega)
      have hfirst : Wrote mp c (buf.take n) (mp.copied mp.room.bufx (buf.take n)) :=
        copied_wrote hb hbufx htaken (by omega) (by omega)
      have hdrop : (buf.drop n).length = buf.length - n := List.length_drop
      have hleft : c + (buf.take n).length + (buf.drop n).length ≤ MSG_BSIZE := by
        rw [htake, hdrop]
        omega
      obtain ⟨mp', hloop, hrest⟩ := ih hfirst.bounded hfirst.stands hleft (by omega)
      refine ⟨mp', ?_, ?_⟩
      · rw [logwrtLoop, if_neg hnil]
        dsimp only
        rw [if_neg (by omega), if_pos (by omega), hn, hloop]
      · have hwrote := hfirst.trans htaken hrest
        rwa [List.take_append_drop] at hwrote

theorem Bounded.stands (hb : mp.Bounded) : mp.Stands (mp.unread % MSG_BSIZE) := by
  have hx := hb.bufx
  have hr := hb.bufr
  unfold Stands unread Nat.ModEq
  simp only [MSG_BSIZE] at *
  split <;> omega

/-- What the reader finds after a write is nothing when it ends at a reader inside of the ring. -/
theorem Wrote.unread {c : Nat} (h : Wrote mp c buf mp') (hb : mp.Bounded) (hbuf : buf ≠ [])
    (hroom : c + buf.length ≤ MSG_BSIZE) :
    mp'.unread = if mp.msg_bufr = 0 ∨ c + buf.length < MSG_BSIZE then c + buf.length else 0 := by
  have hlen := List.length_pos_iff.mpr hbuf
  have hx := h.bounded.bufx
  have hr := hb.bufr
  have hmoved := h.moved hbuf
  have hs := h.stands
  have hbufr := h.bufr
  unfold Stands Nat.ModEq at hs
  have hsize : MSG_BSIZE = 2048 := rfl
  rw [hsize] at hs
  unfold Log.unread
  split <;> split <;> omega

theorem Wrote.pending (h : Wrote mp mp.unread buf mp') (hb : mp.Bounded) (hbuf : buf ≠ [])
    (hroom : mp.unread + buf.length ≤ MSG_BSIZE)
    (hfull : mp.msg_bufr = 0 ∨ mp.unread + buf.length < MSG_BSIZE) :
    mp'.pending = mp.pending ++ buf := by
  rw [Log.pending, h.unread hb hbuf hroom, if_pos hfull, h.bufr, h.read, Log.pending]

theorem overrun_stands : mp.overrun.Stands 0 := Nat.ModEq.refl _

theorem Bounded.overrun (hb : mp.Bounded) : mp.overrun.Bounded := ⟨hb.bufr, hb.bufr⟩

/-- A call of `logwrt` writes behind the unread data, of which it sees none in a full ring, or
throws them away when its own do not fit. -/
theorem logwrt_wrote (hb : mp.Bounded) (hmagic : mp.msg_magic = MSG_MAGIC)
    (hlen : buf.length ≤ MSG_BSIZE) :
    ∃ mp', mp.logwrt buf = some (0, mp') ∧
      (Wrote mp (mp.unread % MSG_BSIZE) buf mp' ∧
          mp.unread % MSG_BSIZE + buf.length ≤ MSG_BSIZE ∨
        Wrote mp.overrun 0 buf mp' ∧ MSG_BSIZE < mp.unread % MSG_BSIZE + buf.length) := by
  have hvalid : ¬ (mp.msg_magic ≠ MSG_MAGIC ∨ MSG_BSIZE < buf.length) := by
    rintro (h | h)
    · exact h hmagic
    · omega
  have hc : mp.unread % MSG_BSIZE < MSG_BSIZE := Nat.mod_lt _ (by decide)
  rw [logwrt, if_neg hvalid]
  by_cases hroom : mp.unread % MSG_BSIZE + buf.length ≤ MSG_BSIZE
  · obtain ⟨mp', hloop, hwrote⟩ :=
      logwrt_loop_fits hb hb.stands hroom (show buf.length < buf.length + 2 by omega)
    exact ⟨mp', by rw [hloop]; rfl, .inl ⟨hwrote, hroom⟩⟩
  · obtain ⟨mp', hloop, hwrote⟩ := logwrt_loop_fits hb.overrun overrun_stands
      (show 0 + buf.length ≤ MSG_BSIZE by omega) (show buf.length < buf.length + 1 by omega)
    refine ⟨mp', ?_, .inr ⟨hwrote, by omega⟩⟩
    have hwriter := (room_spec hb hb.stands hc).2.1
    have hnil : buf ≠ [] := List.ne_nil_of_length_pos (by omega)
    rw [logwrtLoop, if_neg hnil]
    dsimp only
    rw [if_pos (by omega), hloop]
    rfl

/-- A reader will find what it would have found and then the data, or an overrun is counted and it
will find an end of the data. -/
def Counted (mp : Log) (buf : List UInt8) (mp' : Log) : Prop :=
  mp'.sc_overrun = mp.sc_overrun ∧ mp'.pending = mp.pending ++ buf ∨
    mp'.sc_overrun = mp.sc_overrun + 1 ∧ mp'.pending <:+ buf

/-- The writer can tell the ring from an empty one, and so will the reader after the call. -/
def Distinguishable (mp : Log) (buf : List UInt8) : Prop :=
  buf = [] ∨ mp.unread < MSG_BSIZE ∧ (mp.msg_bufr = 0 ∨ mp.unread + buf.length ≠ MSG_BSIZE)

instance (mp : Log) (buf : List UInt8) : Decidable (mp.Distinguishable buf) :=
  inferInstanceAs (Decidable (_ ∨ _))

/-- Data that a reader does not find, without an overrun. -/
theorem not_counted {n : Nat} (hoverrun : mp'.sc_overrun = mp.sc_overrun) (hunread : mp'.unread = n)
    (hlt : n < mp.unread + buf.length) : ¬ Counted mp buf mp' := by
  intro h
  cases h with
  | inl h =>
      have hlen := congrArg List.length h.2
      rw [List.length_append, length_pending, length_pending] at hlen
      omega
  | inr h => omega

/-- Data that fit are lost when the ring is full or becomes full at a reader inside of it. -/
theorem Wrote.counted_iff (hwrote : Wrote mp (mp.unread % MSG_BSIZE) buf mp') (hb : mp.Bounded)
    (hbuf : buf ≠ []) (hroom : mp.unread % MSG_BSIZE + buf.length ≤ MSG_BSIZE) :
    Counted mp buf mp' ↔ mp.Distinguishable buf := by
  have hpos := List.length_pos_iff.mpr hbuf
  by_cases hlt : mp.unread < MSG_BSIZE
  · rw [Nat.mod_eq_of_lt hlt] at hwrote hroom
    by_cases hends : mp.msg_bufr = 0 ∨ mp.unread + buf.length < MSG_BSIZE
    · refine iff_of_true (.inl ⟨hwrote.sc_overrun, hwrote.pending hb hbuf hroom hends⟩) ?_
      exact .inr ⟨hlt, hends.imp_right (by omega)⟩
    · -- the reader takes the ring for empty
      have hunread := hwrote.unread hb hbuf hroom
      rw [if_neg hends] at hunread
      refine iff_of_false (not_counted hwrote.sc_overrun hunread (by omega)) fun h => ?_
      cases h with
      | inl hnil => exact hbuf hnil
      | inr h => omega
  · -- the writer took the ring for empty
    have hle := hwrote.bounded.unread_le
    refine iff_of_false (not_counted hwrote.sc_overrun rfl (by omega)) fun h => ?_
    cases h with
    | inl hnil => exact hbuf hnil
    | inr h => exact hlt h.1

/-- Data that do not fit are counted. -/
theorem Wrote.counted_of_overrun (hwrote : Wrote mp.overrun 0 buf mp') (hb : mp.Bounded)
    (hbuf : buf ≠ []) (hlen : buf.length ≤ MSG_BSIZE) : Counted mp buf mp' := by
  have hunread := hwrote.unread hb.overrun hbuf (by omega)
  have hread := hwrote.read
  rw [Nat.zero_add, circRead_zero, List.nil_append] at hread
  refine .inr ⟨hwrote.sc_overrun, ?_⟩
  rw [Log.pending, hunread, hwrote.bufr]
  split
  · refine ⟨[], ?_⟩
    rw [Nat.zero_add, hread, List.nil_append]
  · exact List.nil_suffix

/-- The writer counts what it throws away in these cases, and in no others. -/
theorem logwrt_counted_iff (hb : mp.Bounded) (hmagic : mp.msg_magic = MSG_MAGIC)
    (hlen : buf.length ≤ MSG_BSIZE) :
    ∃ mp', mp.logwrt buf = some (0, mp') ∧ mp'.Bounded ∧ mp'.msg_magic = MSG_MAGIC ∧
      (Counted mp buf mp' ↔ mp.Distinguishable buf) := by
  have hle := hb.unread_le
  have hmod : mp.unread % MSG_BSIZE < MSG_BSIZE := Nat.mod_lt _ (by decide)
  obtain ⟨mp', hwrt, hwrote⟩ := logwrt_wrote hb hmagic hlen
  refine ⟨mp', hwrt, ?_⟩
  by_cases hnil : buf = []
  · subst hnil
    cases hwrote with
    | inl hfits =>
        rw [hfits.1.still rfl]
        exact ⟨hb, hmagic, iff_of_true (.inl ⟨rfl, (List.append_nil _).symm⟩) (.inl rfl)⟩
    | inr hover =>
        have := hover.2
        rw [List.length_nil] at this
        omega
  cases hwrote with
  | inl hfits =>
      obtain ⟨hwrote, hroom⟩ := hfits
      exact ⟨hwrote.bounded, hwrote.magic.trans hmagic, hwrote.counted_iff hb hnil hroom⟩
  | inr hover =>
      obtain ⟨hwrote, hroom⟩ := hover
      refine ⟨hwrote.bounded, hwrote.magic.trans hmagic,
        iff_of_true (hwrote.counted_of_overrun hb hnil hlen) (.inr ?_)⟩
      have hlt : mp.unread < MSG_BSIZE := by
        by_contra hge
        rw [show mp.unread = MSG_BSIZE by omega, Nat.mod_self] at hroom
        omega
      rw [Nat.mod_eq_of_lt hlt] at hroom
      exact ⟨hlt, .inr (by omega)⟩

/-! ## Reading -/

/-- A reader that has moved `n` bytes. -/
theorem pending_advance {n : Nat} (hend : mp.msg_bufr + n ≤ MSG_BSIZE)
    (hle : n ≤ mp.unread) (hahead : mp.msg_bufr ≤ mp.msg_bufx → mp.msg_bufr + n ≤ mp.msg_bufx) :
    bytes mp.msg_bufc mp.msg_bufr n = mp.pending.take n ∧
      Log.pending { mp with msg_bufr := mp.msg_bufr + n } = mp.pending.drop n := by
  obtain ⟨rest, hrest⟩ := Nat.exists_eq_add_of_le hle
  have hunread : Log.unread { mp with msg_bufr := mp.msg_bufr + n } = rest := by
    unfold Log.unread at hrest ⊢
    dsimp only
    by_cases hbehind : mp.msg_bufr ≤ mp.msg_bufx
    · have := hahead hbehind
      rw [if_pos hbehind] at hrest
      rw [if_pos this]
      omega
    · rw [if_neg hbehind] at hrest
      rw [if_neg (by omega)]
      omega
  have hsplit : mp.pending = circRead MSG_BSIZE mp.msg_bufc mp.msg_bufr n ++
      circRead MSG_BSIZE mp.msg_bufc (mp.msg_bufr + n) rest := by
    rw [Log.pending, hrest, circRead_add]
  refine ⟨?_, ?_⟩
  · rw [hsplit, List.take_left' (circRead_length ..), bytes_eq_circRead _ hend]
  · rw [hsplit, List.drop_left' (circRead_length ..), Log.pending, hunread]

theorem pending_wrap (hr : mp.msg_bufr = MSG_BSIZE) (hx : mp.msg_bufx < MSG_BSIZE) :
    Log.pending { mp with msg_bufr := 0 } = mp.pending := by
  have hunread : Log.unread { mp with msg_bufr := 0 } = mp.unread := by
    unfold Log.unread
    dsimp only
    split <;> split <;> omega
  rw [Log.pending, hunread, Log.pending, hr]
  exact (circRead_congr_start _ _ (by rw [Nat.ModEq, Nat.mod_self, Nat.zero_mod])).symm

/-- `mp'` is `mp` after a reader has moved `n` bytes. -/
structure Moved (mp : Log) (n : Nat) (mp' : Log) : Prop where
  magic : mp'.msg_magic = mp.msg_magic
  sc_overrun : mp'.sc_overrun = mp.sc_overrun
  bounded : mp'.Bounded
  pending : mp'.pending = mp.pending.drop n

/-- The length of a transfer before it is cut down to what the user and the buffer take. -/
theorem transfer_spec (hb : mp.Bounded) (hne : (mp.msg_bufx : Int) - mp.msg_bufr ≠ 0)
    (hend : mp.msg_bufr ≠ MSG_BSIZE) {l : Int}
    (hl : (if (mp.msg_bufx : Int) - mp.msg_bufr < 0 then (MSG_BSIZE : Int) - mp.msg_bufr
      else mp.msg_bufx - mp.msg_bufr) = l) :
    0 < l ∧ l ≤ mp.unread ∧ mp.msg_bufr + l ≤ MSG_BSIZE ∧
      (mp.msg_bufr ≤ mp.msg_bufx → mp.msg_bufr + l ≤ mp.msg_bufx) := by
  have hx := hb.bufx
  have hr := hb.bufr
  unfold unread
  by_cases hneg : (mp.msg_bufx : Int) - mp.msg_bufr < 0
  · rw [if_pos hneg] at hl
    rw [if_neg (by omega)]
    omega
  · rw [if_neg hneg] at hl
    rw [if_pos (by omega)]
    omega

/-- A reader gets what it finds, up to its size. The induction is on the fuel: a turn moves at least
one byte, or goes round from the end of the ring. -/
theorem logread_loop_spec {fuel resid : Nat} (hb : mp.Bounded)
    (hfuel : 2 * resid + (if mp.msg_bufr = MSG_BSIZE then 1 else 0) < fuel) :
    ∃ mp', logreadLoop fuel mp resid = some (mp.pending.take resid, mp') ∧ Moved mp resid mp' := by
  induction fuel generalizing mp resid with
  | zero => omega
  | succ fuel ih =>
      have hx := hb.bufx
      have hr := hb.bufr
      rw [logreadLoop]
      by_cases hresid : resid = 0
      · subst hresid
        exact ⟨mp, by rw [if_pos rfl, List.take_zero], rfl, rfl, hb, rfl⟩
      rw [if_neg hresid]
      dsimp only
      by_cases heq : (mp.msg_bufx : Int) - mp.msg_bufr = 0
      · have hnil : mp.pending = [] :=
          List.eq_nil_of_length_eq_zero ((length_pending mp).trans (unread_eq_zero (by omega)))
        refine ⟨mp, by rw [if_pos heq, hnil, List.take_nil], rfl, rfl, hb, ?_⟩
        rw [hnil, List.drop_nil]
      rw [if_neg heq]
      by_cases hwrap : mp.msg_bufr = MSG_BSIZE
      · rw [if_pos (show (mp.msg_bufx : Int) - mp.msg_bufr < 0 by omega),
          if_pos (show (MSG_BSIZE : Int) - mp.msg_bufr = 0 by omega)]
        rw [if_pos hwrap] at hfuel
        have hb' : Bounded { mp with msg_bufr := 0 } := ⟨hx, Nat.zero_le _⟩
        have hfuel' : 2 * resid + (if 0 = MSG_BSIZE then 1 else 0) < fuel := by
          rw [if_neg (show ¬ 0 = MSG_BSIZE by decide)]
          omega
        obtain ⟨mp', hloop, hmoved⟩ := ih hb' hfuel'
        have hpending := pending_wrap hwrap (by omega)
        rw [hpending] at hloop
        exact ⟨mp', hloop, hmoved.magic, hmoved.sc_overrun, hmoved.bounded,
          hmoved.pending.trans (by rw [hpending])⟩
      · generalize hl : (if (mp.msg_bufx : Int) - mp.msg_bufr < 0 then (MSG_BSIZE : Int) - mp.msg_bufr
          else mp.msg_bufx - mp.msg_bufr) = l
        obtain ⟨hpos, hle, hend, hahead⟩ := transfer_spec hb heq hwrap hl
        have hbuf : 0 < BUFSIZE := by decide
        have hmin : ((min (min l resid) BUFSIZE).toNat : Int) = min (min l resid) BUFSIZE :=
          Int.toNat_of_nonneg (by omega)
        rw [if_neg (by omega), if_pos (by omega)]
        generalize (min (min l resid) BUFSIZE).toNat = n at *
        obtain ⟨hbytes, hpending⟩ := pending_advance (n := n) (show mp.msg_bufr + n ≤ MSG_BSIZE by omega)
          (by omega) fun h => by have := hahead h; omega
        have hb' : Bounded { mp with msg_bufr := mp.msg_bufr + n } :=
          ⟨hx, show mp.msg_bufr + n ≤ MSG_BSIZE by omega⟩
        have hfuel' : 2 * (resid - n) +
            (if mp.msg_bufr + n = MSG_BSIZE then 1 else 0) < fuel := by
          rw [if_neg hwrap] at hfuel
          split <;> omega
        obtain ⟨mp', hloop, hmoved⟩ := ih hb' hfuel'
        have hsum : n + (resid - n) = resid := by omega
        refine ⟨mp', ?_, hmoved.magic, hmoved.sc_overrun, hmoved.bounded, ?_⟩
        · rw [hloop]
          show some (_ ++ _, mp') = _
          rw [hbytes, hpending, ← List.take_add, hsum]
        · rw [hmoved.pending, hpending, List.drop_drop, hsum]

/-- A call of `logread` sleeps or fails on an empty ring, and else moves the bytes it finds. -/
theorem logread_spec (hb : mp.Bounded) (resid : Nat) (ndelay : Bool) :
    ∃ read mp', mp.logread resid ndelay = some (read, mp') ∧
      (read = .moved (mp.pending.take resid) ∧ Moved mp resid mp' ∨
        mp.pending = [] ∧ (∀ bytes, read ≠ .moved bytes) ∧ Moved mp 0 mp') := by
  unfold logread
  by_cases heq : mp.msg_bufr = mp.msg_bufx
  · have hnil : mp.pending = [] :=
      List.eq_nil_of_length_eq_zero ((length_pending mp).trans (unread_eq_zero heq))
    rw [if_pos heq]
    cases ndelay with
    | true => exact ⟨_, _, rfl, .inr ⟨hnil, fun _ => Read.noConfusion, rfl, rfl, hb, rfl⟩⟩
    | false =>
        exact ⟨_, _, rfl, .inr ⟨hnil, fun _ => Read.noConfusion, rfl, rfl, ⟨hb.bufx, hb.bufr⟩, rfl⟩⟩
  · rw [if_neg heq]
    have hb' : Bounded { mp with rdwait := false } := ⟨hb.bufx, hb.bufr⟩
    have hfuel : 2 * resid + (if mp.msg_bufr = MSG_BSIZE then 1 else 0) < 2 * resid + 2 := by
      split <;> omega
    obtain ⟨mp', hloop, hmoved⟩ := logread_loop_spec hb' hfuel
    exact ⟨_, mp', by rw [hloop]; rfl, .inl ⟨rfl, hmoved.magic, hmoved.sc_overrun, hmoved.bounded,
      hmoved.pending⟩⟩

end Log

/-! ## Runs -/

/-- The log, what has been written into it and read from it, and how much had been written at each
overrun. -/
structure Session where
  log : Log
  written : List UInt8
  got : List UInt8
  overruns : List Nat

inductive Call where
  | logwrt (buf : List UInt8)
  | logread (resid : Nat) (ndelay : Bool)

/-- The bytes a call of `logread` hands to the user. -/
def Log.Read.bytes : Log.Read → List UInt8
  | .sleep | .EWOULDBLOCK => []
  | .moved bytes => bytes

namespace Session

/-- The log after `loginit`. -/
def start (mp : Log) : Session := ⟨mp.loginit, [], [], []⟩

/-- One call, at `splhigh` from its first look at the ring to its last. -/
def call (s : Session) : Call → Option Session
  | .logwrt buf => do
      let (err, mp) ← s.log.logwrt buf
      return { s with
        log := mp
        written := if err = 0 then s.written ++ buf else s.written
        overruns :=
          if s.log.sc_overrun < mp.sc_overrun then s.overruns ++ [s.written.length] else s.overruns }
  | .logread resid ndelay => do
      let (read, mp) ← s.log.logread resid ndelay
      return { s with log := mp, got := s.got ++ read.bytes }

/-- A part of what was written: bytes that were read, and lost bytes before and after an overrun. -/
structure Part where
  read : List UInt8
  before : List UInt8
  after : List UInt8

def Part.written (part : Part) : List UInt8 := part.read ++ part.before ++ part.after

/-- Where the overruns of the parts stand. -/
def marks : Nat → List Part → List Nat
  | _, [] => []
  | pos, part :: parts =>
      (pos + part.read.length + part.before.length) :: marks (pos + part.written.length) parts

/-- The bytes read are the bytes written, in order, with gaps only at overruns. -/
def Explained (s : Session) : Prop :=
  ∃ parts : List Part, ∃ last,
    s.written = parts.flatMap Part.written ++ last ++ s.log.pending ∧
      s.got = parts.flatMap Part.read ++ last ∧ s.overruns = marks 0 parts

/-- A call of a run in which no `logwrt` takes a full ring for an empty one or leaves one that a
reader does. -/
def Told (s : Session) (c : Call) (s' : Session) : Prop :=
  s.call c = some s' ∧
    ∀ buf, c = .logwrt buf → buf.length ≤ MSG_BSIZE → s.log.Distinguishable buf

/-- What holds between calls. -/
structure Inv (s : Session) : Prop where
  magic : s.log.msg_magic = MSG_MAGIC
  bounded : s.log.Bounded
  explained : s.Explained

theorem marks_append (pos : Nat) (parts : List Part) (part : Part) :
    marks pos (parts ++ [part]) = marks pos parts ++
      [pos + (parts.flatMap Part.written).length + part.read.length + part.before.length] := by
  induction parts generalizing pos with
  | nil => rfl
  | cons p parts ih =>
      rw [List.cons_append, marks, ih, marks, List.flatMap_cons, List.length_append, List.cons_append,
        ← Nat.add_assoc]

theorem inv_start (mp : Log) : (start mp).Inv where
  magic := rfl
  bounded := ⟨Nat.zero_le _, Nat.zero_le _⟩
  explained := ⟨[], [], rfl, rfl, rfl⟩

variable {s s' : Session}

/-- A counted write lengthens the last part, or ends it with the bytes that are lost. -/
theorem explained_write {buf : List UInt8} {mp : Log} (h : s.Explained)
    (hc : Log.Counted s.log buf mp) :
    Explained { s with
      log := mp
      written := s.written ++ buf
      overruns :=
        if s.log.sc_overrun < mp.sc_overrun then s.overruns ++ [s.written.length]
        else s.overruns } := by
  obtain ⟨parts, last, hwritten, hgot, hoverruns⟩ := h
  cases hc with
  | inl hc =>
      obtain ⟨hsame, hpending⟩ := hc
      refine ⟨parts, last, ?_, hgot, ?_⟩
      · show s.written ++ buf = _ ++ mp.pending
        rw [hpending, hwritten, List.append_assoc _ s.log.pending]
      · show (if _ then _ else _) = _
        rw [if_neg (by omega), hoverruns]
  | inr hc =>
      obtain ⟨hcounted, lost, hbuf⟩ := hc
      refine ⟨parts ++ [⟨last, s.log.pending, lost⟩], [], ?_, ?_, ?_⟩
      · show s.written ++ buf = _ ++ mp.pending
        rw [hwritten, ← hbuf]
        simp [Part.written]
      · show s.got = _
        rw [hgot]
        simp
      · show (if _ then _ else _) = _
        rw [if_pos (by omega), marks_append, hoverruns, hwritten]
        simp [Nat.add_assoc]

theorem explained_read {n : Nat} {mp : Log} (h : s.Explained) (hm : Log.Moved s.log n mp) :
    Explained { s with log := mp, got := s.got ++ s.log.pending.take n } := by
  obtain ⟨parts, last, hwritten, hgot, hoverruns⟩ := h
  refine ⟨parts, last ++ s.log.pending.take n, ?_, ?_, hoverruns⟩
  · show s.written = _ ++ mp.pending
    rw [hm.pending, hwritten]
    simp
  · show s.got ++ _ = _
    rw [hgot, List.append_assoc]

theorem inv_write (h : s.Inv) (buf : List UInt8) :
    ∃ s', s.call (.logwrt buf) = some s' ∧
      ((buf.length ≤ MSG_BSIZE → s.log.Distinguishable buf) → s'.Inv) := by
  by_cases hlen : buf.length ≤ MSG_BSIZE
  · obtain ⟨mp, hwrt, hb, hmagic, hiff⟩ := Log.logwrt_counted_iff h.bounded h.magic hlen
    refine ⟨_, by rw [call, hwrt]; rfl, fun hd => ⟨hmagic, hb, ?_⟩⟩
    exact explained_write h.explained (hiff.mpr (hd hlen))
  · have hrefused : s.log.logwrt buf = some (-1, s.log) := if_pos (.inr (by omega))
    refine ⟨s, ?_, fun _ => h⟩
    rw [call, hrefused]
    show some _ = some s
    simp

theorem inv_read (h : s.Inv) (resid : Nat) (ndelay : Bool) :
    ∃ s', s.call (.logread resid ndelay) = some s' ∧ s'.Inv := by
  obtain ⟨read, mp, hread, hcases⟩ := Log.logread_spec h.bounded resid ndelay
  refine ⟨_, by rw [call, hread]; rfl, ?_⟩
  cases hcases with
  | inl hmoved =>
      obtain ⟨rfl, hm⟩ := hmoved
      exact ⟨hm.magic.trans h.magic, hm.bounded, explained_read h.explained hm⟩
  | inr hempty =>
      obtain ⟨-, hnone, hm⟩ := hempty
      refine ⟨hm.magic.trans h.magic, hm.bounded, ?_⟩
      have hnil : read.bytes = [] := by
        cases read with
        | sleep => rfl
        | EWOULDBLOCK => rfl
        | moved bytes => exact absurd rfl (hnone bytes)
      have he := explained_read h.explained hm
      rwa [List.take_zero, ← hnil] at he

theorem inv_call (h : s.Inv) (c : Call) (hcall : s.Told c s') : s'.Inv := by
  obtain ⟨hcall, hd⟩ := hcall
  cases c with
  | logwrt buf =>
      obtain ⟨t, ht, hinv⟩ := inv_write h buf
      obtain rfl := Option.some.inj (ht.symm.trans hcall)
      exact hinv (hd buf rfl)
  | logread resid ndelay =>
      obtain ⟨t, ht, hinv⟩ := inv_read h resid ndelay
      obtain rfl := Option.some.inj (ht.symm.trans hcall)
      exact hinv

/-- In every run in which each `logwrt` finds a ring it can tell from an empty one, and does not fill
it up to a reader inside of it, the readers get what was written with gaps only at overruns, the
indices stay in the ring, `FIONREAD` is right and every call ends. In a state of such a run these are
the calls that lose nothing without counting it. -/
theorem klog_explained (mp : Log) {calls : List Call} (hrun : Steps Told (start mp) calls s) :
    s.Explained ∧ s.log.Bounded ∧ s.log.fionread = s.log.pending.length ∧
      (∀ c, (s.call c).isSome) ∧
      ∀ buf, buf.length ≤ MSG_BSIZE → ∃ mp', s.log.logwrt buf = some (0, mp') ∧
        (Log.Counted s.log buf mp' ↔ s.log.Distinguishable buf) := by
  have h : s.Inv := hrun.invariant Inv (fun _ c _ h hcall => inv_call h c hcall) (inv_start mp)
  refine ⟨h.explained, h.bounded, ?_, ?_, ?_⟩
  · rw [Log.length_pending, h.bounded.fionread]
  · intro c
    cases c with
    | logwrt buf =>
        obtain ⟨t, ht, -⟩ := inv_write h buf
        exact Option.isSome_iff_exists.mpr ⟨t, ht⟩
    | logread resid ndelay =>
        obtain ⟨t, ht, -⟩ := inv_read h resid ndelay
        exact Option.isSome_iff_exists.mpr ⟨t, ht⟩
  · intro buf hlen
    obtain ⟨mp', hwrt, -, -, hiff⟩ := Log.logwrt_counted_iff h.bounded h.magic hlen
    exact ⟨mp', hwrt, hiff⟩

/-- A log of zero bytes. -/
def blank : Log := ⟨0, 0, 0, fun _ => 0, 0, false⟩

theorem klog_explained_two :
    ∃ s, Steps Told (start blank) [.logwrt [1, 2], .logread 1 true] s ∧
      s.Explained ∧ s.log.Bounded ∧ s.log.fionread = s.log.pending.length := by
  obtain ⟨s₁, h₁, -⟩ := inv_write (inv_start blank) [1, 2]
  have hfirst : Told (start blank) (.logwrt [1, 2]) s₁ := by
    refine ⟨h₁, fun buf h _ => ?_⟩
    cases h
    decide
  obtain ⟨s₂, h₂, -⟩ := inv_read (inv_call (inv_start blank) _ hfirst) 1 true
  have hrun : Steps Told (start blank) [.logwrt [1, 2], .logread 1 true] s₂ :=
    .cons hfirst (.cons ⟨h₂, fun _ h => Call.noConfusion h⟩ (.refl _))
  have h := klog_explained blank hrun
  exact ⟨s₂, hrun, h.1, h.2.1, h.2.2.1⟩

/-- Without overruns nothing may be missing. -/
theorem not_explained (hnone : s.overruns = [])
    (hlost : s.got.length + s.log.unread < s.written.length) : ¬ s.Explained := by
  intro h
  obtain ⟨parts, last, hwritten, hgot, hoverruns⟩ := h
  cases parts with
  | nil =>
      rw [hwritten, hgot] at hlost
      simp at hlost
  | cons part parts =>
      rw [hnone] at hoverruns
      exact absurd hoverruns.symm (List.cons_ne_nil _ _)

/-- A byte written into a full ring replaces all that is in it; and a write that fills the ring up to
a reader behind its first byte leaves an empty one. No overrun is counted. -/
theorem klog_lost :
    (∃ s, [Call.logwrt (List.replicate 2048 0), .logwrt [1]].foldlM call (start blank) = some s ∧
        ¬ s.Explained) ∧
      ∃ s, [Call.logwrt [1], .logread 1 true, .logwrt (List.replicate 2048 0)].foldlM call
          (start blank) = some s ∧ ¬ s.Explained := by
  have hfull : ([Call.logwrt (List.replicate 2048 0), .logwrt [1]].foldlM call
      (start blank)).any (fun s => s.overruns = [] ∧
        s.got.length + s.log.unread < s.written.length) := by decide +kernel
  have hinside : ([Call.logwrt [1], .logread 1 true, .logwrt (List.replicate 2048 0)].foldlM call
      (start blank)).any (fun s => s.overruns = [] ∧
        s.got.length + s.log.unread < s.written.length) := by decide +kernel
  obtain ⟨s, hs, hd⟩ := Option.any_eq_true _ _ |>.mp hfull
  obtain ⟨t, ht, he⟩ := Option.any_eq_true _ _ |>.mp hinside
  have hd := of_decide_eq_true hd
  have he := of_decide_eq_true he
  exact ⟨⟨s, hs, not_explained hd.1 hd.2⟩, t, ht, not_explained he.1 he.2⟩

end Session

end DiscoBsd.Klog
