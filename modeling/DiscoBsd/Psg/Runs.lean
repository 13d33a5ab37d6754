import DiscoBsd.Psg.Sound

/-!
# Runs of the PSG driver

Each event keeps the invariant, whatever the stream. A stream that ends within a command is another
matter: the driver waits for the rest and never stops. `psg_coherent` is about whole runs in which the
device is closed behind a complete command.
-/

namespace DiscoBsd.Psg

open Kern Lib

variable {d d' : Driver} {m m' : Machine} {regs₀ : List Write} {f : Fill}

/-- The commands that were carried out are the first ones of the stream, each at the first tick at which
it was there and its time had come; the words that are not in them are in the queue. -/
structure Coherent (regs₀ : List Write) (m : Machine) : Prop where
  words : (m.played.flatMap fun e => e.command.words) ++ m.driver.queue = m.stream
  order : commands m.stream = m.played.map Entry.command ++ commands m.driver.queue
  times : ∀ i e, m.played[i]? = some e →
    (startOf Command.ms (commands m.stream) i : Int) ≤ e.clock ∧
      (i < e.ready → e.last < (startOf Command.ms (commands m.stream) i : Int))
  regs : m.driver.regs = regs₀ ++ openWrites ++ (m.played.flatMap fun e => e.command.writes) ++
    if m.driver.psg_active then [] else stopWrites

/-- The words that a writer has stored are behind the head of the queue. -/
structure Filling (d : Driver) (f : Fill) : Prop where
  stored : f.stored ≤ f.buf.length
  room : d.psg_count + f.buf.length < PSG_QSIZE
  ring : circRead PSG_QSIZE d.psg_q d.psg_head f.stored = f.buf.take f.stored

/-- What holds between any two events. -/
structure Sound (regs₀ : List Write) (m : Machine) : Prop where
  coherent : Coherent regs₀ m
  indexed : Indexed m.driver
  wellFormed : ∀ e ∈ m.played, e.command.WellFormed
  wait : m.driver.psg_active = true →
    m.driver.psg_wait = (m.played.map fun e => e.command.ms).sum - m.clock
  bound : m.driver.psg_wait < 2 ^ 15
  caught : m.played.length < m.ready → m.last < (m.played.map fun e => e.command.ms).sum
  idle : m.driver.psg_active = false → m.driver.queue = [] ∧ m.driver.psg_wait = 0 ∧
    m.driver.psg_open = false
  held : m.driver.psg_open = false → m.waiting = [] ∧ m.filling = none
  closed : m.driver.psg_open = false → Complete m.stream
  filling : ∀ f, m.filling = some f → Filling m.driver f

theorem sound_start (tm3 : UInt16) (d : Driver) : Sound d.regs (start tm3 d) := by
  have hpos : 0 < PSG_QSIZE := by decide
  have hcount : (start tm3 d).driver.psg_count = 0 := Nat.mod_self PSG_QSIZE
  have hqueue : (start tm3 d).driver.queue = [] := queue_nil hcount
  refine ⟨⟨?_, ?_, fun i e he => ?_, ?_⟩, ⟨hpos, hpos⟩, fun e he => absurd he List.not_mem_nil, fun _ => rfl,
    Int.pow_pos (by decide), fun h => absurd h (Nat.not_lt_zero _), fun h => ?_, fun h => ?_, fun h => ?_, fun f hf => ?_⟩
  · rw [hqueue]
    rfl
  · rw [hqueue]
    rfl
  · cases he
  · show d.regs ++ openWrites = d.regs ++ openWrites ++ [] ++ []
    rw [List.append_nil, List.append_nil]
  · cases h
  · cases h
  · cases h
  · cases hf

/-! ## The interrupt -/

theorem Command.ms_lt (c : Command) : c.ms < 2 ^ 15 := by
  cases c with
  | one w =>
      have hmask : (w &&& 0x7fff).toNat < 2 ^ 15 := by
        rw [UInt16.toNat_and]
        exact Nat.lt_of_le_of_lt Nat.and_le_right (by decide)
      unfold Command.ms
      dsimp only
      split
      · exact hmask
      · decide
  | two w v => exact Nat.two_pow_pos 15

/-- A command waits for no more than its milliseconds. -/
theorem Plays.bound {wait wait' : Int} {ws rest : List UInt16} {cmds : List Command}
    (h : Plays wait ws cmds wait' rest) (hwait : wait < 2 ^ 15) : wait' < 2 ^ 15 := by
  rw [h.waits]
  rcases List.eq_nil_or_concat' cmds with rfl | ⟨init, c, rfl⟩
  · rw [List.map_nil, List.sum_nil]
    omega
  · have hdue := h.due init.length (by rw [List.length_append]; exact Nat.lt_succ_self _)
    have hms := c.ms_lt
    rw [startOf_append_left _ (Nat.le_refl _), startOf_length] at hdue
    rw [List.map_append, List.sum_append, List.map_singleton, List.sum_singleton]
    omega

theorem map_command (cmds : List Command) (clock last : Int) (ready : Nat) :
    (cmds.map fun c => (⟨c, clock, last, ready⟩ : Entry)).map Entry.command = cmds := by
  rw [List.map_map]
  exact List.map_id cmds

theorem Filling.open (h : Sound regs₀ m) (hf : m.filling = some f) : m.driver.psg_open = true := by
  cases hopen : m.driver.psg_open with
  | true => rfl
  | false =>
      rw [(h.held hopen).2] at hf
      cases hf

/-- The commands of a tick, with its times. -/
theorem Sound.entries {now : UInt16} {t : Tick} (h : Sound regs₀ m) (hactive : m.driver.psg_active = true)
    (ht : Ticked now m.driver t) (i : Nat) (e : Entry)
    (he : (m.played ++ t.played.map fun c =>
      (⟨c, m.clock + elapsed now m.driver, m.last, m.ready⟩ : Entry))[i]? = some e) :
    (startOf Command.ms (commands m.stream) i : Int) ≤ e.clock ∧
      (i < e.ready → e.last < (startOf Command.ms (commands m.stream) i : Int)) := by
  rcases Nat.lt_or_ge i m.played.length with hlt | hge
  · rw [List.getElem?_append_left hlt] at he
    exact h.coherent.times i e he
  · obtain ⟨j, rfl⟩ := Nat.exists_eq_add_of_le hge
    rw [List.getElem?_append_right hge, Nat.add_sub_cancel_left, List.getElem?_map] at he
    obtain ⟨c, hc, rfl⟩ := Option.map_eq_some_iff.mp he
    obtain ⟨w, hplays, -⟩ := ht.plays
    have hj := List.getElem?_eq_some_iff.mp hc
    obtain ⟨hj, -⟩ := hj
    have hdue := hplays.due j hj
    have hstart : startOf Command.ms (commands m.stream) (m.played.length + j) =
        (m.played.map fun e => e.command.ms).sum + startOf Command.ms t.played j := by
      rw [h.coherent.order, ← hplays.split, commands_append hplays.wellFormed]
      have hlength : m.played.length = (m.played.map Entry.command).length := (List.length_map ..).symm
      rw [hlength, startOf_append_right, startOf_append_left _ (Nat.le_of_lt hj), startOf_length,
        List.map_map]
      rfl
    rw [hstart]
    have hwait := h.wait hactive
    refine ⟨?_, fun hready => ?_⟩
    · show _ ≤ m.clock + _
      omega
    · have hcaught := h.caught (Nat.lt_of_le_of_lt (Nat.le_add_right _ j) hready)
      show m.last < _
      omega

theorem Sound.tick (h : Sound regs₀ m) (now : UInt16) (hfits : Fits now m.driver) :
    Sound regs₀ (m.tick now) := by
  unfold Machine.tick
  split
  · exact h
  · next hne =>
      have hactive : m.driver.psg_active = true := by simpa using hne
      have ht := psg_tick_ticked h.indexed hactive hfits (Int.lt_trans h.bound (by decide))
      have hclock : ((m.elapsed + elapsed now m.driver : Nat) : Int) - m.dry =
          m.clock + elapsed now m.driver := by
        unfold Machine.clock
        omega
      dsimp only
      rw [hclock]
      generalize psg_tick now m.driver = t at ht ⊢
      have hentries := h.entries hactive ht
      obtain ⟨w, hplays, hwait⟩ := ht.plays
      have hold := h.wait hactive
      have hms : ((m.played ++ t.played.map fun c => (⟨c, m.clock + elapsed now m.driver, m.last,
          m.ready⟩ : Entry)).map fun e => e.command.ms).sum =
          (m.played.map fun e => e.command.ms).sum + (t.played.map Command.ms).sum := by
        rw [List.map_append, List.sum_append, List.map_map]
        rfl
      have hcommands := commands_append hplays.wellFormed t.driver.queue
      rw [hplays.split] at hcommands
      have hregs : m.driver.regs = regs₀ ++ openWrites ++ (m.played.flatMap fun e => e.command.writes) := by
        rw [h.coherent.regs, if_pos hactive, List.append_nil]
      refine ⟨⟨?_, ?_, hentries, ?_⟩, ht.indexed, ?_, fun hon => ?_, ?_, fun hless => ?_, ht.idle,
        fun hclosed => h.held (ht.opened.symm.trans hclosed),
        fun hclosed => h.closed (ht.opened.symm.trans hclosed), fun f hf => ?_⟩
      · show List.flatMap _ (_ ++ _) ++ t.driver.queue = m.stream
        rw [List.flatMap_append, List.flatMap_map, List.append_assoc]
        exact (congrArg (_ ++ ·) hplays.split).trans h.coherent.words
      · show commands m.stream = List.map _ (_ ++ _) ++ commands t.driver.queue
        rw [List.map_append, map_command, List.append_assoc, ← hcommands]
        exact h.coherent.order
      · show t.driver.regs = _ ++ List.flatMap _ (_ ++ _) ++ _
        rw [ht.regs, hregs, List.flatMap_append, List.flatMap_map]
        simp only [List.append_assoc]
      · intro e he
        rcases List.mem_append.mp he with hin | hin
        · exact h.wellFormed e hin
        · obtain ⟨c, hc, rfl⟩ := List.mem_map.mp hin
          exact hplays.wellFormed c hc
      · show t.driver.psg_wait = _
        rw [hms, hwait, hplays.waits, hold]
        unfold Machine.clock
        push_cast
        omega
      · show t.driver.psg_wait < 2 ^ 15
        have hbound := h.bound
        have hw := hplays.bound (by omega)
        rcases ht.dry with hdry | ⟨-, hzero⟩
        · omega
        · omega
      · show m.clock + _ < _
        have hqueue : commands t.driver.queue ≠ [] := by
          intro hnil
          have horder := h.coherent.order
          rw [hcommands, hnil, List.append_nil] at horder
          have hlength := congrArg List.length horder
          rw [List.length_append, List.length_map] at hlength
          change (m.played ++ List.map _ t.played).length < (commands m.stream).length at hless
          rw [List.length_append, List.length_map] at hless
          omega
        have hpos := hplays.stopped.resolve_right hqueue
        rw [hms]
        rw [hplays.waits, hold] at hpos
        omega
      · have hfilling := h.filling f hf
        have hopen := Filling.open h hf
        refine ⟨hfilling.stored, Nat.lt_of_le_of_lt (Nat.add_le_add_right ht.count _) hfilling.room, ?_⟩
        show circRead PSG_QSIZE t.driver.psg_q t.driver.psg_head f.stored = _
        rw [ht.ring, ht.head hopen, hfilling.ring]

/-! ## Writers -/

theorem Indexed.head_eq (h : Indexed d) : d.psg_head = (d.psg_tail + d.psg_count) % PSG_QSIZE := by
  obtain ⟨hhead, htail⟩ := h
  unfold Driver.psg_count
  unfold PSG_QSIZE at *
  omega

theorem ring_ne {start i j : Nat} (hlt : i < j) (hj : j < PSG_QSIZE) :
    (start + i) % PSG_QSIZE ≠ (start + j) % PSG_QSIZE := by
  unfold PSG_QSIZE at *
  omega

/-- The next word is stored behind the others, and not into the queue. -/
theorem Filling.store {w : UInt16} (h : Filling d f) (hd : Indexed d) (hw : f.buf[f.stored]? = some w) :
    ({ d with psg_q := Function.update d.psg_q ((d.psg_head + f.stored) % PSG_QSIZE) w } :
        Driver).queue = d.queue ∧
      Filling { d with psg_q := Function.update d.psg_q ((d.psg_head + f.stored) % PSG_QSIZE) w }
        { f with stored := f.stored + 1 } := by
  obtain ⟨hlt, rfl⟩ := List.getElem?_eq_some_iff.mp hw
  have hroom := h.room
  refine ⟨circRead_congr fun i hi => Function.update_of_ne ?_ _ _, ⟨hlt, hroom, ?_⟩⟩
  · change i < d.psg_count at hi
    show (d.psg_tail + i) % PSG_QSIZE ≠ _
    rw [hd.head_eq, Nat.mod_add_mod, Nat.add_assoc]
    exact ring_ne (by omega) (by omega)
  · show circRead PSG_QSIZE (Function.update d.psg_q _ _) d.psg_head (f.stored + 1) =
      f.buf.take (f.stored + 1)
    rw [circRead_add, List.take_add_one, hw, ← h.ring]
    congr 1
    · exact circRead_congr fun i hi => Function.update_of_ne (ring_ne hi (by omega)) _ _
    · rw [circRead_succ, circRead_zero, Function.update_self]
      rfl

/-- The words that were stored are in the queue behind the others. -/
theorem Filling.commit (h : Filling d f) (hd : Indexed d) (hall : f.stored = f.buf.length) :
    ({ d with psg_head := (d.psg_head + f.buf.length) % PSG_QSIZE } : Driver).queue = d.queue ++ f.buf := by
  have hroom := h.room
  have hring := h.ring
  rw [hall, List.take_length, hd.head_eq, circRead_mod] at hring
  have hcount : ({ d with psg_head := (d.psg_head + f.buf.length) % PSG_QSIZE } : Driver).psg_count =
      d.psg_count + f.buf.length := by
    obtain ⟨hhead, htail⟩ := hd
    unfold Driver.psg_count at *
    unfold PSG_QSIZE at *
    dsimp only
    omega
  unfold Driver.queue
  rw [hcount]
  show circRead PSG_QSIZE d.psg_q d.psg_tail (d.psg_count + f.buf.length) = _
  rw [circRead_add, hring]

theorem Sound.active (h : Sound regs₀ m) (hopen : m.driver.psg_open = true) :
    m.driver.psg_active = true := by
  cases hactive : m.driver.psg_active with
  | true => rfl
  | false => exact absurd (hopen.symm.trans (h.idle hactive).2.2) (by decide)

theorem Sound.store {w : UInt16} (h : Sound regs₀ m) (hf : m.filling = some f)
    (hw : f.buf[f.stored]? = some w) : Sound regs₀ (m.store f w) := by
  obtain ⟨hqueue, hfilling⟩ := (h.filling f hf).store h.indexed hw
  have hopen := Filling.open h hf
  obtain ⟨hwords, horder, htimes, hregs⟩ := h.coherent
  rw [← hqueue] at hwords horder
  refine ⟨⟨hwords, horder, htimes, hregs⟩, ⟨h.indexed.head, h.indexed.tail⟩, h.wellFormed, h.wait, h.bound,
    h.caught, fun hoff => ?_, fun hclosed => ?_, h.closed, fun f' hf' => ?_⟩
  · exact absurd (hoff.symm.trans (h.active hopen)) (by decide)
  · exact absurd (hclosed.symm.trans hopen) (by decide)
  · obtain rfl := Option.some.inj hf'
    exact hfilling

/-- The time of a command that was carried out does not change when words are added. -/
theorem Sound.startOf_played (h : Sound regs₀ m) (ws : List UInt16) {i : Nat} (hi : i < m.played.length) :
    startOf Command.ms (commands (m.stream ++ ws)) i = startOf Command.ms (commands m.stream) i := by
  have hlength : i ≤ (m.played.map Entry.command).length := by
    rw [List.length_map]
    exact Nat.le_of_lt hi
  have hwords : m.stream ++ ws = (m.played.map Entry.command).flatMap Command.words ++
      (m.driver.queue ++ ws) := by
    rw [← h.coherent.words, List.append_assoc, List.flatMap_map]
  have hwell : ∀ c ∈ m.played.map Entry.command, c.WellFormed := by
    intro c hc
    obtain ⟨e, he, rfl⟩ := List.mem_map.mp hc
    exact h.wellFormed e he
  rw [hwords, commands_append hwell, startOf_append_left _ hlength, h.coherent.order,
    startOf_append_left _ hlength]

theorem Sound.commit (h : Sound regs₀ m) (hf : m.filling = some f) (hall : f.stored = f.buf.length) :
    Sound regs₀ (m.commit f) := by
  have hqueue : (m.commit f).driver.queue = m.driver.queue ++ f.buf :=
    (h.filling f hf).commit h.indexed hall
  have hopen := Filling.open h hf
  have hwell : ∀ c ∈ m.played.map Entry.command, c.WellFormed := by
    intro c hc
    obtain ⟨e, he, rfl⟩ := List.mem_map.mp hc
    exact h.wellFormed e he
  refine ⟨⟨?_, ?_, fun i e he => ?_, h.coherent.regs⟩, ⟨Nat.mod_lt _ (by decide), h.indexed.tail⟩,
    h.wellFormed, h.wait, h.bound, h.caught, fun hoff => ?_, fun hclosed => ?_, fun hclosed => ?_, fun f' hf' => ?_⟩
  · show _ = m.stream ++ f.buf
    rw [hqueue, ← h.coherent.words, List.append_assoc]
    rfl
  · show commands (m.stream ++ f.buf) = _
    have hcommands := commands_append hwell (m.driver.queue ++ f.buf)
    rw [List.flatMap_map, ← List.append_assoc] at hcommands
    rw [hqueue, ← h.coherent.words]
    exact hcommands
  · have hlt : i < m.played.length := (List.getElem?_eq_some_iff.mp he).1
    show (startOf Command.ms (commands (m.stream ++ f.buf)) i : Int) ≤ e.clock ∧
      (i < e.ready → e.last < (startOf Command.ms (commands (m.stream ++ f.buf)) i : Int))
    rw [h.startOf_played f.buf hlt]
    exact h.coherent.times i e he
  · exact absurd (hoff.symm.trans (h.active hopen)) (by decide)
  · exact absurd (hclosed.symm.trans hopen) (by decide)
  · exact absurd (hclosed.symm.trans hopen) (by decide)
  · cases hf'

theorem Sound.waits (h : Sound regs₀ m) {waiting : List (List (List UInt8))}
    (hheld : m.driver.psg_open = false → waiting = []) : Sound regs₀ { m with waiting := waiting } :=
  ⟨⟨h.coherent.words, h.coherent.order, h.coherent.times, h.coherent.regs⟩, h.indexed, h.wellFormed, h.wait,
    h.bound, h.caught, h.idle, fun hclosed => ⟨hheld hclosed, (h.held hclosed).2⟩, h.closed, h.filling⟩

theorem halfwords_length (bytes : List UInt8) : (halfwords bytes).length = bytes.length / 2 := by
  fun_induction halfwords bytes with
  | case1 lo hi bytes ih =>
      rw [List.length_cons, List.length_cons, List.length_cons, ih]
      omega
  | case2 bytes hshort =>
      match bytes, hshort with
      | [], _ => rfl
      | [_], _ => exact (Nat.div_eq_of_lt (Nat.lt_succ_self 1)).symm
      | lo :: hi :: rest, hshort => exact absurd rfl (hshort lo hi rest)

theorem Sound.take {i : Nat} {uio : List (List UInt8)} (h : Sound regs₀ m)
    (hi : m.waiting[i]? = some uio) : Sound regs₀ (m.take i uio) := by
  have hopen : m.driver.psg_open = true := by
    cases hopen : m.driver.psg_open with
    | true => rfl
    | false =>
        rw [(h.held hopen).1] at hi
        cases hi
  have hheld : m.driver.psg_open = false → m.waiting.eraseIdx i = [] := fun hclosed =>
    absurd (hclosed.symm.trans hopen) (by decide)
  unfold Machine.take
  split
  · exact h.waits hheld
  · split
    · exact h
    · next hroom =>
        have hwaits := h.waits hheld
        refine ⟨⟨hwaits.coherent.words, hwaits.coherent.order, hwaits.coherent.times, hwaits.coherent.regs⟩,
          h.indexed, h.wellFormed, h.wait, h.bound, h.caught, h.idle, fun hclosed => ?_, h.closed,
          fun f hf => ?_⟩
        · exact absurd (hclosed.symm.trans hopen) (by decide)
        · obtain rfl := Option.some.inj hf
          refine ⟨Nat.zero_le _, ?_, rfl⟩
          show m.driver.psg_count + (halfwords _).length < PSG_QSIZE
          rw [halfwords_length, (uiomove_spec _ _).2]
          unfold PSG_QMASK PSG_QSIZE BUF at *
          omega

/-! ## Closing -/

theorem Sound.close (h : Sound regs₀ m) (hopen : m.driver.psg_open = true) (hfree : m.filling = none)
    (hwaiting : m.waiting = []) (hcomplete : Complete m.stream) :
    Sound regs₀ { m with driver := psgclose m.driver } := by
  have hactive := h.active hopen
  have hregs : m.driver.regs = regs₀ ++ openWrites ++ (m.played.flatMap fun e => e.command.writes) := by
    rw [h.coherent.regs, if_pos hactive, List.append_nil]
  unfold psgclose
  dsimp only
  split
  · next hend =>
      have hpos : 0 < PSG_QSIZE := by decide
      have hqueue : m.driver.queue = [] := queue_nil hend.1
      have hqueue' : (psg_stop { m.driver with psg_open := false }).queue = [] := queue_nil (count_stop _)
      obtain ⟨hwords, horder, htimes, -⟩ := h.coherent
      rw [hqueue, ← hqueue'] at hwords horder
      refine ⟨⟨hwords, horder, htimes, ?_⟩, ⟨hpos, hpos⟩, h.wellFormed, fun hon => ?_, ?_, h.caught,
        fun _ => ⟨hqueue', rfl, rfl⟩, fun _ => ⟨hwaiting, hfree⟩, fun _ => hcomplete, fun f hf => ?_⟩
      · exact congrArg (· ++ stopWrites) hregs
      · cases hon
      · exact Int.pow_pos (by decide)
      · rw [hfree] at hf
        cases hf
  · refine ⟨⟨h.coherent.words, h.coherent.order, h.coherent.times, h.coherent.regs⟩,
      ⟨h.indexed.head, h.indexed.tail⟩, h.wellFormed, h.wait, h.bound, h.caught, fun hoff => ?_,
      fun _ => ⟨hwaiting, hfree⟩, fun _ => hcomplete, fun f hf => ?_⟩
    · exact absurd (hoff.symm.trans hactive) (by decide)
    · rw [hfree] at hf
      cases hf

/-! ## Runs -/

/-- The steps that the driver is made for: no tick comes so late that the wait is no `int`, and the
device is closed behind a complete command. -/
def Allowed (m : Machine) : Event → Prop
  | .tick now => Fits now m.driver
  | .close => Complete m.stream
  | _ => True

/-- A step that the driver is made for. -/
def AllowedStep (m : Machine) (e : Event) (m' : Machine) : Prop := Allowed m e ∧ step m e = some m'

theorem Sound.step {e : Event} (h : Sound regs₀ m) (hstep : AllowedStep m e m') : Sound regs₀ m' := by
  obtain ⟨hallowed, hstep⟩ := hstep
  cases e with
  | tick now =>
      obtain rfl := Option.some.inj hstep
      exact h.tick now hallowed
  | write uio =>
      dsimp only [Psg.step] at hstep
      split at hstep
      · cases hstep
      · next hready =>
          split at hstep
          · obtain rfl := Option.some.inj hstep
            exact h
          · obtain rfl := Option.some.inj hstep
            exact h.waits fun hclosed => absurd (.inl hclosed) hready
  | take i =>
      dsimp only [Psg.step] at hstep
      split at hstep
      · cases hstep
      · obtain ⟨uio, hi, rfl⟩ := Option.map_eq_some_iff.mp hstep
        exact h.take hi
  | store =>
      obtain ⟨f, hf, hstep⟩ := Option.bind_eq_some_iff.mp hstep
      obtain ⟨w, hw, rfl⟩ := Option.map_eq_some_iff.mp hstep
      exact h.store hf hw
  | commit =>
      obtain ⟨f, hf, hstep⟩ := Option.bind_eq_some_iff.mp hstep
      split at hstep
      · next hall =>
          obtain rfl := Option.some.inj hstep
          exact h.commit hf hall
      · cases hstep
  | giveUp i =>
      obtain rfl := Option.some.inj hstep
      refine h.waits fun hclosed => ?_
      rw [(h.held hclosed).1]
      rfl
  | close =>
      dsimp only [Psg.step] at hstep
      split at hstep
      · next hready =>
          obtain rfl := Option.some.inj hstep
          exact h.close hready.1 (Option.isNone_iff_eq_none.mp hready.2.1)
            (List.isEmpty_iff.mp hready.2.2) hallowed
      · cases hstep

theorem sound_run {events : List Event} {tm3 : UInt16}
    (hrun : Steps AllowedStep (start tm3 d) events m) : Sound d.regs m :=
  hrun.invariant (Sound d.regs) (fun _ _ _ h hstep => h.step hstep) (sound_start tm3 d)

/-! ## The end of a stream -/

/-- The milliseconds that are left of a stream. -/
def Machine.remaining (m : Machine) : Int :=
  m.driver.psg_wait + ((commands m.driver.queue).map Command.ms).sum

theorem Sound.complete_queue (h : Sound regs₀ m) (hcomplete : Complete m.stream) :
    Complete m.driver.queue := by
  unfold Complete at hcomplete ⊢
  rw [h.coherent.order, List.flatMap_append, ← h.coherent.words, List.flatMap_map] at hcomplete
  exact List.append_cancel_left hcomplete

theorem tick_inactive (now : UInt16) (hoff : m.driver.psg_active = false) : m.tick now = m :=
  if_pos hoff

/-- After a tick a complete stream has come to its end, or its time has not come yet. -/
theorem Sound.tick_remaining (h : Sound regs₀ m) (hactive : m.driver.psg_active = true)
    (hcomplete : Complete m.stream) (now : UInt16) (hfits : Fits now m.driver) :
    ((m.tick now).remaining ≤ m.remaining - elapsed now m.driver ∨ (m.tick now).remaining ≤ 0) ∧
      (0 < (m.tick now).remaining ∨ (m.tick now).driver.drained ∧
        (m.driver.psg_open = false → (m.tick now).driver.psg_active = false)) ∧
      (m.tick now).driver.psg_tm3 = now ∧ (m.tick now).driver.psg_open = m.driver.psg_open ∧
      (m.tick now).stream = m.stream := by
  have hnext := h.tick now hfits
  have hne : ¬ m.driver.psg_active = false := by
    rw [hactive]
    decide
  have ht := psg_tick_ticked h.indexed hactive hfits (Int.lt_trans h.bound (by decide))
  have hdriver : (m.tick now).driver = (psg_tick now m.driver).driver := by
    unfold Machine.tick
    rw [if_neg hne]
  have hstream : (m.tick now).stream = m.stream := by
    unfold Machine.tick
    rw [if_neg hne]
  have hqueue := hnext.complete_queue (by rw [hstream]; exact hcomplete)
  unfold Machine.remaining
  rw [hdriver] at hqueue ⊢
  generalize psg_tick now m.driver = t at ht hqueue ⊢
  obtain ⟨w, hplays, hwait⟩ := ht.plays
  have hcommands := commands_append hplays.wellFormed t.driver.queue
  rw [hplays.split] at hcommands
  refine ⟨?_, ?_, ht.timer, ht.opened, hstream⟩
  · rw [hcommands, List.map_append, List.sum_append]
    have hwaits := hplays.waits
    rcases ht.dry with hdry | ⟨hnil, hzero⟩
    · left
      omega
    · right
      rw [hnil, hzero]
      exact Int.le_refl 0
  · have hnil : commands t.driver.queue = [] → t.driver.queue = [] := by
      intro hnil
      unfold Complete at hqueue
      rw [hnil] at hqueue
      exact hqueue.symm
    by_cases hleft : commands t.driver.queue = []
    · rw [hleft]
      have hempty := hnil hleft
      have hdried := ht.dried hempty
      by_cases hwait : t.driver.psg_wait ≤ 0
      · right
        refine ⟨fun hmore => ?_, ht.stops hempty hwait⟩
        rw [← queue_length, hempty, List.length_nil] at hmore
        omega
      · left
        rw [List.map_nil, List.sum_nil]
        omega
    · left
      have hpos := hplays.stopped.resolve_right hleft
      omega

/-- The milliseconds that ticks count, from a count of Timer3 on. -/
def span : UInt16 → List UInt16 → Nat
  | _, [] => 0
  | tm3, now :: nows => (now - tm3).toNat * PSG_MS_PER_TICK + span now nows

/-- Ticks that count what is left of a complete stream bring it to its end. -/
theorem Sound.ends {nows : List UInt16} (h : Sound regs₀ m) (hcomplete : Complete m.stream)
    (hrun : Steps AllowedStep m (nows.map Event.tick) m') (hsome : nows ≠ [])
    (hlong : m.remaining ≤ span m.driver.psg_tm3 nows) :
    m'.driver.drained ∧ (m.driver.psg_open = false → m'.driver.psg_active = false) := by
  induction nows generalizing m with
  | nil => exact absurd rfl hsome
  | cons now nows ih =>
      cases hrun with
      | cons hstep hrest =>
          obtain rfl := Option.some.inj hstep.2
          cases hactive : m.driver.psg_active with
          | false =>
              have hsame : ∀ {nows : List UInt16} {m' : Machine},
                  Steps AllowedStep m (nows.map Event.tick) m' → m' = m := by
                intro nows m' hrun
                induction nows with
                | nil =>
                    cases hrun
                    rfl
                | cons now nows ih =>
                    cases hrun with
                    | cons hstep hrest =>
                        obtain rfl := Option.some.inj hstep.2
                        rw [tick_inactive now hactive] at hrest
                        exact ih hrest
              rw [tick_inactive now hactive] at hrest
              obtain rfl := hsame hrest
              obtain ⟨hqueue, hwait, -⟩ := h.idle hactive
              refine ⟨fun hmore => ?_, fun _ => hactive⟩
              rw [← queue_length, hqueue, List.length_nil] at hmore
              omega
          | true =>
              obtain ⟨hless, hend, htimer, hopen, hstream⟩ :=
                h.tick_remaining hactive hcomplete now hstep.1
              rw [span] at hlong
              unfold elapsed at hless
              cases nows with
              | nil =>
                  cases hrest
                  rw [span] at hlong
                  exact hend.resolve_left (by push_cast at hless hlong; omega)
              | cons next nows =>
                  rw [← hopen]
                  refine ih (h.tick now hstep.1) (by rw [hstream]; exact hcomplete) hrest
                    (List.cons_ne_nil _ _) ?_
                  rw [htimer]
                  push_cast at hless hlong
                  omega

/-- In every run from an open on, whatever was written and however the ticks came between, the stream is
played as `Coherent` says, time stands still only while the queue is empty, and what is left of a
complete stream is played to the end, where a closed device stops. -/
theorem psg_coherent (tm3 : UInt16) (d : Driver) (events : List Event) (m : Machine)
    (hrun : Steps AllowedStep (start tm3 d) events m) :
    Coherent d.regs m ∧
      (∀ now, Fits now m.driver → (m.tick now).dry = m.dry ∨ (m.tick now).driver.queue = []) ∧
      (m.driver.psg_open = false → Complete m.stream) ∧
      ∀ nows m', Complete m.stream → Steps AllowedStep m (nows.map Event.tick) m' → nows ≠ [] →
        m.remaining ≤ span m.driver.psg_tm3 nows →
        m'.driver.drained ∧ (m.driver.psg_open = false → m'.driver.psg_active = false) := by
  have h := sound_run hrun
  refine ⟨h.coherent, fun now hfits => ?_, h.closed, fun nows m' hcomplete => h.ends hcomplete⟩
  unfold Machine.tick
  split
  · exact .inl rfl
  · next hne =>
      have hactive : m.driver.psg_active = true := by simpa using hne
      have ht := psg_tick_ticked h.indexed hactive hfits (Int.lt_trans h.bound (by decide))
      rcases ht.dry with hdry | ⟨hnil, -⟩
      · left
        show m.dry + _ = m.dry
        rw [hdry, Nat.add_zero]
      · exact .inr hnil

/-! ## Two streams -/

/-- The driver before it was ever opened. -/
def fresh : Driver where
  psg_head := 0
  psg_tail := 0
  psg_open := false
  psg_active := false
  psg_wait := 0
  psg_tm3 := 0
  psg_q := fun _ => 0
  regs := []

/-- The bytes are written with as many stores as they have words, and the device is closed. -/
def writeAndClose (bytes : List UInt8) : List Event :=
  [.write [bytes], .take 0] ++ List.replicate (bytes.length / 2) .store ++ [.commit, .take 0, .close]

/-- A wait of 5 ms and a write to a register, which the second tick carries out. -/
theorem psg_coherent_tune : ∃ m, (∃ m₁, Steps AllowedStep (start 0 fresh)
      (writeAndClose [0x05, 0x80, 0x60, 0x40, 0x01, 0x00]) m₁ ∧
      Steps AllowedStep m₁ ([1].map Event.tick) m) ∧ m.driver.psg_active = false := by
  have hrun : ∃ m₁, Steps AllowedStep (start 0 fresh)
      (writeAndClose [0x05, 0x80, 0x60, 0x40, 0x01, 0x00]) m₁ ∧ m₁.driver.psg_open = false ∧
      Fits 1 m₁.driver ∧ Complete m₁.stream ∧ m₁.remaining ≤ span m₁.driver.psg_tm3 [1] := by
    refine ⟨_, .cons ⟨trivial, rfl⟩ (.cons ⟨trivial, rfl⟩ (.cons ⟨trivial, rfl⟩ (.cons ⟨trivial, rfl⟩
      (.cons ⟨trivial, rfl⟩ (.cons ⟨trivial, rfl⟩ (.cons ⟨trivial, rfl⟩ (.cons ⟨?_, rfl⟩ (.refl _)))))))),
      rfl, ?_, ?_, ?_⟩
    · show Complete _
      decide +kernel
    · unfold Fits
      decide +kernel
    · decide +kernel
    · unfold Machine.remaining
      decide +kernel
  obtain ⟨m₁, hrun, hclosed, hfits, hcomplete, hlong⟩ := hrun
  have htick : Steps AllowedStep m₁ ([1].map Event.tick) (m₁.tick 1) := .cons ⟨hfits, rfl⟩ (.refl _)
  refine ⟨m₁.tick 1, ⟨m₁, hrun, htick⟩, ?_⟩
  exact ((psg_coherent 0 fresh _ m₁ hrun).2.2.2 [1] _ hcomplete htick (List.cons_ne_nil _ _) hlong).2 hclosed

/-- The queue holds the first word of a command whose value never comes. -/
structure Stuck (d : Driver) : Prop where
  indexed : Indexed d
  active : d.psg_active = true
  count : d.psg_count = 1
  value : takesValue (d.psg_q d.psg_tail) = true

theorem Stuck.tick (h : Stuck d) (now : UInt16) : Stuck (psg_tick now d).driver := by
  have hloop : ∀ d' : Driver, d'.psg_count = 1 → takesValue (d'.psg_q d'.psg_tail) = true →
      playLoop 1 d' = ([], d') := by
    intro d' hcount hvalue
    obtain ⟨hzero, htwo⟩ := (takesValue_eq _).mp hvalue
    rw [playLoop]
    split
    · dsimp only
      rw [if_neg (not_not.mpr hzero), if_pos htwo, if_pos (by omega)]
    · rfl
  rw [psg_tick_eq h.active, h.count]
  dsimp only
  rw [hloop { d with psg_wait := int32 (d.psg_wait - elapsed now d), psg_tm3 := now } h.count h.value]
  rcases finish_cases { d with psg_wait := int32 (d.psg_wait - elapsed now d), psg_tm3 := now } with
    ⟨hfinish, -⟩ | ⟨hzero, -⟩ | ⟨hzero, -⟩
  · rw [hfinish]
    exact ⟨⟨h.indexed.head, h.indexed.tail⟩, h.active, h.count, h.value⟩
  · exact absurd (h.count.symm.trans hzero) (by decide)
  · exact absurd (h.count.symm.trans hzero) (by decide)

/-- A stream of one word that asks for a value: the device is closed, and whatever the ticks, the driver
never stops and has never drained. -/
theorem psg_stuck : ∃ m, Steps (Steps.Of step) (start 0 fresh) (writeAndClose [0x60, 0x40]) m ∧
    m.driver.psg_open = false ∧ ∀ (nows : List UInt16) m', Steps (Steps.Of step) m (nows.map Event.tick) m' →
      m'.driver.psg_active = true ∧ ¬ m'.driver.drained := by
  have hticks : ∀ {nows : List UInt16} {m m' : Machine}, Stuck m.driver →
      Steps (Steps.Of step) m (nows.map Event.tick) m' → Stuck m'.driver := by
    intro nows m m' h hrun
    induction nows generalizing m with
    | nil =>
        cases hrun
        exact h
    | cons now nows ih =>
        cases hrun with
        | cons hstep hrest =>
            obtain rfl := Option.some.inj hstep
            refine ih ?_ hrest
            unfold Machine.tick
            rw [if_neg (by rw [h.active]; decide)]
            exact h.tick now
  refine ⟨_, .cons rfl (.cons rfl (.cons rfl (.cons rfl (.cons rfl (.cons rfl (.refl _)))))), rfl,
    fun nows m' hrun => ?_⟩
  have hstuck := hticks ⟨⟨by decide +kernel, by decide +kernel⟩, rfl, by decide +kernel, by decide +kernel⟩ hrun
  refine ⟨hstuck.active, fun hdrained => hdrained (.inl ?_)⟩
  rw [hstuck.count]
  exact Nat.one_pos

end DiscoBsd.Psg
