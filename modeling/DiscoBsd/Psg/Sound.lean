import DiscoBsd.Psg.Driver

/-!
# The invariant of the queue

The loop of the interrupt plays the queue as a list of words. `Coherent` is what holds of the stream,
the queue and the commands that were carried out, and `Sound` what else holds between any two events.
-/

namespace DiscoBsd.Psg

open Kern Lib

variable {d d' : Driver} {m : Machine} {n : Nat}

/-! ## Indices -/

/-- The indices are in the ring. -/
structure Indexed (d : Driver) : Prop where
  head : d.psg_head < PSG_QSIZE
  tail : d.psg_tail < PSG_QSIZE

theorem Indexed.advance (h : Indexed d) (n : Nat) : Indexed (d.advance n) :=
  ⟨h.head, Nat.mod_lt _ (by decide)⟩

theorem Indexed.count_advance (h : Indexed d) (hn : n ≤ d.psg_count) :
    (d.advance n).psg_count = d.psg_count - n := by
  obtain ⟨hhead, htail⟩ := h
  unfold Driver.psg_count Driver.advance at *
  unfold PSG_QSIZE at *
  dsimp only
  omega

theorem Indexed.queue_advance (h : Indexed d) (hn : n ≤ d.psg_count) :
    d.queue = circRead PSG_QSIZE d.psg_q d.psg_tail n ++ (d.advance n).queue := by
  unfold Driver.queue
  rw [h.count_advance hn]
  show _ = _ ++ circRead PSG_QSIZE d.psg_q ((d.psg_tail + n) % PSG_QSIZE) _
  rw [circRead_mod, ← circRead_add, Nat.add_sub_cancel' hn]

theorem Indexed.queue_one (h : Indexed d) (hn : 0 < d.psg_count) :
    d.queue = d.psg_q d.psg_tail :: (d.advance 1).queue := by
  rw [h.queue_advance hn, circRead_succ, Nat.mod_eq_of_lt h.tail]
  rfl

theorem Indexed.queue_two (h : Indexed d) (hn : 2 ≤ d.psg_count) :
    d.queue = d.psg_q d.psg_tail :: d.psg_q ((d.psg_tail + 1) % PSG_QSIZE) :: (d.advance 2).queue := by
  rw [h.queue_advance hn, circRead_succ, circRead_succ, Nat.mod_eq_of_lt h.tail]
  rfl

theorem queue_nil (h : d.psg_count = 0) : d.queue = [] := by
  rw [Driver.queue, h, circRead_zero]

theorem queue_length (d : Driver) : d.queue.length = d.psg_count := circRead_length ..

/-! ## The loop of the interrupt -/

/-- The loop plays the words of the queue. -/
structure Played (d : Driver) (r : List Command × Driver) : Prop where
  plays : Plays d.psg_wait d.queue r.1 r.2.psg_wait r.2.queue
  indexed : Indexed r.2
  regs : r.2.regs = d.regs ++ r.1.flatMap Command.writes
  head : r.2.psg_head = d.psg_head
  ring : r.2.psg_q = d.psg_q
  count : r.2.psg_count ≤ d.psg_count
  opened : r.2.psg_open = d.psg_open
  active : r.2.psg_active = d.psg_active
  timer : r.2.psg_tm3 = d.psg_tm3

/-- Nothing is due, or the command that is due is not complete. -/
theorem played_none (h : Indexed d) (hstop : 0 < d.psg_wait ∨ commands d.queue = []) :
    Played d ([], d) where
  plays := ⟨rfl, fun _ hc => absurd hc List.not_mem_nil, (Int.add_zero _).symm,
    fun i hi => absurd hi (Nat.not_lt_zero i), hstop⟩
  indexed := h
  regs := (List.append_nil _).symm
  head := rfl
  ring := rfl
  count := Nat.le_refl _
  opened := rfl
  active := rfl
  timer := rfl

/-- A command is taken off the queue and carried out, and the loop goes on. -/
theorem Played.cons {r : List Command × Driver} {c : Command} (h : Played d' r) (hwait : d.psg_wait ≤ 0)
    (hc : c.WellFormed) (hqueue : d.queue = c.words ++ d'.queue)
    (hwait' : d'.psg_wait = d.psg_wait + c.ms) (hregs : d'.regs = d.regs ++ c.writes)
    (hhead : d'.psg_head = d.psg_head) (hring : d'.psg_q = d.psg_q)
    (hopen : d'.psg_open = d.psg_open) (hactive : d'.psg_active = d.psg_active)
    (htimer : d'.psg_tm3 = d.psg_tm3) :
    Played d (c :: r.1, r.2) where
  plays := by
    have hplays := h.plays
    rw [hwait'] at hplays
    rw [hqueue]
    exact hplays.cons hwait hc
  indexed := h.indexed
  regs := by rw [h.regs, hregs, List.append_assoc, List.flatMap_cons]
  head := h.head.trans hhead
  ring := h.ring.trans hring
  count := by
    have hle := h.count
    have hlength := congrArg List.length hqueue
    rw [List.length_append, queue_length, queue_length] at hlength
    show r.2.psg_count ≤ _
    omega
  opened := h.opened.trans hopen
  active := h.active.trans hactive
  timer := h.timer.trans htimer

theorem takesValue_eq (w : UInt16) : takesValue w = true ↔ w &&& 0x8000 = 0 ∧ w &&& 0xf000 = 0x4000 := by
  rw [takesValue, Bool.and_eq_true, beq_iff_eq, beq_iff_eq]

theorem playLoop_played (h : Indexed d) {fuel : Nat} (hfuel : d.psg_count ≤ fuel) :
    Played d (playLoop fuel d) := by
  induction fuel generalizing d with
  | zero => exact played_none h (.inr (by rw [queue_nil (Nat.le_zero.mp hfuel)]; rfl))
  | succ fuel ih =>
      rw [playLoop]
      split
      · next hdue =>
          obtain ⟨hwait, hcount⟩ := hdue
          have hless : (d.advance 1).psg_count ≤ fuel := by
            rw [h.count_advance hcount]
            omega
          have hvalue := takesValue_eq (d.psg_q d.psg_tail)
          dsimp only
          by_cases hpause : d.psg_q d.psg_tail &&& 0x8000 ≠ 0
          · rw [if_pos hpause]
            have hms : (Command.one (d.psg_q d.psg_tail)).ms = (d.psg_q d.psg_tail &&& 0x7fff).toNat :=
              if_pos hpause
            have hwrites : (Command.one (d.psg_q d.psg_tail)).writes = [] := if_pos hpause
            have hrest : Played ({ d with
                psg_wait := d.psg_wait + (d.psg_q d.psg_tail &&& 0x7fff).toNat }.advance 1) _ :=
              ih ⟨h.head, (h.advance 1).tail⟩ hless
            refine hrest.cons (c := .one _) hwait ?_ (h.queue_one hcount) ?_ ?_ rfl rfl rfl rfl rfl
            · exact Bool.eq_false_iff.mpr fun htwo => hpause (hvalue.mp htwo).1
            · rw [hms]
              rfl
            · rw [hwrites, List.append_nil]
              rfl
          · rw [if_neg hpause]
            have hzero := not_not.mp hpause
            split
            · next htwo =>
                split
                · next hshort =>
                    -- the value is not written yet
                    refine played_none h (.inr ?_)
                    have hrest : (d.advance 1).queue = [] := by
                      refine queue_nil ?_
                      rw [h.count_advance hcount]
                      omega
                    rw [h.queue_one hcount, hrest]
                    exact if_pos (hvalue.mpr ⟨hzero, htwo⟩)
                · next hlong =>
                    have hless' : (d.advance 2).psg_count ≤ fuel := by
                      rw [h.count_advance (by omega)]
                      omega
                    split
                    · next hok =>
                        have hrest : Played ((d.put [.reg (d.psg_q d.psg_tail &&& 0xff)
                            (d.psg_q ((d.psg_tail + 1) % PSG_QSIZE))]).advance 2) _ :=
                          ih ⟨h.head, (h.advance 2).tail⟩ hless'
                        refine hrest.cons (c := .two _ _) hwait (hvalue.mpr ⟨hzero, htwo⟩) (h.queue_two (by omega))
                          (Int.add_zero _).symm ?_ rfl rfl rfl rfl rfl
                        exact congrArg (d.regs ++ ·) (if_pos hok).symm
                    · next hbad =>
                        have hrest : Played (d.advance 2) _ := ih (h.advance 2) hless'
                        refine hrest.cons (c := .two _ _) hwait (hvalue.mpr ⟨hzero, htwo⟩) (h.queue_two (by omega))
                          (Int.add_zero _).symm ?_ rfl rfl rfl rfl rfl
                        exact (List.append_nil _).symm.trans (congrArg (d.regs ++ ·) (if_neg hbad).symm)
            · next hother =>
                have hone : (Command.one (d.psg_q d.psg_tail)).WellFormed :=
                  Bool.eq_false_iff.mpr fun htwo => hother (hvalue.mp htwo).2
                have hms : (Command.one (d.psg_q d.psg_tail)).ms = 0 := if_neg hpause
                have hwait' : d.psg_wait = d.psg_wait + (Command.one (d.psg_q d.psg_tail)).ms := by
                  rw [hms]
                  exact (Int.add_zero _).symm
                have hwrites : (Command.one (d.psg_q d.psg_tail)).writes =
                    if d.psg_q d.psg_tail &&& 0xf000 = 0x5000 ∧ d.psg_q d.psg_tail &&& 0xfff ≤ 2 then
                      [.mix (d.psg_q d.psg_tail &&& 3)] else [] := if_neg hpause
                split
                · next hmix =>
                    have hrest : Played ((d.put [.mix (d.psg_q d.psg_tail &&& 3)]).advance 1) _ :=
                      ih ⟨h.head, (h.advance 1).tail⟩ hless
                    refine hrest.cons hwait hone (h.queue_one hcount) hwait' ?_ rfl rfl rfl rfl rfl
                    rw [hwrites, if_pos hmix]
                    rfl
                · next hskip =>
                    have hrest : Played (d.advance 1) _ := ih (h.advance 1) hless
                    refine hrest.cons hwait hone (h.queue_one hcount) hwait' ?_ rfl rfl rfl rfl rfl
                    rw [hwrites, if_neg hskip, List.append_nil]
                    rfl
      · next hnone =>
          refine played_none h ?_
          by_cases hwait : d.psg_wait ≤ 0
          · right
            rw [queue_nil (by omega)]
            rfl
          · exact .inl (by omega)

/-! ## The interrupt -/

/-- What the interrupt does to a stream that is playing. -/
structure Ticked (now : UInt16) (d : Driver) (t : Tick) : Prop where
  plays : ∃ w, Plays (d.psg_wait - elapsed now d) d.queue t.played w t.driver.queue ∧
    t.driver.psg_wait = w + t.dry
  dry : t.dry = 0 ∨ t.driver.queue = [] ∧ t.driver.psg_wait = 0
  dried : t.driver.queue = [] → 0 ≤ t.driver.psg_wait
  regs : t.driver.regs = d.regs ++ t.played.flatMap Command.writes ++
    if t.driver.psg_active then [] else stopWrites
  idle : t.driver.psg_active = false → t.driver.queue = [] ∧ t.driver.psg_wait = 0 ∧
    t.driver.psg_open = false
  stops : t.driver.queue = [] → t.driver.psg_wait ≤ 0 → d.psg_open = false →
    t.driver.psg_active = false
  indexed : Indexed t.driver
  opened : t.driver.psg_open = d.psg_open
  count : t.driver.psg_count ≤ d.psg_count
  head : d.psg_open = true → t.driver.psg_head = d.psg_head
  ring : t.driver.psg_q = d.psg_q
  timer : t.driver.psg_tm3 = now

/-- The wait is one that an `int` holds after the milliseconds of a tick are taken off. -/
def Fits (now : UInt16) (d : Driver) : Prop := -2 ^ 31 ≤ d.psg_wait - elapsed now d

/-- What comes after the loop: the wait that is cut off, and the end of a stream. -/
def finish (d : Driver) : Nat × Driver :=
  let dry := if d.psg_count = 0 ∧ d.psg_wait < 0 then d.psg_wait.natAbs else 0
  let d := if d.psg_count = 0 ∧ d.psg_wait < 0 then { d with psg_wait := 0 } else d
  (dry, if d.psg_count = 0 ∧ d.psg_wait ≤ 0 ∧ d.psg_open = false then psg_stop d else d)

theorem psg_tick_eq {now : UInt16} (hactive : d.psg_active = true) :
    psg_tick now d =
      let r := playLoop d.psg_count { d with psg_wait := int32 (d.psg_wait - elapsed now d), psg_tm3 := now }
      ⟨r.1, (finish r.2).1, (finish r.2).2⟩ := by
  have hne : ¬ d.psg_active = false := by
    rw [hactive]
    decide
  rw [psg_tick, if_neg hne]
  rfl

theorem count_stop (d : Driver) : (psg_stop d).psg_count = 0 := Nat.mod_self PSG_QSIZE

/-- What is left is waited for, has run dry or is the end. -/
theorem finish_cases (d : Driver) :
    (finish d = (0, d) ∧ ¬ (d.psg_count = 0 ∧ d.psg_wait < 0) ∧
        ¬ (d.psg_count = 0 ∧ d.psg_wait ≤ 0 ∧ d.psg_open = false)) ∨
      (d.psg_count = 0 ∧ d.psg_wait ≤ 0 ∧ d.psg_open = true ∧
        finish d = (d.psg_wait.natAbs, { d with psg_wait := 0 })) ∨
      (d.psg_count = 0 ∧ d.psg_wait ≤ 0 ∧ d.psg_open = false ∧ (finish d).1 = d.psg_wait.natAbs ∧
        (finish d).2 = psg_stop d) := by
  unfold finish
  by_cases hdry : d.psg_count = 0 ∧ d.psg_wait < 0
  · simp only [if_pos hdry]
    by_cases hopen : d.psg_open = false
    · rw [if_pos ⟨hdry.1, Int.le_refl 0, hopen⟩]
      exact .inr (.inr ⟨hdry.1, by omega, hopen, trivial, rfl⟩)
    · rw [if_neg (fun h => hopen h.2.2)]
      exact .inr (.inl ⟨hdry.1, by omega, Bool.not_eq_false _ ▸ hopen, rfl⟩)
  · simp only [if_neg hdry]
    by_cases hend : d.psg_count = 0 ∧ d.psg_wait ≤ 0 ∧ d.psg_open = false
    · rw [if_pos hend]
      have hzero : d.psg_wait = 0 := by omega
      refine .inr (.inr ⟨hend.1, hend.2.1, hend.2.2, ?_, rfl⟩)
      rw [hzero]
      rfl
    · rw [if_neg hend]
      exact .inl ⟨rfl, hdry, hend⟩

theorem psg_tick_ticked {now : UInt16} (h : Indexed d) (hactive : d.psg_active = true)
    (hfits : Fits now d) (hbound : d.psg_wait < 2 ^ 31) : Ticked now d (psg_tick now d) := by
  rw [psg_tick_eq hactive, int32_eq hfits (by omega)]
  have hplayed : Played { d with psg_wait := d.psg_wait - elapsed now d, psg_tm3 := now }
      (playLoop d.psg_count { d with psg_wait := d.psg_wait - elapsed now d, psg_tm3 := now }) :=
    playLoop_played (d := { d with psg_wait := d.psg_wait - elapsed now d, psg_tm3 := now })
      ⟨h.head, h.tail⟩ (Nat.le_refl _)
  generalize playLoop d.psg_count { d with psg_wait := d.psg_wait - elapsed now d, psg_tm3 := now } = r
    at hplayed ⊢
  obtain ⟨cmds, d'⟩ := r
  obtain ⟨hplays, hindexed, hregs, hhead, hring, hcount, hopen, hactive', htimer⟩ := hplayed
  have hkeep : ∀ x : List Write, (if d'.psg_active then [] else x) = [] := fun x =>
    if_pos (hactive'.trans hactive)
  dsimp only at hplays hindexed hregs hhead hring hcount hopen hactive' htimer ⊢
  have hempty : d'.queue = [] → d'.psg_count = 0 := fun hnil => by
    rw [← queue_length, hnil]
    rfl
  rcases finish_cases d' with ⟨hfinish, hdry, hend⟩ | ⟨hzero, hwait, hopen', hfinish⟩ |
    ⟨hzero, hwait, hopen', hdry, hfinish⟩
  · rw [hfinish]
    refine ⟨⟨d'.psg_wait, hplays, (Int.add_zero _).symm⟩, .inl rfl, fun hnil => ?_, ?_, fun hoff => ?_, ?_,
      hindexed, hopen, hcount, fun _ => hhead, hring, htimer⟩
    · by_contra hneg
      exact hdry ⟨hempty hnil, Int.not_le.mp hneg⟩
    · show d'.regs = _ ++ _ ++ if d'.psg_active then [] else stopWrites
      rw [hkeep, List.append_nil, hregs]
    · rw [hactive', hactive] at hoff
      cases hoff
    · intro hnil hle hclosed
      exact absurd ⟨hempty hnil, hle, hopen.trans hclosed⟩ hend
  · rw [hfinish]
    refine ⟨⟨d'.psg_wait, hplays, ?_⟩, .inr ⟨queue_nil hzero, rfl⟩, fun _ => Int.le_refl 0, ?_, fun hoff => ?_,
      ?_, ⟨hindexed.head, hindexed.tail⟩, hopen, hcount, fun _ => hhead, hring, htimer⟩
    · show (0 : Int) = d'.psg_wait + (d'.psg_wait.natAbs : Int)
      omega
    · show d'.regs = _ ++ _ ++ if d'.psg_active then [] else stopWrites
      rw [hkeep, List.append_nil, hregs]
    · exact absurd (hoff.symm.trans (hactive'.trans hactive)) Bool.false_ne_true
    · intro _ _ hclosed
      exact absurd (hopen'.symm.trans (hopen.trans hclosed)) (by decide)
  · have hnone : (psg_stop d').psg_count = 0 := count_stop d'
    have hpos : 0 < PSG_QSIZE := by decide
    rw [hfinish, hdry]
    refine ⟨⟨d'.psg_wait, ?_, ?_⟩, .inr ⟨queue_nil hnone, rfl⟩, fun _ => Int.le_refl 0, ?_,
      fun _ => ⟨queue_nil hnone, rfl, hopen'⟩, fun _ _ _ => rfl, ⟨hpos, hpos⟩, hopen,
      hnone.trans_le (Nat.zero_le _), fun hheld => ?_, hring, htimer⟩
    · rw [queue_nil hzero] at hplays
      rw [show (psg_stop d').queue = [] from queue_nil hnone]
      exact hplays
    · show (0 : Int) = d'.psg_wait + (d'.psg_wait.natAbs : Int)
      omega
    · show d'.regs ++ stopWrites = _
      rw [hregs]
      rfl
    · exact absurd (hheld.symm.trans (hopen.symm.trans hopen')) (by decide)

end DiscoBsd.Psg
