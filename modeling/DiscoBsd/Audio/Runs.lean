import DiscoBsd.Audio.Sound

/-!
# Runs of the PCM driver

Each step of a writer and each event keeps the invariant, as long as an open that finds the device
open asks for the number of channels that it has. `ring_sound` is about whole runs.
-/

namespace DiscoBsd.Audio

open Kern Lib

variable {a a' : Driver} {m : Machine} {w : Writer} {taken uio : List (List UInt8)}

/-! ## Starting -/

theorem startIf_ticked (h : Indexed a) (tm3 : UInt16) (b : Bool) : Ticked 0 a (a.startIf tm3 b) := by
  rw [Driver.startIf]
  split
  · exact ⟨rfl, rfl, rfl, rfl, rfl, rfl, Nat.zero_le _, rfl, (Nat.mod_eq_of_lt h.play_lt).symm,
      fun _ _ => rfl⟩
  · exact ⟨rfl, rfl, rfl, rfl, rfl, rfl, Nat.zero_le _, rfl, (Nat.mod_eq_of_lt h.play_lt).symm,
      fun _ hplaying => hplaying⟩

theorem startIf_playing (a : Driver) (tm3 : UInt16) {b : Bool} (hb : b = true) :
    (a.startIf tm3 b).audio_playing = true := by
  rw [Driver.startIf]
  split
  · rfl
  · rename_i h
    rw [hb] at h
    cases hplaying : a.audio_playing with
    | true => rfl
    | false => exact absurd ⟨hplaying, rfl⟩ h

/-! ## One store -/

/-- A run is apart from the frames that are still to be played. -/
theorem Run.apart {n i k : Nat} (hrun : Run a n) (h : Indexed a) (hi : InRun a n i) (hk : k < a.a_used) :
    (a.a_play + k) % a.a_rsize ≠ i := by
  have hstraight := hrun.straight
  have hroom := hrun.room
  have hplay := h.play_lt
  have hwr := h.wr_eq
  have hreserve : ARESERVE = 256 := rfl
  obtain ⟨hlow, hhigh⟩ := hi
  rcases h.cases with ⟨-, hrsize, -⟩ | ⟨-, hrsize, -⟩
  · rw [hrsize] at hwr hplay hstraight hroom ⊢
    omega
  · rw [hrsize] at hwr hplay hstraight hroom ⊢
    omega

theorem pending_store {n base i : Nat} (sample : UInt8) (h : Indexed a) (hrun : Run a n)
    (hbase : base ∈ bases a.audio_stereo) (hi : InRun a n i) :
    ({ a with abuf := Function.update a.abuf (base + i) sample } : Driver).pending = a.pending := by
  have hpos : 0 < a.a_rsize := Nat.lt_of_le_of_lt (Nat.zero_le _) h.play_lt
  have hlt : i < a.a_rsize := Nat.lt_of_lt_of_le hi.2 hrun.straight
  refine circRead_congr fun k hk => frame_update sample hbase ?_ ?_ (hrun.apart h hi hk)
  · exact h.within (Nat.lt_of_lt_of_le (Nat.mod_lt _ hpos) (Nat.le_add_right ..))
  · exact h.within (Nat.lt_of_lt_of_le hlt (Nat.le_add_right ..))

theorem guard_store {base i j : Nat} (sample : UInt8) (h : Indexed a)
    (hbase : base ∈ bases a.audio_stereo) (hi : i < a.a_gsize) (hj : j < a.a_rsize) :
    frame a.audio_stereo (Function.update a.abuf (base + (a.a_rsize + i)) sample) j =
      frame a.audio_stereo a.abuf j :=
  frame_update sample hbase (h.within (by omega)) (h.within (by omega)) (by omega)

theorem Sized.index_lt (h : Sized a) {base i : Nat} (hbase : base ∈ bases a.audio_stereo)
    (hi : i < a.a_rsize + a.a_gsize) : base + i < ASAMPLES + AGUARD := by
  have hsize : ASAMPLES + AGUARD = 10240 := rfl
  rw [mem_bases] at hbase
  rcases h.cases with ⟨hmono, hrsize, hgsize⟩ | ⟨hstereo, hrsize, hgsize⟩
  · rw [hmono] at hbase
    simp only [Bool.false_eq_true, false_and, or_false] at hbase
    omega
  · omega

theorem Copying.store {n done i : Nat} {sample : UInt8} {todo : List (Nat × UInt8)} (h : Indexed a)
    (hcopy : Copying a taken uio n done ((i, sample) :: todo)) :
    Copying { a with abuf := Function.update a.abuf i sample } taken uio n done todo ∧
      ({ a with abuf := Function.update a.abuf i sample } : Driver).pending = a.pending ∧
      i < ASAMPLES + AGUARD := by
  obtain ⟨base, hbase, j, hj, rfl⟩ := hcopy.stores (i, sample) (List.mem_cons_self ..)
  have hjlt : j < a.a_rsize := Nat.lt_of_lt_of_le hj.2 hcopy.run.straight
  have hgsize : a.a_gsize ≤ a.a_rsize := by
    rcases h.cases with ⟨-, hrsize, hgsize⟩ | ⟨-, hrsize, hgsize⟩
    · omega
    · omega
  refine ⟨⟨⟨hcopy.run.room, hcopy.run.straight⟩, hcopy.done_le, hcopy.mono, hcopy.input,
    fun p hp => hcopy.stores p (List.mem_cons_of_mem _ hp), hcopy.taken, ?_⟩,
    pending_store sample h hcopy.run hbase hj, h.index_lt hbase (by omega)⟩
  intro base' hbase' k hk hout
  dsimp only at *
  have hlow : base' + k ≠ base + j := fun heq =>
    hout ((bases_apart hbase' hbase (h.within (by omega)) (h.within (by omega)) heq).2 ▸ hj)
  have hhigh : base' + (a.a_rsize + k) ≠ base + j := fun heq => by
    have hsame := (bases_apart hbase' hbase (h.within (by omega)) (h.within (by omega)) heq).2
    omega
  rw [Function.update_of_ne hlow, Function.update_of_ne hhigh]
  exact hcopy.guarded base' hbase' k hk hout

theorem Mirroring.store {n src dst : Nat} {todo : List (Nat × Nat)} (h : Indexed a)
    (hmirror : Mirroring a taken n ((src, dst) :: todo)) :
    Mirroring { a with abuf := Function.update a.abuf dst (a.abuf src) } taken n todo ∧
      ({ a with abuf := Function.update a.abuf dst (a.abuf src) } : Driver).pending = a.pending ∧
      dst < ASAMPLES + AGUARD := by
  obtain ⟨base, hbase, i, hi, -, hp⟩ := hmirror.copies (src, dst) (List.mem_cons_self ..)
  obtain ⟨rfl, rfl⟩ := Prod.mk.inj hp
  have hpos : 0 < a.a_rsize := Nat.lt_of_le_of_lt (Nat.zero_le _) h.play_lt
  have hgsize : a.a_gsize ≤ a.a_rsize := by
    rcases h.cases with ⟨-, hrsize, hgsize⟩ | ⟨-, hrsize, hgsize⟩
    · omega
    · omega
  refine ⟨⟨⟨hmirror.run.room, hmirror.run.straight⟩, ?_,
    fun p hp => hmirror.copies p (List.mem_cons_of_mem _ hp), ?_⟩, ?_, h.index_lt hbase (by omega)⟩
  · refine Eq.trans ?_ hmirror.taken
    exact circRead_congr fun k _ => guard_store _ h hbase hi (Nat.mod_lt _ hpos)
  · intro base' hbase' k hk
    dsimp only at *
    have hlow : base' + k ≠ base + (a.a_rsize + i) := fun heq => by
      have hsame := (bases_apart hbase' hbase (h.within (by omega)) (h.within (by omega)) heq).2
      omega
    by_cases hsame : base' + (a.a_rsize + k) = base + (a.a_rsize + i)
    · obtain ⟨rfl, hk⟩ := bases_apart hbase' hbase (h.within (by omega)) (h.within (by omega)) hsame
      obtain rfl : k = i := Nat.add_left_cancel hk
      left
      rw [Function.update_self, Function.update_of_ne hlow]
    · rw [Function.update_of_ne hlow, Function.update_of_ne hsame]
      rcases hmirror.guarded base' hbase' k hk with heq | hmem
      · exact .inl heq
      · refine .inr ((List.mem_cons.mp hmem).resolve_left fun heq => hsame ?_)
        exact (Prod.mk.inj heq).2
  · exact circRead_congr fun k _ => guard_store _ h hbase hi (Nat.mod_lt _ hpos)

/-- The stores of frames put them behind those of the run. -/
theorem ahead_put {stereo : Bool} {fs : List (List UInt8)} {done n : Nat} (h : Indexed a)
    (hstereo : a.audio_stereo = stereo) (hfs : Whole stereo fs) (hlength : fs.length = n)
    (hfit : a.a_wr + done + n ≤ a.a_rsize) :
    a.ahead (put a.abuf (frameStores stereo (a.a_wr + done) fs)) (done + n) =
      a.ahead a.abuf done ++ fs := by
  subst hstereo hlength
  have hpos : 0 < a.a_rsize := Nat.lt_of_le_of_lt (Nat.zero_le _) h.play_lt
  have hwithin : ∀ i < a.a_rsize, Within a.audio_stereo i := fun i hi =>
    h.within (Nat.lt_of_lt_of_le hi (Nat.le_add_right ..))
  rw [Driver.ahead, Driver.ahead, ← circRead_write (frame a.audio_stereo a.abuf) (by omega)]
  exact circRead_congr fun k _ => put_frames hfs hwithin hfit (Nat.mod_lt _ hpos)

/-! ## The steps of a writer -/

theorem Sound.moved {w' : Writer} (h : Sound m) (hcurrent : m.current = some w) (hcap : w'.cap = w.cap)
    (hat : At m.audio taken w'.uio w'.phase) : Sound { m with current := some w', taken := taken } := by
  have hactive := h.active
  rw [Active, hcurrent] at hactive
  exact ⟨h.indexed, ⟨(congrArg (· + ARESERVE) hcap).trans hactive.1, hactive.2.1, hat⟩, h.stored, h.order,
    h.caps, h.held, h.opened, h.closing, h.closed⟩

theorem Sound.at (h : Sound m) (hcurrent : m.current = some w) :
    w.cap + ARESERVE = m.audio.a_rsize ∧ m.held = true ∧ At m.audio m.taken w.uio w.phase := by
  have hactive := h.active
  rw [Active, hcurrent] at hactive
  exact hactive

theorem Sound.check (h : Sound m) (hcurrent : m.current = some w) (hphase : w.phase = .check) :
    Sound (m.check w) := by
  obtain ⟨-, -, hat⟩ := h.at hcurrent
  rw [hphase] at hat
  rw [Machine.check]
  split
  · split
    · exact h.moved hcurrent rfl hat
    · exact h.moved hcurrent rfl hat
  · split
    · exact h.moved hcurrent rfl hat
    · exact h.moved hcurrent rfl hat

theorem Sound.await (h : Sound m) (hcurrent : m.current = some w) (hphase : w.phase = .wait)
    (tm3 : UInt16) : Sound (m.await tm3 w) := by
  obtain ⟨hcap, hheld, hat⟩ := h.at hcurrent
  rw [hphase] at hat
  obtain ⟨htaken, hquiet⟩ := hat
  rw [Machine.await]
  split
  · have ht := startIf_ticked h.indexed tm3 (decide (m.audio.a_used > 0))
    have hnext := h.adjusted ht
    refine ⟨hnext.indexed, ⟨htaken, ht.guarded hquiet, fun hused => ?_⟩, hnext.stored, hnext.order,
      fun w' hw' => ?_, fun _ => hheld, hnext.opened, hnext.closing, hnext.closed⟩
    · have hused' : 0 < m.audio.a_used := by
        rw [ht.used] at hused
        exact hused
      exact startIf_playing _ _ (decide_eq_true hused')
    · rcases List.mem_cons.mp hw' with rfl | hold
      · exact ⟨hcap.trans ht.rsize.symm, rfl⟩
      · exact hnext.caps w' hold
  · rename_i hroom
    refine h.moved hcurrent rfl ⟨htaken, hquiet, ?_⟩
    omega

theorem Sound.room {free : Nat} (h : Sound m) (hcurrent : m.current = some w)
    (hphase : w.phase = .room free) : Sound (m.room free w) := by
  obtain ⟨-, -, hat⟩ := h.at hcurrent
  rw [hphase] at hat
  obtain ⟨htaken, hquiet, hfree⟩ := hat
  have hwr := h.indexed.wr_lt
  have hguarded : ∀ n, Guarded m.audio (InRun m.audio n) := fun n base hbase i hi _ =>
    hquiet base hbase i hi not_false
  rw [Machine.room]
  cases hstereo : m.audio.audio_stereo with
  | true =>
      rw [if_pos rfl]
      generalize hn : min (min free (m.audio.a_rsize - m.audio.a_wr)) (resid w.uio / 2) = n
      have hinput : n ≤ resid w.uio / 2 := hn ▸ Nat.min_le_right ..
      refine h.moved hcurrent rfl ⟨⟨?_, ?_⟩, Nat.zero_le _, ?_, ?_, ?_, htaken.symm, hguarded _⟩
      · omega
      · omega
      · rw [hstereo]
        exact fun hmono => absurd hmono.symm Bool.false_ne_true
      · dsimp only
        omega
      · exact fun p hp => absurd hp List.not_mem_nil
  | false =>
      rw [if_neg Bool.false_ne_true]
      dsimp only
      generalize hn : min (min free (m.audio.a_rsize - m.audio.a_wr)) (resid w.uio) = n
      obtain ⟨hwhole, hlength⟩ := frames_mono (uiomove n w.uio).1
      rw [(uiomove_spec n w.uio).2, Nat.min_eq_left (hn ▸ Nat.min_le_right ..)] at hlength
      refine h.moved hcurrent rfl ⟨⟨?_, ?_⟩, Nat.le_refl n, fun _ => rfl, ?_, fun p hp => ?_, ?_, hguarded n⟩
      · omega
      · omega
      · omega
      · obtain ⟨base, hbase, i, hlow, hhigh, hp⟩ := mem_frameStores hp
        rw [hlength] at hhigh
        exact ⟨base, hstereo ▸ hbase, i, ⟨hlow, hhigh⟩, hp⟩
      · have hput := ahead_put h.indexed hstereo hwhole hlength
          (show m.audio.a_wr + 0 + n ≤ m.audio.a_rsize by omega)
        rw [Nat.zero_add, Nat.add_zero] at hput
        exact hput

theorem Sound.copied {n done i : Nat} {sample : UInt8} {todo : List (Nat × UInt8)} (h : Sound m)
    (hcurrent : m.current = some w) (hphase : w.phase = .copy n done ((i, sample) :: todo)) :
    Sound ((m.store i sample).goto w (.copy n done todo)) := by
  obtain ⟨hcap, hheld, hat⟩ := h.at hcurrent
  rw [hphase] at hat
  obtain ⟨hcopy, hpending, hlt⟩ := Copying.store h.indexed hat
  refine ⟨{ h.indexed with }, ⟨hcap, hheld, hcopy⟩, fun j hj => ?_, ?_, h.caps, h.held, h.opened,
    h.closing, h.closed⟩
  · rcases List.mem_cons.mp hj with rfl | hold
    · exact hlt
    · exact h.stored j hold
  · exact (congrArg (m.played ++ ·) hpending).trans h.order

theorem Sound.mirrored {n src dst : Nat} {todo : List (Nat × Nat)} (h : Sound m)
    (hcurrent : m.current = some w) (hphase : w.phase = .mirror n ((src, dst) :: todo)) :
    Sound ((m.store dst (m.audio.abuf src)).goto w (.mirror n todo)) := by
  obtain ⟨hcap, hheld, hat⟩ := h.at hcurrent
  rw [hphase] at hat
  obtain ⟨hmirror, hpending, hlt⟩ := Mirroring.store h.indexed hat
  refine ⟨{ h.indexed with }, ⟨hcap, hheld, hmirror⟩, fun j hj => ?_, ?_, h.caps, h.held, h.opened,
    h.closing, h.closed⟩
  · rcases List.mem_cons.mp hj with rfl | hold
    · exact hlt
    · exact h.stored j hold
  · exact (congrArg (m.played ++ ·) hpending).trans h.order

/-- What `audio_mirror` copies brings the guard up to date in the run. -/
theorem mem_audio_mirror {n base i : Nat} (hi : i < a.a_gsize) (hrun : InRun a n i) :
    (base + i, base + (a.a_rsize + i)) ∈ audio_mirror a n base := by
  obtain ⟨hlow, hhigh⟩ := hrun
  rw [audio_mirror, if_pos (Nat.lt_of_le_of_lt hlow hi)]
  refine List.mem_map.mpr ⟨i - a.a_wr, List.mem_range.mpr (by omega), Prod.ext ?_ ?_⟩
  · dsimp only
    omega
  · dsimp only
    omega

theorem of_mem_audio_mirror {n base : Nat} {p : Nat × Nat} (h : p ∈ audio_mirror a n base) :
    ∃ i < a.a_gsize, InRun a n i ∧ p = (base + i, base + (a.a_rsize + i)) := by
  rw [audio_mirror] at h
  split at h
  · obtain ⟨k, hk, rfl⟩ := List.mem_map.mp h
    rw [List.mem_range] at hk
    refine ⟨a.a_wr + k, by omega, ⟨Nat.le_add_right .., by omega⟩, Prod.ext rfl ?_⟩
    dsimp only
    omega
  · exact absurd h List.not_mem_nil

theorem Sound.takePairs {n done : Nat} (h : Sound m) (hcurrent : m.current = some w)
    (hphase : w.phase = .copy n done []) : Sound (m.takePairs n done w) := by
  obtain ⟨-, -, hat⟩ := h.at hcurrent
  rw [hphase] at hat
  have hcopy : Copying m.audio m.taken w.uio n done [] := hat
  have hstraight := hcopy.run.straight
  rw [Machine.takePairs]
  split
  · rename_i hmore
    have hstereo : m.audio.audio_stereo = true := by
      by_contra hmono
      exact absurd (hcopy.mono (Bool.eq_false_of_not_eq_true hmono)) (Nat.ne_of_lt hmore)
    dsimp only
    generalize hc : min (n - done) 64 = c
    have hinput := hcopy.input
    have hmoved := (uiomove_spec (c * 2) w.uio).2
    rw [Nat.min_eq_left (by omega)] at hmoved
    obtain ⟨hwhole, hlength⟩ := frames_stereo c hmoved
    have hresid := resid_uiomove (c * 2) w.uio
    have hput := ahead_put h.indexed hstereo hwhole hlength
      (show m.audio.a_wr + done + c ≤ m.audio.a_rsize by omega)
    have htaken : m.audio.ahead m.audio.abuf done = m.taken := hcopy.taken
    rw [htaken] at hput
    refine h.moved hcurrent rfl ⟨hcopy.run, by omega, ?_, ?_, fun p hp => ?_, hput, hcopy.guarded⟩
    · exact fun hmono => absurd (hstereo.symm.trans hmono) (by decide)
    · dsimp only
      omega
    · obtain ⟨base, hbase, i, hlow, hhigh, hp⟩ := mem_frameStores hp
      rw [hlength] at hhigh
      exact ⟨base, hstereo ▸ hbase, i, ⟨by omega, by omega⟩, hp⟩
  · rename_i hdone
    obtain rfl : done = n := Nat.le_antisymm hcopy.done_le (Nat.le_of_not_lt hdone)
    refine h.moved hcurrent rfl ⟨hcopy.run, hcopy.taken, fun p hp => ?_, fun base hbase i hi => ?_⟩
    · obtain ⟨base, hbase, hp⟩ := List.mem_flatMap.mp hp
      exact ⟨base, hbase, of_mem_audio_mirror hp⟩
    · by_cases hrun : InRun m.audio done i
      · exact .inr (List.mem_flatMap.mpr ⟨base, hbase, mem_audio_mirror hi hrun⟩)
      · exact .inl (hcopy.guarded base hbase i hi hrun)

theorem Sound.mirrorEnd {n : Nat} (h : Sound m) (hcurrent : m.current = some w)
    (hphase : w.phase = .mirror n []) : Sound (m.goto w (.commit n)) := by
  obtain ⟨-, -, hat⟩ := h.at hcurrent
  rw [hphase] at hat
  have hmirror : Mirroring m.audio m.taken n [] := hat
  refine h.moved hcurrent rfl ⟨hmirror.run, hmirror.taken, fun base hbase i hi _ => ?_⟩
  exact (hmirror.guarded base hbase i hi).resolve_right List.not_mem_nil

/-- The write index moves over a run. -/
theorem Indexed.advance {n : Nat} (h : Indexed a) (hrun : Run a n) :
    Indexed { a with
      a_wr := if a.a_wr + n ≥ a.a_rsize then a.a_wr + n - a.a_rsize else a.a_wr + n
      a_used := a.a_used + n } := by
  have hstraight := hrun.straight
  have hwr := h.wr_lt
  have hnext : (if a.a_wr + n ≥ a.a_rsize then a.a_wr + n - a.a_rsize else a.a_wr + n) =
      (a.a_wr + n) % a.a_rsize := by
    split
    · rename_i hend
      have heq : a.a_wr + n = a.a_rsize := Nat.le_antisymm hstraight hend
      rw [heq, Nat.sub_self, Nat.mod_self]
    · rename_i hshort
      rw [Nat.mod_eq_of_lt (Nat.lt_of_not_le hshort)]
  refine { h with wr_lt := ?_, used_le := hrun.room, wr_eq := ?_ }
  · dsimp only
    rw [hnext]
    exact Nat.mod_lt _ (Nat.lt_of_le_of_lt (Nat.zero_le _) hwr)
  · dsimp only
    rw [hnext, h.wr_eq, Nat.mod_add_mod, Nat.add_assoc]

theorem Sound.commit {n : Nat} (h : Sound m) (hcurrent : m.current = some w)
    (hphase : w.phase = .commit n) (tm3 : UInt16) : Sound (m.commit tm3 n w) := by
  obtain ⟨hcap, hheld, hat⟩ := h.at hcurrent
  rw [hphase] at hat
  obtain ⟨hrun, htaken, hquiet⟩ := hat
  have hindexed := h.indexed.advance hrun
  have hopen := h.opened (.inl hheld)
  have hpending : circRead m.audio.a_rsize (frame m.audio.audio_stereo m.audio.abuf) m.audio.a_play
      (m.audio.a_used + n) = m.audio.pending ++ m.taken := by
    rw [circRead_add, ← htaken, Driver.ahead, h.indexed.wr_eq, circRead_mod]
    rfl
  have hnext : Sound { m with
      audio := { m.audio with
        a_wr := if m.audio.a_wr + n ≥ m.audio.a_rsize then m.audio.a_wr + n - m.audio.a_rsize
          else m.audio.a_wr + n
        a_used := m.audio.a_used + n }
      taken := []
      written := m.written ++ m.taken
      current := some { w with phase := .check } } := by
    refine ⟨hindexed, ⟨hcap, hheld, rfl, hquiet⟩, h.stored, ?_, h.caps, h.held, h.opened, h.closing,
      fun hclosed => absurd (hclosed.symm.trans hopen) Bool.false_ne_true⟩
    rw [← h.order, List.append_assoc, ← hpending]
    rfl
  exact hnext.adjusted (startIf_ticked hindexed tm3 _)

theorem Sound.out (h : Sound m) (hcurrent : m.current = some w) (hphase : w.phase = .out)
    (tm3 : UInt16) :
    Sound { m with
      audio := m.audio.startIf tm3 (decide (m.audio.a_used > 0))
      current := none } := by
  obtain ⟨-, -, hat⟩ := h.at hcurrent
  rw [hphase] at hat
  obtain ⟨htaken, hquiet⟩ := hat
  have ht := startIf_ticked h.indexed tm3 (decide (m.audio.a_used > 0))
  have hnext := h.adjusted ht
  refine ⟨hnext.indexed, ⟨htaken, ht.guarded hquiet, fun hused => ?_⟩, hnext.stored, hnext.order,
    hnext.caps, hnext.held, hnext.opened, hnext.closing, hnext.closed⟩
  have hused' : 0 < m.audio.a_used := by
    rw [ht.used] at hused
    exact hused
  exact startIf_playing _ _ (decide_eq_true hused')

/-- Every step of a writer keeps the invariant. -/
theorem Sound.advance (h : Sound m) (hcurrent : m.current = some w) (tm3 : UInt16) :
    Sound (m.advance tm3 w) := by
  rw [Machine.advance]
  split
  · exact h.check hcurrent ‹_›
  · exact h.await hcurrent ‹_› tm3
  · exact h.room hcurrent ‹_›
  · exact h.copied hcurrent ‹_›
  · exact h.takePairs hcurrent ‹_›
  · exact h.mirrored hcurrent ‹_›
  · exact h.mirrorEnd hcurrent ‹_›
  · exact h.commit hcurrent ‹_› tm3
  · exact h.out hcurrent ‹_› tm3

/-! ## The other entry points -/

/-- An open that finds the device open asks for as many channels as it has, or for no device. -/
def OpenFits (minor : Nat) (a : Driver) : Prop :=
  a.audio_open = true → ∀ mode, minorMode minor = some mode → mode.2 = a.audio_stereo

theorem Sound.idle (h : Sound m) (hcurrent : m.current = none) :
    m.taken = [] ∧ Quiet m.audio ∧ (0 < m.audio.a_used → m.audio.audio_playing = true) := by
  have hactive := h.active
  rw [Active, hcurrent] at hactive
  exact hactive

/-- A new stream starts from empty rings. -/
theorem Sound.reopen (h : Sound m) (hcurrent : m.current = none) (hclosed : m.audio.audio_open = false)
    (rate : Nat) (stereo : Bool) :
    Sound { m with
      audio := { m.audio with
        audio_rate := rate
        audio_stereo := stereo
        audio_open := true
        a_rsize := if stereo then ASAMPLES_ST else ASAMPLES
        a_gsize := if stereo then AGUARD_ST else AGUARD
        a_wr := 0
        a_play := 0
        a_used := 0
        a_acc := 0
        audio_playing := false
        abuf := fun _ => 0 }
      held := true } := by
  obtain ⟨htaken, -, -⟩ := h.idle hcurrent
  have hused := h.closed hclosed
  have hnotHeld : ¬ m.held = true := fun hheld =>
    absurd (hclosed.symm.trans (h.opened (.inl hheld))) Bool.false_ne_true
  have hasleep : m.asleep = [] := by
    by_contra hne
    exact hnotHeld (h.held hne)
  have hempty : m.played = m.written := by
    have horder := h.order
    rw [Driver.pending, hused, circRead_zero, List.append_nil] at horder
    exact horder
  have hpos : 0 < if stereo then ASAMPLES_ST else ASAMPLES := by
    cases stereo <;> decide
  have hreserve : 0 + ARESERVE ≤ if stereo then ASAMPLES_ST else ASAMPLES := by
    cases stereo <;> decide
  refine ⟨⟨⟨rfl, rfl⟩, hpos, hpos, hreserve, (Nat.zero_mod _).symm⟩, ?_, h.stored, ?_, ?_, fun _ => rfl,
    fun _ => rfl, fun hclosing => ?_, fun _ => rfl⟩
  · rw [Active]
    dsimp only
    rw [hcurrent]
    exact ⟨htaken, fun _ _ _ _ _ => rfl, fun hpos => absurd hpos (Nat.lt_irrefl 0)⟩
  · rw [Driver.pending, circRead_zero, List.append_nil]
    exact hempty
  · intro w hw
    rw [hasleep] at hw
    exact absurd hw List.not_mem_nil
  · exact absurd (hclosed.symm.trans (h.opened (.inr hclosing))) Bool.false_ne_true

theorem Sound.open (h : Sound m) (hcurrent : m.current = none) {minor : Nat}
    (hfits : OpenFits minor m.audio) :
    Sound { m with
      audio := (audioopen minor m.audio).2
      held := m.held || decide ((audioopen minor m.audio).1 = .ok) } := by
  rw [audioopen]
  cases hmode : minorMode minor with
  | none =>
      have hheld : (m.held || decide (Errno.enxio = .ok)) = m.held := Bool.or_false _
      dsimp only
      rw [hheld]
      exact h
  | some mode =>
      obtain ⟨rate, stereo⟩ := mode
      dsimp only
      split
      · rename_i hopen
        have hstereo : stereo = m.audio.audio_stereo := hfits hopen _ hmode
        have hheld : (m.held || decide (Errno.ebusy = .ok)) = m.held := Bool.or_false _
        rw [hheld]
        refine h.adjusted ⟨rfl, hstereo, rfl, rfl, rfl, rfl, Nat.zero_le _, rfl,
          (Nat.mod_eq_of_lt h.indexed.play_lt).symm, fun _ hplaying => hplaying⟩
      · rename_i hopen
        have hheld : (m.held || decide (Errno.ok = .ok)) = true := Bool.or_true _
        rw [hheld]
        exact h.reopen hcurrent (Bool.eq_false_of_not_eq_true hopen) rate stereo

theorem Sound.asleepSublist {asleep : List Writer} (h : Sound m) (hsub : asleep.Sublist m.asleep) :
    Sound { m with asleep := asleep } := by
  refine ⟨h.indexed, h.active, h.stored, h.order, fun w hw => h.caps w (hsub.subset hw), fun hne => ?_,
    h.opened, h.closing, h.closed⟩
  exact h.held fun hnil => hne (List.sublist_nil.mp (hnil ▸ hsub))

/-- A writer that was asleep or has just called has the processor. -/
theorem Sound.dispatch (h : Sound m) (hcurrent : m.current = none) (hheld : m.held = true)
    (hcap : w.cap + ARESERVE = m.audio.a_rsize) (hphase : w.phase = .check ∨ w.phase = .wait) :
    Sound { m with current := some w } := by
  obtain ⟨htaken, hquiet, -⟩ := h.idle hcurrent
  refine ⟨h.indexed, ⟨hcap, hheld, ?_⟩, h.stored, h.order, h.caps, h.held, h.opened, h.closing, h.closed⟩
  rcases hphase with hcheck | hwait
  · rw [hcheck]
    exact ⟨htaken, hquiet⟩
  · rw [hwait]
    exact ⟨htaken, hquiet⟩

theorem Sound.write (h : Sound m) (hcurrent : m.current = none) (hheld : m.held = true)
    (uio : List (List UInt8)) : Sound { m with current := some (audiowrite uio m.audio) } := by
  have hroom := h.indexed.used_le
  refine h.dispatch hcurrent hheld ?_ (.inl rfl)
  exact Nat.sub_add_cancel (Nat.le_trans (Nat.le_add_left ..) hroom)

theorem Sound.alone (h : Sound m) (hheld : m.held = false) : m.current = none ∧ m.asleep = [] := by
  constructor
  · cases hcurrent : m.current with
    | none => rfl
    | some w => exact absurd (hheld.symm.trans (h.at hcurrent).2.1) Bool.false_ne_true
  · by_contra hne
    exact absurd (hheld.symm.trans (h.held hne)) Bool.false_ne_true

theorem Sound.close (h : Sound m) (hcurrent : m.current = none) (hasleep : m.asleep = [])
    (hheld : m.held = true) : Sound { m with held := false, closing := true } := by
  have hopen := h.opened (.inl hheld)
  refine ⟨h.indexed, ?_, h.stored, h.order, h.caps, fun hne => absurd hasleep hne, fun _ => hopen,
    fun _ => rfl, h.closed⟩
  rw [Active]
  dsimp only
  rw [hcurrent]
  exact h.idle hcurrent

/-- When `audioclose` is through, all that was written has been played. -/
theorem Sound.finish (h : Sound m) (hclosing : m.closing = true) : Sound m.finish := by
  obtain ⟨hcurrent, hasleep⟩ := h.alone (h.closing hclosing)
  obtain ⟨htaken, hquiet, hplaying⟩ := h.idle hcurrent
  rw [Machine.finish]
  split
  · exact h
  · rename_i hdone
    have hused : m.audio.a_used = 0 := by
      by_contra hne
      exact hdone ⟨hplaying (Nat.pos_of_ne_zero hne), Nat.pos_of_ne_zero hne⟩
    refine ⟨{ h.indexed with }, ?_, h.stored, h.order, h.caps, h.held, fun hopen => ?_,
      fun h => absurd h Bool.false_ne_true, fun _ => hused⟩
    · rw [Active]
      dsimp only
      rw [hcurrent]
      exact ⟨htaken, hquiet, fun hpos => absurd hused (Nat.ne_of_gt hpos)⟩
    · rcases hopen with hheld | hclosing'
      · exact absurd ((h.closing hclosing).symm.trans hheld) Bool.false_ne_true
      · exact absurd hclosing' Bool.false_ne_true

/-! ## Whole runs -/

/-- An event whose open, if it is one, fits. -/
def FittingStep (m : Machine) (event : Event) (m' : Machine) : Prop :=
  (∀ minor, event = .open minor → OpenFits minor m.audio) ∧ step m event = some m'

theorem Sound.step {event : Event} {m' : Machine} (h : Sound m) (hstep : FittingStep m event m') :
    Sound m' := by
  obtain ⟨hfits, hstep⟩ := hstep
  cases event with
  | tick now =>
      cases hstep
      exact h.tick now
  | «open» minor =>
      rw [Audio.step] at hstep
      split at hstep
      · rename_i hidle
        cases hstep
        exact h.open (Option.isNone_iff_eq_none.mp hidle) (hfits minor rfl)
      · exact absurd hstep (by simp)
  | setrate rate =>
      cases hstep
      exact h.adjusted ⟨rfl, rfl, rfl, rfl, rfl, rfl, Nat.zero_le _, rfl,
        (Nat.mod_eq_of_lt h.indexed.play_lt).symm, fun _ hplaying => hplaying⟩
  | write uio =>
      rw [Audio.step] at hstep
      split at hstep
      · rename_i hidle
        cases hstep
        exact h.write (Option.isNone_iff_eq_none.mp hidle.1) hidle.2 uio
      · exact absurd hstep (by simp)
  | run tm3 =>
      obtain ⟨w, hcurrent, rfl⟩ := Option.map_eq_some_iff.mp hstep
      exact h.advance hcurrent tm3
  | wakeup i =>
      rw [Audio.step] at hstep
      split at hstep
      · rename_i hidle
        obtain ⟨w, hw, rfl⟩ := Option.map_eq_some_iff.mp hstep
        have hmem := List.mem_of_getElem? hw
        obtain ⟨hcap, hphase⟩ := h.caps w hmem
        have hsub := h.asleepSublist (List.eraseIdx_sublist m.asleep i)
        exact hsub.dispatch (Option.isNone_iff_eq_none.mp hidle) (h.held (List.ne_nil_of_mem hmem)) hcap
          (.inr hphase)
      · exact absurd hstep (by simp)
  | signal i =>
      cases hstep
      exact h.asleepSublist (List.eraseIdx_sublist m.asleep i)
  | close =>
      rw [Audio.step] at hstep
      split at hstep
      · rename_i hlast
        cases hstep
        exact h.close (Option.isNone_iff_eq_none.mp hlast.1) (List.isEmpty_iff.mp hlast.2.1) hlast.2.2
      · exact absurd hstep (by simp)
  | finish =>
      rw [Audio.step] at hstep
      split at hstep
      · rename_i hclosing
        cases hstep
        exact h.finish hclosing
      · exact absurd hstep (by simp)
  | giveUp =>
      rw [Audio.step] at hstep
      split at hstep
      · rename_i hclosing
        cases hstep
        exact ⟨h.indexed, h.active, h.stored, h.order, h.caps, h.held,
          fun _ => h.opened (.inr hclosing), fun h => absurd h Bool.false_ne_true, h.closed⟩
      · exact absurd hstep (by simp)

theorem start_sound : Sound start where
  indexed := ⟨⟨rfl, rfl⟩, by decide, by decide, by decide, rfl⟩
  active := ⟨rfl, fun _ _ _ _ _ => rfl, fun hpos => absurd hpos (Nat.lt_irrefl 0)⟩
  stored := fun _ hi => absurd hi List.not_mem_nil
  order := rfl
  caps := fun _ hw => absurd hw List.not_mem_nil
  held := fun hne => absurd rfl hne
  opened := fun h => h.elim (absurd · Bool.false_ne_true) (absurd · Bool.false_ne_true)
  closing := fun h => absurd h Bool.false_ne_true
  closed := fun _ => rfl

/-- The index of the store that the writer makes next. -/
def Machine.nextStore (m : Machine) : Option Nat :=
  match m.current with
  | some { phase := .copy _ _ ((i, _) :: _), .. } => some i
  | some { phase := .mirror _ ((_, dst) :: _), .. } => some dst
  | _ => none

/-- A place of the run that the writer is working on. -/
def Machine.Writing (m : Machine) (i : Nat) : Prop :=
  match m.current with
  | some { phase := .copy n _ _, .. } => InRun m.audio n i
  | some { phase := .mirror n _, .. } => InRun m.audio n i
  | _ => False

/-- The ring as the writers and the interrupt leave it. -/
structure RingSound (m : Machine) : Prop where
  stored : ∀ i ∈ m.stored, i < ASAMPLES + AGUARD
  wr_eq : m.audio.a_wr = (m.audio.a_play + m.audio.a_used) % m.audio.a_rsize
  wr_lt : m.audio.a_wr < m.audio.a_rsize
  play_lt : m.audio.a_play < m.audio.a_rsize
  used_le : m.audio.a_used ≤ m.audio.a_rsize - ARESERVE
  apart : m.audio.audio_stereo = true → ∀ i < m.audio.a_rsize + m.audio.a_gsize,
    ∀ j < m.audio.a_rsize + m.audio.a_gsize, i ≠ HALF + j
  guard : ∀ base ∈ bases m.audio.audio_stereo, ∀ i < m.audio.a_gsize, ¬ m.Writing i →
    m.audio.abuf (base + (m.audio.a_rsize + i)) = m.audio.abuf (base + i)
  order : m.played ++ m.audio.pending = m.written
  kept : ∀ i, m.nextStore = some i → ∀ k < m.audio.a_used, ∀ base ∈ bases m.audio.audio_stereo,
    i ≠ base + (m.audio.a_play + k) % m.audio.a_rsize

theorem Sound.guard (h : Sound m) {base : Nat} (hbase : base ∈ bases m.audio.audio_stereo) {i : Nat}
    (hi : i < m.audio.a_gsize) (hout : ¬ m.Writing i) :
    m.audio.abuf (base + (m.audio.a_rsize + i)) = m.audio.abuf (base + i) := by
  rw [Machine.Writing] at hout
  cases hcurrent : m.current with
  | none => exact (h.idle hcurrent).2.1 base hbase i hi not_false
  | some w =>
      obtain ⟨uio, prebuf, cap, phase⟩ := w
      obtain ⟨-, -, hat⟩ := h.at hcurrent
      rw [hcurrent] at hout
      cases phase with
      | check => exact hat.2 base hbase i hi not_false
      | wait => exact hat.2 base hbase i hi not_false
      | out => exact hat.2 base hbase i hi not_false
      | room free => exact hat.2.1 base hbase i hi not_false
      | commit n => exact hat.2.2 base hbase i hi not_false
      | copy n done todo => exact hat.guarded base hbase i hi hout
      | mirror n todo =>
          refine (hat.guarded base hbase i hi).resolve_right fun hmem => ?_
          obtain ⟨base', hbase', j, hj, hrun, hp⟩ := hat.copies _ hmem
          obtain ⟨-, rfl⟩ := bases_apart hbase hbase' (h.indexed.within (by omega))
            (h.indexed.within (by omega)) (Prod.mk.inj hp).1
          exact hout hrun

/-- The next store is to a place of the run or to a guard. -/
theorem Sound.kept (h : Sound m) {i : Nat} (hi : m.nextStore = some i) {k : Nat}
    (hk : k < m.audio.a_used) {base : Nat} (hbase : base ∈ bases m.audio.audio_stereo) :
    i ≠ base + (m.audio.a_play + k) % m.audio.a_rsize := by
  have hpos : 0 < m.audio.a_rsize := Nat.lt_of_le_of_lt (Nat.zero_le _) h.indexed.play_lt
  have hlt : (m.audio.a_play + k) % m.audio.a_rsize < m.audio.a_rsize := Nat.mod_lt _ hpos
  intro heq
  rw [Machine.nextStore] at hi
  split at hi
  · rename_i hcurrent
    obtain ⟨-, -, hat⟩ := h.at hcurrent
    obtain ⟨base', hbase', j, hj, hp⟩ := hat.stores _ (List.mem_cons_self ..)
    obtain rfl := Option.some.inj hi
    have hjlt : j < m.audio.a_rsize := Nat.lt_of_lt_of_le hj.2 hat.run.straight
    obtain ⟨-, hsame⟩ := bases_apart hbase' hbase (h.indexed.within (by omega))
      (h.indexed.within (by omega)) (hp.symm.trans heq)
    exact hat.run.apart h.indexed hj hk hsame.symm
  · rename_i hcurrent
    obtain ⟨-, -, hat⟩ := h.at hcurrent
    obtain ⟨base', hbase', j, hj, -, hp⟩ := hat.copies _ (List.mem_cons_self ..)
    obtain rfl := Option.some.inj hi
    obtain ⟨-, hsame⟩ := bases_apart hbase' hbase (h.indexed.within (by omega))
      (h.indexed.within (by omega)) ((Prod.mk.inj hp).2.symm.trans heq)
    omega
  · exact absurd hi (by simp)

theorem Sound.ringSound (h : Sound m) : RingSound m where
  stored := h.stored
  wr_eq := h.indexed.wr_eq
  wr_lt := h.indexed.wr_lt
  play_lt := h.indexed.play_lt
  used_le := Nat.le_sub_of_add_le h.indexed.used_le
  apart := by
    intro hstereo i hi j hj heq
    have hhalf : HALF = 5120 := rfl
    have hwithin := h.indexed.within hi hstereo
    omega
  guard := fun _ hbase _ hi hout => h.guard hbase hi hout
  order := h.order
  kept := fun _ hi _ hk _ hbase => h.kept hi hk hbase

/-- In every run from `audio_init` on, with any opens that fit, the ring is sound. -/
theorem ring_sound {events : List Event} (hrun : Steps FittingStep start events m) : RingSound m :=
  (Steps.invariant Sound (fun _ _ _ => Sound.step) hrun start_sound).ringSound

/-- A run without opens fits. -/
theorem fitting_of_not_open {events : List Event} {m' : Machine}
    (hrun : Steps (Steps.Of Audio.step) m events m') (hopen : ∀ minor, .open minor ∉ events) :
    Steps FittingStep m events m' := by
  induction hrun with
  | refl m => exact .refl m
  | @cons m event m₁ events m' hstep _ ih =>
      have hfirst : FittingStep m event m₁ :=
        ⟨fun minor heq => absurd (heq ▸ List.mem_cons_self ..) (hopen minor), hstep⟩
      exact .cons hfirst (ih fun minor hmem => hopen minor (List.mem_cons_of_mem _ hmem))

/-- The device is opened in mono, another open fails, and a byte is written and played. -/
def byteEvents : List Event :=
  [.open 0, .open 1, .write [[7]]] ++ List.replicate 10 (.run 0) ++ [.tick 1]

theorem ring_sound_byte : ∃ m, Steps FittingStep start byteEvents m ∧ m.played = [[7]] ∧ RingSound m := by
  have hplayed : (byteEvents.foldlM Audio.step start).map Machine.played = some [[7]] := by
    decide +kernel
  obtain ⟨m, hm, hplayed⟩ := Option.map_eq_some_iff.mp hplayed
  have hrun := Steps.of_foldlM hm
  have hfitting : Steps FittingStep start byteEvents m := by
    cases hrun with
    | cons hfirst hrest =>
        cases hfirst
        cases hrest with
        | cons hsecond hrest =>
            cases hsecond
            refine .cons ⟨fun _ _ hopen => absurd hopen (by decide), rfl⟩
              (.cons ⟨fun minor heq _ mode hmode => ?_, rfl⟩ (fitting_of_not_open hrest (by simp)))
            cases heq
            cases hmode
            rfl
  exact ⟨m, hfitting, hplayed, ring_sound hfitting⟩

/-- The device is opened in mono, a failing open selects stereo, and a pair is written. -/
def pairEvents : List Event := [.open 0, .open 2, .write [[1, 2]]] ++ List.replicate 9 (.run 0)

/-- The copy of the right sample is stored behind the end of `abuf`. -/
theorem ring_escapes :
    (audioopen 2 (audioopen 0 audio_init).2).1 = .ebusy ∧
      ∃ m, Steps (Steps.Of step) start pairEvents m ∧ 14336 ∈ m.stored ∧ ¬ 14336 < ASAMPLES + AGUARD := by
  have hstored : (pairEvents.foldlM step start).map Machine.stored = some [14336, 9216, 5120, 0] := by
    decide +kernel
  obtain ⟨m, hm, hstored⟩ := Option.map_eq_some_iff.mp hstored
  refine ⟨by decide, m, Steps.of_foldlM hm, ?_, by decide⟩
  rw [hstored]
  exact List.mem_cons_self ..

end DiscoBsd.Audio
