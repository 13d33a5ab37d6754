import DiscoBsd.Audio.Driver

/-!
# The invariant of the ring

`Sound` says what holds between any two events, for each place where a writer may be. The frames that
are played and those in the ring are the frames that were written, in order.
-/

namespace DiscoBsd.Audio

open Kern Lib

variable {a a' : Driver} {m : Machine} {w : Writer} {stereo : Bool} {abuf : Nat → UInt8}

/-! ## Rings and frames -/

/-- The rings have the sizes for the number of channels. -/
structure Sized (a : Driver) : Prop where
  rsize : a.a_rsize = if a.audio_stereo then ASAMPLES_ST else ASAMPLES
  gsize : a.a_gsize = if a.audio_stereo then AGUARD_ST else AGUARD

theorem Sized.cases (h : Sized a) :
    (a.audio_stereo = false ∧ a.a_rsize = 9216 ∧ a.a_gsize = 1024) ∨
      (a.audio_stereo = true ∧ a.a_rsize = 4608 ∧ a.a_gsize = 512) := by
  obtain ⟨hrsize, hgsize⟩ := h
  cases hstereo : a.audio_stereo with
  | false =>
      rw [hstereo] at hrsize hgsize
      exact .inl ⟨rfl, hrsize, hgsize⟩
  | true =>
      rw [hstereo] at hrsize hgsize
      exact .inr ⟨rfl, hrsize, hgsize⟩

theorem mem_bases {base : Nat} : base ∈ bases stereo ↔ base = 0 ∨ (stereo = true ∧ base = 5120) := by
  cases stereo
  · simp [bases]
  · simp [bases, HALF, ASAMPLES, AGUARD]

/-- A place in a ring with its guard. -/
def Within (stereo : Bool) (i : Nat) : Prop := stereo = true → i < 5120

/-- The rings are apart. -/
theorem bases_apart {base base' i j : Nat} (hbase : base ∈ bases stereo) (hbase' : base' ∈ bases stereo)
    (hi : Within stereo i) (hj : Within stereo j) (h : base + i = base' + j) : base = base' ∧ i = j := by
  rw [mem_bases] at hbase hbase'
  cases stereo with
  | false =>
      simp only [Bool.false_eq_true, false_and, or_false] at hbase hbase'
      omega
  | true =>
      have hi := hi rfl
      have hj := hj rfl
      omega

theorem Sized.within (h : Sized a) {i : Nat} (hi : i < a.a_rsize + a.a_gsize) :
    Within a.audio_stereo i := by
  intro hstereo
  rcases h.cases with ⟨hmono, -⟩ | ⟨-, hrsize, hgsize⟩
  · rw [hmono] at hstereo
    exact absurd hstereo Bool.false_ne_true
  · omega

theorem frame_update {base i j : Nat} (sample : UInt8) (hbase : base ∈ bases stereo)
    (hi : Within stereo i) (hj : Within stereo j) (hne : i ≠ j) :
    frame stereo (Function.update abuf (base + j) sample) i = frame stereo abuf i := by
  refine List.map_congr_left fun base' hbase' => ?_
  refine Function.update_of_ne (fun h => hne ?_) ..
  exact (bases_apart hbase' hbase hi hj h).2

/-- Stores are made one after another. -/
def put (abuf : Nat → UInt8) (todo : List (Nat × UInt8)) : Nat → UInt8 :=
  todo.foldl (fun abuf p => Function.update abuf p.1 p.2) abuf

theorem put_append (abuf : Nat → UInt8) (todo rest : List (Nat × UInt8)) :
    put abuf (todo ++ rest) = put (put abuf todo) rest := List.foldl_append ..

/-- One frame is stored. -/
theorem put_frame {samples : List UInt8} {i j : Nat} (hlength : samples.length = (bases stereo).length)
    (hi : Within stereo i) (hj : Within stereo j) :
    frame stereo (put abuf
        ((bases stereo).zipWith (fun base sample => (base + j, sample)) samples)) i =
      Function.update (frame stereo abuf) j samples i := by
  cases stereo with
  | false =>
      obtain ⟨sample, rfl⟩ := List.length_eq_one_iff.mp hlength
      by_cases h : i = j
      · simp [frame, bases, put, h]
      · simp [frame, bases, put, h]
  | true =>
      obtain ⟨l, r, rfl⟩ := List.length_eq_two.mp hlength
      have hi := hi rfl
      have hj := hj rfl
      have hhalf : HALF = 5120 := rfl
      by_cases h : i = j
      · simp [frame, bases, put, h, hhalf, Function.update_apply]
      · have hright : ¬ i = 5120 + j := by omega
        have hleft : ¬ 5120 + i = j := by omega
        simp [frame, bases, put, h, hhalf, Function.update_apply, hright, hleft]

/-- Every frame has a sample for each channel. -/
def Whole (stereo : Bool) (fs : List (List UInt8)) : Prop :=
  ∀ samples ∈ fs, samples.length = (bases stereo).length

/-- Frames are stored in the ring, short of its end. -/
theorem put_frames {fs : List (List UInt8)} {rsize i j : Nat} (hfs : Whole stereo fs)
    (hrsize : ∀ i < rsize, Within stereo i) (hj : j + fs.length ≤ rsize) (hi : i < rsize) :
    frame stereo (put abuf (frameStores stereo j fs)) i =
      circWrite rsize (frame stereo abuf) j fs i := by
  induction fs generalizing abuf j with
  | nil => rfl
  | cons samples fs ih =>
      rw [List.length_cons] at hj
      have hjlt : j < rsize := by omega
      have hwhole : Whole stereo fs := fun f hf => hfs f (List.mem_cons_of_mem _ hf)
      rw [frameStores, put_append, ih hwhole (by omega), circWrite, Nat.mod_eq_of_lt hjlt]
      exact circWrite_congr
        (fun k hk => put_frame (hfs samples (List.mem_cons_self ..)) (hrsize k hk) (hrsize j hjlt)) hi

/-- The stores of frames are in a run. -/
theorem mem_frameStores {fs : List (List UInt8)} {j : Nat} {p : Nat × UInt8}
    (h : p ∈ frameStores stereo j fs) :
    ∃ base ∈ bases stereo, ∃ i, j ≤ i ∧ i < j + fs.length ∧ p.1 = base + i := by
  induction fs generalizing j with
  | nil => exact absurd h List.not_mem_nil
  | cons samples fs ih =>
      rw [List.length_cons]
      rcases List.mem_append.mp h with hfirst | hrest
      · obtain ⟨k, hk, rfl⟩ := List.mem_iff_getElem.mp hfirst
        rw [List.length_zipWith] at hk
        have hbase : k < (bases stereo).length := Nat.lt_of_lt_of_le hk (Nat.min_le_left ..)
        refine ⟨(bases stereo)[k], List.getElem_mem hbase, j, Nat.le_refl j, by omega, ?_⟩
        rw [List.getElem_zipWith]
      · obtain ⟨base, hbase, i, hlow, hhigh, hp⟩ := ih hrest
        exact ⟨base, hbase, i, by omega, by omega, hp⟩

theorem frames_mono (samples : List UInt8) :
    Whole false (frames false samples) ∧ (frames false samples).length = samples.length := by
  induction samples with
  | nil => exact ⟨fun _ h => absurd h List.not_mem_nil, rfl⟩
  | cons l samples ih =>
      have hcons : frames false (l :: samples) = [l] :: frames false samples := by
        cases samples <;> rfl
      rw [hcons]
      refine ⟨fun f hf => ?_, by rw [List.length_cons, List.length_cons, ih.2]⟩
      rcases List.mem_cons.mp hf with rfl | hrest
      · rfl
      · exact ih.1 f hrest

theorem frames_stereo (n : Nat) {samples : List UInt8} (h : samples.length = n * 2) :
    Whole true (frames true samples) ∧ (frames true samples).length = n := by
  induction n generalizing samples with
  | zero =>
      obtain rfl := List.length_eq_zero_iff.mp (h.trans (Nat.zero_mul 2))
      exact ⟨fun _ h => absurd h List.not_mem_nil, rfl⟩
  | succ n ih =>
      match samples, h with
      | [_], h =>
          rw [List.length_singleton] at h
          omega
      | l :: r :: samples, h =>
          simp only [List.length_cons] at h
          obtain ⟨hwhole, hlength⟩ := ih (show samples.length = n * 2 by omega)
          have hcons : frames true (l :: r :: samples) = [l, r] :: frames true samples := rfl
          rw [hcons, List.length_cons, hlength]
          refine ⟨fun f hf => ?_, rfl⟩
          rcases List.mem_cons.mp hf with rfl | hrest
          · rfl
          · exact hwhole f hrest

/-! ## The invariant -/

/-- The indices of the ring are in step. -/
structure Indexed (a : Driver) : Prop extends Sized a where
  wr_lt : a.a_wr < a.a_rsize
  play_lt : a.a_play < a.a_rsize
  used_le : a.a_used + ARESERVE ≤ a.a_rsize
  wr_eq : a.a_wr = (a.a_play + a.a_used) % a.a_rsize

/-- The guards are copies of the starts of their rings, but for some places. -/
def Guarded (a : Driver) (except : Nat → Prop) : Prop :=
  ∀ base ∈ bases a.audio_stereo, ∀ i < a.a_gsize, ¬ except i →
    a.abuf (base + (a.a_rsize + i)) = a.abuf (base + i)

/-- A place of the run that is being written. -/
def InRun (a : Driver) (n i : Nat) : Prop := a.a_wr ≤ i ∧ i < a.a_wr + n

/-- A run fits into the ring and stops short of its end. -/
structure Run (a : Driver) (n : Nat) : Prop where
  room : a.a_used + n + ARESERVE ≤ a.a_rsize
  straight : a.a_wr + n ≤ a.a_rsize

/-- The frames from the write index on. -/
def Driver.ahead (a : Driver) (abuf : Nat → UInt8) (n : Nat) : List (List UInt8) :=
  circRead a.a_rsize (frame a.audio_stereo abuf) a.a_wr n

variable {taken : List (List UInt8)} {uio : List (List UInt8)}

/-- The stores that are still to be made put the frames taken into the run. -/
structure Copying (a : Driver) (taken : List (List UInt8)) (uio : List (List UInt8)) (n done : Nat)
    (todo : List (Nat × UInt8)) : Prop where
  run : Run a n
  done_le : done ≤ n
  mono : a.audio_stereo = false → done = n
  input : (n - done) * 2 ≤ resid uio
  stores : ∀ p ∈ todo, ∃ base ∈ bases a.audio_stereo, ∃ i, InRun a n i ∧ p.1 = base + i
  taken : a.ahead (put a.abuf todo) done = taken
  guarded : Guarded a (InRun a n)

/-- The bytes that are still to be copied bring the guards up to date. -/
structure Mirroring (a : Driver) (taken : List (List UInt8)) (n : Nat) (todo : List (Nat × Nat)) :
    Prop where
  run : Run a n
  taken : a.ahead a.abuf n = taken
  copies : ∀ p ∈ todo, ∃ base ∈ bases a.audio_stereo, ∃ i < a.a_gsize,
    InRun a n i ∧ p = (base + i, base + (a.a_rsize + i))
  guarded : ∀ base ∈ bases a.audio_stereo, ∀ i < a.a_gsize,
    a.abuf (base + (a.a_rsize + i)) = a.abuf (base + i) ∨ (base + i, base + (a.a_rsize + i)) ∈ todo

/-- The guards outside a run. -/
def Quiet (a : Driver) : Prop := Guarded a fun _ => False

/-- What holds where a writer is. -/
def At (a : Driver) (taken uio : List (List UInt8)) : Phase → Prop
  | .check | .wait | .out => taken = [] ∧ Quiet a
  | .room free => taken = [] ∧ Quiet a ∧ a.a_used + free + ARESERVE ≤ a.a_rsize
  | .copy n done todo => Copying a taken uio n done todo
  | .mirror n todo => Mirroring a taken n todo
  | .commit n => Run a n ∧ a.ahead a.abuf n = taken ∧ Quiet a

/-- The writer that has the processor, if there is one. -/
def Active (m : Machine) : Prop :=
  match m.current with
  | none => m.taken = [] ∧ Quiet m.audio ∧ (0 < m.audio.a_used → m.audio.audio_playing = true)
  | some w => w.cap + ARESERVE = m.audio.a_rsize ∧ m.held = true ∧ At m.audio m.taken w.uio w.phase

/-- What holds between two events. -/
structure Sound (m : Machine) : Prop where
  indexed : Indexed m.audio
  active : Active m
  stored : ∀ i ∈ m.stored, i < ASAMPLES + AGUARD
  order : m.played ++ m.audio.pending = m.written
  caps : ∀ w ∈ m.asleep, w.cap + ARESERVE = m.audio.a_rsize ∧ w.phase = .wait
  held : m.asleep ≠ [] → m.held = true
  opened : m.held = true ∨ m.closing = true → m.audio.audio_open = true
  closing : m.closing = true → m.held = false
  closed : m.audio.audio_open = false → m.audio.a_used = 0

/-! ## The interrupt -/

/-- A change of the driver that plays frames and leaves the rings alone. -/
structure Ticked (k : Nat) (a a' : Driver) : Prop where
  isOpen : a'.audio_open = a.audio_open
  stereo : a'.audio_stereo = a.audio_stereo
  rsize : a'.a_rsize = a.a_rsize
  gsize : a'.a_gsize = a.a_gsize
  wr : a'.a_wr = a.a_wr
  abuf : a'.abuf = a.abuf
  le : k ≤ a.a_used
  used : a'.a_used = a.a_used - k
  play : a'.a_play = (a.a_play + k) % a.a_rsize
  playing : 0 < a'.a_used → a.audio_playing = true → a'.audio_playing = true

theorem tick_spec (h : Indexed a) (now : UInt16) : Ticked (audio_tick now a).1 a (audio_tick now a).2 := by
  have hnone : ∀ acc : Nat, ∀ tm3 : UInt16, Ticked 0 a { a with a_last_tm3 := tm3, a_acc := acc } :=
    fun acc tm3 => ⟨rfl, rfl, rfl, rfl, rfl, rfl, Nat.zero_le _, rfl,
      (Nat.mod_eq_of_lt h.play_lt).symm, fun _ hplaying => hplaying⟩
  rw [audio_tick]
  split
  · exact hnone a.a_acc a.a_last_tm3
  · dsimp only
    generalize (a.a_acc + elapsed now a.a_last_tm3 * a.audio_rate * TICKS_CNT) % 4294967296 = acc
    generalize acc / TCLK = nsamp
    split
    · exact hnone _ _
    · split
      · exact ⟨rfl, rfl, rfl, rfl, rfl, rfl, Nat.le_refl _, (Nat.sub_self _).symm, h.wr_eq,
          fun hused => absurd hused (Nat.lt_irrefl 0)⟩
      · rename_i hsome
        have hused := h.used_le
        have hplay := h.play_lt
        refine ⟨rfl, rfl, rfl, rfl, rfl, rfl, by omega, rfl, ?_, fun _ hplaying => hplaying⟩
        dsimp only
        split
        · rename_i hwrap
          rw [Nat.mod_eq_sub_mod hwrap, Nat.mod_eq_of_lt (by omega)]
        · rename_i hshort
          rw [Nat.mod_eq_of_lt (by omega)]

theorem Ticked.indexed {k : Nat} (ht : Ticked k a a') (h : Indexed a) : Indexed a' := by
  have hk := ht.le
  have hused := h.used_le
  have hpos : 0 < a.a_rsize := Nat.lt_of_le_of_lt (Nat.zero_le _) h.play_lt
  refine ⟨⟨?_, ?_⟩, ?_, ?_, ?_, ?_⟩
  · rw [ht.rsize, ht.stereo, h.rsize]
  · rw [ht.gsize, ht.stereo, h.gsize]
  · rw [ht.wr, ht.rsize]
    exact h.wr_lt
  · rw [ht.play, ht.rsize]
    exact Nat.mod_lt _ hpos
  · rw [ht.used, ht.rsize]
    omega
  · rw [ht.wr, ht.play, ht.used, ht.rsize, Nat.mod_add_mod, h.wr_eq]
    congr 1
    omega

theorem Ticked.pending {k : Nat} (ht : Ticked k a a') :
    circRead a.a_rsize (frame a.audio_stereo a.abuf) a.a_play k ++ a'.pending = a.pending := by
  have hk : k + a'.a_used = a.a_used := by
    rw [ht.used]
    exact Nat.add_sub_cancel' ht.le
  rw [Driver.pending, Driver.pending, ht.rsize, ht.stereo, ht.abuf, ht.play, circRead_mod,
    ← circRead_add, hk]

theorem Ticked.run {k n : Nat} (ht : Ticked k a a') (h : Run a n) : Run a' n := by
  have hroom := h.room
  refine ⟨?_, ?_⟩
  · rw [ht.used, ht.rsize]
    omega
  · rw [ht.wr, ht.rsize]
    exact h.straight

theorem Ticked.ahead {k : Nat} (ht : Ticked k a a') (abuf : Nat → UInt8) (n : Nat) :
    a'.ahead abuf n = a.ahead abuf n := by
  rw [Driver.ahead, Driver.ahead, ht.rsize, ht.stereo, ht.wr]

theorem Ticked.guarded {k : Nat} {except : Nat → Prop} (ht : Ticked k a a') (h : Guarded a except) :
    Guarded a' except := by
  intro base hbase i hi hexcept
  rw [ht.stereo] at hbase
  rw [ht.gsize] at hi
  rw [ht.abuf, ht.rsize]
  exact h base hbase i hi hexcept

theorem Ticked.inRun {k n i : Nat} (ht : Ticked k a a') : InRun a' n i ↔ InRun a n i := by
  rw [InRun, InRun, ht.wr]

/-- A writer may be where it is. -/
theorem Ticked.at {k : Nat} {phase : Phase} (ht : Ticked k a a') (h : At a taken uio phase) :
    At a' taken uio phase := by
  have hquiet : Quiet a → Quiet a' := ht.guarded
  cases phase with
  | check => exact ⟨h.1, hquiet h.2⟩
  | wait => exact ⟨h.1, hquiet h.2⟩
  | out => exact ⟨h.1, hquiet h.2⟩
  | room free =>
      obtain ⟨htaken, hq, hroom⟩ := h
      refine ⟨htaken, hquiet hq, ?_⟩
      rw [ht.used, ht.rsize]
      omega
  | copy n done todo =>
      have hcopy : Copying a taken uio n done todo := h
      refine ⟨ht.run hcopy.run, hcopy.done_le, fun hmono => hcopy.mono (ht.stereo ▸ hmono), hcopy.input,
        fun p hp => ?_, ?_, ?_⟩
      · obtain ⟨base, hbase, i, hi, hp⟩ := hcopy.stores p hp
        exact ⟨base, ht.stereo ▸ hbase, i, ht.inRun.mpr hi, hp⟩
      · rw [ht.ahead, ht.abuf]
        exact hcopy.taken
      · exact fun base hbase i hi hexcept =>
          ht.guarded hcopy.guarded base hbase i hi fun hin => hexcept (ht.inRun.mpr hin)
  | mirror n todo =>
      have hmirror : Mirroring a taken n todo := h
      refine ⟨ht.run hmirror.run, ?_, ?_, ?_⟩
      · rw [ht.ahead, ht.abuf]
        exact hmirror.taken
      · intro p hp
        obtain ⟨base, hbase, i, hi, hrun, hp⟩ := hmirror.copies p hp
        exact ⟨base, ht.stereo ▸ hbase, i, ht.gsize ▸ hi, ht.inRun.mpr hrun, ht.rsize ▸ hp⟩
      · rw [ht.stereo, ht.gsize, ht.rsize, ht.abuf]
        exact hmirror.guarded
  | commit n =>
      obtain ⟨hrun, htaken, hq⟩ := h
      refine ⟨ht.run hrun, ?_, hquiet hq⟩
      rw [ht.ahead, ht.abuf]
      exact htaken

/-- The invariant is kept when frames are played. -/
theorem Sound.ticked {k : Nat} (h : Sound m) (ht : Ticked k m.audio a') :
    Sound { m with
      audio := a'
      played := m.played ++ circRead m.audio.a_rsize (frame m.audio.audio_stereo m.audio.abuf)
        m.audio.a_play k } := by
  refine ⟨ht.indexed h.indexed, ?_, h.stored, ?_, fun w hw => ?_, h.held, fun hopen => ?_, h.closing,
    fun hclosed => ?_⟩
  · have hactive := h.active
    rw [Active] at hactive ⊢
    dsimp only
    split at hactive
    · obtain ⟨htaken, hquiet, hplaying⟩ := hactive
      refine ⟨htaken, ht.guarded hquiet, fun hused => ht.playing hused (hplaying ?_)⟩
      have hle : a'.a_used ≤ m.audio.a_used := ht.used ▸ Nat.sub_le ..
      exact Nat.lt_of_lt_of_le hused hle
    · obtain ⟨hcap, hheld, hat⟩ := hactive
      exact ⟨hcap.trans ht.rsize.symm, hheld, ht.at hat⟩
  · dsimp only
    rw [List.append_assoc, ht.pending]
    exact h.order
  · exact ⟨(h.caps w hw).1.trans ht.rsize.symm, (h.caps w hw).2⟩
  · exact ht.isOpen.trans (h.opened hopen)
  · have hused := h.closed (ht.isOpen.symm.trans hclosed)
    dsimp only
    rw [ht.used, hused, Nat.zero_sub]

theorem Sound.tick (h : Sound m) (now : UInt16) : Sound (m.tick now) :=
  h.ticked (tick_spec h.indexed now)

theorem Sound.adjusted (h : Sound m) (ht : Ticked 0 m.audio a') : Sound { m with audio := a' } := by
  have hnext := h.ticked ht
  rw [circRead_zero, List.append_nil] at hnext
  exact hnext

end DiscoBsd.Audio
