import DiscoBsd.Mml.Repeats

/-!
# A channel goes on

A call of `step` comes to an operation that takes time, or to the end of the channel, after finitely
many operations. Only a loop that is played for ever, and has operations of which none takes time, would
keep it: `step_returns`. An operation that takes time takes what its units take at the tempo of the
channel, which is at least 625 microseconds.
-/

namespace DiscoBsd.Mml

open Lib

/-! ## Time -/

/-- The microseconds of `u` units at a tempo, with what the last division left over. -/
def micros (tempo u rem : Nat) : Nat := (u * 625000 + rem) / tempo

/-- What `duration` adds up in turns of 3000 units is what all units take. -/
theorem durationLoop_eq {tempo k u us rem : Nat} (hrem : rem < tempo) (hu : u ≤ k) :
    durationLoop tempo k u us rem = (us + micros tempo u rem, (u * 625000 + rem) % tempo) := by
  induction k generalizing u us rem with
  | zero =>
      obtain rfl : u = 0 := Nat.le_zero.mp hu
      simp [durationLoop, micros, Nat.div_eq_of_lt hrem, Nat.mod_eq_of_lt hrem]
  | succ k ih =>
      by_cases hzero : u = 0
      · subst hzero
        simp [durationLoop, micros, Nat.div_eq_of_lt hrem, Nat.mod_eq_of_lt hrem]
      · have hpos : 0 < tempo := by omega
        obtain ⟨n, hn⟩ : ∃ n, n = min u 3000 * 625000 + rem := ⟨_, rfl⟩
        have hturn : durationLoop tempo (k + 1) u us rem =
            durationLoop tempo k (u - 3000) (us + n / tempo) (n % tempo) := by
          rw [durationLoop, if_neg hzero, hn]
        have hunits : u * 625000 + rem = (u - 3000) * 625000 + n % tempo + tempo * (n / tempo) := by
          have hdiv := Nat.mod_add_div n tempo
          omega
        rw [hturn, ih (Nat.mod_lt n hpos) (by omega), micros, micros, hunits,
          Nat.add_mul_div_left _ _ hpos, Nat.add_mul_mod_self_left, Nat.add_assoc us,
          Nat.add_comm (n / tempo)]

/-- A tempo that is one, and less left over than it. -/
structure Player.InTempo (p : Player) : Prop where
  low : 1 ≤ p.tempo
  high : p.tempo ≤ 1000
  rem : (p.rem : Int) < p.tempo

theorem Player.InTempo.micros_pos {p : Player} (h : p.InTempo) {u : Nat} (hu : 1 ≤ u) (rem : Nat) :
    625 ≤ micros p.tempo.toNat u rem := by
  have hlow := h.low
  have hhigh := h.high
  rw [micros, Nat.le_div_iff_mul_le (by omega)]
  omega

/-- Every channel has a tempo that is one. -/
def Music.InTempo (m : Music) : Prop := ∀ d, (m.pl d).InTempo

section

variable {m m' : Music} {c : Channel}

theorem Music.Calm.us (h : m.Calm m') (d : Channel) : (m'.pl d).us = (m.pl d).us :=
  congrArg (fun p => p.2.2.2) (h d)

theorem Music.Calm.tempo (h : m.Calm m') (d : Channel) : (m'.pl d).tempo = (m.pl d).tempo :=
  congrArg (fun p => p.2.1) (h d)

theorem Music.Calm.rem (h : m.Calm m') (d : Channel) : (m'.pl d).rem = (m.pl d).rem :=
  congrArg (fun p => p.2.2.1) (h d)

theorem Music.InTempo.calm (hm : m.InTempo) (h : m.Calm m') : m'.InTempo := fun d =>
  ⟨by rw [h.tempo d]; exact (hm d).low, by rw [h.tempo d]; exact (hm d).high,
    by rw [h.tempo d, h.rem d]; exact (hm d).rem⟩

theorem Music.InTempo.set (hm : m.InTempo) {p : Player} (hp : p.InTempo) : (m.set c p).InTempo :=
  fun d => by
    by_cases hd : d = c
    · subst hd
      rw [set_pl_self]
      exact hp
    · rw [set_pl_of_ne _ _ hd]
      exact hm d

/-- Channel `c` has played `o`, and its time has moved on by the duration of `o`: its units at the tempo
of the channel, with less than one microsecond left over from before. That is 625 microseconds at
least. -/
def Later (c : Channel) (o : Op) (m m' : Music) : Prop :=
  o.code.Timed ∧ ∃ rem : Nat, (rem : Int) < (m'.pl c).tempo ∧
    625 ≤ micros (m'.pl c).tempo.toNat o.b rem ∧
    (m'.pl c).us = ulong ((m.pl c).us + micros (m'.pl c).tempo.toNat o.b rem)

theorem Later.wait (hm : m.InTempo) (h : m.Calm m') {o : Op} (ho : o.code.Timed) (hb : 1 ≤ o.b) :
    (m'.set c ((m'.pl c).wait o.b)).InTempo ∧ Later c o m (m'.set c ((m'.pl c).wait o.b)) := by
  have hp := (hm.calm h) c
  have hlow := hp.low
  have hrem := hp.rem
  have hwait : (m'.pl c).wait o.b = { m'.pl c with
      us := ulong ((m'.pl c).us + micros (m'.pl c).tempo.toNat o.b (m'.pl c).rem)
      rem := (o.b * 625000 + (m'.pl c).rem) % (m'.pl c).tempo.toNat } := by
    unfold Player.wait
    rw [durationLoop_eq (by omega) le_rfl, Nat.zero_add]
  rw [hwait]
  refine ⟨(hm.calm h).set ⟨hlow, hp.high, ?_⟩, ho, (m'.pl c).rem, ?_, ?_, ?_⟩
  · have hleft := Nat.mod_lt (o.b * 625000 + (m'.pl c).rem)
      (show 0 < (m'.pl c).tempo.toNat by omega)
    show (((o.b * 625000 + (m'.pl c).rem) % (m'.pl c).tempo.toNat : Nat) : Int) < (m'.pl c).tempo
    omega
  · rw [set_pl_self]
    exact hrem
  · rw [set_pl_self]
    exact hp.micros_pos hb _
  · rw [set_pl_self, ← h.us c]

/-- An operation of a list that has been parsed. -/
structure Op.Played (o : Op) : Prop where
  time : o.code.Timed → 1 ≤ o.b
  tempo : o.code = .tempo → 1 ≤ o.a ∧ o.a ≤ 1000

theorem Tune.Good.played {t : Tune} {d : Nat} (h : t.Good d) : ∀ o ∈ t.flat, o.Played := by
  induction t generalizing d with
  | nil => exact fun o ho => absurd ho List.not_mem_nil
  | op o t ih =>
      exact List.forall_mem_cons.mpr ⟨⟨h.1.time, h.1.tempo⟩, ih h.2⟩
  | rep b n t ihb iht =>
      have hbracket : ∀ {code : Code} {a : Int}, code = .rep ∨ code = .endrep →
          (⟨code, a, 0⟩ : Op).Played := by
        intro code a hcode
        obtain rfl | rfl := hcode
        · exact ⟨fun h => absurd h (show ¬Code.rep.Timed by decide), nofun⟩
        · exact ⟨fun h => absurd h (show ¬Code.endrep.Timed by decide), nofun⟩
      refine List.forall_mem_cons.mpr ⟨hbracket (.inl rfl), fun o ho => ?_⟩
      obtain ho | ho := List.mem_append.mp ho
      · exact ihb h.2.2.1 o ho
      · exact List.forall_mem_cons.mpr ⟨hbracket (.inr rfl), iht h.2.2.2⟩ o ho

/-- What an operation does to the times and tempos. -/
theorem carryout_time (song : Song) {o : Op} (ho : o.Played) (hm : m.InTempo) :
    (m.carryout song c o).InTempo ∧ (o.code.Timed → Later c o m (m.carryout song c o)) ∧
      (¬o.code.Timed → ((m.carryout song c o).pl c).us = (m.pl c).us) := by
  by_cases htimed : o.code.Timed
  · have hb := ho.time htimed
    have hlater : (m.carryout song c o).InTempo ∧ Later c o m (m.carryout song c o) := by
      have hcode := htimed
      unfold Music.carryout
      unfold Code.Timed at hcode
      simp only [List.mem_cons, List.not_mem_nil, or_false] at hcode
      obtain h | h | h | h := hcode <;> rw [h]
      · exact Later.wait hm (calm_noteon m c _ _) htimed hb
      · exact Later.wait hm (calm_noteon m c _ _) htimed hb
      · exact Later.wait hm (calm_mute m c) htimed hb
      · exact Later.wait hm (fun _ => rfl) htimed hb
    exact ⟨hlater.1, fun _ => hlater.2, fun h => absurd htimed h⟩
  · by_cases htempo : o.code = .tempo
    · have hall : ∀ d, ((m.carryout song c o).pl d).InTempo ∧
          ((m.carryout song c o).pl d).us = (m.pl d).us := fun d => by
        have htempos := ho.tempo htempo
        have hrem : ((if (m.pl d).tempo ≠ o.a then 0 else (m.pl d).rem : Nat) : Int) < o.a := by
          split
          · omega
          · next hsame =>
              rw [← not_not.mp hsame]
              exact (hm d).rem
        unfold Music.carryout
        simp only [htempo]
        unfold Player.settempo
        simp only
        split <;> exact ⟨⟨htempos.1, htempos.2, hrem⟩, rfl⟩
      exact ⟨fun d => (hall d).1, fun h => absurd h htimed, fun _ => (hall c).2⟩
    · have hcalm : m.Calm (m.carryout song c o) := by
        have hcode : ∀ {code : Code}, o.code = code → code.Timed → False := fun h hcode =>
          htimed (h ▸ hcode)
        unfold Music.carryout
        simp only
        split
        · next h => exact (hcode h (by decide)).elim
        · next h => exact (hcode h (by decide)).elim
        · next h => exact (hcode h (by decide)).elim
        · next h => exact (hcode h (by decide)).elim
        · next h => exact absurd h htempo
        · exact Music.Calm.trans (calm_set m (by rfl)) (calm_modchange _ c)
        · exact Music.Calm.trans (calm_set m (by rfl)) (calm_modchange _ c)
        · exact Music.Calm.trans (calm_set m (by rfl)) (calm_modchange _ c)
        · exact calm_set m rfl
        · exact calm_set m rfl
        · exact calm_set m rfl
        · exact calm_set m rfl
        · exact calm_loadwave m _
        · exact calm_set m rfl
        · exact calm_reg _ _ _
        · exact calm_reg _ _ _
        · exact fun _ => rfl
        · exact fun _ => rfl
        · exact fun _ => rfl
      exact ⟨hm.calm hcalm, fun h => absurd h htimed, fun _ => hcalm.us c⟩

theorem turn_play_mem {ops : List Op} {loops : Int} {p p' : Cursor} {o : Op}
    (h : p.turn ops loops = .play o p') : o ∈ ops := by
  unfold Cursor.turn at h
  cases hget : ops[p.pc]? with
  | none =>
      rw [hget] at h
      simp only at h
      split_ifs at h
  | some q =>
      have hmem : q ∈ ops := List.mem_of_getElem? hget
      rw [hget] at h
      simp only at h
      split at h
      all_goals first
        | (split_ifs at h <;> cases h <;> exact hmem)
        | (cases h; exact hmem)

theorem goto_us (m : Music) (c : Channel) (p : Cursor) : ((m.goto c p).pl c).us = (m.pl c).us := by
  unfold Music.goto
  rw [set_pl_self]

theorem Music.InTempo.goto (hm : m.InTempo) (p : Cursor) : (m.goto c p).InTempo :=
  hm.set ⟨(hm c).low, (hm c).high, (hm c).rem⟩

/-- A call that ends with an operation that takes time has moved the time of its channel on by that. -/
theorem stepLoop_time {song : Song} (hops : ∀ o ∈ song.ops c, o.Played) (n : Nat) (hm : m.InTempo) :
    (stepLoop song c n m).music.InTempo ∧
      ((stepLoop song c n m).outcome = .timed → ∃ o, (stepLoop song c n m).played.getLast? = some o ∧
        Later c o m (stepLoop song c n m).music) := by
  induction n generalizing m with
  | zero => exact ⟨hm, fun h => by cases h⟩
  | succ n ih =>
      rw [stepLoop]
      cases hturn : (m.pl c).cur.turn (song.ops c) song.loops with
      | ended => exact ⟨hm.calm (calm_mute m c), fun h => by cases h⟩
      | outside => exact ⟨hm, fun h => by cases h⟩
      | internal => exact ⟨hm, fun h => by cases h⟩
      | back p =>
          obtain ⟨htempo, hlater⟩ := ih (hm.goto p)
          exact ⟨htempo, fun h => by simpa only [Later, goto_us] using hlater h⟩
      | play o p =>
          obtain ⟨htempo, htimed, hrest⟩ :=
            carryout_time (c := c) song (hops o (turn_play_mem hturn)) (hm.goto (c := c) p)
          simp only [Later, goto_us] at htimed hrest
          by_cases ho : o.code ∈ [Code.note, .slur, .rest, .wait]
          · simp only [if_pos ho]
            exact ⟨htempo, fun _ => ⟨o, rfl, htimed ho⟩⟩
          · simp only [if_neg ho]
            obtain ⟨htempo', hlater⟩ := ih htempo
            refine ⟨htempo', fun h => ?_⟩
            obtain ⟨o', hlast, hlater⟩ := hlater h
            refine ⟨o', ?_, by simpa only [Later, hrest ho] using hlater⟩
            rw [List.getLast?_cons, hlast]
            rfl

theorem Music.InTempo.rebase (hm : m.InTempo) (c : Channel) : (m.rebase c).InTempo := fun d => by
  unfold Music.rebase
  split
  · simp only
    split
    · exact hm d
    · exact ⟨(hm d).low, (hm d).high, (hm d).rem⟩
  · exact hm d

theorem Reached.inTempo {song : Song} (hops : ∀ c, ∀ o ∈ song.ops c, o.Played) {q : Playing}
    (h : Reached song q) : q.music.InTempo := by
  have hstep : ∀ {m : Music} (c : Channel) (n : Nat), m.InTempo → (step song c n m).music.InTempo :=
    fun c n hm => (stepLoop_time (hops c) n (hm.calm (calm_until _ _))).1
  induction h with
  | start =>
      have hfold : ∀ (xs : List Channel) (m : Music), m.Calm (xs.foldl Music.mute m) := by
        intro xs
        induction xs with
        | nil => exact fun _ _ => rfl
        | cons x xs ih => exact fun m => (calm_mute m x).trans (ih _)
      have hinit : (⟨Player.init song, [], 0, 0xff00⟩ : Music).InTempo :=
        fun _ => ⟨show (1 : Int) ≤ 120 by decide, show (120 : Int) ≤ 1000 by decide,
          show ((0 : Nat) : Int) < 120 by decide⟩
      exact hinit.calm ((calm_reg _ _ _).trans ((calm_reg _ _ _).trans
        ((hfold _ _).trans (calm_loadwave _ _))))
  | turn _ hturn ih =>
      cases hturn with
      | @update c t hbest => exact (ih.calm (calm_modtick _ c)).rebase c
      | @timed c t n hbest _ => exact (hstep c n ih).rebase c
      | @ended c t n hbest _ =>
          have hm := hstep c n ih
          refine Music.InTempo.rebase (hm.set ?_) c
          exact ⟨(hm c).low, (hm c).high, (hm c).rem⟩

/-! ## The end of a call -/

/-- With enough turns, the loop of `step` comes to an operation that takes time, or to the end. -/
def Returns (song : Song) (c : Channel) (m : Music) : Prop :=
  ∃ n, (stepLoop song c n m).outcome = .timed ∨ (stepLoop song c n m).outcome = .ended

variable {song : Song} {whole lap t : Tune} {fs : List Frame} {log : List Op}

theorem returns_ended (h : (m.pl c).cur.turn (song.ops c) song.loops = .ended) : Returns song c m :=
  ⟨1, .inr (by rw [stepLoop, h])⟩

theorem returns_back {p : Cursor} (h : (m.pl c).cur.turn (song.ops c) song.loops = .back p)
    (hnext : Returns song c (m.goto c p)) : Returns song c m := by
  obtain ⟨n, hn⟩ := hnext
  exact ⟨n + 1, by rw [stepLoop, h]; exact hn⟩

theorem returns_play {o : Op} {p : Cursor}
    (h : (m.pl c).cur.turn (song.ops c) song.loops = .play o p)
    (hnext : ¬o.code.Timed → Returns song c ((m.goto c p).carryout song c o)) :
    Returns song c m := by
  by_cases ho : o.code ∈ [Code.note, .slur, .rest, .wait]
  · refine ⟨1, .inl ?_⟩
    rw [stepLoop, h]
    simp only [if_pos ho]
  · obtain ⟨n, hn⟩ := hnext ho
    refine ⟨n + 1, ?_⟩
    rw [stepLoop, h]
    simp only [if_neg ho]
    exact hn

theorem carryout_cur (song : Song) (m : Music) (c : Channel) (p : Cursor) (o : Op) :
    (((m.goto c p).carryout song c o).pl c).cur = p := by
  rw [stays_carryout song _ c o c, goto_cur]

/-- A channel comes to the end of its list unless a call ends before. -/
theorem returns_of_end
    (h : Playable (song.ops c) song.loops whole lap (m.pl c).cur log t fs)
    (hend : ∀ m' log', Playable (song.ops c) song.loops whole lap (m'.pl c).cur log' .nil [] →
      (m'.pl c).cur.nloop = (m.pl c).cur.nloop → Returns song c m') : Returns song c m := by
  obtain ⟨k, hk⟩ : ∃ k, t.cost + laterCost fs = k := ⟨_, rfl⟩
  induction k using Nat.strong_induction_on generalizing m t fs log with
  | _ k ih =>
      obtain ⟨rfl, rfl⟩ | ⟨o, p', t', fs', hturn, hplayed⟩ := h.at_.turn song.loops
      · exact hend m log h rfl
      · refine returns_play hturn fun _ => ?_
        have hcost := hplayed.cost
        have hcur := carryout_cur song m c p' o
        refine ih (t'.cost + laterCost fs') (by omega) (by rw [hcur]; exact h.play hplayed)
          (fun m' log' hm' hn => hend m' log' hm' ?_) rfl
        rw [hn, hcur, hplayed.nloop]

/-- A channel before an operation that takes time comes to one. -/
theorem returns_of_timed
    (h : Playable (song.ops c) song.loops whole lap (m.pl c).cur log t fs)
    (htimed : ∃ o ∈ expect t fs, o.code.Timed) : Returns song c m := by
  obtain ⟨k, hk⟩ : ∃ k, t.cost + laterCost fs = k := ⟨_, rfl⟩
  induction k using Nat.strong_induction_on generalizing m t fs log with
  | _ k ih =>
      obtain ⟨q, hq, hqtimed⟩ := htimed
      obtain ⟨rfl, rfl⟩ | ⟨o, p', t', fs', hturn, hplayed⟩ := h.at_.turn song.loops
      · exact absurd hq List.not_mem_nil
      · refine returns_play hturn fun ho => ?_
        have hcost := hplayed.cost
        have hcur := carryout_cur song m c p' o
        refine ih (t'.cost + laterCost fs') (by omega) (by rw [hcur]; exact h.play hplayed)
          ⟨q, ?_, hqtimed⟩ rfl
        rw [hplayed.expect] at hq
        obtain hq | hq := List.mem_append.mp hq
        · have hqo : q = o := List.mem_singleton.mp (List.mem_filter.mp hq).1
          exact absurd (hqo ▸ hqtimed) ho
        · exact hq

theorem timed_unroll {d : Nat} (ht : t.Good d) (h : ∃ o ∈ t.flat, o.code.Timed) :
    ∃ o ∈ t.unroll, o.code.Timed := by
  obtain ⟨q, hq, hqtimed⟩ := h
  refine ⟨q, ?_, hqtimed⟩
  induction t generalizing d with
  | nil => exact hq
  | op o t ih => exact (List.mem_cons.mp hq).elim (fun h => h ▸ List.mem_cons_self) fun h =>
      List.mem_cons_of_mem _ (ih ht.2 h)
  | rep b n t ihb iht =>
      have hbracket : ∀ {code : Code} {a : Int}, q = ⟨code, a, 0⟩ → code = .rep ∨ code = .endrep →
          False := by
        intro code a hqe hcode
        subst hqe
        obtain rfl | rfl := hcode
        · exact (show ¬Code.rep.Timed by decide) hqtimed
        · exact (show ¬Code.endrep.Timed by decide) hqtimed
      obtain ⟨k, hk⟩ : ∃ k, n.toNat = k + 1 := ⟨n.toNat - 1, by have := ht.2.1; omega⟩
      rw [Tune.unroll, hk, List.replicate_succ, List.flatten_cons]
      obtain hfirst | hq := List.mem_cons.mp hq
      · exact (hbracket hfirst (.inl rfl)).elim
      obtain hq | hq := List.mem_append.mp hq
      · exact List.mem_append_left _ (List.mem_append_left _ (ihb ht.2.2.1 hq))
      obtain hlast | hq := List.mem_cons.mp hq
      · exact (hbracket hlast (.inr rfl)).elim
      · exact List.mem_append_right _ (iht ht.2.2.2 hq)

/-- A loop that is played for ever has nothing in it, or something that takes time. -/
def Song.Timely (song : Song) : Prop :=
  0 ≤ song.loops ∨ ∀ c d os, lastLoop 0 (song.ops c) = some (d, os) →
    os = [] ∨ ∃ o ∈ os, o.code.Timed

theorem returns_of_timely (hlap : Lap (song.ops c) song.loops lap) (htimely : song.Timely)
    (h : Playable (song.ops c) song.loops whole lap (m.pl c).cur log t fs) : Returns song c m := by
  obtain hpos | hloop := htimely
  · -- the loops that are left
    obtain ⟨k, hk⟩ : ∃ k, (song.loops - (m.pl c).cur.nloop).toNat = k := ⟨_, rfl⟩
    induction k using Nat.strong_induction_on generalizing m t fs log with
    | _ k ih =>
        refine returns_of_end h fun m' log' hm' hn => ?_
        obtain hended | ⟨p', hback⟩ := hm'.at_.turn_nil song.loops
        · exact returns_ended hended
        · obtain ⟨hnext, hnloop, hless, -⟩ := hm'.back hlap hback
          have hlt := hless hpos
          have hcur := goto_cur m' c p'
          refine returns_back hback (ih _ ?_ (by rw [hcur]; exact hnext) rfl)
          rw [hcur, hnloop]
          omega
  · refine returns_of_end h fun m' log' hm' hn => ?_
    obtain hended | ⟨p', hback⟩ := hm'.at_.turn_nil song.loops
    · exact returns_ended hended
    · obtain ⟨hnext, -, -, d, hlast, hne⟩ := hm'.back hlap hback
      refine returns_back hback (returns_of_timed (by rw [goto_cur]; exact hnext) ?_)
      obtain hnil | htimed := hloop c d _ hlast
      · exact absurd hnil hne
      · obtain ⟨o, ho, hotimed⟩ := timed_unroll hnext.at_.good htimed
        exact ⟨o, List.mem_append_left _ ho, hotimed⟩

end

/-- In every state that a song comes to, a call of `step` ends, and the channel is at its end or its time
has moved on by the duration of the operation that it played last. -/
theorem step_returns {n : Nat} {x : List Char} {s : State} (h : load n x = .ok s) (loops : Int)
    (hloops : (s.song loops).LoopsOutside) (htimely : (s.song loops).Timely) {q : Playing}
    (hq : Reached (s.song loops) q) (c : Channel) :
    ∃ k, (step (s.song loops) c k q.music).outcome = .ended ∨
      (step (s.song loops) c k q.music).outcome = .timed ∧
        ∃ o, (step (s.song loops) c k q.music).played.getLast? = some o ∧
          Later c o q.music (step (s.song loops) c k q.music).music := by
  choose whole hwhole hgood using load_tune h
  choose lap hlap using fun c => hloops.exists_lap (hwhole c) (hgood c)
  have hops : ∀ c, ∀ o ∈ (s.song loops).ops c, o.Played := fun c => by
    rw [show (s.song loops).ops c = (whole c).flat from (hwhole c).symm]
    exact (hgood c).played
  have huntil := calm_until q.music ((q.music.pl c).us / 1000)
  obtain ⟨t, fs, hplayable⟩ := hq.keeping (fun c => ⟨hwhole c, hgood c⟩) hlap c
  obtain ⟨k, hk⟩ := returns_of_timely (m := q.music.until ((q.music.pl c).us / 1000)) (hlap c) htimely
    (by rw [huntil.stays c]; exact hplayable)
  refine ⟨k, hk.symm.imp id fun htimed => ⟨htimed, ?_⟩⟩
  obtain ⟨o, hlast, hlater⟩ := (stepLoop_time (hops c) k ((hq.inTempo hops).calm huntil)).2 htimed
  rw [Later, huntil.us c] at hlater
  exact ⟨o, hlast, hlater⟩

/-- A call of `step` after the first channel went back to its `L`. -/
theorem step_returns_song :
    ∃ s q, load 3 "A[c]2 L e".toList = .ok s ∧ Reached (s.song (-1)) q ∧
      (q.music.pl 0).cur.nloop = 1 ∧
      ∃ k, (step (s.song (-1)) 0 k q.music).outcome = .ended ∨
        (step (s.song (-1)) 0 k q.music).outcome = .timed ∧
          ∃ o, (step (s.song (-1)) 0 k q.music).played.getLast? = some o ∧
            Later 0 o q.music (step (s.song (-1)) 0 k q.music).music := by
  obtain ⟨s, q, hload, hloops, hq, hback⟩ :=
    exists_gone_back 3 4 "A[c]2 L e".toList (-1) (by decide +kernel)
  exact ⟨s, q, hload, hq, hback, step_returns hload (-1)
    (.inr fun c d os hlast => (hloops c _ hlast).1)
    (.inr fun c d os hlast => .inr (hloops c _ hlast).2) hq 0⟩

end DiscoBsd.Mml
