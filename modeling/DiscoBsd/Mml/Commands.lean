import DiscoBsd.Mml.Parse

/-!
# What every command does

A command reads its text, and then adds operations. What it reads it leaves behind, and only brackets
change how many of them are open. `Covers` collects what a property of parsers has to be closed under
for it to hold of every command; `Covers.command` and `Covers.line` say that it does.
-/

namespace DiscoBsd.Mml

open Lib

theorem run_lift {α : Type} (p : Reader α) (s : State) :
    (liftM p : Parser α).run s = (p.run s.text).map fun r => (r.1, { s with text := r.2 }) :=
  rfl

/-- A reader in the parser leaves everything but the text alone. -/
theorem run_lift_eq_ok {α : Type} {p : Reader α} {s s' : State} {a : α} :
    (liftM p : Parser α).run s = .ok (a, s') ↔
      ∃ t, p.run s.text = .ok (a, t) ∧ s' = { s with text := t } := by
  rw [run_lift]
  cases p.run s.text with
  | error e => simp [Except.map]
  | ok r =>
      obtain ⟨b, t⟩ := r
      simp only [Except.map, Except.ok.injEq, Prod.mk.injEq]
      constructor
      · intro h
        exact ⟨t, ⟨h.1, rfl⟩, h.2.symm⟩
      · intro h
        obtain ⟨u, ⟨ha, hu⟩, hs⟩ := h
        subst hu
        exact ⟨ha, hs.symm⟩

theorem require_run {q : Prop} [Decidable q] {msg : String} {t : Text} :
    (require q msg).run t = if q then .ok ((), t) else .error (.fatal t.lineno msg) := by
  unfold require
  split <;> rfl

theorem addop_run {c : Channel} {code : Code} {a : Int} {b : Nat} {s : State} :
    (addop c code a b).run s =
      if b ≤ 65535 then
        if s.counting then .ok ((), s.count c)
        else if int32 (s.ch c).nops = (s.ch c).maxops then
          .error (.fatal s.text.lineno "internal: operation count")
        else if (s.ch c).Inside then .ok ((), s.write c ⟨code, short a, b⟩)
        else .error .outside
      else .error (.fatal s.text.lineno "note too long") := by
  unfold addop
  rw [StateT.run_bind, run_lift, require_run]
  by_cases hb : b ≤ 65535
  · rw [if_pos hb, if_pos hb]
    show StateT.run (if s.counting = true then _ else _) s = _
    split_ifs <;> rfl
  · rw [if_neg hb, if_neg hb]
    rfl

/-- What `addop` does in either pass when it does not fail. -/
theorem addop_eq_ok {c : Channel} {code : Code} {a : Int} {b : Nat} {s s' : State} {u : Unit} :
    (addop c code a b).run s = .ok (u, s') ↔
      b ≤ 65535 ∧
        ((s.counting = true ∧ s' = s.count c) ∨
          (s.counting = false ∧ int32 (s.ch c).nops ≠ (s.ch c).maxops ∧ (s.ch c).Inside ∧
            s' = s.write c ⟨code, short a, b⟩)) := by
  rw [addop_run]
  split_ifs with hb hcount heq hin
  · simp [hb, hcount, eq_comm]
  · simp [hcount, heq]
  · simp [hb, hcount, heq, hin, eq_comm]
  · simp [hcount, hin]
  · simp [hb]

theorem nops_count {s : State} {c d : Channel} :
    ((s.count c).ch d).nops = (s.ch d).nops + if d = c then 1 else 0 := by
  by_cases h : d = c
  · subst h
    simp [State.count]
  · simp [State.count, h]

theorem nops_write {s : State} {c d : Channel} {o : Op} :
    ((s.write c o).ch d).nops = (s.ch d).nops + if d = c then 1 else 0 := by
  by_cases h : d = c
  · subst h
    simp [State.write]
  · simp [State.write, h]

theorem length_write {s : State} {c d : Channel} {o : Op} :
    ((s.write c o).ch d).ops.length = (s.ch d).ops.length + if d = c then 1 else 0 := by
  by_cases h : d = c
  · subst h
    simp [State.write]
  · simp [State.write, h]

@[simp] theorem maxops_write {s : State} {c d : Channel} {o : Op} :
    ((s.write c o).ch d).maxops = (s.ch d).maxops := by
  by_cases h : d = c
  · subst h
    simp [State.write]
  · simp [State.write, h]

@[simp] theorem room_write {s : State} {c d : Channel} {o : Op} :
    ((s.write c o).ch d).room = (s.ch d).room := by
  by_cases h : d = c
  · subst h
    simp [State.write]
  · simp [State.write, h]

theorem wavechecked_run {n : Int} {s : State} :
    (wavechecked n).run s =
      if 0 ≤ n ∧ n < NWAVE ∧ s.wavedef n.toNat then .ok ((), s)
      else .error (.fatal s.text.lineno "wave not defined") := by
  show (liftM (require _ _) : Parser Unit).run s = _
  rw [run_lift, require_run]
  split_ifs <;> rfl

theorem wavechecked_eq_ok {n : Int} {s s' : State} {u : Unit} :
    (wavechecked n).run s = .ok (u, s') ↔
      (0 ≤ n ∧ n < NWAVE ∧ s.wavedef n.toNat = true) ∧ s' = s := by
  rw [wavechecked_run]
  split_ifs with h
  · simp [h, eq_comm]
  · simp [h]

theorem macrotext_run {n : Int} {s : State} :
    (macrotext n).run s =
      match if 0 ≤ n ∧ n < NMACRO then s.macroText n.toNat else none with
      | none => .error (.fatal s.text.lineno "macro not defined")
      | some t => .ok (t, s) := by
  unfold macrotext
  show StateT.run (match if 0 ≤ n ∧ n < NMACRO then s.macroText n.toNat else none with
    | none => _
    | some t => _) s = _
  split <;> rfl

theorem macrotext_eq_ok {n : Int} {s s' : State} {x : List Char} :
    (macrotext n).run s = .ok (x, s') ↔
      (0 ≤ n ∧ n < NMACRO) ∧ s.macroText n.toNat = some x ∧ s' = s := by
  rw [macrotext_run]
  split_ifs with h
  · cases htext : s.macroText n.toNat with
    | none => simp
    | some t => simp [h, eq_comm]
  · simp [h]

/-- What the text has set: octaves of 1 to 8, and default lengths of less than two whole notes with
dots. -/
structure Ranged (t : Text) : Prop where
  octave : ∀ c, 1 ≤ t.octave c ∧ t.octave c ≤ 8
  deflen : ∀ c, 1 ≤ t.deflen c ∧ t.deflen c ≤ 4 * WHOLE

/-- The text has been read on, with as many brackets open as before, and in the same line unless
`lines`. -/
structure Leads (lines : Bool) (t t' : Text) : Prop where
  depth : t'.depth = t.depth
  le : t'.cp.length ≤ t.cp.length
  ranged : Ranged t → Ranged t'
  lineno : lines = false → t'.lineno = t.lineno

variable {lines : Bool}

instance : Std.Refl (Leads lines) := ⟨fun _ => ⟨rfl, le_rfl, id, fun _ => rfl⟩⟩

instance : IsTrans Text (Leads lines) :=
  ⟨fun _ _ _ h k => ⟨k.depth.trans h.depth, k.le.trans h.le, fun r => k.ranged (h.ranged r),
    fun hl => (k.lineno hl).trans (h.lineno hl)⟩⟩

/-- A reader that does nothing with brackets, and is never short of steps. Only one of `lines` comes to
another line. -/
def Plain (lines : Bool) {α : Type} (p : Reader α) : Prop := Moves (Leads lines) (· ≠ .spent) p

section

variable {α : Type}

theorem plain_fatal (msg : String) : Plain lines (fatal msg : Reader α) :=
  fun _ h => Stop.noConfusion h

theorem plain_require (q : Prop) [Decidable q] (msg : String) : Plain lines (require q msg) :=
  Moves.ite (Moves.pure ()) (plain_fatal msg)

theorem plain_peek : Plain lines peek := fun _ => ⟨rfl, le_rfl, id, fun _ => rfl⟩

theorem plain_ahead (w : String) : Plain lines (ahead w) := fun _ => ⟨rfl, le_rfl, id, fun _ => rfl⟩

theorem plain_units (l : Len) (c : Channel) : Plain lines (units l c) := fun _ => ⟨rfl, le_rfl, id, fun _ => rfl⟩

theorem plain_tied : Plain lines tied := fun _ => ⟨rfl, le_rfl, id, fun _ => rfl⟩

theorem plain_advance (n : Nat) : Plain lines (advance n) := fun _ =>
  ⟨rfl, by simp [List.length_drop], fun h => ⟨h.octave, h.deflen⟩, fun _ => rfl⟩

theorem plain_span (q : Char → Bool) : Plain lines (span q) := fun _ =>
  ⟨rfl, List.Sublist.length_le (List.dropWhile_sublist q), fun h => ⟨h.octave, h.deflen⟩, fun _ => rfl⟩

theorem plain_get : Plain lines (get : Reader Text) := Moves.get

theorem plain_modify {g : Text → Text}
    (hg : ∀ t, g t = { t with lineno := (g t).lineno, slurnext := (g t).slurnext })
    (hlines : ∀ t, lines = false → (g t).lineno = t.lineno) :
    Plain lines (modify g : Reader PUnit) := fun t => by
  show Leads lines t (g t)
  rw [hg t]
  exact ⟨rfl, le_rfl, fun h => ⟨h.octave, h.deflen⟩, hlines t⟩

theorem Plain.bind {β : Type} {p : Reader α} {f : α → Reader β} (hp : Plain lines p)
    (hf : ∀ a, Plain lines (f a)) : Plain lines (p >>= f) :=
  Moves.bind hp fun a _ => hf a

theorem plain_skipblank : Plain lines skipblank := (plain_span _).bind fun _ => Moves.pure ()

theorem plain_number : Plain lines number :=
  plain_skipblank.bind fun _ => (plain_span _).bind fun _ => Moves.pure _

/-- What is done with the result of `number`. -/
theorem plain_ofnumber {p : Reader α} {f : Int → Reader α} (hp : Plain lines p) (hf : ∀ n, Plain lines (f n)) :
    Plain lines (do
      match ← number with
      | none => p
      | some n => f n) :=
  plain_number.bind fun r => by
    cases r with
    | none => exact hp
    | some n => exact hf n

theorem plain_needint (what : String) : Plain lines (needint what) :=
  plain_skipblank.bind fun _ => plain_peek.bind fun _ =>
    Moves.ite
      ((plain_advance 1).bind fun _ => plain_ofnumber (plain_fatal _) fun _ => Moves.pure _)
      (plain_ofnumber (plain_fatal _) fun _ => Moves.pure _)

theorem plain_getunits : Plain lines getunits := by
  unfold getunits
  refine plain_peek.bind fun _ => Moves.ite ?_ ?_
  · refine (plain_advance 1).bind fun _ => plain_ofnumber (plain_fatal _) fun n => ?_
    exact (plain_require _ _).bind fun _ => Moves.pure _
  · refine plain_ofnumber (Moves.pure _) fun n => ?_
    exact (plain_require _ _).bind fun _ => Moves.pure _

theorem plain_getlen : Plain lines getlen :=
  plain_getunits.bind fun _ => (plain_span _).bind fun _ => Moves.pure _

theorem plain_pitch (cmd : Char) : Plain lines (pitch cmd) := by
  unfold pitch
  refine plain_peek.bind fun _ => plain_peek.bind fun _ => Moves.ite ?_ ?_
  · exact (plain_advance 1).bind fun _ => Moves.pure _
  refine plain_peek.bind fun _ => Moves.ite ?_ (Moves.pure _)
  exact (plain_advance 1).bind fun _ => Moves.pure _

theorem plain_ties (n : Nat) : Plain lines (ties n) := by
  induction n with
  | zero => exact plain_tied.bind fun _ => Moves.ite (plain_fatal _) (Moves.pure _)
  | succ n ih =>
      refine plain_tied.bind fun _ => Moves.ite ?_ (Moves.pure _)
      refine (plain_advance 1).bind fun _ => plain_getlen.bind fun l => ?_
      exact ih.bind fun _ => Moves.pure _

theorem plain_since {β : Type} {s t : Text} {p : Reader α} {f : α → Reader β} (hp : Plain lines p)
    (ht : Leads lines s t)
    (hf : ∀ a t', Leads lines s t' → Follows (· ≠ .spent) (fun r => Leads lines s r.2) ((f a).run t')) :
    Follows (· ≠ .spent) (fun r => Leads lines s r.2) ((p >>= f).run t) := by
  rw [StateT.run_bind]
  cases hrun : p.run t with
  | error e => exact hp.of_error hrun
  | ok r => exact hf r.1 r.2 (trans_of (Leads lines) ht (hp.of_ok hrun))

theorem follows_setcp {s t : Text} (h : Leads lines s t) :
    Follows (· ≠ Stop.spent) (fun r => Leads lines s r.2) ((setcp s.cp).run t) :=
  ⟨h.depth, le_rfl, fun r => ⟨(h.ranged r).octave, (h.ranged r).deflen⟩, h.lineno⟩

theorem plain_slurred : Plain lines slurred := by
  unfold slurred
  refine (plain_modify (fun _ => by rfl) fun _ _ => by rfl).bind fun _ => ?_
  refine plain_skipblank.bind fun _ s => ?_
  -- the place to go back to is that of `s`
  rw [StateT.run_bind, StateT.run_get, pure_bind]
  refine plain_since plain_peek (refl_of (Leads lines) s) fun c t ht => ?_
  split_ifs
  · refine plain_since (plain_advance 1) ht fun _ t ht => ?_
    refine plain_since plain_skipblank ht fun _ t ht => ?_
    refine plain_since plain_peek ht fun c t ht => ?_
    split_ifs
    · exact ⟨ht.depth, ht.le, fun r => ⟨(ht.ranged r).octave, (ht.ranged r).deflen⟩, ht.lineno⟩
    · exact follows_setcp ht
  · exact ht

theorem Ranged.setoctave {t : Text} (h : Ranged t) (c : Channel) {o : Int} (ho : 1 ≤ o ∧ o ≤ 8) :
    Ranged { t with octave := Function.update t.octave c o } where
  octave d := by
    by_cases hd : d = c
    · subst hd
      simpa using ho
    · simpa [hd] using h.octave d
  deflen := h.deflen

theorem plain_setoctave (c : Channel) {o : Int} (ho : 1 ≤ o ∧ o ≤ 8) : Plain lines (setoctave c o) :=
  fun _ => ⟨rfl, le_rfl, fun h => h.setoctave c ho, fun _ => rfl⟩

theorem require_holds {q : Prop} [Decidable q] {msg : String}
    (h : ∃ t t', (require q msg).run t = .ok ((), t')) : q := by
  obtain ⟨t, t', hrun⟩ := h
  rw [require_run] at hrun
  split_ifs at hrun with hq
  · exact hq

theorem plain_octavecmd (mask : Nat) : Plain lines (octavecmd mask) :=
  (plain_needint _).bind fun _ => Moves.bind (plain_require _ _) fun _ hn =>
    Moves.forM fun c _ => plain_setoctave c (require_holds hn)

theorem plain_octaveadd (d : Int) (c : Channel) : Plain lines (octaveadd d c) := by
  intro t
  show Follows _ _ ((require (1 ≤ t.octave c + d ∧ t.octave c + d ≤ 8) _).run
    { t with octave := Function.update t.octave c (t.octave c + d) })
  rw [require_run]
  split_ifs with ho
  · exact ⟨rfl, le_rfl, fun h => h.setoctave c ho, fun _ => rfl⟩
  · exact fun h => Stop.noConfusion h

theorem plain_octaveby (mask : Nat) (d : Int) : Plain lines (octaveby mask d) :=
  Moves.forM fun c _ => plain_octaveadd d c

theorem le_dotted (d u add : Nat) : u ≤ dotted d u add := by
  induction d generalizing u add with
  | zero => exact le_rfl
  | succ d ih => exact le_trans (Nat.le_add_right u add) (ih (u + add) (add / 2))

theorem dotted_le (d u add : Nat) : dotted d u add ≤ u + 2 * add := by
  induction d generalizing u add with
  | zero => exact Nat.le_add_right u _
  | succ d ih =>
      have hle := ih (u + add) (add / 2)
      show dotted d (u + add) (add / 2) ≤ _
      omega

theorem base_le_total (l : Len) (d : Nat) : l.base d ≤ l.total d := le_dotted _ _ _

theorem total_le (l : Len) (d : Nat) : l.total d ≤ 2 * l.base d := by
  have hle := dotted_le l.dots (l.base d) (l.base d / 2)
  show dotted l.dots (l.base d) (l.base d / 2) ≤ _
  omega

theorem total_pos (l : Len) {d : Nat} (hd : 1 ≤ d) : 1 ≤ l.total d := by
  have hbase : 1 ≤ l.base d := by
    unfold Len.base
    split_ifs with h
    · exact hd
    · omega
  exact hbase.trans (base_le_total l d)

theorem getunits_le : Yields (fun r => r.1 ≤ 2 * WHOLE) getunits := by
  unfold getunits
  refine Yields.bind fun _ _ => Yields.ite ?_ ?_
  · refine Yields.bind fun _ _ => Yields.bind fun r _ => ?_
    cases r with
    | none => exact fun t t' r h => by cases h
    | some n =>
        refine Yields.bind fun _ hn => Yields.pure ?_
        have hle := require_holds hn
        show 2 * n.toNat ≤ 2 * WHOLE
        omega
  · refine Yields.bind fun r _ => ?_
    cases r with
    | none => exact Yields.pure (Nat.zero_le _)
    | some n =>
        refine Yields.bind fun _ _ => Yields.pure ?_
        have hle := Nat.div_le_self WHOLE n.toNat
        show WHOLE / n.toNat ≤ 2 * WHOLE
        omega

theorem getlen_le : Yields (fun r => r.2.units ≤ 2 * WHOLE) getlen :=
  Yields.bind fun u hu => Yields.bind fun ds _ => Yields.pure (by
    obtain ⟨s, s', hrun⟩ := hu
    exact getunits_le _ _ _ hrun)

theorem plain_setdeflen {l : Len} (hpos : l.units ≠ 0) (hle : l.units ≤ 2 * WHOLE) (c : Channel) :
    Plain lines (setdeflen l c) := by
  refine fun t => ⟨rfl, le_rfl, fun h => ⟨h.octave, fun d => ?_⟩, fun _ => rfl⟩
  show 1 ≤ Function.update t.deflen c (l.total (t.deflen c)) d ∧
    Function.update t.deflen c (l.total (t.deflen c)) d ≤ 4 * WHOLE
  by_cases hd : d = c
  · subst hd
    rw [Function.update_self]
    have hbase : l.base (t.deflen d) = l.units := if_neg hpos
    have hmax := total_le l (t.deflen d)
    rw [hbase] at hmax
    exact ⟨total_pos l (h.deflen d).1, by omega⟩
  · rw [Function.update_of_ne hd]
    exact h.deflen d

theorem plain_lengthcmd (mask : Nat) : Plain lines (lengthcmd mask) := by
  refine Moves.bind plain_getlen fun r hr => ?_
  obtain ⟨s, s', hlen⟩ := hr
  have hle := getlen_le _ _ _ hlen
  refine Moves.bind (plain_require _ _) fun _ hl => ?_
  exact Moves.forM fun c _ => plain_setdeflen (require_holds hl).2 hle c

theorem plain_repcount : Plain lines repcount :=
  plain_number.bind fun _ => (plain_require _ _).bind fun _ => Moves.pure _

theorem plain_vibdelay : Plain lines vibdelay := by
  unfold vibdelay
  refine plain_skipblank.bind fun _ => plain_peek.bind fun _ => Moves.ite ?_ (Moves.pure _)
  refine (plain_advance 1).bind fun _ => plain_skipblank.bind fun _ => plain_peek.bind fun c => ?_
  refine (plain_require _ _).bind fun _ => plain_getlen.bind fun l => ?_
  exact (plain_require _ _).bind fun _ => (plain_units _ _).bind fun _ => Moves.pure _

theorem plain_pitchargs : Plain lines pitchargs := by
  unfold pitchargs
  refine (plain_ahead _).bind fun _ => Moves.ite ?_ ?_
  · refine (plain_advance 2).bind fun _ => (plain_needint _).bind fun n => ?_
    exact (plain_require _ _).bind fun _ => Moves.pure _
  refine plain_peek.bind fun _ => Moves.ite ?_ ?_
  · refine (plain_advance 1).bind fun _ => (plain_needint _).bind fun n => ?_
    exact (plain_require _ _).bind fun _ => Moves.pure _
  refine plain_peek.bind fun _ => Moves.ite ?_ ?_
  · refine (plain_advance 1).bind fun _ => (plain_needint _).bind fun n => ?_
    exact (plain_require _ _).bind fun _ => Moves.pure _
  refine (plain_advance 1).bind fun _ => (plain_needint _).bind fun n => ?_
  refine plain_skipblank.bind fun _ => plain_peek.bind fun _ => Moves.ite ?_ ?_
  · refine (plain_advance 1).bind fun _ => (plain_needint _).bind fun v => ?_
    refine plain_vibdelay.bind fun b => (plain_require _ _).bind fun _ => Moves.pure _
  · exact (plain_require _ _).bind fun _ => Moves.pure _

theorem plain_braces : Plain true braces := by
  unfold braces
  refine plain_skipblank.bind fun _ => plain_peek.bind fun _ => (plain_require _ _).bind fun _ => ?_
  refine (plain_advance 1).bind fun _ => plain_skipblank.bind fun _ => plain_peek.bind fun _ => ?_
  refine (plain_require _ _).bind fun _ => (plain_advance 1).bind fun _ => ?_
  refine (plain_span _).bind fun body => ?_
  refine (plain_modify (fun _ => by rfl) fun _ h => by cases h).bind fun _ => ?_
  refine plain_peek.bind fun _ => (plain_require _ _).bind fun _ => ?_
  exact (plain_advance 1).bind fun _ => Moves.pure _

theorem plain_sample : Plain lines sample :=
  (plain_span _).bind fun _ => plain_ofnumber (plain_fatal _) fun _ =>
    (plain_require _ _).bind fun _ => Moves.pure _

theorem plain_samples (n : Nat) : Plain lines (samples n) := by
  induction n with
  | zero => exact Moves.pure _
  | succ n ih => exact plain_sample.bind fun v => ih.bind fun _ => Moves.pure _

theorem plain_wavetext : Plain true wavetext := by
  unfold wavetext
  refine (plain_needint _).bind fun n => (plain_require _ _).bind fun _ => ?_
  refine plain_braces.bind fun x s => ?_
  -- the samples are read in the text of the braces, and then `cp` is what it was in `s`
  have hsamples := (plain_samples 32 : Plain true (samples 32)) { s with cp := x }
  show Follows _ _ ((samples 32).run { s with cp := x } >>= fun r =>
    (do setcp s.cp; return (n.toNat, r.1) : Reader (Nat × List Nat)).run r.2)
  cases hrun : (samples 32).run { s with cp := x } with
  | error e =>
      rw [hrun] at hsamples
      exact hsamples
  | ok r =>
      rw [hrun] at hsamples
      refine ⟨hsamples.depth, le_rfl, fun h => ?_, nofun⟩
      have hranged := hsamples.ranged ⟨h.octave, h.deflen⟩
      exact ⟨hranged.octave, hranged.deflen⟩

theorem plain_macrobody : Plain true macrobody :=
  (plain_needint _).bind fun _ => (plain_require _ _).bind fun _ =>
    plain_braces.bind fun _ => Moves.pure _

theorem plain_names : Plain lines names := (plain_span _).bind fun _ => Moves.pure _

theorem plain_newline {mask : Nat} (hmask : mask = 0 → lines = true) : Plain lines (newline mask) := by
  refine (plain_advance 1).bind fun _ => plain_modify (fun _ => rfl) fun t hlines => if_neg fun h => ?_
  rw [hmask h] at hlines
  cases hlines

theorem plain_closed : Plain lines closed :=
  Moves.forM fun _ _ => plain_get.bind fun _ => plain_require _ _

end

/-- The operations that neither take time nor change the tempo, other than brackets. -/
def Code.Plain (code : Code) : Prop :=
  code ∉ [.note, .slur, .rest, .wait, .tempo, .rep, .endrep]

instance (code : Code) : Decidable code.Plain := inferInstanceAs (Decidable (_ ∉ _))

/-- What a relation of parsers is closed under, for it to hold of every command and itself, with the
text of a macro parsed in one way or in another. What reads the text is of `lines`. -/
structure Covers (lines : Bool) (T : {α : Type} → Parser α → Parser α → Prop) : Prop where
  pure : ∀ {α : Type} (a : α), T (Pure.pure a : Parser α) (Pure.pure a)
  bind : ∀ {α β : Type} {p q : Parser α} {f g : α → Parser β}, T p q →
    (∀ a, (∃ s s', p.run s = .ok (a, s')) → T (f a) (g a)) → T (p >>= f) (q >>= g)
  lift : ∀ {α : Type} {p : Reader α}, Plain lines p → T (liftM p : Parser α) (liftM p)
  noteadd : ∀ n l ls c, T (noteadd n l ls c) (noteadd n l ls c)
  restadd : ∀ l {code} c, code = .rest ∨ code = .wait → T (restadd l code c) (restadd l code c)
  tempo : ∀ c {n}, 0 < n ∧ n ≤ 1000 → T (addop c .tempo n 0) (addop c .tempo n 0)
  addop : ∀ (c : Channel) {code : Code} (a : Int) (b : Nat), code.Plain →
    T (addop c code a b) (addop c code a b)
  openrep : ∀ mask, T (openrep mask) (openrep mask)
  closerep : ∀ mask, T (closerep mask) (closerep mask)
  wavechecked : ∀ n, T (wavechecked n) (wavechecked n)
  macrotext : ∀ n, T (macrotext n) (macrotext n)

/-- It is enough to know what readers and `addop` do, if the operation makes no difference. -/
theorem Covers.of_addop {T : {α : Type} → Parser α → Parser α → Prop}
    (pure : ∀ {α : Type} (a : α), T (Pure.pure a : Parser α) (Pure.pure a))
    (bind : ∀ {α β : Type} {p q : Parser α} {f g : α → Parser β}, T p q →
      (∀ a, (∃ s s', p.run s = .ok (a, s')) → T (f a) (g a)) → T (p >>= f) (q >>= g))
    (lift : ∀ {α : Type} {p : Reader α}, Plain lines p → T (liftM p : Parser α) (liftM p))
    (enter : ∀ c, T (liftM (Mml.enter c) : Parser Unit) (liftM (Mml.enter c)))
    (leave : ∀ mask, T (liftM ((masked mask).forM Mml.leave) : Parser Unit)
      (liftM ((masked mask).forM Mml.leave)))
    (addop : ∀ c code a b, T (Mml.addop c code a b) (Mml.addop c code a b))
    (wavechecked : ∀ n, T (Mml.wavechecked n) (Mml.wavechecked n))
    (macrotext : ∀ n, T (Mml.macrotext n) (Mml.macrotext n)) : Covers lines T := by
  have forM : ∀ {f : Channel → Parser Unit} (xs : List Channel), (∀ c, T (f c) (f c)) →
      T (xs.forM f) (xs.forM f) := by
    intro f xs hf
    induction xs with
    | nil => exact pure ()
    | cons c xs ih => exact bind (hf c) fun _ _ => ih
  exact
    { pure := pure
      bind := bind
      lift := lift
      noteadd := fun _ _ _ c =>
        bind (lift (plain_get.bind fun _ => Moves.pure _)) fun o _ => addop c o.1 o.2.1 o.2.2
      restadd := fun l code c _ => bind (lift (plain_units l c)) fun u _ => addop c code 0 u
      tempo := fun c n _ => addop c .tempo n 0
      addop := fun c code a b _ => addop c code a b
      openrep := fun mask => forM _ fun c => bind (enter c) fun _ _ => addop c .rep 0 0
      closerep := fun mask => bind (leave mask) fun _ _ => bind (lift plain_repcount) fun n _ =>
        forM _ fun c => addop c .endrep n 0
      wavechecked := wavechecked
      macrotext := macrotext }

theorem pitchargs_plain : Yields (fun o => o.1.Plain) pitchargs := by
  unfold pitchargs
  refine Yields.bind fun _ _ => Yields.ite ?_ (Yields.bind fun _ _ => Yields.ite ?_ ?_)
  · refine Yields.bind fun _ _ => Yields.bind fun _ _ => Yields.bind fun _ _ => ?_
    exact Yields.pure (by simp [Code.Plain])
  · refine Yields.bind fun _ _ => Yields.bind fun _ _ => Yields.bind fun _ _ => ?_
    exact Yields.pure (by simp [Code.Plain])
  refine Yields.bind fun _ _ => Yields.ite ?_ ?_
  · refine Yields.bind fun _ _ => Yields.bind fun _ _ => Yields.bind fun _ _ => ?_
    exact Yields.pure (by simp [Code.Plain])
  refine Yields.bind fun _ _ => Yields.bind fun _ _ => Yields.bind fun _ _ => ?_
  refine Yields.bind fun _ _ => Yields.ite ?_ ?_
  · refine Yields.bind fun _ _ => Yields.bind fun _ _ => Yields.bind fun _ _ => ?_
    exact Yields.bind fun _ _ => Yields.pure (by simp [Code.Plain])
  · exact Yields.bind fun _ _ => Yields.pure (by simp [Code.Plain])

theorem yields_lift {α : Type} {Q : α → Prop} {p : Reader α} (h : Yields Q p) {a : α}
    (ha : ∃ s s', (liftM p : Parser α).run s = .ok (a, s')) : Q a := by
  obtain ⟨s, s', hrun⟩ := ha
  obtain ⟨t, hp, -⟩ := run_lift_eq_ok.mp hrun
  exact h _ _ _ hp

theorem require_holds_lift {q : Prop} [Decidable q] {msg : String} {u : Unit}
    (h : ∃ s s', (liftM (require q msg) : Parser Unit).run s = .ok (u, s')) : q := by
  obtain ⟨s, s', hrun⟩ := h
  obtain ⟨t, hp, -⟩ := run_lift_eq_ok.mp hrun
  exact require_holds ⟨s.text, t, hp⟩

namespace Covers

variable {T : {α : Type} → Parser α → Parser α → Prop}

theorem branch {α : Type} {c : Prop} [Decidable c] {p q p' q' : Parser α} (hp : T p p')
    (hq : T q q') : T (if c then p else q) (if c then p' else q') := by
  split
  · exact hp
  · exact hq

variable (h : Covers lines T)

include h

theorem forM {γ : Type} {f g : γ → Parser Unit} {xs : List γ} (hf : ∀ x ∈ xs, T (f x) (g x)) :
    T (xs.forM f) (xs.forM g) := by
  induction xs with
  | nil => exact h.pure ()
  | cons x xs ih => exact h.bind (hf x (by simp)) fun _ _ => ih fun y hy => hf y (by simp [hy])

theorem after {α β : Type} {p : Reader α} {f g : α → Parser β} (hp : Plain lines p)
    (hf : ∀ a, T (f a) (g a)) : T ((liftM p : Parser α) >>= f) ((liftM p : Parser α) >>= g) :=
  h.bind (h.lift hp) fun a _ => hf a

theorem addops (mask : Nat) {code : Code} (a : Int) (b : Nat) (hcode : code.Plain) :
    T (addops mask code a b) (addops mask code a b) :=
  h.forM fun c _ => h.addop c a b hcode

theorem note (mask : Nat) (cmd : Char) : T (note mask cmd) (note mask cmd) := by
  unfold Mml.note
  refine h.after (plain_pitch cmd) fun n => h.after plain_getlen fun l => ?_
  refine h.after (plain_ties 8) fun ls => h.bind ?_ fun _ _ => h.lift plain_slurred
  exact h.forM fun c _ => h.noteadd n l.2 ls c

theorem rest (mask : Nat) {code : Code} (hcode : code = .rest ∨ code = .wait) :
    T (rest mask code) (rest mask code) := by
  unfold Mml.rest
  exact h.after plain_getlen fun l => h.forM fun c _ => h.restadd l.2 c hcode

theorem tempocmd (mask : Nat) : T (tempocmd mask) (tempocmd mask) := by
  unfold Mml.tempocmd
  refine h.after (plain_needint _) fun n => h.bind (h.lift (plain_require _ _)) fun _ hn => ?_
  have hle := (require_holds_lift hn).2
  split
  · next hpos => exact h.forM fun c _ => h.tempo c ⟨hpos, hle⟩
  · exact h.pure ()

theorem volumecmd (mask : Nat) : T (volumecmd mask) (volumecmd mask) := by
  unfold Mml.volumecmd
  refine h.after (plain_needint _) fun n => h.forM fun c _ => ?_
  exact h.after (plain_require _ _) fun _ => h.addop c n 0 (by decide)

theorem pancmd (mask : Nat) : T (pancmd mask) (pancmd mask) :=
  h.after (plain_needint _) fun _ => h.addops mask _ 0 (by decide)

theorem pitchcmd (mask : Nat) : T (pitchcmd mask) (pitchcmd mask) := by
  unfold Mml.pitchcmd
  refine h.after (plain_require _ _) fun _ => h.bind (h.lift plain_pitchargs) fun o ho => ?_
  exact h.forM fun c _ => h.addop c _ _ (yields_lift pitchargs_plain ho)

theorem wavecmd (mask : Nat) : T (wavecmd mask) (wavecmd mask) := by
  unfold Mml.wavecmd
  refine h.after (plain_needint _) fun n => h.bind (h.wavechecked n) fun _ _ => ?_
  exact h.after (plain_require _ _) fun _ => h.addop 2 n 0 (by decide)

/-- `@ve` and the commands like it: a number, two checks, and then the operations. -/
theorem checked {f : Int → Parser Unit} {what msg msg' : String} {q r : Int → Prop}
    [∀ n, Decidable (q n)] [∀ n, Decidable (r n)] (hf : ∀ n, T (f n) (f n)) :
    T (do
        let n ← liftM (needint what)
        let _ ← liftM (require (q n) msg)
        let _ ← liftM (require (r n) msg')
        f n)
      (do
        let n ← liftM (needint what)
        let _ ← liftM (require (q n) msg)
        let _ ← liftM (require (r n) msg')
        f n) :=
  h.after (plain_needint _) fun n => h.after (plain_require _ _) fun _ =>
    h.after (plain_require _ _) fun _ => hf n

theorem sweepcmd (mask : Nat) : T (sweepcmd mask) (sweepcmd mask) := by
  unfold Mml.sweepcmd
  refine h.after (plain_needint _) fun n => h.after plain_skipblank fun _ => ?_
  refine h.after plain_peek fun _ => h.after (plain_require _ _) fun _ => ?_
  exact h.after (plain_advance 1) fun _ => h.checked fun v => h.addop 0 _ 0 (by decide)

theorem atcmd {f g : List Char → Parser Unit} (hcall : T (macrocmd f) (macrocmd g))
    (mask : Nat) : T (atcmd f mask) (atcmd g mask) := by
  unfold Mml.atcmd
  refine h.after plain_peek fun _ => branch ?_ ?_
  · exact h.after (plain_advance 1) fun _ => hcall
  refine h.after (plain_ahead _) fun _ => branch ?_ ?_
  · exact h.after (plain_advance 4) fun _ => h.wavecmd mask
  refine h.after (plain_ahead _) fun _ => branch ?_ ?_
  · refine h.after (plain_advance 2) fun _ => h.checked fun n => ?_
    exact h.addops mask _ 0 (by decide)
  refine h.after (plain_ahead _) fun _ => branch ?_ ?_
  · refine h.after (plain_advance 2) fun _ => h.checked fun n => ?_
    exact h.addops _ n 0 (by decide)
  refine h.after (plain_ahead _) fun _ => branch ?_ ?_
  · refine h.after (plain_advance 2) fun _ => h.checked fun n => ?_
    exact h.addop 3 n 0 (by decide)
  refine h.after (plain_ahead _) fun _ => branch ?_ ?_
  · exact h.after (plain_advance 2) fun _ => h.sweepcmd mask
  refine h.after plain_peek fun _ => h.after plain_peek fun _ => h.after plain_peek fun _ => ?_
  exact branch (h.pitchcmd mask) (h.lift (plain_fatal _))

theorem command {f g : List Char → Parser Unit}
    (hcall : T (macrocmd f) (macrocmd g)) (mask : Nat) (cmd : Char) :
    T (command f mask cmd) (command g mask cmd) := by
  unfold Mml.command
  refine branch (h.note mask cmd) ?_
  split
  · exact h.rest mask (.inl rfl)
  · exact h.rest mask (.inr rfl)
  · exact h.rest mask (.inr rfl)
  · exact h.rest mask (.inr rfl)
  · exact h.lift (plain_octavecmd mask)
  · exact h.lift (plain_octaveby mask (-1))
  · exact h.lift (plain_octaveby mask 1)
  · exact h.lift (plain_lengthcmd mask)
  · exact h.tempocmd mask
  · exact h.volumecmd mask
  · exact h.pancmd mask
  · exact h.addops mask 0 0 (by decide)
  · exact h.openrep mask
  · exact h.closerep mask
  · exact h.atcmd hcall mask
  · exact h.lift (plain_fatal _)

theorem commandTurn {f g : List Char → Parser Unit}
    (hcall : T (macrocmd f) (macrocmd g)) (mask : Nat) :
    T (commandTurn f mask) (commandTurn g mask) := by
  unfold Mml.commandTurn
  refine h.after plain_skipblank fun _ => h.after plain_peek fun c => ?_
  refine branch (h.pure false) (h.after (plain_advance 1) fun _ => ?_)
  exact h.bind (h.command hcall mask c) fun _ _ => h.pure true

/-- One turn of `parse`. Only outside of the macros there are definitions and lines. -/
theorem line {f g : Nat → List Char → Parser Unit} {mask : Nat}
    (hcommands : ∀ m, m ≠ 0 → (mask ≠ 0 → m = mask) → T (commands (f m) m) (commands (g m) m))
    (hdefine : mask = 0 → lines = true ∧ (∀ n w, T (setwave n w) (setwave n w)) ∧
      ∀ n t, T ( setmacro n t) ( setmacro n t)) :
    T (line f mask) (line g mask) := by
  unfold Mml.line
  refine h.after plain_skipblank fun _ => h.after plain_peek fun c => ?_
  refine branch (h.pure false) (branch ?_ ?_)
  · exact h.after (plain_newline fun hmask => (hdefine hmask).1) fun _ => h.pure true
  refine branch (h.after (plain_span _) fun _ => h.pure true) ?_
  by_cases hmask : mask ≠ 0
  · rw [if_pos hmask, if_pos hmask]
    exact h.bind (hcommands mask hmask fun _ => rfl) fun _ _ => h.pure true
  rw [if_neg hmask, if_neg hmask]
  obtain ⟨rfl, hwave, hcall⟩ := hdefine (not_not.mp hmask)
  refine h.after (plain_ahead _) fun _ => branch ?_ ?_
  · refine h.after (plain_advance 5) fun _ => h.bind ?_ fun _ _ => h.pure true
    exact h.after plain_wavetext fun w => hwave _ _
  refine h.after (plain_ahead _) fun _ => branch ?_ ?_
  · refine h.after (plain_advance 2) fun _ => h.bind ?_ fun _ _ => h.pure true
    exact h.after plain_macrobody fun w => hcall _ _
  · refine h.bind ?_ fun _ _ => h.pure true
    refine h.after plain_names fun m => h.bind (h.lift (plain_require _ _)) fun _ hm => ?_
    exact hcommands m (require_holds_lift hm) fun h => absurd h hmask

theorem repeatM {body body' : Parser Bool} {e : Stop}
    (he : T (throw e : Parser Unit) (throw e : Parser Unit)) (hbody : T body body') (fuel : Nat) :
    T (Lib.repeatM e body fuel) (Lib.repeatM e body' fuel) := by
  induction fuel with
  | zero => exact he
  | succ fuel ih => exact h.bind hbody fun more _ => branch ih (h.pure ())

end Covers

/-! ## From the commands to the parse

What every command keeps, a whole parse keeps (`Steps.parse`); and where two passes over a text agree on
what the commands read, they go along side by side (`Lockstep.parse`). Each is an induction on the calls
of `parse` within each other.
-/

section

open Lib

/-- The steps of a parse lead from states to states that are in `G` to them, or fail in `E`. -/
structure Steps (G : State → State → Prop) (E : Stop → Prop) : Prop where
  lift : ∀ {α : Type} {p : Reader α}, Plain true p → Moves G E (liftM p : Parser α)
  setcp : ∀ x, Moves G E (liftM (setcp x) : Parser Unit)
  noteadd : ∀ n l ls c, Moves G E (noteadd n l ls c)
  restadd : ∀ l {code} c, code = .rest ∨ code = .wait → Moves G E (restadd l code c)
  tempo : ∀ c {n}, 0 < n ∧ n ≤ 1000 → Moves G E (addop c .tempo n 0)
  addop : ∀ (c : Channel) {code : Code} (a : Int) (b : Nat), code.Plain →
    Moves G E (addop c code a b)
  openrep : ∀ mask, Moves G E (openrep mask)
  closerep : ∀ mask, Moves G E (closerep mask)
  wavechecked : ∀ n, Moves G E (wavechecked n)
  macrotext : ∀ n, Moves G E (macrotext n)
  setwave : ∀ n w, Moves G E (setwave n w)
  setmacro : ∀ n t, Moves G E ( setmacro n t)

namespace Steps

variable {G : State → State → Prop} [Std.Refl G] [IsTrans State G] {E : Stop → Prop}

theorem covers (h : Steps G E) : Covers true (fun p _ => Moves G E p) where
  pure := Moves.pure
  bind := Moves.bind
  lift := h.lift
  noteadd := h.noteadd
  restadd := h.restadd
  tempo := h.tempo
  addop := h.addop
  openrep := h.openrep
  closerep := h.closerep
  wavechecked := h.wavechecked
  macrotext := h.macrotext

theorem commands (h : Steps G E) (hspent : E .spent) {call : List Char → Parser Unit}
    (hcall : ∀ x, Moves G E (call x)) (mask : Nat) : Moves G E (commands call mask) := by
  have hcall : Moves G E (macrocmd call) := by
    refine (h.lift (plain_needint _)).bind fun n _ => (h.macrotext n).bind fun x _ => ?_
    exact (h.lift plain_get).bind fun save _ => (hcall x).bind fun _ _ => h.setcp _
  exact (h.lift plain_get).bind fun t _ =>
    Moves.repeatM (h.covers.commandTurn (g := call) hcall mask) hspent _

theorem parse (h : Steps G E) (hspent : E .spent) (n mask : Nat) (x : List Char) :
    Moves G E (parse n mask x) := by
  induction n generalizing mask x with
  | zero => exact Moves.throw hspent
  | succ n ih =>
      have hline : Moves G E (line (Mml.parse n) mask) :=
        h.covers.line (g := Mml.parse n) (fun m _ _ => h.commands hspent (ih m) m)
          fun _ => ⟨rfl, h.setwave, h.setmacro⟩
      refine (h.setcp x).bind fun _ _ => (Moves.repeatM hline hspent _).bind fun _ _ => ?_
      exact Moves.ite (h.lift plain_closed) (Moves.pure ())

end Steps

/-- Two passes whose states are in `R` agree on the text and on what has been defined, and add to the
lists together, with an end in `Up`. -/
structure Lockstep (Up : State → Prop) (R : State → State → Prop) (E : Stop → Prop) : Prop where
  back : ∀ {s s'}, s'.ch = s.ch → Up s' → Up s
  text : ∀ {s t}, R s t → s.text = t.text
  macroText : ∀ {s t n x}, R s t → s.macroText n = some x → t.macroText n = some x
  wavedef : ∀ {s t n}, R s t → s.wavedef n = true → t.wavedef n = true
  settext : ∀ {s t} (u : Text), R s t → R { s with text := u } { t with text := u }
  setwave : ∀ {s t} (n : Nat) (w : List Nat), R s t →
    R { s with wave := Function.update s.wave n w, wavedef := Function.update s.wavedef n true }
      { t with wave := Function.update t.wave n w, wavedef := Function.update t.wavedef n true }
  setmacro : ∀ {s t} (n : Nat) (x : List Char), R s t →
    R { s with macroText := Function.update s.macroText n (some x) }
      { t with macroText := Function.update t.macroText n (some x) }
  addop : ∀ c code a b, Tracks Up R E (addop c code a b)

namespace Lockstep

variable {Up : State → Prop} {R : State → State → Prop} {E : Stop → Prop} (h : Lockstep Up R E)

include h

theorem lift {α : Type} (p : Reader α) : Tracks Up R E (liftM p : Parser α) where
  back := by
    intro s s' a hrun hup
    obtain ⟨t, hp, rfl⟩ := run_lift_eq_ok.mp hrun
    exact h.back (by rfl) hup
  follow := by
    intro s t s' a hR hrun hup
    obtain ⟨u, hp, rfl⟩ := run_lift_eq_ok.mp hrun
    have hq : p.run t.text = .ok (a, u) := h.text hR ▸ hp
    exact .inl ⟨{ t with text := u }, run_lift_eq_ok.mpr ⟨u, hq, rfl⟩, h.settext u hR⟩

theorem wavechecked (n : Int) : Tracks Up R E (wavechecked n) where
  back := by
    intro s s' u hrun hup
    obtain ⟨-, rfl⟩ := wavechecked_eq_ok.mp hrun
    exact hup
  follow := by
    intro s t s' u hR hrun hup
    obtain ⟨⟨hlo, hhi, hdef⟩, rfl⟩ := wavechecked_eq_ok.mp hrun
    exact .inl ⟨t, wavechecked_eq_ok.mpr ⟨⟨hlo, hhi, h.wavedef hR hdef⟩, rfl⟩, hR⟩

theorem macrotext (n : Int) : Tracks Up R E (macrotext n) where
  back := by
    intro s s' x hrun hup
    obtain ⟨-, -, rfl⟩ := macrotext_eq_ok.mp hrun
    exact hup
  follow := by
    intro s t s' x hR hrun hup
    obtain ⟨hn, htext, rfl⟩ := macrotext_eq_ok.mp hrun
    exact .inl ⟨t, macrotext_eq_ok.mpr ⟨hn, h.macroText hR htext, rfl⟩, hR⟩

/-- A change of the state that is the same in both passes, and of no list. -/
theorem modify {g : State → State} (hch : ∀ s, (g s).ch = s.ch)
    (hg : ∀ {s t}, R s t → R (g s) (g t)) : Tracks Up R E (modify g : Parser PUnit) where
  back := by
    intro s s' u hrun hup
    cases hrun
    exact h.back (hch s) hup
  follow := by
    intro s t s' u hR hrun hup
    cases hrun
    exact .inl ⟨g t, rfl, hg hR⟩

theorem covers : Covers true (fun p _ => Tracks Up R E p) :=
  .of_addop Tracks.pure Tracks.bind (fun _ => h.lift _) (fun _ => h.lift _) (fun _ => h.lift _)
    h.addop h.wavechecked h.macrotext

theorem commands {call : List Char → Parser Unit} (hcall : ∀ x, Tracks Up R E (call x))
    (mask : Nat) : Tracks Up R E (commands call mask) := by
  have hcall : Tracks Up R E (macrocmd call) := by
    refine (h.lift _).bind fun n _ => (h.macrotext n).bind fun x _ => ?_
    exact (h.lift _).bind fun save _ => (hcall x).bind fun _ _ => h.lift _
  exact (h.lift _).bind fun t _ =>
    Tracks.repeatM (h.covers.commandTurn (g := call) hcall mask) _

theorem parse (n mask : Nat) (x : List Char) : Tracks Up R E (parse n mask x) := by
  induction n generalizing mask x with
  | zero => exact Tracks.throw _
  | succ n ih =>
      have hline : Tracks Up R E (line (Mml.parse n) mask) :=
        h.covers.line (g := Mml.parse n) (fun m _ _ => h.commands (ih m) m)
          fun _ => ⟨rfl, fun n w => h.modify (fun _ => rfl) fun hR => h.setwave n w hR,
            fun n x => h.modify (fun _ => rfl) fun hR => h.setmacro n x hR⟩
      refine (h.lift _).bind fun _ _ => (Tracks.repeatM hline _).bind fun _ _ => ?_
      exact (h.lift _).ite (Tracks.pure ())

end Lockstep

end

end DiscoBsd.Mml
