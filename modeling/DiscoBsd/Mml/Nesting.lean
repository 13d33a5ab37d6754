import DiscoBsd.Mml.Agree
import Mathlib.Data.Fintype.Pi
import Mathlib.Data.Fintype.Prod
import Mathlib.Data.List.DropRight

/-!
# Macros within themselves

A macro may be called in its own text, and `parse` does not notice. That alone is not endless: a macro
that calls itself an octave higher comes to the last octave. `checked` is the parse with the check that
the program lacks, for a macro that is called again with all of the parser's text variables as they were.
A parse that ends never comes to that; and one that never does ends, because there are only so many
values for these variables: `parse_ends_iff`.
-/

namespace DiscoBsd.Mml

open Lib

deriving instance DecidableEq for Text

/-- `parse`, except that it fails with `e` at a macro within itself that is to be parsed from the same
variables as before. `around` are those of the macros that are being parsed, each as at its start. -/
def checked (e : Stop) : Nat → List Text → Nat → List Char → Parser Unit
  | 0, _, _, _ => throw .spent
  | n + 1, around, mask, text => do
    setcp text
    let t ← (get : Reader Text)
    if t ∈ around then throw e
    else
      repeatM .spent (line (checked e n (if mask = 0 then [] else t :: around)) mask)
        (text.length + 1)
      if mask = 0 then closed else return ()

/-- A macro comes up within its own text with the line number, the octaves, the default lengths, the slur
and the open brackets that there were at its start: whatever the check is to fail with, it does. -/
def Recurs (x : List Char) : Prop :=
  ∃ n, ∀ e, ((checked e n [] 0 x).run State.init).map Prod.snd = .error e

/-! ## Two parses that count -/

/-- The macros and the waves that have been defined. -/
abbrev Tables := (Nat → Option (List Char)) × (Nat → Bool)

def State.tables (s : State) : Tables := (s.macroText, s.wavedef)

/-- Two states of the first pass between which only the lists differ, with tables in `C`. -/
structure Alike (C : Tables → Prop) (s t : State) : Prop where
  text : s.text = t.text
  tables : s.tables = t.tables
  within : C s.tables
  left : s.counting = true
  right : t.counting = true

section

variable {C : Tables → Prop} {A B : Stop → Prop} {s t u : State}

theorem Alike.symm (h : Alike C s t) : Alike C t s where
  text := h.text.symm
  tables := h.tables.symm
  within := h.tables ▸ h.within
  left := h.right
  right := h.left

theorem Alike.trans (h : Alike C s t) (k : Alike C t u) : Alike C s u where
  text := h.text.trans k.text
  tables := h.tables.trans k.tables
  within := h.within
  left := h.left
  right := k.right

theorem Alike.settext (h : Alike C s t) (u : Text) :
    Alike C { s with text := u } { t with text := u } :=
  { h with text := rfl }

theorem Alike.trivial (h : Alike C s t) : Alike (fun _ => True) s t := { h with within := True.intro }

theorem sim_lift {α : Type} (p : Reader α) :
    Sim (Alike C) A B (liftM p : Parser α) (liftM p) := by
  intro s t h
  rw [run_lift, run_lift, ← h.text]
  cases p.run s.text with
  | error e => exact .error e
  | ok r => exact .ok r.1 (h.settext r.2)

theorem sim_addop (c : Channel) (code : Code) (a : Int) (b : Nat) :
    Sim (Alike C) A B (addop c code a b) (addop c code a b) := by
  intro s t h
  rw [addop_run, addop_run, if_pos h.left, if_pos h.right, ← h.text]
  split_ifs
  · exact .ok () { h with }
  · exact .error _

theorem sim_wavechecked (n : Int) : Sim (Alike C) A B (wavechecked n) (wavechecked n) := by
  intro s t h
  have hwave : s.wavedef = t.wavedef := congrArg Prod.snd h.tables
  rw [wavechecked_run, wavechecked_run, ← hwave, ← h.text]
  split_ifs
  · exact .ok () h
  · exact .error _

theorem sim_macrotext (n : Int) : Sim (Alike C) A B (macrotext n) (macrotext n) := by
  intro s t h
  have hmacro : s.macroText = t.macroText := congrArg Prod.fst h.tables
  rw [macrotext_run, macrotext_run, ← hmacro, ← h.text]
  split
  · exact .error _
  · exact .ok _ h

theorem sim_covers : Covers true (Sim (Alike C) A B) :=
  .of_addop Sim.pure Sim.bind (fun _ => sim_lift _) (fun _ => sim_lift _) (fun _ => sim_lift _)
    sim_addop sim_wavechecked sim_macrotext

/-- What a parse does from the start of its text on. -/
def turns (call : Nat → List Char → Parser Unit) (mask fuel : Nat) : Parser Unit := do
  repeatM .spent (line call mask) fuel
  if mask = 0 then closed else return ()

/-- The state in which a parse of `x` starts. -/
def State.at (s : State) (x : List Char) : State := { s with text := { s.text with cp := x } }

theorem Alike.at (h : Alike C s t) (x : List Char) : Alike C (s.at x) (t.at x) :=
  { h with text := congrArg (fun u : Text => { u with cp := x }) h.text }

theorem parse_succ {n mask : Nat} {x : List Char} {s : State} :
    (parse (n + 1) mask x).run s = (turns (parse n) mask (x.length + 1)).run (s.at x) :=
  rfl

theorem checked_succ {e : Stop} {n mask : Nat} {ts : List Text} {x : List Char} {s : State} :
    (checked e (n + 1) ts mask x).run s =
      if (s.at x).text ∈ ts then .error e
      else
        (turns (checked e n (if mask = 0 then [] else (s.at x).text :: ts)) mask
          (x.length + 1)).run (s.at x) := by
  show StateT.run (if (s.at x).text ∈ ts then _ else _) (s.at x) = _
  split
  · rfl
  · rfl

/-- Two parses whose calls meet. Definitions come only where the tables may be any. -/
theorem sim_turns {f g : Nat → List Char → Parser Unit} {mask : Nat}
    (hcall : ∀ m, m ≠ 0 → (mask ≠ 0 → m = mask) → ∀ x, Sim (Alike C) A B (f m x) (g m x))
    (hdefine : mask = 0 → ∀ τ, C τ) (fuel : Nat) :
    Sim (Alike C) A B (turns f mask fuel) (turns g mask fuel) := by
  have hcommands : ∀ m, m ≠ 0 → (mask ≠ 0 → m = mask) →
      Sim (Alike C) A B (commands (f m) m) (commands (g m) m) := by
    intro m hm hmask
    have hmacro : Sim (Alike C) A B (macrocmd (f m)) (macrocmd (g m)) := by
      refine (sim_lift _).bind fun n _ => (sim_macrotext n).bind fun x _ => ?_
      exact (sim_lift _).bind fun save _ => (hcall m hm hmask x).bind fun _ _ => sim_lift _
    exact (sim_lift _).bind fun t _ =>
      sim_covers.repeatM (Sim.throw _) (sim_covers.commandTurn hmacro m) _
  have hline : Sim (Alike C) A B (line f mask) (line g mask) := by
    refine sim_covers.line hcommands fun hmask => ⟨rfl, fun n w s t h => ?_, fun n x s t h => ?_⟩
    · refine .ok _ { h with tables := ?_, within := hdefine hmask _ }
      exact congrArg (fun τ : Tables => (τ.1, Function.update τ.2 n true)) h.tables
    · refine .ok _ { h with tables := ?_, within := hdefine hmask _ }
      exact congrArg (fun τ : Tables => (Function.update τ.1 n (some x), τ.2)) h.tables
  refine (sim_covers.repeatM (Sim.throw _) hline _).bind fun _ _ => ?_
  split
  · exact sim_lift _
  · exact Sim.pure ()

theorem sim_parse_succ {n mask : Nat} (x : List Char) (hdefine : mask = 0 → ∀ τ, C τ) :
    Sim (Alike C) (· = .spent) (fun _ => False) (parse n mask x) (parse (n + 1) mask x) := by
  induction n generalizing mask x with
  | zero => exact fun _ _ _ => .left rfl
  | succ n ih =>
      intro s t h
      rw [parse_succ, parse_succ]
      exact sim_turns (fun m hm _ y => ih y fun hzero => absurd hzero hm) hdefine _ _ _ (h.at x)

theorem sim_parse {n mask : Nat} (x : List Char) (hdefine : mask = 0 → ∀ τ, C τ) :
    Sim (Alike C) A B (parse n mask x) (parse n mask x) := by
  induction n generalizing mask x with
  | zero => exact Sim.throw _
  | succ n ih =>
      intro s t h
      rw [parse_succ, parse_succ]
      exact sim_turns (fun m hm _ y => ih y fun hzero => absurd hzero hm) hdefine _ _ _ (h.at x)

/-- Where the check does not fail, it makes no difference. -/
theorem sim_checked {e : Stop} {n mask : Nat} {ts : List Text} (x : List Char)
    (hdefine : mask = 0 → ∀ τ, C τ) :
    Sim (Alike C) (· = e) (fun _ => False) (checked e n ts mask x) (parse n mask x) := by
  induction n generalizing mask ts x with
  | zero => exact fun _ _ _ => .error _
  | succ n ih =>
      intro s t h
      rw [checked_succ, parse_succ]
      split
      · exact .left rfl
      · exact sim_turns (fun m hm _ y => ih y fun hzero => absurd hzero hm) hdefine _ _ _ (h.at x)

end

/-! ## A parse that ends -/

/-- The parse of a macro's text comes to no end within `n` calls. -/
def Endless (τ : Tables) (mask n : Nat) (t : Text) : Prop :=
  ∀ s : State, s.tables = τ → s.counting = true → (s.at t.cp).text = t →
    (parse n mask t.cp).run s = .error .spent

section

variable {τ : Tables} {mask n : Nat} {t : Text} {e : Stop}

theorem Endless.pred (h : Endless τ mask (n + 1) t) (hmask : mask ≠ 0) : Endless τ mask n t := by
  intro s htables hcount ht
  have hmeets := sim_parse_succ (C := (· = τ)) (n := n) t.cp (fun hzero => absurd hzero hmask) s s
    ⟨rfl, rfl, htables, hcount, hcount⟩
  rw [h s htables hcount ht] at hmeets
  generalize (parse n mask t.cp).run s = r at hmeets ⊢
  cases hmeets with
  | left h => rw [h]
  | right h => exact h.elim
  | error e => rfl

/-- Whether a parse ends depends on its text, and on the tables. -/
theorem endless_of_spent {s : State} {x : List Char} (htables : s.tables = τ)
    (hcount : s.counting = true) (hmask : mask ≠ 0) (h : (parse n mask x).run s = .error .spent) :
    Endless τ mask n (s.at x).text := by
  intro s' htables' hcount' ht
  have hstart : Alike (· = τ) (s.at x) (s'.at x) :=
    ⟨ht.symm, htables.trans htables'.symm, htables, hcount, hcount'⟩
  have hmeets := sim_parse (A := fun _ => False) (B := fun _ => False) (n := n) x
    (fun hzero => absurd hzero hmask) _ _ hstart
  have hspent : (parse n mask x).run (s.at x) = .error .spent := parse_setcp.trans h
  have hsame : (parse n mask x).run (s'.at x) = (parse n mask x).run s' := parse_setcp
  rw [hspent, hsame] at hmeets
  show (parse n mask x).run s' = _
  generalize (parse n mask x).run s' = r at hmeets ⊢
  cases hmeets with
  | left h => exact h.elim
  | right h => exact h.elim
  | error e => rfl

/-- A macro's parse, and the one with the check, if those around it do not end. -/
theorem sim_around (hmask : mask ≠ 0) {ts : List Text} (hts : ∀ t ∈ ts, Endless τ mask n t) (k : Nat)
    (x : List Char) :
    Sim (Alike (· = τ)) (· = .spent) (· = .spent) (parse n mask x) (checked e k ts mask x) := by
  induction n generalizing ts k x with
  | zero => exact fun _ _ _ => .left rfl
  | succ n ih =>
      intro s t h
      cases k with
      | zero => exact .right rfl
      | succ k =>
          have hpred : ∀ t ∈ ts, Endless τ mask n t := fun t ht => (hts t ht).pred hmask
          by_cases hmem : (t.at x).text ∈ ts
          · have hspent := hts _ hmem s h.within h.left (h.at x).text
            rw [show (parse (n + 1) mask x).run s = .error .spent from hspent]
            exact .left rfl
          · have hrest := ih hpred (k + 1) x s t h
            have hstep := sim_parse_succ (C := (· = τ)) (n := n) x (fun hzero => absurd hzero hmask) s s
              (h.trans h.symm)
            rw [checked_succ, if_neg hmem, if_neg hmask] at hrest ⊢
            by_cases hspent : (parse n mask x).run s = .error .spent
            · rw [parse_succ]
              refine sim_turns (fun m _ hm y => ?_) (fun hzero => absurd hzero hmask) _ _ _ (h.at x)
              rw [hm hmask]
              refine ih (List.forall_mem_cons.mpr ⟨?_, hpred⟩) k y
              rw [← (h.at x).text]
              exact endless_of_spent h.within h.left hmask hspent
            -- without another call the parse goes as it did
            · refine hstep.compose (fun h => h.symm) (fun h k => h.trans k) hrest fun e he hzero => hspent ?_
              rw [he, hzero]

end

/-- A parse that ends never comes to a text within itself again. -/
theorem not_recurs_of_ends {x : List Char} {n : Nat} (h : count n x ≠ .error .spent) : ¬Recurs x := by
  intro hrecurs
  obtain ⟨k, hk⟩ := hrecurs
  have hsame : ∀ e, e ≠ Stop.spent → count n x = .error e := by
    intro e he
    have hmeets : Meets (Alike fun _ => True) (· = .spent) (· = .spent)
        ((parse n 0 x).run State.init) ((checked e k [] 0 x).run State.init) := by
      have hinit : Alike (fun _ => True) State.init State.init := ⟨rfl, rfl, True.intro, rfl, rfl⟩
      cases n with
      | zero => exact .left rfl
      | succ n =>
          cases k with
          | zero => exact .right rfl
          | succ k =>
              rw [parse_succ, checked_succ, if_neg List.not_mem_nil, if_pos rfl]
              refine sim_turns (fun m hm _ y s t hst => ?_) (fun _ _ => True.intro) _ _ _
                (hinit.at x)
              have haround : Sim (Alike (· = s.tables)) (· = .spent) (· = .spent) (parse n m y)
                  (checked e k [] m y) := sim_around hm (by simp) k y
              exact (haround s t { hst with within := rfl }).mono fun _ _ => Alike.trivial
    have he' := hk e
    unfold count at h ⊢
    cases hchecked : (checked e k [] 0 x).run State.init with
    | ok r =>
        rw [hchecked] at he'
        cases he'
    | error e' =>
        rw [hchecked] at he' hmeets
        cases he'
        generalize (parse n 0 x).run State.init = r at h hmeets ⊢
        cases hmeets with
        | left hs =>
            rw [hs] at h
            exact absurd rfl h
        | right hs => exact absurd hs he
        | error e => rfl
  have hone := hsame .outside nofun
  rw [hsame (.fatal 0 "") nofun] at hone
  cases hone

/-! ## A text that does not come up again -/

/-- What a text in a macro may be: octaves and lengths in range, and no more than `MAXDEPTH` brackets
open. -/
structure Fit (t : Text) : Prop extends Ranged t where
  depth : ∀ c, 0 ≤ t.depth c ∧ t.depth c ≤ MAXDEPTH

/-- The text has been read on, and fits if it did. -/
structure Goes (lines : Bool) (t t' : Text) : Prop where
  le : t'.cp.length ≤ t.cp.length
  lineno : lines = false → t'.lineno = t.lineno
  fit : Fit t → Fit t'

section

variable {lines : Bool}

instance : Std.Refl (Goes lines) := ⟨fun _ => ⟨le_rfl, fun _ => rfl, id⟩⟩

instance : IsTrans Text (Goes lines) :=
  ⟨fun _ _ _ h k => ⟨k.le.trans h.le, fun hl => (k.lineno hl).trans (h.lineno hl),
    fun hfit => k.fit (h.fit hfit)⟩⟩

theorem Leads.goes {t t' : Text} (h : Leads lines t t') : Goes lines t t' where
  le := h.le
  lineno := h.lineno
  fit hfit := { h.ranged hfit.toRanged with depth := fun c => h.depth ▸ hfit.depth c }

theorem Fit.setdepth {t : Text} (h : Fit t) (c : Channel) {d : Int} (hd : 0 ≤ d ∧ d ≤ MAXDEPTH) :
    Fit { t with depth := Function.update t.depth c d } where
  octave := h.octave
  deflen := h.deflen
  depth k := by
    by_cases hk : k = c
    · subst hk
      simpa using hd
    · simpa [hk] using h.depth k

theorem goes_enter (c : Channel) : Moves (Goes lines) (· ≠ .spent) (enter c) := by
  intro t
  show Follows _ _ ((require (Function.update t.depth c (t.depth c + 1) c ≤ MAXDEPTH) _).run
    { t with depth := Function.update t.depth c (t.depth c + 1) })
  rw [require_run, Function.update_self]
  split_ifs with hd
  · refine ⟨le_rfl, fun _ => rfl, fun h => h.setdepth c ⟨?_, hd⟩⟩
    have hlow := (h.depth c).1
    omega
  · exact fun h => Stop.noConfusion h

theorem goes_leave (c : Channel) : Moves (Goes lines) (· ≠ .spent) (leave c) := by
  intro t
  show Follows _ _ ((require (0 ≤ Function.update t.depth c (t.depth c + -1) c) _).run
    { t with depth := Function.update t.depth c (t.depth c + -1) })
  rw [require_run, Function.update_self]
  split_ifs with hd
  · refine ⟨le_rfl, fun _ => rfl, fun h => h.setdepth c ⟨hd, ?_⟩⟩
    have hhigh := (h.depth c).2
    omega
  · exact fun h => Stop.noConfusion h

end

/-- A state of the first pass with tables in `C`, in a line of `L`, and a text that fits. -/
structure Held (C : Tables → Prop) (L : Nat → Prop) (s : State) : Prop where
  tables : C s.tables
  lineno : L s.text.lineno
  fit : Fit s.text

/-- No more is left of the text. -/
def Shorter (s s' : State) : Prop := s'.text.cp.length ≤ s.text.cp.length

instance : Std.Refl Shorter := ⟨fun _ => le_rfl⟩

instance : IsTrans State Shorter := ⟨fun _ _ _ h k => le_trans k h⟩

/-- A failure that is allowed, or one that is not for want of steps. -/
def Stopped (e e' : Stop) : Prop := e' = e ∨ e' ≠ .spent

/-- What leaves the text and the tables alone. -/
def Still (s s' : State) : Prop := s'.text = s.text ∧ s'.tables = s.tables

theorem still_addop (c : Channel) (code : Code) (a : Int) (b : Nat) :
    Moves Still (· ≠ .spent) (addop c code a b) := by
  intro s
  cases hrun : (addop c code a b).run s with
  | error e =>
      rw [addop_run] at hrun
      split_ifs at hrun <;> cases hrun <;> exact fun h => Stop.noConfusion h
  | ok r =>
      show Still s r.2
      obtain ⟨-, ⟨-, hr⟩ | ⟨-, -, -, hr⟩⟩ := addop_eq_ok.mp hrun
      · rw [hr]
        exact ⟨rfl, rfl⟩
      · rw [hr]
        exact ⟨rfl, rfl⟩

theorem still_wavechecked (n : Int) : Moves Still (· ≠ .spent) (wavechecked n) := by
  intro s
  rw [wavechecked_run]
  split_ifs
  · exact ⟨rfl, rfl⟩
  · exact fun h => Stop.noConfusion h

theorem still_macrotext (n : Int) : Moves Still (· ≠ .spent) (macrotext n) := by
  intro s
  rw [macrotext_run]
  split
  · exact fun h => Stop.noConfusion h
  · exact ⟨rfl, rfl⟩

theorem Plain.goes {lines : Bool} {α : Type} {p : Reader α} (hp : Plain lines p) :
    Moves (Goes lines) (· ≠ .spent) p := by
  intro t
  have hleads := hp t
  cases hrun : p.run t with
  | error e =>
      rw [hrun] at hleads
      exact hleads
  | ok r =>
      rw [hrun] at hleads
      exact hleads.goes

section

variable {α : Type}

theorem shorter_lift {lines : Bool} {p : Reader α} (hp : Moves (Goes lines) (· ≠ .spent) p) :
    Moves Shorter (fun _ => True) (liftM p : Parser α) := by
  intro s
  rw [run_lift]
  cases hrun : p.run s.text with
  | error e => trivial
  | ok r => exact (hp.of_ok hrun).le

theorem shorter_still {p : Parser α} (hp : Moves Still (· ≠ .spent) p) :
    Moves Shorter (fun _ => True) p := by
  intro s
  cases hrun : p.run s with
  | error e => trivial
  | ok r => exact (congrArg (fun t : Text => t.cp.length) (hp.of_ok hrun).1).le

theorem shorter_covers : Covers true (fun p _ => Moves Shorter (fun _ => True) p) :=
  .of_addop Moves.pure Moves.bind (fun hp => shorter_lift hp.goes)
    (fun c => shorter_lift (goes_enter c : Moves (Goes true) _ _))
    (fun _ => shorter_lift (Moves.forM fun c _ => (goes_leave c : Moves (Goes true) _ _)))
    (fun c code a b => shorter_still (still_addop c code a b))
    (fun n => shorter_still (still_wavechecked n)) fun n => shorter_still (still_macrotext n)

variable {C : Tables → Prop} {L : Nat → Prop} {e : Stop}

theorem keeps_lift {lines : Bool} (hL : lines = true → ∀ l, L l) {p : Reader α}
    (hp : Moves (Goes lines) (· ≠ .spent) p) :
    Keeps (Held C L) (Stopped e) (liftM p : Parser α) := by
  intro s hs
  rw [run_lift]
  cases hrun : p.run s.text with
  | error e' => exact .inr (hp.of_error hrun)
  | ok r =>
      have hgoes : Goes lines s.text r.2 := hp.of_ok hrun
      refine ⟨hs.tables, ?_, hgoes.fit hs.fit⟩
      show L r.2.lineno
      cases lines with
      | false =>
          rw [hgoes.lineno rfl]
          exact hs.lineno
      | true => exact hL rfl _

theorem keeps_still {p : Parser α} (hp : Moves Still (· ≠ .spent) p) :
    Keeps (Held C L) (Stopped e) p := by
  intro s hs
  cases hrun : p.run s with
  | error e' => exact .inr (hp.of_error hrun)
  | ok r =>
      obtain ⟨htext, htables⟩ := hp.of_ok hrun
      exact ⟨htables ▸ hs.tables, htext ▸ hs.lineno, htext ▸ hs.fit⟩

theorem keeps_covers {lines : Bool} (hL : lines = true → ∀ l, L l) :
    Covers lines (fun p _ => Keeps (Held C L) (Stopped e) p) :=
  .of_addop Keeps.pure (fun hp hf => hp.bind fun a h => hf a (h.imp fun _ k => k.imp fun _ r => r.2))
    (fun hp => keeps_lift hL hp.goes) (fun c => keeps_lift hL (goes_enter c))
    (fun _ => keeps_lift hL (Moves.forM fun c _ => goes_leave c))
    (fun c code a b => keeps_still (still_addop c code a b))
    (fun n => keeps_still (still_wavechecked n)) fun n => keeps_still (still_macrotext n)

end

/-! ## Each turn reads on -/

/-- After a macro the text goes on where it was. -/
theorem shorter_macrocmd (call : List Char → Parser Unit) :
    Moves Shorter (fun _ => True) (macrocmd call) := by
  intro s
  cases hrun : (macrocmd call).run s with
  | error e => trivial
  | ok r =>
      obtain ⟨n, s₁, hnumber, hrest⟩ := run_bind_eq_ok.mp hrun
      obtain ⟨x, s₂, htext, hrest⟩ := run_bind_eq_ok.mp hrest
      obtain ⟨save, s₃, hsave, hrest⟩ := run_bind_eq_ok.mp hrest
      obtain ⟨_, s₄, _, hset⟩ := run_bind_eq_ok.mp hrest
      obtain ⟨t, hsave, rfl⟩ := run_lift_eq_ok.mp hsave
      obtain ⟨t', hset, hr⟩ := run_lift_eq_ok.mp hset
      cases hsave
      cases hset
      have hfirst : Shorter s s₁ := (shorter_covers.lift (plain_needint _)).of_ok hnumber
      have hsecond : Shorter s₁ s₂ := (shorter_covers.macrotext n).of_ok htext
      show r.2.text.cp.length ≤ s.text.cp.length
      rw [hr]
      exact le_trans hsecond hfirst

theorem lt_of_advance {n : Nat} (hn : 0 < n) {s s' : State} {u : Unit}
    (h : (liftM (advance n) : Parser Unit).run s = .ok (u, s')) (hne : s.text.cp ≠ []) :
    s'.text.cp.length < s.text.cp.length := by
  obtain ⟨t, hadvance, rfl⟩ := run_lift_eq_ok.mp h
  cases hadvance
  have hpos := List.length_pos_iff.mpr hne
  show (s.text.cp.drop n).length < _
  rw [List.length_drop]
  omega

/-- A turn that finds a command takes at least its letter, and one that finds none is the last. -/
theorem commandTurn_reads {call : List Char → Parser Unit} {mask : Nat} {s s' : State} {more : Bool}
    (h : (commandTurn call mask).run s = .ok (more, s')) :
    let c := (s.text.cp.dropWhile isBlank).headD '\x00'
    more = true ∧ s'.text.cp.length < s.text.cp.length ∨
      more = false ∧ (c = '\x00' ∨ c = '\n' ∨ c = ';') := by
  obtain ⟨_, s₁, hblank, h⟩ := run_bind_eq_ok.mp h
  obtain ⟨c, s₂, hpeek, h⟩ := run_bind_eq_ok.mp h
  have hle : Shorter s s₁ := (shorter_covers.lift plain_skipblank).of_ok hblank
  obtain ⟨t, hblank, rfl⟩ := run_lift_eq_ok.mp hblank
  cases hblank
  obtain ⟨t, hpeek, rfl⟩ := run_lift_eq_ok.mp hpeek
  cases hpeek
  split_ifs at h with hend
  · cases h
    exact .inr ⟨rfl, hend⟩
  · obtain ⟨_, s₃, hadvance, h⟩ := run_bind_eq_ok.mp h
    obtain ⟨_, s₄, hcommand, h⟩ := run_bind_eq_ok.mp h
    cases h
    have hlt := lt_of_advance Nat.one_pos hadvance fun hnil => hend (.inl (by rw [hnil]; rfl))
    have hcommand : Shorter s₃ s' := (shorter_covers.command (g := call)
      (shorter_macrocmd call) mask _).of_ok hcommand
    exact .inl ⟨rfl, lt_of_le_of_lt hcommand (lt_of_lt_of_le hlt hle)⟩

theorem shorter_commands (call : List Char → Parser Unit) (mask : Nat) :
    Moves Shorter (fun _ => True) (commands call mask) := fun s =>
  Moves.repeatM (shorter_covers.commandTurn (g := call) (shorter_macrocmd call) mask) trivial _ s

theorem commands_lt {call : List Char → Parser Unit} {mask : Nat} {s s' : State} {u : Unit}
    (h : (commands call mask).run s = .ok (u, s'))
    (hend : ¬((s.text.cp.dropWhile isBlank).headD '\x00' = '\x00' ∨
      (s.text.cp.dropWhile isBlank).headD '\x00' = '\n' ∨
      (s.text.cp.dropWhile isBlank).headD '\x00' = ';')) :
    s'.text.cp.length < s.text.cp.length := by
  have hloop : (repeatM .spent (commandTurn call mask) (s.text.cp.length + 1)).run s = .ok (u, s') := h
  rw [Lib.repeatM] at hloop
  obtain ⟨more, s₁, hturn, hrest⟩ := run_bind_eq_ok.mp hloop
  obtain ⟨rfl, hlt⟩ | ⟨-, hstop⟩ := commandTurn_reads hturn
  · have hle : Shorter s₁ s' := (Moves.repeatM (shorter_covers.commandTurn (g := call)
      (shorter_macrocmd call) mask) trivial _).of_ok hrest
    exact lt_of_le_of_lt hle hlt
  · exact absurd hstop hend

theorem dropWhile_lt {q : Char → Bool} {x : List Char} (hne : x ≠ []) (hq : q (x.headD '\x00') = true) :
    (x.dropWhile q).length < x.length := by
  cases x with
  | nil => exact absurd rfl hne
  | cons c x =>
      have hdrop : (c :: x).dropWhile q = x.dropWhile q := List.dropWhile_cons_of_pos hq
      have hle := (List.dropWhile_sublist q (l := x)).length_le
      rw [hdrop, List.length_cons]
      omega

theorem names_lt {s s' : State} {m : Nat} (h : (liftM names : Parser Nat).run s = .ok (m, s'))
    (hm : m ≠ 0) : s'.text.cp.length < s.text.cp.length := by
  obtain ⟨t, hnames, rfl⟩ := run_lift_eq_ok.mp h
  have hrun : names.run s.text = .ok
      ((s.text.cp.takeWhile fun c => 'A' ≤ c && c ≤ 'D').foldl
        (fun m c => m ||| 1 <<< (c.toNat - 'A'.toNat)) 0,
        { s.text with cp := s.text.cp.dropWhile fun c => 'A' ≤ c && c ≤ 'D' }) := rfl
  rw [hrun] at hnames
  cases hnames
  show (s.text.cp.dropWhile _).length < _
  cases hcp : s.text.cp with
  | nil =>
      rw [hcp] at hm
      exact absurd rfl hm
  | cons c x =>
      refine dropWhile_lt (List.cons_ne_nil c x) (by_contra fun hname => hm ?_)
      have hnone : (c :: x).takeWhile (fun c => 'A' ≤ c && c ≤ 'D') = [] :=
        List.takeWhile_cons_of_neg hname
      rw [hcp, hnone]
      rfl

/-- A turn of a parse takes something of the text, unless it is the last. -/
theorem line_lt {call : Nat → List Char → Parser Unit} {mask : Nat} {s s' : State}
    (h : (line call mask).run s = .ok (true, s')) : s'.text.cp.length < s.text.cp.length := by
  obtain ⟨_, s₁, hblank, h⟩ := run_bind_eq_ok.mp h
  obtain ⟨c, s₂, hpeek, h⟩ := run_bind_eq_ok.mp h
  have hle : s₁.text.cp.length ≤ s.text.cp.length :=
    (shorter_covers.lift plain_skipblank).of_ok hblank
  obtain ⟨t, hpeek, rfl⟩ := run_lift_eq_ok.mp hpeek
  cases hpeek
  refine lt_of_lt_of_le ?_ hle
  have hnoblank : s₁.text.cp.dropWhile isBlank = s₁.text.cp := by
    obtain ⟨t, hblank, rfl⟩ := run_lift_eq_ok.mp hblank
    cases hblank
    exact List.dropWhile_idempotent isBlank s.text.cp
  have hne : s₁.text.cp.headD '\x00' ≠ '\x00' → s₁.text.cp ≠ [] := fun hhead hnil => by
    rw [hnil] at hhead
    exact hhead rfl
  split_ifs at h with hend hnewline hcomment hmask
  · cases h
  · obtain ⟨_, s₃, hskip, h⟩ := run_bind_eq_ok.mp h
    cases h
    obtain ⟨t, hskip, rfl⟩ := run_lift_eq_ok.mp hskip
    cases hskip
    have hpos := List.length_pos_iff.mpr (hne hend)
    show (s₁.text.cp.drop 1).length < _
    rw [List.length_drop]
    omega
  · obtain ⟨_, s₃, hskip, h⟩ := run_bind_eq_ok.mp h
    cases h
    obtain ⟨t, hskip, rfl⟩ := run_lift_eq_ok.mp hskip
    cases hskip
    refine dropWhile_lt (hne hend) ?_
    have hsemi : s₁.text.cp.headD '\x00' = ';' := hcomment
    show (s₁.text.cp.headD '\x00' != '\x00' && s₁.text.cp.headD '\x00' != '\n') = true
    rw [hsemi]
    rfl
  · obtain ⟨_, s₃, hcommands, h⟩ := run_bind_eq_ok.mp h
    cases h
    refine commands_lt hcommands ?_
    rw [hnoblank]
    exact fun h => h.elim hend fun h => h.elim hnewline hcomment
  · obtain ⟨found, s₃, hahead, h⟩ := run_bind_eq_ok.mp h
    obtain ⟨t, hahead, rfl⟩ := run_lift_eq_ok.mp hahead
    cases hahead
    split_ifs at h with hwave
    · obtain ⟨_, s₃, hadvance, h⟩ := run_bind_eq_ok.mp h
      obtain ⟨_, s₄, hdefine, h⟩ := run_bind_eq_ok.mp h
      cases h
      have hlt := lt_of_advance (by omega) hadvance (hne hend)
      obtain ⟨w, s₅, htext, hset⟩ := run_bind_eq_ok.mp hdefine
      have hread : Shorter s₃ s₅ := (shorter_covers.lift plain_wavetext).of_ok htext
      cases hset
      exact lt_of_le_of_lt hread hlt
    obtain ⟨found, s₃, hahead, h⟩ := run_bind_eq_ok.mp h
    obtain ⟨t, hahead, rfl⟩ := run_lift_eq_ok.mp hahead
    cases hahead
    split_ifs at h with hmacro
    · obtain ⟨_, s₃, hadvance, h⟩ := run_bind_eq_ok.mp h
      obtain ⟨_, s₄, hdefine, h⟩ := run_bind_eq_ok.mp h
      cases h
      have hlt := lt_of_advance (by omega) hadvance (hne hend)
      obtain ⟨w, s₅, htext, hset⟩ := run_bind_eq_ok.mp hdefine
      have hread : Shorter s₃ s₅ := (shorter_covers.lift plain_macrobody).of_ok htext
      cases hset
      exact lt_of_le_of_lt hread hlt
    · obtain ⟨_, s₃, hsong, h⟩ := run_bind_eq_ok.mp h
      cases h
      obtain ⟨m, s₄, hnames, h⟩ := run_bind_eq_ok.mp hsong
      obtain ⟨_, s₅, hsome, hcommands⟩ := run_bind_eq_ok.mp h
      have hm := require_holds_lift ⟨_, _, hsome⟩
      have hsame : Shorter s₄ s₅ := (shorter_covers.lift (plain_require _ _)).of_ok hsome
      have hrest : Shorter s₅ s' := (shorter_commands _ _).of_ok hcommands
      exact lt_of_le_of_lt (le_trans hrest hsame) (names_lt hnames hm)

/-! ## Only so many texts -/

section

variable {C : Tables → Prop} {L : Nat → Prop} {e : Stop}

theorem keeps_turns {call : Nat → List Char → Parser Unit} {mask fuel : Nat} {lines : Bool}
    (hL : lines = true → ∀ l, L l) (hdefine : mask = 0 → lines = true ∧ ∀ τ, C τ)
    (hcommands : ∀ m, m ≠ 0 → (mask ≠ 0 → m = mask) →
      Keeps (Held C L) (Stopped e) (commands (call m) m))
    {s : State} (hs : Held C L s) (hfuel : s.text.cp.length < fuel) :
    Follows (Stopped e) (fun r => Held C L r.2) ((turns call mask fuel).run s) := by
  have hline : Keeps (Held C L) (Stopped e) (line call mask) := by
    refine (keeps_covers hL).line (g := call) hcommands fun hmask => ?_
    obtain ⟨hlines, hC⟩ := hdefine hmask
    exact ⟨hlines, fun _ _ s hs => { hs with tables := hC _ }, fun _ _ s hs => { hs with tables := hC _ }⟩
  have hloop : Follows (Stopped e) (fun r => Held C L r.2)
      ((repeatM .spent (line call mask) fuel).run s) := Keeps.repeatM_of_lt hline line_lt hs hfuel
  unfold turns
  rw [StateT.run_bind]
  refine hloop.bind fun r hr => ?_
  split
  · exact keeps_lift hL plain_closed.goes _ hr
  · exact hr

/-- The commands of a text, if the macros that they call keep to `C` and `L`. -/
theorem keeps_commands {call : List Char → Parser Unit} {mask : Nat}
    (hcall : ∀ s x i, Held C L s → (0 ≤ i ∧ i < NMACRO) → s.macroText i.toNat = some x →
      Keeps (Held C L) (Stopped e) (call x)) :
    Keeps (Held C L) (Stopped e) (commands call mask) := by
  have hL : false = true → ∀ l, L l := nofun
  have hmacro : Keeps (Held C L) (Stopped e) (macrocmd call) := by
    refine (keeps_lift hL (plain_needint _).goes).bind fun n _ => ?_
    refine (keeps_still (still_macrotext n)).bind fun x hx => ?_
    obtain ⟨s, s', hs, hrun⟩ := hx
    obtain ⟨hn, htext, -⟩ := macrotext_eq_ok.mp hrun
    refine (keeps_lift hL plain_get.goes).bind fun save _ => (hcall s x n hs hn htext).bind fun _ _ => ?_
    exact fun s hs => ⟨hs.tables, hs.lineno, { hs.fit with }⟩
  intro s hs
  exact Keeps.repeatM_of_lt ((keeps_covers hL).commandTurn (g := call) hmacro mask)
    (fun hrun => (commandTurn_reads hrun).elim (fun h => h.2) fun h => nomatch h.1) hs
    (Nat.lt_succ_self s.text.cp.length)

/-- What a text within macros can be told apart by: the macro, and the settings of the channels, whose
lengths are up to `b`. -/
abbrev Place (b : Nat) :=
  Fin 32 × (Channel → Fin 9) × (Channel → Fin (b + 1)) × Bool × (Channel → Fin 9)

/-- The texts that macros can have in line `l`. -/
def places (b : Nat) (τ : Tables) (l : Nat) : Finset Text :=
  Finset.univ.image fun p : Place b =>
    { cp := (τ.1 p.1).getD []
      lineno := l
      octave := fun c => (p.2.1 c : Nat)
      deflen := fun c => p.2.2.1 c
      slurnext := p.2.2.2.1
      depth := fun c => (p.2.2.2.2 c : Nat) }

theorem mem_places {b : Nat} (hb : 4 * WHOLE ≤ b) {τ : Tables} {l i : Nat} {t : Text} (hi : i < 32)
    (hcp : τ.1 i = some t.cp) (hl : t.lineno = l) (hfit : Fit t) : t ∈ places b τ l := by
  have hoctave : ∀ c, (t.octave c).toNat < 9 ∧ ((t.octave c).toNat : Int) = t.octave c := fun c => by
    have hrange := hfit.octave c
    omega
  have hdepth : ∀ c, (t.depth c).toNat < 9 ∧ ((t.depth c).toNat : Int) = t.depth c := fun c => by
    have hrange := hfit.depth c
    unfold MAXDEPTH at hrange
    omega
  refine Finset.mem_image.mpr ⟨⟨⟨i, hi⟩, fun c => ⟨_, (hoctave c).1⟩,
    fun c => ⟨t.deflen c, Nat.lt_succ_of_le ((hfit.deflen c).2.trans hb)⟩, t.slurnext,
    fun c => ⟨_, (hdepth c).1⟩⟩, Finset.mem_univ _, ?_⟩
  cases t
  simp_all

/-- The parse of a macro, within others whose texts are all different, is not short of steps when it
has more of them than there can be texts. -/
theorem keeps_checked {b : Nat} (hb : 4 * WHOLE ≤ b) {τ : Tables} {l n mask i : Nat} {ts : List Text} {x : List Char}
    (hmask : mask ≠ 0) (hnodup : ts.Nodup) (hts : ∀ t ∈ ts, t ∈ places b τ l)
    (hn : (places b τ l).card < n + ts.length) (hi : i < 32) (hx : τ.1 i = some x) :
    Keeps (Held (· = τ) (· = l)) (Stopped e) (checked e n ts mask x) := by
  induction n generalizing ts i x with
  | zero =>
      have hcard : ts.toFinset.card ≤ (places b τ l).card :=
        Finset.card_le_card fun t ht => hts t (List.mem_toFinset.mp ht)
      rw [List.toFinset_card_of_nodup hnodup] at hcard
      omega
  | succ n ih =>
      intro s hs
      rw [checked_succ]
      split_ifs with hmem
      · exact .inl rfl
      · have hstart : Held (· = τ) (· = l) (s.at x) := ⟨hs.tables, hs.lineno, { hs.fit with }⟩
        have hplace : (s.at x).text ∈ places b τ l := mem_places hb hi hx hs.lineno hstart.fit
        have hlines : false = true → ∀ k, k = l := nofun
        refine keeps_turns hlines (fun hzero => absurd hzero hmask)
          (fun m _ hm => keeps_commands fun s' y j hs' hj hy => ?_) hstart (Nat.lt_succ_self _)
        rw [hm hmask]
        have hjn : j.toNat < 32 := by
          unfold NMACRO at hj
          omega
        have hy : τ.1 j.toNat = some y := by
          rw [← hs'.tables]
          exact hy
        exact ih (List.nodup_cons.mpr ⟨hmem, hnodup⟩) (List.forall_mem_cons.mpr ⟨hplace, hts⟩)
          (by rw [List.length_cons]; omega) hjn hy

end

theorem held_init : Held (fun _ => True) (fun _ => True) State.init where
  tables := trivial
  lineno := trivial
  fit :=
    { octave := fun _ => (by decide : (1 : Int) ≤ 4 ∧ (4 : Int) ≤ 8)
      deflen := fun _ => (by decide : 1 ≤ WHOLE / 4 ∧ WHOLE / 4 ≤ 4 * WHOLE)
      depth := fun _ => (by decide : (0 : Int) ≤ 0 ∧ (0 : Int) ≤ MAXDEPTH) }

/-- With more steps than there are places, the check comes first. -/
theorem stopped_checked {b n : Nat} (hb : 4 * WHOLE ≤ b) (hn : Fintype.card (Place b) < n) (e : Stop)
    (x : List Char) :
    Follows (Stopped e) (fun r => Held (fun _ => True) (fun _ => True) r.2)
      ((checked e (n + 1) [] 0 x).run State.init) := by
  have hcommands : ∀ m, m ≠ 0 →
      Keeps (Held (fun _ => True) fun _ => True) (Stopped e) (commands (checked e n [] m) m) := by
    intro m hm s hs
    have hall : Keeps (Held (· = s.tables) (· = s.text.lineno)) (Stopped e)
        (commands (checked e n [] m) m) := by
      refine keeps_commands fun s' x i hs' hi hx => ?_
      have hplaces : (places b s.tables s.text.lineno).card ≤ Fintype.card (Place b) :=
        Finset.card_image_le
      have hlow : i.toNat < 32 := by
        unfold NMACRO at hi
        omega
      have hx : s.tables.1 i.toNat = some x := by
        rw [← hs'.tables]
        exact hx
      exact keeps_checked hb hm List.nodup_nil (fun t ht => absurd ht List.not_mem_nil)
        (by rw [List.length_nil]; omega) hlow hx
    have hrun := hall s ⟨rfl, rfl, hs.fit⟩
    cases hcase : (commands (checked e n [] m) m).run s with
    | error e' =>
        rw [hcase] at hrun
        exact hrun
    | ok r =>
        rw [hcase] at hrun
        exact ⟨trivial, trivial, hrun.fit⟩
  rw [checked_succ, if_neg List.not_mem_nil, if_pos rfl]
  have hstart : Held (fun _ => True) (fun _ => True) (State.init.at x) :=
    { held_init with fit := { held_init.fit with } }
  exact keeps_turns (fun _ _ => trivial) (fun _ => ⟨rfl, fun _ => trivial⟩)
    (fun m hm _ => hcommands m hm) hstart (Nat.lt_succ_self _)

/-- Where no text comes up within itself, a parse with enough steps ends. -/
theorem count_ends {x : List Char} (h : ¬Recurs x) : ∃ n, count n x ≠ .error .spent := by
  obtain ⟨b, hb⟩ : ∃ b, 4 * WHOLE ≤ b := ⟨_, le_rfl⟩
  have hsome : ¬∀ e, ((checked e (Fintype.card (Place b) + 2) [] 0 x).run State.init).map Prod.snd =
      .error e := fun hall => h ⟨_, hall⟩
  obtain ⟨e, he⟩ := not_forall.mp hsome
  refine ⟨Fintype.card (Place b) + 2, fun hspent => he ?_⟩
  have hinit : Alike (fun _ => True) State.init State.init := ⟨rfl, rfl, trivial, rfl, rfl⟩
  have hmeets : Meets (Alike fun _ => True) (· = e) (fun _ => False)
      ((checked e (Fintype.card (Place b) + 2) [] 0 x).run State.init)
      ((parse (Fintype.card (Place b) + 2) 0 x).run State.init) :=
    sim_checked x (fun _ _ => trivial) _ _ hinit
  have hstopped := stopped_checked hb (Nat.lt_succ_self _) e x
  unfold count at hspent
  cases hchecked : (checked e (Fintype.card (Place b) + 2) [] 0 x).run State.init with
  | ok r =>
      rw [hchecked] at hmeets
      generalize (parse (Fintype.card (Place b) + 2) 0 x).run State.init = r' at hmeets hspent
      cases hmeets with
      | right h => exact h.elim
      | ok a h => cases hspent
  | error e' =>
      rw [hchecked] at hmeets hstopped
      obtain rfl | hne := hstopped
      · rfl
      · generalize (parse (Fintype.card (Place b) + 2) 0 x).run State.init = r' at hmeets hspent
        cases hmeets with
        | left h =>
            rw [h]
            rfl
        | right h => exact h.elim
        | error e =>
            cases hspent
            exact absurd rfl hne

/-! ## The second pass -/

/-- The second pass does not want for steps that the first one had. -/
theorem lockstep_behind : Lockstep (fun _ => True) Behind (· ≠ .spent) where
  back _ _ := trivial
  text h := h.text
  macroText h := h.macroText
  wavedef h := h.wavedef
  settext u h := { h with text := rfl }
  setwave n w h := h.setwave n w
  setmacro n x h := h.setmacro n x
  addop c code a b :=
    { back := fun _ _ => trivial
      follow := fun {s t s' u} hR hrun _ => by
        have hstill := still_addop c code a b t
        obtain ⟨hb, ⟨-, rfl⟩ | ⟨hfill, -⟩⟩ := addop_eq_ok.mp hrun
        · cases hadd : (addop c code a b).run t with
          | error e =>
              rw [hadd] at hstill
              exact .inr ⟨e, rfl, hstill⟩
          | ok r =>
              rw [hadd] at hstill
              obtain ⟨htext, htables⟩ := hstill
              obtain ⟨htexts, hwave⟩ := Prod.mk.inj htables
              refine .inl ⟨r.2, rfl, hR.text.trans htext.symm, ?_, ?_, hR.counting⟩
              · intro n x h
                rw [htexts]
                exact hR.macroText h
              · intro n h
                rw [hwave]
                exact hR.wavedef h
        · rw [hR.counting] at hfill
          cases hfill }

theorem fill_ends {n : Nat} {x : List Char} {s : State} (h : count n x = .ok s) :
    fill n x s ≠ .error .spent := by
  have hrun := map_snd_eq_ok.mp h
  have hstart := behind_between fun c => parse_closed hrun c
  unfold fill
  rw [← parse_setcp]
  obtain ⟨t, hfill, -⟩ | ⟨e, hfill, he⟩ := (lockstep_behind.parse n 0 x).follow hstart hrun trivial
  · rw [hfill]
    exact nofun
  · rw [hfill]
    exact fun hspent => he (Except.error.inj hspent)

/-- A text is parsed to an end, in both passes, unless a macro comes up within itself with all variables
of the text as they were. -/
theorem parse_ends_iff (x : List Char) : (∃ n, load n x ≠ .error .spent) ↔ ¬Recurs x := by
  constructor
  · intro h
    obtain ⟨n, hn⟩ := h
    refine not_recurs_of_ends (n := n) fun hspent => hn ?_
    unfold load
    rw [hspent]
    rfl
  · intro h
    obtain ⟨n, hn⟩ := count_ends h
    refine ⟨n, ?_⟩
    unfold load
    cases hcount : count n x with
    | error e =>
        intro hspent
        rw [hcount] at hn
        exact hn hspent
    | ok s => exact fill_ends hcount

end DiscoBsd.Mml
