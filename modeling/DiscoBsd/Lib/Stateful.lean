import Mathlib.Order.Defs.Unbundled
import Mathlib.Tactic.Basic

/-!
# Computations with a state that may fail

What a run of a computation keeps, and two runs of one computation, from states that are related, side
by side. `repeatM` is a loop that goes on for as long as its body says so.
-/

namespace DiscoBsd.Lib

/-! ## Computations that may fail

Peeling a successful computation apart, and carrying a relation along a list of fallible steps:
from the start of one run to its end, or between two runs over the same list.
-/

section

universe u

variable {ε γ : Type*} {α β : Type u}

theorem bind_eq_ok {x : Except ε α} {f : α → Except ε β} {r : β} :
    x >>= f = .ok r ↔ ∃ a, x = .ok a ∧ f a = .ok r := by
  cases x with
  | error e => simp [bind, Except.bind]
  | ok a => simp [bind, Except.bind]

/-- What every step keeps, a whole run keeps. -/
theorem foldlM_rel {R : α → α → Prop} {f : α → γ → Except ε α} {xs : List γ} {a a' : α}
    (h : xs.foldlM f a = .ok a') (hrefl : ∀ a, R a a)
    (htrans : ∀ {a b c}, R a b → R b c → R a c)
    (hstep : ∀ x a a', f a x = .ok a' → R a a') : R a a' := by
  induction xs generalizing a with
  | nil =>
    obtain rfl := Except.ok.inj h
    exact hrefl a
  | cons x xs ih =>
    rw [List.foldlM_cons, bind_eq_ok] at h
    obtain ⟨b, hb, h⟩ := h
    exact htrans (hstep x a b hb) (ih h)

/-- The result of a computation is in `R`, or its error in `P`. -/
def Follows (P : ε → Prop) (R : β → Prop) : Except ε β → Prop
  | .ok b => R b
  | .error e => P e

theorem Follows.bind {P : ε → Prop} {R : α → Prop} {S : β → Prop} {x : Except ε α}
    {f : α → Except ε β} (h : Follows P R x) (hf : ∀ b, R b → Follows P S (f b)) :
    Follows P S (x >>= f) := by
  cases x with
  | error e => exact h
  | ok a => exact hf a h

/-- Two runs over one list that both succeed. -/
theorem foldlM_rel₂ {R : α → β → Prop} {f : α → γ → Except ε α} {g : β → γ → Except ε β}
    {xs : List γ} {a a' : α} {b b' : β} (ha : xs.foldlM f a = .ok a')
    (hb : xs.foldlM g b = .ok b') (hab : R a b)
    (hstep : ∀ x a b a' b', R a b → f a x = .ok a' → g b x = .ok b' → R a' b') : R a' b' := by
  induction xs generalizing a b with
  | nil =>
    obtain rfl := Except.ok.inj ha
    obtain rfl := Except.ok.inj hb
    exact hab
  | cons x xs ih =>
    rw [List.foldlM_cons, bind_eq_ok] at ha hb
    obtain ⟨c, hc, ha⟩ := ha
    obtain ⟨d, hd, hb⟩ := hb
    exact ih ha hb (hstep x a b c d hab hc hd)

theorem Follows.foldlM {P : ε → Prop} {I : α → Prop} {f : α → γ → Except ε α}
    (hstep : ∀ {a x}, I a → Follows P I (f a x)) {xs : List γ} {a : α} (ha : I a) :
    Follows P I (xs.foldlM f a) := by
  induction xs generalizing a with
  | nil => exact ha
  | cons x xs ih =>
    rw [List.foldlM_cons]
    exact (hstep ha).bind fun b hb => ih hb

end

variable {σ ε α β γ : Type}

theorem run_bind_eq_ok {p : StateT σ (Except ε) α} {f : α → StateT σ (Except ε) β} {s : σ}
    {r : β × σ} :
    (p >>= f).run s = .ok r ↔ ∃ a t, p.run s = .ok (a, t) ∧ (f a).run t = .ok r := by
  rw [StateT.run_bind, bind_eq_ok]
  exact ⟨fun ⟨x, hx, hr⟩ => ⟨x.1, x.2, hx, hr⟩, fun ⟨a, t, hx, hr⟩ => ⟨(a, t), hx, hr⟩⟩

/-- The body, until it says that there is no more to do. -/
def repeatM (spent : ε) (body : StateT σ (Except ε) Bool) : Nat → StateT σ (Except ε) Unit
  | 0 => throw spent
  | n + 1 => do if ← body then repeatM spent body n else pure ()

theorem repeatM_next {spent : ε} {body : StateT σ (Except ε) Bool} {s s' : σ} {n : Nat}
    (h : body.run s = .ok (true, s')) :
    (repeatM spent body (n + 1)).run s = (repeatM spent body n).run s' := by
  rw [repeatM, StateT.run_bind, h]
  rfl

theorem repeatM_last {spent : ε} {body : StateT σ (Except ε) Bool} {s s' : σ} {n : Nat}
    (h : body.run s = .ok (false, s')) : (repeatM spent body (n + 1)).run s = .ok ((), s') := by
  rw [repeatM, StateT.run_bind, h]
  rfl

/-- The results of `p` are in `Q`. -/
def Yields (Q : α → Prop) (p : StateT σ (Except ε) α) : Prop :=
  ∀ (s s' : σ) (a : α), p.run s = .ok (a, s') → Q a

section

variable {Q : β → Prop} {p : StateT σ (Except ε) α} {f : α → StateT σ (Except ε) β}

theorem Yields.bind (hf : ∀ a, (∃ s s', p.run s = .ok (a, s')) → Yields Q (f a)) :
    Yields Q (p >>= f) := by
  intro s s' b hrun
  obtain ⟨a, t, hp, hrest⟩ := run_bind_eq_ok.mp hrun
  exact hf a ⟨s, t, hp⟩ _ _ _ hrest

theorem Yields.pure {b : β} (hb : Q b) : Yields Q (Pure.pure b : StateT σ (Except ε) β) := by
  intro s s' c hrun
  cases hrun
  exact hb

theorem Yields.ite {c : Prop} [Decidable c] {p q : StateT σ (Except ε) β} (hp : Yields Q p)
    (hq : Yields Q q) : Yields Q (if c then p else q) := by
  split
  · exact hp
  · exact hq

end

/-- A run leads from a state to one that is in `G` to it, or fails in `E`. -/
def Moves (G : σ → σ → Prop) (E : ε → Prop) (p : StateT σ (Except ε) α) : Prop :=
  ∀ s, Follows E (fun r => G s r.2) (p.run s)

theorem Moves.of_ok {G : σ → σ → Prop} {E : ε → Prop} {p : StateT σ (Except ε) α} {s s' : σ} {a : α}
    (h : Moves G E p) (hrun : p.run s = .ok (a, s')) : G s s' := by
  have hmoves := h s
  rw [hrun] at hmoves
  exact hmoves

theorem Moves.of_error {G : σ → σ → Prop} {E : ε → Prop} {p : StateT σ (Except ε) α} {s : σ} {e : ε}
    (h : Moves G E p) (hrun : p.run s = .error e) : E e := by
  have hmoves := h s
  rw [hrun] at hmoves
  exact hmoves

theorem Moves.throw {G : σ → σ → Prop} {E : ε → Prop} {e : ε} (h : E e) :
    Moves G E (throwThe ε e : StateT σ (Except ε) α) :=
  fun _ => h

theorem Moves.ite {G : σ → σ → Prop} {E : ε → Prop} {c : Prop} [Decidable c]
    {p q : StateT σ (Except ε) α} (hp : Moves G E p) (hq : Moves G E q) :
    Moves G E (if c then p else q) := by
  split
  · exact hp
  · exact hq

section

variable {G : σ → σ → Prop} {E : ε → Prop}

theorem Moves.pure [Std.Refl G] (a : α) : Moves G E (Pure.pure a : StateT σ (Except ε) α) :=
  fun s => Std.Refl.refl s

theorem Moves.get [Std.Refl G] : Moves G E (MonadState.get : StateT σ (Except ε) σ) :=
  fun s => Std.Refl.refl s

variable [IsTrans σ G]

/-- What follows may use that it comes after a run of `p`. -/
theorem Moves.bind {p : StateT σ (Except ε) α} {f : α → StateT σ (Except ε) β} (hp : Moves G E p)
    (hf : ∀ a, (∃ s s', p.run s = .ok (a, s')) → Moves G E (f a)) : Moves G E (p >>= f) := by
  intro s
  rw [StateT.run_bind]
  cases hrun : p.run s with
  | error e => exact hp.of_error hrun
  | ok r =>
      have hfirst : G s r.2 := hp.of_ok hrun
      have hsecond := hf r.1 ⟨s, r.2, hrun⟩ r.2
      show Follows E _ ((f r.1).run r.2)
      cases hrest : (f r.1).run r.2 with
      | error e =>
          rw [hrest] at hsecond
          exact hsecond
      | ok q =>
          rw [hrest] at hsecond
          exact trans_of G hfirst hsecond

theorem Moves.forM [Std.Refl G] {g : γ → StateT σ (Except ε) Unit} {xs : List γ}
    (h : ∀ x ∈ xs, Moves G E (g x)) : Moves G E (xs.forM g) := by
  induction xs with
  | nil => exact Moves.pure ()
  | cons x xs ih => exact (h x (by simp)).bind fun _ _ => ih fun y hy => h y (by simp [hy])

theorem Moves.repeatM [Std.Refl G] {spent : ε} {body : StateT σ (Except ε) Bool}
    (hbody : Moves G E body) (hspent : E spent) (fuel : Nat) : Moves G E (Lib.repeatM spent body fuel) := by
  induction fuel with
  | zero => exact Moves.throw hspent
  | succ fuel ih => exact hbody.bind fun more _ => Moves.ite ih (Moves.pure ())

end

/-- A run from a state in `I` leads to one in `I`, or fails in `E`. -/
def Keeps (I : σ → Prop) (E : ε → Prop) (p : StateT σ (Except ε) α) : Prop :=
  ∀ s, I s → Follows E (fun r => I r.2) (p.run s)

section

variable {I : σ → Prop} {E : ε → Prop}

theorem Keeps.pure (a : α) : Keeps I E (Pure.pure a : StateT σ (Except ε) α) := fun _ hs => hs

theorem Keeps.bind {p : StateT σ (Except ε) α} {f : α → StateT σ (Except ε) β} (hp : Keeps I E p)
    (hf : ∀ a, (∃ s s', I s ∧ p.run s = .ok (a, s')) → Keeps I E (f a)) : Keeps I E (p >>= f) := by
  intro s hs
  have hfirst := hp s hs
  rw [StateT.run_bind]
  cases hrun : p.run s with
  | error e =>
      rw [hrun] at hfirst
      exact hfirst
  | ok r =>
      rw [hrun] at hfirst
      exact hf r.1 ⟨s, r.2, hs, hrun⟩ r.2 hfirst

/-- A loop whose measure goes down each time it goes on is not cut short. -/
theorem Keeps.repeatM_of_lt {μ : σ → Nat} {spent : ε} {body : StateT σ (Except ε) Bool}
    (hbody : Keeps I E body) (hμ : ∀ {s s'}, body.run s = .ok (true, s') → μ s' < μ s)
    {fuel : Nat} {s : σ} (hI : I s) (hs : μ s < fuel) :
    Follows E (fun r => I r.2) ((Lib.repeatM spent body fuel).run s) := by
  induction fuel generalizing s with
  | zero => omega
  | succ fuel ih =>
      have hturn := hbody s hI
      rw [Lib.repeatM, StateT.run_bind]
      cases hrun : body.run s with
      | error e =>
          rw [hrun] at hturn
          exact hturn
      | ok r =>
          rw [hrun] at hturn
          obtain ⟨more, s'⟩ := r
          cases more with
          | false => exact hturn
          | true =>
              have hlt := hμ hrun
              exact ih (s := s') hturn (by omega)

end

/-- Two results: the first is a failure in `A`, or the second one in `B`, or both are the same failure,
or the same value with states in `R`. -/
inductive Meets (R : σ → σ → Prop) (A B : ε → Prop) : Except ε (α × σ) → Except ε (α × σ) → Prop where
  | left {e : ε} {y : Except ε (α × σ)} (h : A e) : Meets R A B (.error e) y
  | right {e : ε} {x : Except ε (α × σ)} (h : B e) : Meets R A B x (.error e)
  | error (e : ε) : Meets R A B (.error e) (.error e)
  | ok (a : α) {s t : σ} (h : R s t) : Meets R A B (.ok (a, s)) (.ok (a, t))

/-- From states in `R` the results of `p` and `q` meet. -/
def Sim (R : σ → σ → Prop) (A B : ε → Prop) (p q : StateT σ (Except ε) α) : Prop :=
  ∀ s t, R s t → Meets R A B (p.run s) (q.run t)

section

variable {R : σ → σ → Prop} {A B : ε → Prop}

theorem Meets.mono {R' : σ → σ → Prop} {x y : Except ε (α × σ)} (h : Meets R A B x y)
    (hR : ∀ s t, R s t → R' s t) : Meets R' A B x y := by
  cases h with
  | left h => exact .left h
  | right h => exact .right h
  | error e => exact .error e
  | ok a h => exact .ok a (hR _ _ h)

/-- Two results that meet a third one, of which the first failure does not count. -/
theorem Meets.compose (hsymm : ∀ {s t}, R s t → R t s) (htrans : ∀ {s t u}, R s t → R t u → R s u)
    {x y z : Except ε (α × σ)} (hxy : Meets R A (fun _ => False) x y) (hxz : Meets R A B x z)
    (hx : ∀ e, x = .error e → ¬A e) : Meets R A B y z := by
  cases hxy with
  | left h => exact absurd h (hx _ rfl)
  | right h => exact h.elim
  | error e => exact hxz
  | ok a h =>
      cases hxz with
      | right h => exact .right h
      | ok _ k => exact .ok a (htrans (hsymm h) k)

theorem Sim.pure (a : α) :
    Sim R A B (Pure.pure a : StateT σ (Except ε) α) (Pure.pure a) :=
  fun _ _ h => .ok a h

theorem Sim.throw (e : ε) :
    Sim R A B (throwThe ε e : StateT σ (Except ε) α) (throwThe ε e) :=
  fun _ _ _ => .error e

theorem Sim.bind {p q : StateT σ (Except ε) α} {f g : α → StateT σ (Except ε) β}
    (hp : Sim R A B p q) (hf : ∀ a, (∃ s s', p.run s = .ok (a, s')) → Sim R A B (f a) (g a)) :
    Sim R A B (p >>= f) (q >>= g) := by
  intro s t h
  have hfirst := hp s t h
  rw [StateT.run_bind, StateT.run_bind]
  cases hps : p.run s with
  | error e =>
      rw [hps] at hfirst
      cases hqt : q.run t with
      | error e' =>
          rw [hqt] at hfirst
          cases hfirst with
          | left h => exact .left h
          | right h => exact .right h
          | error e => exact .error e
      | ok r =>
          rw [hqt] at hfirst
          cases hfirst with
          | left h => exact .left h
  | ok r =>
      rw [hps] at hfirst
      cases hqt : q.run t with
      | error e' =>
          rw [hqt] at hfirst
          cases hfirst with
          | right h => exact .right h
      | ok r' =>
          rw [hqt] at hfirst
          cases hfirst with
          | ok a h => exact hf a ⟨s, _, hps⟩ _ _ h

end

/-- What holds at the end of a run of `p` in `Up` held at its start, and of two runs from states in
`R` the second goes as the first did, if that one ended in `Up`, or fails in `E`. -/
structure Tracks (Up : σ → Prop) (R : σ → σ → Prop) (E : ε → Prop) (p : StateT σ (Except ε) α) :
    Prop where
  back : ∀ {s s' : σ} {a : α}, p.run s = .ok (a, s') → Up s' → Up s
  follow : ∀ {s t s' : σ} {a : α}, R s t → p.run s = .ok (a, s') → Up s' →
    (∃ t', p.run t = .ok (a, t') ∧ R s' t') ∨ ∃ e, p.run t = .error e ∧ E e

section

variable {Up : σ → Prop} {R : σ → σ → Prop} {E : ε → Prop} {p : StateT σ (Except ε) α}
  {f : α → StateT σ (Except ε) β}

theorem Tracks.bind (hp : Tracks Up R E p)
    (hf : ∀ a, (∃ s s', p.run s = .ok (a, s')) → Tracks Up R E (f a)) :
    Tracks Up R E (p >>= f) where
  back := by
    intro s s' b hrun hup
    obtain ⟨a, m, hpm, hfm⟩ := run_bind_eq_ok.mp hrun
    exact hp.back hpm ((hf a ⟨s, m, hpm⟩).back hfm hup)
  follow := by
    intro s t s' b hR hrun hup
    obtain ⟨a, m, hpm, hfm⟩ := run_bind_eq_ok.mp hrun
    have hrest := hf a ⟨s, m, hpm⟩
    obtain ⟨n, hpn, hmn⟩ | ⟨e, hpe, he⟩ := hp.follow hR hpm (hrest.back hfm hup)
    · obtain ⟨t', hfn, hst⟩ | ⟨e, hfe, he⟩ := hrest.follow hmn hfm hup
      · exact .inl ⟨t', run_bind_eq_ok.mpr ⟨a, n, hpn, hfn⟩, hst⟩
      · exact .inr ⟨e, by rw [StateT.run_bind, hpn]; exact hfe, he⟩
    · exact .inr ⟨e, by rw [StateT.run_bind, hpe]; rfl, he⟩

theorem Tracks.pure (a : α) : Tracks Up R E (Pure.pure a : StateT σ (Except ε) α) where
  back := by
    intro s s' b hrun hup
    cases hrun
    exact hup
  follow := by
    intro s t s' b hR hrun hup
    cases hrun
    exact .inl ⟨t, rfl, hR⟩

theorem Tracks.throw (e : ε) : Tracks Up R E (throwThe ε e : StateT σ (Except ε) α) where
  back := by
    intro s s' b hrun hup
    cases hrun
  follow := by
    intro s t s' b hR hrun hup
    cases hrun

theorem Tracks.ite {c : Prop} [Decidable c] {q : StateT σ (Except ε) α} (hp : Tracks Up R E p)
    (hq : Tracks Up R E q) : Tracks Up R E (if c then p else q) := by
  split
  · exact hp
  · exact hq

theorem Tracks.repeatM {spent : ε} {body : StateT σ (Except ε) Bool} (hbody : Tracks Up R E body)
    (fuel : Nat) : Tracks Up R E (Lib.repeatM spent body fuel) := by
  induction fuel with
  | zero => exact Tracks.throw spent
  | succ fuel ih => exact hbody.bind fun more _ => Tracks.ite ih (Tracks.pure ())

end

end DiscoBsd.Lib
