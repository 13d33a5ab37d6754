import Mathlib.Tactic.TypeStar

/-!
# Computations that give out effects

An `Emit` changes a state and gives out a list of effects, which it does not see the outcome of: output,
or writes to a memory that it never reads. `Gives P f Q E` is its specification: from a state with `P`
it ends in one with `Q`, and all it gives out is `E`. The rules compose specifications in the way that
`andThen` and `each` compose computations.
-/

namespace DiscoBsd.Lib

/-- A new state and the effects on the way to it. -/
abbrev Emit (State Effect : Type*) := State → State × List Effect

namespace Emit

variable {State Effect Index : Type*}

/-- Only the state changes. -/
def change (f : State → State) : Emit State Effect := fun s => (f s, [])

/-- One effect. -/
def emit (effect : Effect) : Emit State Effect := fun s => (s, [effect])

/-- One computation after another. -/
def andThen (f g : Emit State Effect) : Emit State Effect :=
  fun s => ((g (f s).1).1, (f s).2 ++ (g (f s).1).2)

/-- A computation for each entry of a list. -/
def each (f : Index → Emit State Effect) : List Index → Emit State Effect
  | [] => change id
  | i :: is => (f i).andThen (each f is)

/-- What a computation does from a state with `P`. -/
def Gives (P : State → Prop) (f : Emit State Effect) (Q : State → Prop) (E : Effect → Prop) : Prop :=
  ∀ s, P s → Q (f s).1 ∧ ∀ effect ∈ (f s).2, E effect

variable {P Q R : State → Prop} {E : Effect → Prop} {f g : Emit State Effect}

theorem Gives.change {f : State → State} (h : ∀ s, P s → Q (f s)) :
    Gives P (Emit.change f) Q E :=
  fun s hs => ⟨h s hs, fun _ hmem => absurd hmem List.not_mem_nil⟩

theorem Gives.andThen (hf : Gives P f Q E) (hg : Gives Q g R E) : Gives P (f.andThen g) R E := by
  intro s hs
  obtain ⟨hmid, hfirst⟩ := hf s hs
  obtain ⟨hend, hsecond⟩ := hg _ hmid
  refine ⟨hend, fun effect hmem => ?_⟩
  rcases List.mem_append.mp hmem with hmem | hmem
  · exact hfirst effect hmem
  · exact hsecond effect hmem

theorem Gives.each {f : Index → Emit State Effect} {is : List Index}
    (h : ∀ i ∈ is, Gives P (f i) P E) : Gives P (each f is) P E := by
  induction is with
  | nil => exact Gives.change fun _ hs => hs
  | cons i is ih =>
      exact (h i (List.mem_cons_self ..)).andThen
        (ih fun j hj => h j (List.mem_cons_of_mem _ hj))

theorem Gives.mono {P' Q' : State → Prop} (hf : Gives P f Q E) (hpre : ∀ s, P' s → P s)
    (hpost : ∀ s, Q s → Q' s) : Gives P' f Q' E :=
  fun s hs => ⟨hpost _ (hf s (hpre s hs)).1, (hf s (hpre s hs)).2⟩

theorem andThen_assoc (f g h : Emit State Effect) :
    (f.andThen g).andThen h = f.andThen (g.andThen h) := by
  funext s
  simp only [Emit.andThen, List.append_assoc]

theorem andThen_skip (f : Emit State Effect) : f.andThen (change id) = f := by
  funext s
  rw [Emit.andThen, change, List.append_nil]
  rfl

theorem each_append (f : Index → Emit State Effect) (is js : List Index) :
    each f (is ++ js) = (each f is).andThen (each f js) := by
  induction is with
  | nil => rfl
  | cons i is ih => rw [List.cons_append, each, each, ih, andThen_assoc]

theorem each_map {Key : Type*} (f : Index → Emit State Effect) (g : Key → Index) (keys : List Key) :
    each f (keys.map g) = each (fun key => f (g key)) keys := by
  induction keys with
  | nil => rfl
  | cons key keys ih => rw [List.map_cons, each, each, ih]

theorem each_singleton (f : Index → Emit State Effect) (i : Index) : each f [i] = f i :=
  andThen_skip (f i)

/-! ## Parts of the state that a computation has nothing to do with -/

/-- A change of the state before a computation is one after it, and the effects are the same. -/
def Commutes (change : State → State) (f : Emit State Effect) : Prop :=
  ∀ s, f (change s) = (change (f s).1, (f s).2)

variable {c : State → State}

theorem Commutes.change {f : State → State} (h : ∀ s, f (c s) = c (f s)) :
    Commutes c (Emit.change f : Emit State Effect) :=
  fun s => by rw [Emit.change, Emit.change, h]

theorem Commutes.andThen (hf : Commutes c f) (hg : Commutes c g) : Commutes c (f.andThen g) := by
  intro s
  simp only [Emit.andThen, hf s, hg (f s).1]

theorem Commutes.each {f : Index → Emit State Effect} {is : List Index} (h : ∀ i, Commutes c (f i)) :
    Commutes c (each f is) := by
  induction is with
  | nil => exact Commutes.change fun _ => rfl
  | cons i is ih => exact (h i).andThen ih

theorem Commutes.ite {b : State → Prop} [DecidablePred b] (hb : ∀ s, b (c s) ↔ b s) (hf : Commutes c f)
    (hg : Commutes c g) : Commutes c fun s => if b s then f s else g s := by
  intro s
  dsimp only
  by_cases h : b s
  · rw [if_pos h, if_pos ((hb s).mpr h), hf s]
  · rw [if_neg h, if_neg (fun h' => h ((hb s).mp h')), hg s]

end Emit

end DiscoBsd.Lib
