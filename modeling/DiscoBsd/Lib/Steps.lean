import Mathlib.Logic.Relation

/-!
# Finite runs of a labelled transition relation

`Steps Step s labels s'` says that the labels, taken in order, lead from `s` to `s'`.
`Steps.invariant` is the rule every safety proof of a whole run goes through: what one
step preserves, a run preserves. `Steps.mono` weakens the relation, so that a run all of
whose steps meet a side condition is also a run of the unrestricted machine.
-/

namespace DiscoBsd.Lib

/-- `Steps Step s labels s'` runs the labels in order, one transition for each. -/
inductive Steps {State Label : Type*} (Step : State → Label → State → Prop) :
    State → List Label → State → Prop where
  | refl (state) : Steps Step state [] state
  | cons {state label next labels final} :
      Step state label next → Steps Step next labels final →
      Steps Step state (label :: labels) final

namespace Steps

variable {State Label : Type*} {Step : State → Label → State → Prop}

theorem invariant (Inv : State → Prop)
    (hstep : ∀ state label next, Inv state → Step state label next → Inv next)
    {state final : State} {labels : List Label}
    (hrun : Steps Step state labels final) (hinit : Inv state) : Inv final := by
  induction hrun with
  | refl _ => exact hinit
  | cons h _ ih => exact ih (hstep _ _ _ hinit h)

/-- A run of two lists of labels passes through a state between them. -/
theorem split {before after : List Label} {state final : State}
    (hrun : Steps Step state (before ++ after) final) :
    ∃ mid, Steps Step state before mid ∧ Steps Step mid after final := by
  induction before generalizing state with
  | nil => exact ⟨state, .refl state, hrun⟩
  | cons label before ih =>
      cases hrun with
      | cons hstep hrest =>
          obtain ⟨mid, hbefore, hafter⟩ := ih hrest
          exact ⟨mid, .cons hstep hbefore, hafter⟩

theorem append {before after : List Label} {state mid final : State}
    (hbefore : Steps Step state before mid) (hafter : Steps Step mid after final) :
    Steps Step state (before ++ after) final := by
  induction hbefore with
  | refl _ => exact hafter
  | cons hstep _ ih => exact .cons hstep (ih hafter)

theorem mono {Weaker : State → Label → State → Prop}
    (hweaker : ∀ state label next, Step state label next → Weaker state label next)
    {state final : State} {labels : List Label}
    (hrun : Steps Step state labels final) : Steps Weaker state labels final := by
  induction hrun with
  | refl state => exact .refl state
  | cons h _ ih => exact .cons (hweaker _ _ _ h) ih

theorem and_of_forall {Allowed : Label → Prop} {state final : State} {labels : List Label}
    (hrun : Steps Step state labels final) (hlabels : ∀ label ∈ labels, Allowed label) :
    Steps (fun state label next => Allowed label ∧ Step state label next) state labels final := by
  induction hrun with
  | refl state => exact .refl state
  | cons h _ ih =>
      exact .cons ⟨hlabels _ List.mem_cons_self, h⟩
        (ih fun label hlabel => hlabels label (List.mem_cons_of_mem _ hlabel))

/-- A partial function on states as a transition relation. -/
def Of {State Label : Type*} (step : State → Label → Option State) :
    State → Label → State → Prop :=
  fun state label next => step state label = some next

/-- Running a step function over a list of labels is a run. -/
theorem of_foldlM {step : State → Label → Option State} {state final : State}
    {labels : List Label} (hrun : labels.foldlM step state = some final) :
    Steps (Of step) state labels final := by
  induction labels generalizing state with
  | nil =>
      cases hrun
      exact .refl _
  | cons label labels ih =>
      rw [List.foldlM_cons] at hrun
      obtain ⟨next, hstep, hrest⟩ := Option.bind_eq_some_iff.mp hrun
      exact .cons hstep (ih hrest)

/-- Running a step function that checks a condition first. -/
theorem of_guarded {Guard : State → Label → Prop} [∀ state label, Decidable (Guard state label)]
    {step : State → Label → Option State} {state final : State} {labels : List Label}
    (hrun : labels.foldlM (fun state label => if Guard state label then step state label else none)
      state = some final) :
    Steps (fun state label next => Guard state label ∧ step state label = some next) state labels
      final :=
  (of_foldlM hrun).mono fun _ _ _ hstep => Option.ite_none_right_eq_some.mp hstep

end Steps

end DiscoBsd.Lib
