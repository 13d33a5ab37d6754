import Mathlib.Data.List.Basic
import Mathlib.Data.List.Induction
import Mathlib.Data.List.Nodup
import Mathlib.Logic.Function.Basic

/-!
# Tail queues

Intrusive lists with a head, a pointer to the last link, and in every element the next element and a
pointer to the link that leads to it. A link is the head or the `next` field of an element; the pointer
to the last link is used only while the list has elements. `Lists q elems` says that the pointers are
those of the list `elems`; each of the three edits has its lemma.
-/

namespace DiscoBsd.Lib

/-- A link: the head is `none`, the `next` field of an element is `some`. -/
abbrev Link (E : Type*) := Option E

structure TailQueue (E : Type*) where
  first : Option E
  last : Link E
  next : E → Option E
  prev : E → Option (Link E)

namespace TailQueue

variable {E : Type*}

/-- What a link leads to. -/
def target (q : TailQueue E) : Link E → Option E
  | none => q.first
  | some elem => q.next elem

/-- From a link on, the elements follow in order, each with a pointer to its link. -/
def Run (q : TailQueue E) : Link E → List E → Prop
  | link, [] => q.target link = none
  | link, elem :: elems => q.target link = some elem ∧ q.prev elem = some link ∧ Run q (some elem) elems

structure Lists (q : TailQueue E) (elems : List E) : Prop where
  run : q.Run none elems
  nodup : elems.Nodup
  last : elems ≠ [] → q.last = elems.getLast?

section Edits

variable [DecidableEq E]

/-- `*link = elem`. -/
def setTarget (q : TailQueue E) (link : Link E) (elem : Option E) : TailQueue E :=
  match link with
  | none => { q with first := elem }
  | some other => { q with next := Function.update q.next other elem }

/-- The pointers of an element outside the list. -/
def clear (q : TailQueue E) (elem : E) : TailQueue E :=
  { q with
    next := Function.update q.next elem none
    prev := Function.update q.prev elem none }

/-- Take the first element off. -/
def removeFirst (q : TailQueue E) (elem : E) : TailQueue E :=
  let after := q.next elem
  let q := match after with
    | some other => { q with prev := Function.update q.prev other (some none) }
    | none => q
  { q with first := after }.clear elem

/-- Take an element off. -/
def remove (q : TailQueue E) (elem : E) : TailQueue E :=
  let after := q.next elem
  match q.prev elem with
  | none => q
  | some link =>
      let q := match after with
        | some other => { q with prev := Function.update q.prev other (some link) }
        | none => { q with last := link }
      (q.setTarget link after).clear elem

/-- Put an element at the end. -/
def insertTail (q : TailQueue E) (elem : E) : TailQueue E :=
  let q := match q.first with
    | some _ => { q.setTarget q.last (some elem) with prev := Function.update q.prev elem (some q.last) }
    | none => { q with first := some elem, prev := Function.update q.prev elem (some none) }
  { q with next := Function.update q.next elem none, last := some elem }

end Edits

/-- A run looks at its first link and at the pointers of its elements only. -/
theorem Run.congr {q q' : TailQueue E} {link : Link E} {elems : List E} (h : q.Run link elems)
    (hlink : q'.target link = q.target link) (hnext : ∀ elem ∈ elems, q'.next elem = q.next elem)
    (hprev : ∀ elem ∈ elems, q'.prev elem = q.prev elem) : q'.Run link elems := by
  induction elems generalizing link with
  | nil => exact hlink.trans h
  | cons elem elems ih =>
      refine ⟨hlink.trans h.1, (hprev elem List.mem_cons_self).trans h.2.1, ih h.2.2 ?_ ?_ ?_⟩
      · exact hnext elem List.mem_cons_self
      · exact fun other hmem => hnext other (List.mem_cons_of_mem elem hmem)
      · exact fun other hmem => hprev other (List.mem_cons_of_mem elem hmem)

theorem Lists.first_eq {q : TailQueue E} {elems : List E} (h : q.Lists elems) :
    q.first = elems.head? := by
  cases elems with
  | nil => exact h.run
  | cons elem elems => exact h.run.1

/-- The link to an element is the first one of its run, or that of an element. -/
theorem Run.prev_mem {q : TailQueue E} {link : Link E} {elems : List E} (h : q.Run link elems)
    {elem : E} (hmem : elem ∈ elems) :
    ∃ link', q.prev elem = some link' ∧ (link' = link ∨ ∃ other ∈ elems, link' = some other) := by
  induction elems generalizing link with
  | nil => cases hmem
  | cons first elems ih =>
      rcases List.mem_cons.mp hmem with rfl | hmem
      · exact ⟨link, h.2.1, .inl rfl⟩
      · obtain ⟨link', hprev, hlink⟩ := ih h.2.2 hmem
        refine ⟨link', hprev, .inr ?_⟩
        rcases hlink with rfl | ⟨other, hother, rfl⟩
        · exact ⟨first, List.mem_cons_self, rfl⟩
        · exact ⟨other, List.mem_cons_of_mem first hother, rfl⟩

/-- What follows an element is in the run. -/
theorem Run.next_mem {q : TailQueue E} {link : Link E} {elems : List E} (h : q.Run link elems)
    {elem : E} (hmem : elem ∈ elems) {other : E} (hnext : q.next elem = some other) :
    other ∈ elems := by
  induction elems generalizing link with
  | nil => cases hmem
  | cons first elems ih =>
      rcases List.mem_cons.mp hmem with rfl | hmem
      · cases elems with
        | nil =>
            have hnil : q.next elem = none := h.2.2
            rw [hnil] at hnext
            cases hnext
        | cons second elems =>
            have hsecond : q.next elem = some second := h.2.2.1
            rw [hsecond, Option.some.injEq] at hnext
            rw [← hnext]
            exact List.mem_cons_of_mem _ List.mem_cons_self
      · exact List.mem_cons_of_mem _ (ih h.2.2 hmem)

/-! ## Removal -/

section Remove

variable [DecidableEq E] {q : TailQueue E} {elem other : E} {link : Link E}

theorem target_remove_self (hprev : q.prev elem = some link) (hself : link ≠ some elem) :
    (q.remove elem).target link = q.next elem := by
  rw [remove, hprev]
  cases link with
  | none => cases q.next elem <;> rfl
  | some before =>
      have hne : before ≠ elem := fun heq => hself (congrArg some heq)
      cases hnext : q.next elem <;>
        simp [setTarget, clear, target, Function.update_of_ne hne]

theorem target_remove_of_ne {link' : Link E} (hprev : q.prev elem = some link) (hne : link' ≠ link)
    (hself : link' ≠ some elem) : (q.remove elem).target link' = q.target link' := by
  rw [remove, hprev]
  cases link' with
  | none =>
      cases link with
      | none => exact absurd rfl hne
      | some before => cases q.next elem <;> rfl
  | some other =>
      have hother : other ≠ elem := fun heq => hself (congrArg some heq)
      cases link with
      | none => cases q.next elem <;> simp [setTarget, clear, target, Function.update_of_ne hother]
      | some before =>
          have hbefore : other ≠ before := fun heq => hne (congrArg some heq)
          cases q.next elem <;>
            simp [setTarget, clear, target, Function.update_of_ne hother,
              Function.update_of_ne hbefore]

theorem prev_remove_after (hprev : q.prev elem = some link) (hnext : q.next elem = some other)
    (hne : other ≠ elem) : (q.remove elem).prev other = some link := by
  rw [remove, hprev]
  cases link <;> simp [hnext, setTarget, clear, Function.update_of_ne hne]

theorem prev_remove_of_ne (hprev : q.prev elem = some link) (hnext : q.next elem ≠ some other)
    (hne : other ≠ elem) : (q.remove elem).prev other = q.prev other := by
  rw [remove, hprev]
  cases hafter : q.next elem with
  | none => cases link <;> simp [setTarget, clear, Function.update_of_ne hne]
  | some after =>
      have hother : other ≠ after := fun heq => hnext (heq ▸ hafter)
      cases link <;>
        simp [setTarget, clear, Function.update_of_ne hne, Function.update_of_ne hother]

theorem last_remove (hprev : q.prev elem = some link) :
    (q.remove elem).last = if q.next elem = none then link else q.last := by
  rw [remove, hprev]
  cases q.next elem <;> cases link <;> rfl

theorem Run.remove {elems : List E} (h : q.Run link elems) (hnodup : elems.Nodup)
    (hlink : ∀ other ∈ elems, link ≠ some other) (hmem : elem ∈ elems) :
    (q.remove elem).Run link (elems.erase elem) := by
  induction elems generalizing link with
  | nil => cases hmem
  | cons first elems ih =>
      obtain ⟨hfirst, hrest⟩ := List.nodup_cons.mp hnodup
      rcases List.mem_cons.mp hmem with rfl | hmem
      · -- the element is the first: its link leads past it
        have htarget := target_remove_self h.2.1 (hlink elem List.mem_cons_self)
        rw [List.erase_cons_head]
        cases elems with
        | nil => exact htarget.trans h.2.2
        | cons second elems =>
            have hne : ∀ other ∈ second :: elems, other ≠ elem := fun other hother heq =>
              hfirst (heq ▸ hother)
            have hnext : q.next elem = some second := h.2.2.1
            refine ⟨htarget.trans hnext,
              prev_remove_after h.2.1 hnext (hne second List.mem_cons_self), ?_⟩
            have hfield : ∀ other ∈ second :: elems,
                (q.remove elem).next other = q.next other := fun other hother =>
              target_remove_of_ne h.2.1 (hlink other (List.mem_cons_of_mem _ hother)).symm
                fun heq => hne other hother (Option.some.inj heq)
            refine h.2.2.2.2.congr (hfield second List.mem_cons_self)
              (fun other hother => hfield other (List.mem_cons_of_mem _ hother))
              fun other hother => ?_
            refine prev_remove_of_ne h.2.1 ?_ (hne other (List.mem_cons_of_mem _ hother))
            rw [hnext]
            rintro ⟨⟩
            exact (List.nodup_cons.mp hrest).1 hother
      · have hne : elem ≠ first := fun heq => hfirst (heq ▸ hmem)
        obtain ⟨link', hprev, hlink'⟩ := h.2.2.prev_mem hmem
        have hother : link ≠ link' := by
          rcases hlink' with rfl | ⟨other, hother, rfl⟩
          · exact hlink first List.mem_cons_self
          · exact hlink other (List.mem_cons_of_mem _ hother)
        rw [List.erase_cons_tail (by simpa using hne.symm)]
        refine ⟨?_, ?_, ih h.2.2 hrest (fun other hother heq => ?_) hmem⟩
        · exact (target_remove_of_ne hprev hother (hlink elem (List.mem_cons_of_mem _ hmem))).trans h.1
        · refine (prev_remove_of_ne hprev (fun hnext => ?_) hne.symm).trans h.2.1
          exact hfirst (h.2.2.next_mem hmem hnext)
        · exact hfirst (Option.some.inj heq ▸ hother)

end Remove

/-- The link behind a list of elements. -/
def lastLink (link : Link E) (elems : List E) : Link E := elems.foldl (fun _ elem => some elem) link

theorem lastLink_none (elems : List E) : lastLink none elems = elems.getLast? := by
  induction elems using List.reverseRecOn with
  | nil => rfl
  | append_singleton elems elem ih => rw [lastLink, List.foldl_append, List.getLast?_concat]; rfl

theorem lastLink_mem (first : E) (elems : List E) :
    ∃ last ∈ first :: elems, lastLink (some first) elems = some last := by
  induction elems generalizing first with
  | nil => exact ⟨first, List.mem_cons_self, rfl⟩
  | cons second elems ih =>
      obtain ⟨last, hmem, hlast⟩ := ih second
      exact ⟨last, List.mem_cons_of_mem first hmem, hlast⟩

theorem Run.middle {q : TailQueue E} {link : Link E} {before after : List E} {elem : E}
    (h : q.Run link (before ++ elem :: after)) :
    q.prev elem = some (lastLink link before) ∧ q.next elem = after.head? := by
  induction before generalizing link with
  | nil =>
      refine ⟨h.2.1, ?_⟩
      cases after with
      | nil => exact h.2.2
      | cons next after => exact h.2.2.1
  | cons first before ih => exact ih h.2.2

theorem Lists.remove [DecidableEq E] {q : TailQueue E} {elems : List E} (h : q.Lists elems) {elem : E}
    (hmem : elem ∈ elems) : (q.remove elem).Lists (elems.erase elem) := by
  refine ⟨h.run.remove h.nodup (fun _ _ => nofun) hmem, h.nodup.erase elem, fun hne => ?_⟩
  obtain ⟨before, after, rfl⟩ := List.append_of_mem hmem
  have hlast := h.last (by simp)
  obtain ⟨hprev, hnext⟩ := h.run.middle
  have hbefore : elem ∉ before := fun hb =>
    List.disjoint_of_nodup_append h.nodup hb List.mem_cons_self
  rw [last_remove hprev, hnext, hlast, List.erase_append_right _ hbefore, List.erase_cons_head]
  cases after with
  | nil =>
      rw [List.head?_nil, if_pos rfl, List.append_nil, lastLink_none]
  | cons next after =>
      rw [List.head?_cons, if_neg nofun]
      simp [List.getLast?_append, List.getLast?_cons]

/-- Taking the first element off is taking it off, unless it is the last. -/
theorem Lists.removeFirst [DecidableEq E] {q : TailQueue E} {elem : E} {elems : List E}
    (h : q.Lists (elem :: elems)) : (q.removeFirst elem).Lists elems := by
  cases elems with
  | nil =>
      have hnext : q.next elem = none := h.run.2.2
      refine ⟨?_, List.nodup_nil, fun hne => absurd rfl hne⟩
      show (q.removeFirst elem).first = none
      rw [TailQueue.removeFirst, hnext]
      rfl
  | cons second elems =>
      have hnext : q.next elem = some second := h.run.2.2.1
      have hsame : q.removeFirst elem = q.remove elem := by
        rw [TailQueue.removeFirst, TailQueue.remove, h.run.2.1, hnext]
        rfl
      have hremoved := h.remove List.mem_cons_self
      rw [List.erase_cons_head] at hremoved
      rw [hsame]
      exact hremoved

/-! ## Insertion -/

/-- A run with another element behind its last link. -/
theorem Run.snoc {q q' : TailQueue E} {link : Link E} {elems : List E} {elem : E}
    (h : q.Run link elems) (hlink : ∀ other ∈ elems, link ≠ some other) (hnodup : elems.Nodup)
    (hprev : ∀ other ∈ elems, q'.prev other = q.prev other)
    (htarget : ∀ link', link' = link ∨ (∃ other ∈ elems, link' = some other) →
      link' ≠ lastLink link elems → q'.target link' = q.target link')
    (hlast : q'.target (lastLink link elems) = some elem)
    (helem : q'.prev elem = some (lastLink link elems)) (hnext : q'.next elem = none) :
    q'.Run link (elems ++ [elem]) := by
  induction elems generalizing link with
  | nil => exact ⟨hlast, helem, hnext⟩
  | cons first elems ih =>
      obtain ⟨hfirst, hnodup⟩ := List.nodup_cons.mp hnodup
      obtain ⟨last, hmem, hlastLink⟩ := lastLink_mem first elems
      have hne : link ≠ lastLink link (first :: elems) := by
        rw [show lastLink link (first :: elems) = some last from hlastLink]
        exact hlink last hmem
      refine ⟨(htarget link (.inl rfl) hne).trans h.1, (hprev first List.mem_cons_self).trans h.2.1,
        ih h.2.2 (fun other hother heq => hfirst (Option.some.inj heq ▸ hother)) hnodup
          (fun other hother => hprev other (List.mem_cons_of_mem _ hother)) ?_ hlast helem⟩
      rintro link' hlink' hne'
      refine htarget link' (.inr ?_) hne'
      rcases hlink' with rfl | ⟨other, hother, rfl⟩
      · exact ⟨first, List.mem_cons_self, rfl⟩
      · exact ⟨other, List.mem_cons_of_mem _ hother, rfl⟩

theorem Lists.insertTail [DecidableEq E] {q : TailQueue E} {elems : List E} (h : q.Lists elems)
    {elem : E} (hnew : elem ∉ elems) : (q.insertTail elem).Lists (elems ++ [elem]) := by
  have hnodup : (elems ++ [elem]).Nodup := by
    refine List.nodup_append.mpr ⟨h.nodup, List.nodup_singleton elem, fun other hother elem' helem' => ?_⟩
    rw [List.mem_singleton.mp helem']
    rintro rfl
    exact hnew hother
  have hlast : (q.insertTail elem).last = (elems ++ [elem]).getLast? := by
    rw [List.getLast?_concat]
    rfl
  refine ⟨?_, hnodup, fun _ => hlast⟩
  cases elems with
  | nil =>
      have hfirst : q.first = none := h.run
      rw [TailQueue.insertTail, hfirst]
      exact ⟨rfl, Function.update_self .., Function.update_self ..⟩
  | cons first rest =>
      have hfirst : q.first = some first := h.run.1
      obtain ⟨last, hmem, hlastLink⟩ := lastLink_mem first rest
      have hlink : lastLink none (first :: rest) = some last := hlastLink
      have hq : q.last = some last := by
        rw [h.last (List.cons_ne_nil first rest), ← lastLink_none, hlink]
      have hne : ∀ other ∈ first :: rest, other ≠ elem := fun other hother heq =>
        hnew (heq ▸ hother)
      have hnext : ∀ other, other ≠ elem → other ≠ last →
          (q.insertTail elem).next other = q.next other := by
        intro other hother hother'
        simp [TailQueue.insertTail, hfirst, hq, setTarget, Function.update_of_ne hother,
          Function.update_of_ne hother']
      refine h.run.snoc (fun _ _ => nofun) h.nodup (fun other hother => ?_) ?_ ?_ ?_ ?_
      · simp [TailQueue.insertTail, hfirst, Function.update_of_ne (hne other hother)]
      · rintro link' hlink' hne'
        rw [hlink] at hne'
        rcases hlink' with rfl | ⟨other, hother, rfl⟩
        · simp [TailQueue.insertTail, hfirst, hq, setTarget, target]
        · exact hnext other (hne other hother) fun heq => hne' (congrArg some heq)
      · rw [hlink]
        simp [TailQueue.insertTail, hfirst, hq, setTarget, target,
          Function.update_of_ne (hne last hmem)]
      · rw [hlink]
        simp [TailQueue.insertTail, hfirst, hq]
      · simp [TailQueue.insertTail]

theorem Lists.scribble [DecidableEq E] {q : TailQueue E} {elems : List E} (h : q.Lists elems)
    {elem : E} (hmem : elem ∉ elems) (other : Option E) :
    ({ q with next := Function.update q.next elem other } : TailQueue E).Lists elems := by
  refine ⟨h.run.congr rfl (fun elem' hmem' => ?_) fun _ _ => rfl, h.nodup, h.last⟩
  refine Function.update_of_ne ?_ ..
  rintro rfl
  exact hmem hmem'

end TailQueue

end DiscoBsd.Lib
