import Mathlib.Data.List.Nodup
import Mathlib.Logic.Function.Basic

/-!
# Circular doubly linked lists with heads

Intrusive lists whose nodes carry a forward and a backward pointer. A node is a head or an
element; an element is on the list of at most one head. `Rings links lists` says that the
pointers run, in both directions, along the list `lists head` and back to `head`, for
every head at once. The three pointer edits are removal, insertion behind a head and
insertion in front of it; each is shown to change one list and leave the others alone.
-/

namespace DiscoBsd.Lib

/-- Forward and backward pointers of heads `H` and elements `E`. -/
structure Links (H E : Type*) where
  forw : H ⊕ E → H ⊕ E
  back : H ⊕ E → H ⊕ E

variable {H E : Type*}

/-- `next` follows `node` in both directions. -/
def Links.Linked (links : Links H E) (node next : H ⊕ E) : Prop :=
  links.forw node = next ∧ links.back next = node

/-- The pointers run from `node` along the elements to `last`. -/
def LinkPath (links : Links H E) : H ⊕ E → List E → H ⊕ E → Prop
  | node, [], last => links.Linked node last
  | node, elem :: elems, last => links.Linked node (.inr elem) ∧ LinkPath links (.inr elem) elems last

/-- Every head has its list, and no element is listed twice. -/
structure Rings (links : Links H E) (lists : H → List E) : Prop where
  path : ∀ head, LinkPath links (.inl head) (lists head) (.inl head)
  nodup : ∀ head, (lists head).Nodup
  apart : ∀ head other elem, elem ∈ lists head → elem ∈ lists other → head = other

section Edits

variable [DecidableEq H] [DecidableEq E]

/-- `elem->back->forw = elem->forw; elem->forw->back = elem->back`. -/
def Links.remove (links : Links H E) (elem : E) : Links H E :=
  let forw := Function.update links.forw (links.back (.inr elem)) (links.forw (.inr elem))
  { forw := forw
    back := Function.update links.back (forw (.inr elem)) (links.back (.inr elem)) }

/-- Put `elem` between `head` and the node behind it. -/
def Links.insertHead (links : Links H E) (elem : E) (head : H) : Links H E where
  forw := Function.update (Function.update links.forw (.inr elem) (links.forw (.inl head)))
    (.inl head) (.inr elem)
  back := Function.update (Function.update links.back (links.forw (.inl head)) (.inr elem))
    (.inr elem) (.inl head)

/-- Put `elem` between `head` and the node in front of it. -/
def Links.insertTail (links : Links H E) (elem : E) (head : H) : Links H E where
  forw := Function.update (Function.update links.forw (links.back (.inl head)) (.inr elem))
    (.inr elem) (.inl head)
  back := Function.update (Function.update links.back (.inr elem) (links.back (.inl head)))
    (.inl head) (.inr elem)

end Edits

/-! ## Paths -/

theorem path_append {links : Links H E} {node last : H ⊕ E} {elem : E} {before after : List E} :
    LinkPath links node (before ++ elem :: after) last ↔
      LinkPath links node before (.inr elem) ∧ LinkPath links (.inr elem) after last := by
  induction before generalizing node with
  | nil => exact Iff.rfl
  | cons first before ih =>
      simp only [List.cons_append, LinkPath, ih]
      exact and_assoc.symm

/-- A path depends on the forward pointers of its nodes but the last and the backward pointers of
its nodes but the first. -/
theorem LinkPath.congr {links links' : Links H E} {node last : H ⊕ E} {elems : List E}
    (h : LinkPath links node elems last)
    (hforw : links'.forw node = links.forw node)
    (hforws : ∀ elem ∈ elems, links'.forw (.inr elem) = links.forw (.inr elem))
    (hbacks : ∀ elem ∈ elems, links'.back (.inr elem) = links.back (.inr elem))
    (hback : links'.back last = links.back last) : LinkPath links' node elems last := by
  induction elems generalizing node with
  | nil => exact ⟨hforw.trans h.1, hback.trans h.2⟩
  | cons elem elems ih =>
      obtain ⟨hfirst, hrest⟩ := h
      refine ⟨⟨hforw.trans hfirst.1, (hbacks elem List.mem_cons_self).trans hfirst.2⟩, ?_⟩
      exact ih hrest (hforws elem List.mem_cons_self)
        (fun other hother => hforws other (List.mem_cons_of_mem _ hother))
        (fun other hother => hbacks other (List.mem_cons_of_mem _ hother))

theorem LinkPath.back_mem {links : Links H E} {head : H} {elem : E} {elems : List E} {last : H ⊕ E}
    (h : LinkPath links (.inl head) elems last) (helem : elem ∈ elems) :
    links.back (.inr elem) = .inl head ∨ ∃ other ∈ elems, links.back (.inr elem) = .inr other := by
  obtain ⟨before, after, rfl⟩ := List.append_of_mem helem
  obtain ⟨hto, -⟩ := path_append.mp h
  rcases List.eq_nil_or_concat' before with rfl | ⟨front, prev, rfl⟩
  · exact Or.inl hto.2
  · exact Or.inr ⟨prev, by simp, (path_append.mp hto).2.2⟩

theorem LinkPath.forw_mem {links : Links H E} {head : H} {elem : E} {elems : List E} {node : H ⊕ E}
    (h : LinkPath links node elems (.inl head)) (helem : elem ∈ elems) :
    links.forw (.inr elem) = .inl head ∨ ∃ other ∈ elems, links.forw (.inr elem) = .inr other := by
  obtain ⟨before, after, rfl⟩ := List.append_of_mem helem
  obtain ⟨-, hfrom⟩ := path_append.mp h
  cases after with
  | nil => exact Or.inl hfrom.1
  | cons next after => exact Or.inr ⟨next, by simp, hfrom.1.1⟩

/-! ## Walking a list -/

/-- The elements a `for` loop along a list meets from `node` on, `fuel` of them at most. -/
def Links.walk (links : Links H E) : Nat → H ⊕ E → List E
  | 0, _ => []
  | fuel + 1, node =>
      match node with
      | .inl _ => []
      | .inr elem => elem :: links.walk fuel (links.forw (.inr elem))

/-- With enough fuel the loop meets the list. -/
theorem LinkPath.walk_eq {links : Links H E} {head : H} {node : H ⊕ E} {elems : List E} {fuel : Nat}
    (h : LinkPath links node elems (.inl head)) (hfuel : elems.length ≤ fuel) :
    links.walk fuel (links.forw node) = elems := by
  induction elems generalizing node fuel with
  | nil =>
      rw [h.1]
      cases fuel <;> rfl
  | cons elem elems ih =>
      cases fuel with
      | zero => simp at hfuel
      | succ fuel =>
          rw [h.1.1, Links.walk, ih h.2 (by simpa using hfuel)]

/-- Rings after an edit of one list: the edited list has its path, and the nodes whose pointers
changed belong to it. -/
theorem Rings.edit [DecidableEq H] {links links' : Links H E} {lists : H → List E} {head : H}
    {elems : List E} (h : Rings links lists)
    (hpath : LinkPath links' (.inl head) elems (.inl head)) (hnodup : elems.Nodup)
    (hnew : ∀ elem ∈ elems, ∀ other, other ≠ head → elem ∉ lists other)
    (hforw : ∀ other, other ≠ head → links'.forw (.inl other) = links.forw (.inl other) ∧
      ∀ elem ∈ lists other, links'.forw (.inr elem) = links.forw (.inr elem))
    (hback : ∀ other, other ≠ head → links'.back (.inl other) = links.back (.inl other) ∧
      ∀ elem ∈ lists other, links'.back (.inr elem) = links.back (.inr elem)) :
    Rings links' (Function.update lists head elems) := by
  refine ⟨?_, ?_, ?_⟩
  · intro other
    by_cases heq : other = head
    · subst heq
      rw [Function.update_self]
      exact hpath
    · rw [Function.update_of_ne heq]
      exact (h.path other).congr (hforw other heq).1 (hforw other heq).2 (hback other heq).2
        (hback other heq).1
  · intro other
    by_cases heq : other = head
    · subst heq
      rw [Function.update_self]
      exact hnodup
    · rw [Function.update_of_ne heq]
      exact h.nodup other
  · intro other third elem hother hthird
    by_cases heq : other = head <;> by_cases heq' : third = head
    · rw [heq, heq']
    · subst heq
      rw [Function.update_self] at hother
      rw [Function.update_of_ne heq'] at hthird
      exact absurd hthird (hnew elem hother third heq')
    · subst heq'
      rw [Function.update_self] at hthird
      rw [Function.update_of_ne heq] at hother
      exact absurd hother (hnew elem hthird other heq)
    · rw [Function.update_of_ne heq] at hother
      rw [Function.update_of_ne heq'] at hthird
      exact h.apart other third elem hother hthird

/-! ## Removal -/

section Edits

variable [DecidableEq H] [DecidableEq E] {links : Links H E} {lists : H → List E}

/-- Behind the removed element the path continues from the node in front of it. -/
theorem LinkPath.remove_behind {prev : H ⊕ E} {head : H} {elem : E} {after : List E}
    (hback : links.back (.inr elem) = prev) (hprev : prev ≠ .inr elem)
    (h : LinkPath links (.inr elem) after (.inl head)) (hnodup : after.Nodup) (helem : elem ∉ after)
    (hprevs : ∀ other ∈ after, prev ≠ .inr other) :
    LinkPath (links.remove elem) prev after (.inl head) := by
  cases after with
  | nil =>
      obtain ⟨hforw, -⟩ := h
      simp [LinkPath, Links.Linked, Links.remove, hback, hforw, Function.update_of_ne hprev.symm]
  | cons next after =>
      obtain ⟨⟨hforw, -⟩, hrest⟩ := h
      obtain ⟨hnext, -⟩ := List.nodup_cons.mp hnodup
      have hne : (Sum.inr elem : H ⊕ E) ≠ prev := hprev.symm
      refine ⟨?_, hrest.congr ?_ ?_ ?_ ?_⟩
      · simp [Links.Linked, Links.remove, hback, hforw, Function.update_of_ne hne]
      · simp [Links.remove, hback, (hprevs next List.mem_cons_self).symm]
      · intro other hother
        simp [Links.remove, hback, (hprevs other (List.mem_cons_of_mem _ hother)).symm]
      · intro other hother
        have : other ≠ next := fun heq => hnext (heq ▸ hother)
        simp [Links.remove, hback, hforw, Function.update_of_ne hne, this]
      · simp [Links.remove, hback, hforw, Function.update_of_ne hne]

/-- Removing an element from the list of a head. -/
theorem LinkPath.remove {head : H} {elem : E} {before after : List E}
    (h : LinkPath links (.inl head) (before ++ elem :: after) (.inl head))
    (hnodup : (before ++ elem :: after).Nodup) :
    LinkPath (links.remove elem) (.inl head) (before ++ after) (.inl head) := by
  obtain ⟨hto, hfrom⟩ := path_append.mp h
  obtain ⟨hbefore, hrest, hcross⟩ := List.nodup_append.mp hnodup
  obtain ⟨helem, hafter⟩ := List.nodup_cons.mp hrest
  rcases List.eq_nil_or_concat' before with rfl | ⟨front, prev, rfl⟩
  · exact LinkPath.remove_behind hto.2 (by simp) hfrom hafter helem (by simp)
  · obtain ⟨hfront, hprev⟩ := path_append.mp hto
    have hprevElem : prev ≠ elem := hcross prev (by simp) elem List.mem_cons_self
    have hprevAfter : ∀ other ∈ after, prev ≠ other := fun other hother =>
      hcross prev (by simp) other (List.mem_cons_of_mem _ hother)
    rw [List.append_assoc, List.singleton_append]
    refine path_append.mpr ⟨hfront.congr ?_ ?_ ?_ ?_, ?_⟩
    · simp [Links.remove, hprev.2]
    · intro other hother
      have : other ≠ prev := by
        rintro rfl
        exact (List.nodup_append.mp hbefore).2.2 other hother other (by simp) rfl
      simp [Links.remove, hprev.2, this]
    · intro other hother
      -- the node behind `elem` is a head or comes after it, so it is not in front
      have hnext : links.forw (.inr elem) ≠ .inr other := by
        cases after with
        | nil => simp [hfrom.1]
        | cons next after =>
            rw [hfrom.1.1]
            intro heq
            have := hcross other (by simp [hother]) next (by simp)
            exact this (Sum.inr.inj heq).symm
      have hforw : (Function.update links.forw (.inr prev) (links.forw (.inr elem)))
          (.inr elem) = links.forw (.inr elem) :=
        Function.update_of_ne (by simp [hprevElem.symm]) _ _
      simp [Links.remove, hprev.2, hforw, hnext.symm]
    · have hnext : links.forw (.inr elem) ≠ .inr prev := by
        cases after with
        | nil => simp [hfrom.1]
        | cons next after =>
            rw [hfrom.1.1]
            intro heq
            exact hprevAfter next List.mem_cons_self (Sum.inr.inj heq).symm
      have hforw : (Function.update links.forw (.inr prev) (links.forw (.inr elem)))
          (.inr elem) = links.forw (.inr elem) :=
        Function.update_of_ne (by simp [hprevElem.symm]) _ _
      simp [Links.remove, hprev.2, hforw, hnext.symm]
    · refine LinkPath.remove_behind hprev.2 (by simp [hprevElem]) hfrom hafter helem ?_
      intro other hother
      simpa using hprevAfter other hother

/-- Removing a listed element removes it from its list and touches no other. -/
theorem Rings.remove {head : H} {elem : E} (h : Rings links lists) (helem : elem ∈ lists head) :
    Rings (links.remove elem) (Function.update lists head ((lists head).erase elem)) := by
  obtain ⟨before, after, hsplit⟩ := List.append_of_mem helem
  have hnodup := h.nodup head
  have hpath := h.path head
  have hbackMem := hpath.back_mem helem
  have hforwMem := hpath.forw_mem helem
  -- a node of another list is neither neighbour of the element
  have hother : ∀ other, other ≠ head → ∀ third ∈ lists other, third ∉ lists head :=
    fun other hne third hthird hmem => hne (h.apart other head third hthird hmem)
  have hprev : ∀ other, other ≠ head → links.back (.inr elem) ≠ .inl other ∧
      ∀ third ∈ lists other, links.back (.inr elem) ≠ .inr third := by
    intro other hne
    rcases hbackMem with heq | ⟨prev, hprev, heq⟩
    · exact ⟨by rw [heq]; simpa using hne.symm, by simp [heq]⟩
    · refine ⟨by simp [heq], fun third hthird hthird' => ?_⟩
      rw [heq, Sum.inr.injEq] at hthird'
      exact hother other hne third hthird (hthird' ▸ hprev)
  have hnext : ∀ other, other ≠ head → links.forw (.inr elem) ≠ .inl other ∧
      ∀ third ∈ lists other, links.forw (.inr elem) ≠ .inr third := by
    intro other hne
    rcases hforwMem with heq | ⟨next, hnext, heq⟩
    · exact ⟨by rw [heq]; simpa using hne.symm, by simp [heq]⟩
    · refine ⟨by simp [heq], fun third hthird hthird' => ?_⟩
      rw [heq, Sum.inr.injEq] at hthird'
      exact hother other hne third hthird (hthird' ▸ hnext)
  have hself : links.back (.inr elem) ≠ .inr elem := by
    rw [hsplit] at hpath hnodup
    obtain ⟨hto, -⟩ := path_append.mp hpath
    rcases List.eq_nil_or_concat' before with rfl | ⟨front, prev, rfl⟩
    · simp [hto.2]
    · rw [(path_append.mp hto).2.2]
      have := (List.nodup_append.mp hnodup).2.2 prev (by simp) elem List.mem_cons_self
      simpa using this
  have hforwElem : (Function.update links.forw (links.back (.inr elem)) (links.forw (.inr elem)))
      (.inr elem) = links.forw (.inr elem) := Function.update_of_ne hself.symm _ _
  have herase : (lists head).erase elem = before ++ after := by
    have hnot : elem ∉ before := by
      rw [hsplit] at hnodup
      intro hmem
      exact (List.nodup_append.mp hnodup).2.2 elem hmem elem List.mem_cons_self rfl
    rw [hsplit, List.erase_append_right _ hnot, List.erase_cons_head]
  refine h.edit ?_ (hnodup.erase elem) ?_ ?_ ?_
  · rw [herase]
    rw [hsplit] at hpath hnodup
    exact LinkPath.remove hpath hnodup
  · intro third hthird other hne hmem
    exact hother other hne third hmem (List.mem_of_mem_erase hthird)
  · intro other hne
    refine ⟨Function.update_of_ne (hprev other hne).1.symm _ _, fun third hthird => ?_⟩
    exact Function.update_of_ne ((hprev other hne).2 third hthird).symm _ _
  · intro other hne
    simp only [Links.remove, hforwElem]
    refine ⟨Function.update_of_ne (hnext other hne).1.symm _ _, fun third hthird => ?_⟩
    exact Function.update_of_ne ((hnext other hne).2 third hthird).symm _ _

/-! ## Insertion -/

/-- Inserting an unlisted element behind a head. -/
theorem Rings.insertHead {elem : E} (h : Rings links lists) (hnew : ∀ other, elem ∉ lists other)
    (head : H) :
    Rings (links.insertHead elem head) (Function.update lists head (elem :: lists head)) := by
  have hpath := h.path head
  have hnodup := h.nodup head
  have hne : ∀ other third, third ∈ lists other → third ≠ elem := by
    rintro other third hthird rfl
    exact hnew other hthird
  -- the node behind the head is the head itself or the first of its list
  have hfirst : links.forw (.inl head) = .inl head ∨
      ∃ first ∈ lists head, links.forw (.inl head) = .inr first := by
    cases hlist : lists head with
    | nil =>
        rw [hlist] at hpath
        exact Or.inl hpath.1
    | cons first rest =>
        rw [hlist] at hpath
        exact Or.inr ⟨first, List.mem_cons_self, hpath.1.1⟩
  have hbackOther : ∀ other, other ≠ head → links.forw (.inl head) ≠ .inl other ∧
      ∀ third ∈ lists other, links.forw (.inl head) ≠ .inr third := by
    intro other hother
    rcases hfirst with heq | ⟨first, hfirst, heq⟩
    · exact ⟨by rw [heq]; simpa using hother.symm, by simp [heq]⟩
    · refine ⟨by simp [heq], fun third hthird hthird' => ?_⟩
      rw [heq, Sum.inr.injEq] at hthird'
      exact hother (h.apart other head third hthird (hthird' ▸ hfirst))
  refine h.edit ?_ (List.nodup_cons.mpr ⟨hnew head, hnodup⟩) ?_ ?_ ?_
  · refine ⟨⟨?_, ?_⟩, ?_⟩
    · simp [Links.insertHead]
    · simp [Links.insertHead]
    · cases hlist : lists head with
      | nil =>
          rw [hlist] at hpath
          simp [LinkPath, Links.Linked, Links.insertHead, hpath.1]
      | cons first rest =>
          have hfirstNe : first ≠ elem := hne head first (by simp [hlist])
          rw [hlist] at hpath hnodup
          have hforw := hpath.1.1
          refine ⟨⟨?_, ?_⟩, hpath.2.congr ?_ ?_ ?_ ?_⟩
          · simp [Links.insertHead, hforw]
          · simp [Links.insertHead, hforw, hfirstNe]
          · simp [Links.insertHead, hfirstNe]
          · intro third hthird
            have : third ≠ elem := hne head third (by simp [hlist, hthird])
            simp [Links.insertHead, this]
          · intro third hthird
            have hthirdNe : third ≠ elem := hne head third (by simp [hlist, hthird])
            have : third ≠ first := by
              rintro rfl
              exact (List.nodup_cons.mp hnodup).1 hthird
            simp [Links.insertHead, hforw, hthirdNe, this]
          · simp [Links.insertHead, hforw]
  · intro third hthird other hother hmem
    rcases List.mem_cons.mp hthird with rfl | hthird
    · exact hnew other hmem
    · exact hother (h.apart other head third hmem hthird)
  · intro other hother
    refine ⟨by simp [Links.insertHead, hother], fun third hthird => ?_⟩
    simp [Links.insertHead, hne other third hthird]
  · intro other hother
    obtain ⟨hhead, helems⟩ := hbackOther other hother
    refine ⟨by simp [Links.insertHead, hhead.symm], fun third hthird => ?_⟩
    simp [Links.insertHead, hne other third hthird, (helems third hthird).symm]

/-- Inserting an unlisted element in front of a head. -/
theorem Rings.insertTail {elem : E} (h : Rings links lists) (hnew : ∀ other, elem ∉ lists other)
    (head : H) :
    Rings (links.insertTail elem head) (Function.update lists head (lists head ++ [elem])) := by
  have hpath := h.path head
  have hnodup := h.nodup head
  have hne : ∀ other third, third ∈ lists other → third ≠ elem := by
    rintro other third hthird rfl
    exact hnew other hthird
  -- the node in front of the head is the head itself or the last of its list
  have hlast : links.back (.inl head) = .inl head ∧ lists head = [] ∨
      ∃ front last, lists head = front ++ [last] ∧ links.back (.inl head) = .inr last ∧
        LinkPath links (.inl head) front (.inr last) := by
    rcases List.eq_nil_or_concat' (lists head) with hnil | ⟨front, last, hsplit⟩
    · rw [hnil] at hpath
      exact Or.inl ⟨hpath.2, hnil⟩
    · rw [hsplit] at hpath
      obtain ⟨hfront, hlink⟩ := path_append.mp hpath
      exact Or.inr ⟨front, last, hsplit, hlink.2, hfront⟩
  have hforwOther : ∀ other, other ≠ head → links.back (.inl head) ≠ .inl other ∧
      ∀ third ∈ lists other, links.back (.inl head) ≠ .inr third := by
    intro other hother
    rcases hlast with ⟨heq, -⟩ | ⟨front, last, hsplit, heq, -⟩
    · exact ⟨by rw [heq]; simpa using hother.symm, by simp [heq]⟩
    · refine ⟨by simp [heq], fun third hthird hthird' => ?_⟩
      rw [heq, Sum.inr.injEq] at hthird'
      exact hother (h.apart other head third hthird (by simp [hsplit, hthird']))
  refine h.edit ?_ ?_ ?_ ?_ ?_
  · rcases hlast with ⟨heq, hnil⟩ | ⟨front, last, hsplit, heq, hfront⟩
    · simp [hnil, LinkPath, Links.Linked, Links.insertTail, heq]
    · have hlastNe : last ≠ elem := hne head last (by simp [hsplit])
      rw [hsplit] at hnodup
      rw [hsplit, List.append_assoc, List.singleton_append]
      refine path_append.mpr ⟨hfront.congr ?_ ?_ ?_ ?_, ⟨?_, ?_⟩, ⟨?_, ?_⟩⟩
      · simp [Links.insertTail, heq]
      · intro third hthird
        have hthirdNe : third ≠ elem := hne head third (by simp [hsplit, hthird])
        have : third ≠ last := by
          rintro rfl
          exact (List.nodup_append.mp hnodup).2.2 third hthird third (by simp) rfl
        simp [Links.insertTail, heq, hthirdNe, this]
      · intro third hthird
        have hthirdNe : third ≠ elem := hne head third (by simp [hsplit, hthird])
        simp [Links.insertTail, hthirdNe]
      · simp [Links.insertTail, hlastNe]
      · simp [Links.insertTail, heq, hlastNe]
      · simp [Links.insertTail, heq]
      · simp [Links.insertTail]
      · simp [Links.insertTail]
  · refine List.nodup_append.mpr ⟨hnodup, List.nodup_singleton elem, ?_⟩
    rintro third hthird other hother rfl
    rw [List.mem_singleton] at hother
    exact hne head third hthird hother
  · intro third hthird other hother hmem
    rcases List.mem_append.mp hthird with hthird | hthird
    · exact hother (h.apart other head third hmem hthird)
    · rw [List.mem_singleton] at hthird
      exact hne other third hmem hthird
  · intro other hother
    obtain ⟨hhead, helems⟩ := hforwOther other hother
    refine ⟨by simp [Links.insertTail, hhead.symm], fun third hthird => ?_⟩
    simp [Links.insertTail, hne other third hthird, (helems third hthird).symm]
  · intro other hother
    refine ⟨by simp [Links.insertTail, hother], fun third hthird => ?_⟩
    simp [Links.insertTail, hne other third hthird]

end Edits

end DiscoBsd.Lib
