import DiscoBsd.Lib.Ring

/-!
# Circular lists and elements on none

An element that is on no list is linked to itself, so that taking it off does nothing. `Chains` adds
this to `Rings`; an element can then be taken off, wherever it is, and moved to another list.
-/

namespace DiscoBsd.Lib

variable {H E : Type*}

/-- An element that is linked to itself. -/
def Links.Alone (links : Links H E) (elem : E) : Prop :=
  links.forw (.inr elem) = .inr elem ∧ links.back (.inr elem) = .inr elem

structure Chains (links : Links H E) (lists : H → List E) : Prop where
  rings : Rings links lists
  alone : ∀ elem, (∀ head, elem ∉ lists head) → links.Alone elem

/-- The node behind a head is the head, or on its list. -/
theorem Rings.first_ne {links : Links H E} {lists : H → List E} (h : Rings links lists) (head : H)
    {other : E} (hother : other ∉ lists head) : links.forw (.inl head) ≠ .inr other := by
  have hpath := h.path head
  cases hlist : lists head with
  | nil =>
      rw [hlist] at hpath
      rw [hpath.1]
      exact nofun
  | cons first rest =>
      rw [hlist] at hpath
      rw [hpath.1.1]
      rintro ⟨⟩
      exact hother (hlist ▸ List.mem_cons_self)

/-- The neighbours of a listed element are heads or listed. -/
theorem Rings.neighbours {links : Links H E} {lists : H → List E} (h : Rings links lists) {head : H}
    {elem other : E} (helem : elem ∈ lists head) (hother : other ∉ lists head) :
    links.forw (.inr elem) ≠ .inr other ∧ links.back (.inr elem) ≠ .inr other := by
  constructor
  · rcases (h.path head).forw_mem helem with heq | ⟨next, hnext, heq⟩
    · rw [heq]
      exact nofun
    · rw [heq]
      rintro ⟨⟩
      exact hother hnext
  · rcases (h.path head).back_mem helem with heq | ⟨prev, hprev, heq⟩
    · rw [heq]
      exact nofun
    · rw [heq]
      rintro ⟨⟩
      exact hother hprev

section Edits

variable [DecidableEq H] [DecidableEq E] {links : Links H E} {lists : H → List E} {elem : E}

/-- Link an element to itself. -/
def Links.isolate (links : Links H E) (elem : E) : Links H E where
  forw := Function.update links.forw (.inr elem) (.inr elem)
  back := Function.update links.back (.inr elem) (.inr elem)

theorem Links.remove_eq (links : Links H E) (elem : E) :
    links.remove elem =
      ⟨Function.update links.forw (links.back (.inr elem)) (links.forw (.inr elem)),
        Function.update links.back (links.forw (.inr elem)) (links.back (.inr elem))⟩ := by
  have hforw : Function.update links.forw (links.back (.inr elem)) (links.forw (.inr elem))
      (.inr elem) = links.forw (.inr elem) := by
    rw [Function.update_apply, ite_self]
  rw [Links.remove, hforw]

theorem Links.Alone.remove_self (h : links.Alone elem) : links.remove elem = links := by
  obtain ⟨hforw, hback⟩ := h
  have hforw' : Function.update links.forw (.inr elem) (.inr elem) = links.forw :=
    Function.update_eq_self_iff.mpr hforw.symm
  have hback' : Function.update links.back (.inr elem) (.inr elem) = links.back :=
    Function.update_eq_self_iff.mpr hback.symm
  rw [Links.remove_eq, hforw, hback, hforw', hback']

theorem Rings.isolate (h : Rings links lists) (hnew : ∀ head, elem ∉ lists head) :
    Rings (links.isolate elem) lists := by
  have hne : ∀ head, ∀ other ∈ lists head, (.inr other : H ⊕ E) ≠ .inr elem := by
    rintro head other hother ⟨⟩
    exact hnew head hother
  have hforw : ∀ node, node ≠ .inr elem → (links.isolate elem).forw node = links.forw node :=
    fun node hnode => Function.update_of_ne hnode _ _
  have hback : ∀ node, node ≠ .inr elem → (links.isolate elem).back node = links.back node :=
    fun node hnode => Function.update_of_ne hnode _ _
  refine ⟨fun head => (h.path head).congr ?_ ?_ ?_ ?_, h.nodup, h.apart⟩
  · exact hforw _ Sum.inl_ne_inr
  · exact fun other hother => hforw _ (hne head other hother)
  · exact fun other hother => hback _ (hne head other hother)
  · exact hback _ Sum.inl_ne_inr

/-- Wherever an element is, it can be taken off. -/
theorem Chains.remove (h : Chains links lists) (elem : E) :
    Rings (links.remove elem) (fun head => (lists head).erase elem) ∧
      ∀ other, other ≠ elem → (∀ head, other ∉ lists head) → (links.remove elem).Alone other := by
  by_cases hmem : ∃ head, elem ∈ lists head
  · obtain ⟨head, helem⟩ := hmem
    have hlists : (fun head => (lists head).erase elem) =
        Function.update lists head ((lists head).erase elem) := by
      funext other
      by_cases heq : other = head
      · rw [heq, Function.update_self]
      · rw [Function.update_of_ne heq, List.erase_of_not_mem fun hother =>
          heq (h.rings.apart other head elem hother helem)]
    rw [hlists]
    refine ⟨h.rings.remove helem, fun other _ hother => ?_⟩
    obtain ⟨hforw, hback⟩ := h.rings.neighbours helem (hother head)
    obtain ⟨hforw', hback'⟩ := h.alone other hother
    rw [Links.remove_eq]
    exact ⟨(Function.update_of_ne hback.symm ..).trans hforw',
      (Function.update_of_ne hforw.symm ..).trans hback'⟩
  · have hnew : ∀ head, elem ∉ lists head := fun head helem => hmem ⟨head, helem⟩
    have hlists : (fun head => (lists head).erase elem) = lists :=
      funext fun head => List.erase_of_not_mem (hnew head)
    rw [hlists, (h.alone elem hnew).remove_self]
    exact ⟨h.rings, fun other _ hother => h.alone other hother⟩

/-- Off a list without an element, and linked to itself. -/
theorem Chains.detach (h : Chains links lists) (elem : E) :
    Chains ((links.remove elem).isolate elem) fun head => (lists head).erase elem := by
  obtain ⟨hrings, halone⟩ := h.remove elem
  refine ⟨hrings.isolate fun head => (h.rings.nodup head).not_mem_erase, fun other hother => ?_⟩
  by_cases heq : other = elem
  · rw [heq]
    exact ⟨Function.update_self .., Function.update_self ..⟩
  · have hne : (.inr other : H ⊕ E) ≠ .inr elem := fun h => heq (Sum.inr.inj h)
    obtain ⟨hforw, hback⟩ := halone other heq fun head hmem =>
      hother head ((List.mem_erase_of_ne heq).mpr hmem)
    exact ⟨(Function.update_of_ne hne ..).trans hforw, (Function.update_of_ne hne ..).trans hback⟩

/-- Off its list, and behind a head. -/
theorem Chains.move (h : Chains links lists) (elem : E) (head : H) :
    Chains ((links.remove elem).insertHead elem head)
      (Function.update (fun head => (lists head).erase elem) head
        (elem :: (lists head).erase elem)) := by
  obtain ⟨hrings, halone⟩ := h.remove elem
  refine ⟨hrings.insertHead (fun head => (h.rings.nodup head).not_mem_erase) head,
    fun other hother => ?_⟩
  have heq : other ≠ elem := by
    rintro rfl
    have hself := hother head
    rw [Function.update_self] at hself
    exact hself List.mem_cons_self
  have hnot : ∀ head', other ∉ (lists head').erase elem := by
    intro head' hmem
    by_cases hhead : head' = head
    · subst hhead
      have hself := hother head'
      rw [Function.update_self] at hself
      exact hself (List.mem_cons_of_mem elem hmem)
    · have hkept := hother head'
      rw [Function.update_of_ne hhead] at hkept
      exact hkept hmem
  have hne : (.inr other : H ⊕ E) ≠ .inr elem := fun h => heq (Sum.inr.inj h)
  obtain ⟨hforw, hback⟩ := halone other heq fun head' hmem =>
    hnot head' ((List.mem_erase_of_ne heq).mpr hmem)
  have hfirst := hrings.first_ne head (hnot head)
  constructor
  · have hkept : ((links.remove elem).insertHead elem head).forw (.inr other) =
        (links.remove elem).forw (.inr other) := by
      simp only [Links.insertHead, Function.update_of_ne Sum.inr_ne_inl, Function.update_of_ne hne]
    exact hkept.trans hforw
  · have hkept : ((links.remove elem).insertHead elem head).back (.inr other) =
        (links.remove elem).back (.inr other) := by
      simp only [Links.insertHead, Function.update_of_ne hne, Function.update_of_ne hfirst.symm]
    exact hkept.trans hback

end Edits

end DiscoBsd.Lib
