import Mathlib.Data.List.Nodup
import Mathlib.Logic.Function.Basic

/-!
# Null-terminated lists

Singly linked lists through one `next` field. A node is an element, or `none` for the head of a list; a
pointer is an element, or `none` for the null pointer. `Chain next ptr elems` says that from `ptr` on the
elements follow in order up to the null pointer. `place` is the node behind which an edit is made, and
the two edits have their lemmas.
-/

namespace DiscoBsd.Lib

variable {E : Type*}

/-- From a pointer on, the elements follow in order. -/
def Chain (next : Option E → Option E) : Option E → List E → Prop
  | ptr, [] => ptr = none
  | ptr, elem :: elems => ptr = some elem ∧ Chain next (next (some elem)) elems

/-- The node that is reached behind the given elements. -/
def place (node : Option E) : List E → Option E
  | [] => node
  | elem :: elems => place (some elem) elems

variable {next next' : Option E → Option E} {ptr node : Option E} {elem : E}
  {elems pre suf : List E}

theorem Chain.ptr_eq (h : Chain next ptr elems) : ptr = elems.head? := by
  cases elems with
  | nil => exact h
  | cons elem elems => exact h.1

theorem Chain.congr (h : Chain next ptr elems)
    (hnext : ∀ elem ∈ elems, next' (some elem) = next (some elem)) : Chain next' ptr elems := by
  induction elems generalizing ptr with
  | nil => exact h
  | cons elem elems ih =>
      refine ⟨h.1, ?_⟩
      rw [hnext elem List.mem_cons_self]
      exact ih h.2 fun other hmem => hnext other (List.mem_cons_of_mem elem hmem)

theorem Chain.at_place (h : Chain next (next node) (pre ++ suf)) :
    Chain next (next (place node pre)) suf := by
  induction pre generalizing node with
  | nil => exact h
  | cons elem pre ih => exact ih h.2

theorem place_mem (node : Option E) (pre : List E) :
    place node pre = node ∨ ∃ elem ∈ pre, place node pre = some elem := by
  induction pre generalizing node with
  | nil => exact Or.inl rfl
  | cons elem pre ih =>
      rcases ih (some elem) with h | ⟨other, hmem, h⟩
      · exact Or.inr ⟨elem, List.mem_cons_self, h⟩
      · exact Or.inr ⟨other, List.mem_cons_of_mem elem hmem, h⟩

section Edits

variable [DecidableEq E]

/-- `node->next = ptr`. -/
def setNext (next : Option E → Option E) (node ptr : Option E) : Option E → Option E :=
  Function.update next node ptr

theorem setNext_self (next : Option E → Option E) (node ptr : Option E) :
    setNext next node ptr node = ptr := Function.update_self ..

theorem setNext_ne {other : Option E} (h : other ≠ node) :
    setNext next node ptr other = next other := Function.update_of_ne h ..

/-- An element is put behind the first ones. -/
theorem Chain.insert (h : Chain next (next node) (pre ++ suf)) (hnodup : (pre ++ suf).Nodup)
    (hnode : ∀ other ∈ pre ++ suf, node ≠ some other) (hnew : elem ∉ pre ++ suf)
    (hself : node ≠ some elem) :
    Chain (setNext (setNext next (place node pre) (some elem)) (some elem)
        (next (place node pre)))
      (setNext (setNext next (place node pre) (some elem)) (some elem)
        (next (place node pre)) node) (pre ++ elem :: suf) := by
  induction pre generalizing node with
  | nil =>
      simp only [List.nil_append, place] at *
      rw [setNext_ne hself, setNext_self]
      refine ⟨rfl, ?_⟩
      rw [setNext_self]
      refine h.congr fun other hmem => ?_
      have hother : some other ≠ some elem := by
        rintro ⟨⟩
        exact hnew hmem
      rw [setNext_ne hother, setNext_ne (hnode other hmem).symm]
  | cons first pre ih =>
      have hfirst : elem ≠ first := fun heq => hnew (heq ▸ List.mem_cons_self)
      have hplace : node ≠ place (some first) pre := by
        rcases place_mem (some first) pre with heq | ⟨other, hmem, heq⟩
        · rw [heq]
          exact hnode first List.mem_cons_self
        · rw [heq]
          exact hnode other (List.mem_cons_of_mem _ (List.mem_append_left _ hmem))
      refine ⟨?_, ih h.2 (List.nodup_cons.mp hnodup).2 ?_ ?_ ?_⟩
      · show setNext (setNext next (place (some first) pre) (some elem)) (some elem)
          (next (place (some first) pre)) node = some first
        rw [setNext_ne hself, setNext_ne hplace]
        exact h.1
      · rintro other hmem heq
        exact (List.nodup_cons.mp hnodup).1 (Option.some.inj heq ▸ hmem)
      · exact fun hmem => hnew (List.mem_cons_of_mem first hmem)
      · exact fun heq => hfirst (Option.some.inj heq).symm

/-- The element behind the first ones is taken off. -/
theorem Chain.remove (h : Chain next (next node) (pre ++ elem :: suf))
    (hnodup : (pre ++ elem :: suf).Nodup) (hnode : ∀ other ∈ pre ++ elem :: suf, node ≠ some other) :
    Chain (setNext next (place node pre) (next (some elem)))
      (setNext next (place node pre) (next (some elem)) node) (pre ++ suf) := by
  induction pre generalizing node with
  | nil =>
      simp only [List.nil_append, place] at *
      rw [setNext_self]
      refine h.2.congr fun other hmem => ?_
      rw [setNext_ne (hnode other (List.mem_cons_of_mem elem hmem)).symm]
  | cons first pre ih =>
      have hplace : node ≠ place (some first) pre := by
        rcases place_mem (some first) pre with heq | ⟨other, hmem, heq⟩
        · rw [heq]
          exact hnode first List.mem_cons_self
        · rw [heq]
          exact hnode other (List.mem_cons_of_mem _ (List.mem_append_left _ hmem))
      refine ⟨?_, ih h.2 (List.nodup_cons.mp hnodup).2 ?_⟩
      · show setNext next (place (some first) pre) (next (some elem)) node = some first
        rw [setNext_ne hplace]
        exact h.1
      · rintro other hmem heq
        exact (List.nodup_cons.mp hnodup).1 (Option.some.inj heq ▸ hmem)

end Edits

end DiscoBsd.Lib
