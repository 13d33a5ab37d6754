import Mathlib.Data.List.AList
import Mathlib.Data.Fintype.BigOperators
import Mathlib.Algebra.BigOperators.Group.Finset.Basic

/-!
# Counting the edges of a labelled graph

Every node of a finite graph has finitely many labelled edges, at most one for each label.
`indegree` counts the edges that lead to a node. An edge that is added, moved or taken away
changes it by one, and the lemmas say so for every node at once: `indegree_insert`,
`indegree_erase` and `indegree_clear`.
-/

namespace DiscoBsd.Lib

variable {Node Label : Type} [DecidableEq Node] [DecidableEq Label]

/-- The edges of a node, by their labels. -/
abbrev Edges (Label Node : Type) := AList fun _ : Label => Node

/-- One, when the two are the same. -/
def one (i j : Node) : Nat := if i = j then 1 else 0

@[simp] theorem one_self (i : Node) : one i i = 1 := if_pos rfl

theorem one_ne {i j : Node} (h : i ≠ j) : one i j = 0 := if_neg h

/-- How many of the edges lead to `j`. -/
def edgesTo (es : Edges Label Node) (j : Node) : Nat := es.entries.countP fun e => e.2 = j

/-- Whether the edge of a label leads to `j`. -/
def slot (es : Edges Label Node) (l : Label) (j : Node) : Nat :=
  match es.lookup l with
  | none => 0
  | some i => one i j

theorem slot_of_some {es : Edges Label Node} {l : Label} {i : Node} (h : es.lookup l = some i)
    (j : Node) : slot es l j = one i j := by
  rw [slot, h]

theorem slot_of_none {es : Edges Label Node} {l : Label} (h : es.lookup l = none) (j : Node) :
    slot es l j = 0 := by
  rw [slot, h]

omit [DecidableEq Label] in
@[simp] theorem edgesTo_empty (j : Node) : edgesTo (∅ : Edges Label Node) j = 0 := rfl

theorem edgesTo_erase (es : Edges Label Node) (l : Label) (j : Node) :
    edgesTo (es.erase l) j + slot es l j = edgesTo es j := by
  cases hl : es.lookup l with
  | none =>
    have hkeys : l ∉ es.entries.keys := AList.lookup_eq_none.mp hl
    rw [slot_of_none hl, Nat.add_zero]
    show (es.entries.kerase l).countP _ = _
    rw [List.kerase_of_notMem_keys hkeys]
    rfl
  | some i =>
    have hin : l ∈ es := AList.lookup_isSome.mp (by rw [hl]; rfl)
    obtain ⟨b, as, bs, hnot, hes, herase⟩ := List.exists_of_kerase (AList.mem_keys.mp hin)
    -- the edge that is taken away is the one that was looked up
    have hb : b = i := by
      have hmem : (⟨l, b⟩ : Σ _ : Label, Node) ∈ es.entries := by
        rw [hes]
        simp
      have hlookup := AList.mem_lookup_iff.mpr hmem
      rw [hl] at hlookup
      exact (Option.some.inj hlookup).symm
    rw [slot_of_some hl]
    show (es.entries.kerase l).countP _ + _ = es.entries.countP _
    rw [herase, hes, List.countP_append, List.countP_append, List.countP_cons, hb]
    simp only [one, decide_eq_true_eq]
    omega

theorem edgesTo_insert (es : Edges Label Node) (l : Label) (i j : Node) :
    edgesTo (es.insert l i) j + slot es l j = edgesTo es j + one i j := by
  have hinsert : edgesTo (es.insert l i) j = edgesTo (es.erase l) j + one i j := by
    show (es.insert l i).entries.countP _ = _
    rw [AList.entries_insert, List.countP_cons]
    simp only [one, decide_eq_true_eq]
    rfl
  rw [hinsert, ← edgesTo_erase es l j]
  omega

theorem edgesTo_eq_zero {es : Edges Label Node} (h : ∀ l, es.lookup l = none) (j : Node) :
    edgesTo es j = 0 := by
  have hnil : es.entries = [] := by
    refine List.eq_nil_iff_forall_not_mem.mpr fun e he => ?_
    have hmem := AList.mem_lookup_iff.mpr (show (⟨e.1, e.2⟩ : Σ _ : Label, Node) ∈ es.entries from he)
    rw [h e.1] at hmem
    cases hmem
  rw [edgesTo, hnil]
  rfl

theorem edgesTo_congr {es es' : Edges Label Node} (h : ∀ l, es.lookup l = es'.lookup l) (j : Node) :
    edgesTo es j = edgesTo es' j := by
  have hperm : es.entries.Perm es'.entries := by
    refine List.lookup_ext es.nodupKeys es'.nodupKeys fun l i => ?_
    show i ∈ es.lookup l ↔ i ∈ es'.lookup l
    rw [h l]
  exact hperm.countP_eq _

section Indegree

variable [Fintype Node]

/-- How many edges lead to `j`. -/
def indegree (g : Node → Edges Label Node) (j : Node) : Nat := ∑ d, edgesTo (g d) j

omit [DecidableEq Label] in
theorem indegree_update (g : Node → Edges Label Node) (d : Node) (es : Edges Label Node) (j : Node) :
    indegree (Function.update g d es) j + edgesTo (g d) j = indegree g j + edgesTo es j := by
  have hrest : ∑ x ∈ Finset.univ.erase d, edgesTo (Function.update g d es x) j =
      ∑ x ∈ Finset.univ.erase d, edgesTo (g x) j := by
    refine Finset.sum_congr rfl fun x hx => ?_
    rw [Function.update_of_ne (Finset.ne_of_mem_erase hx)]
  rw [indegree, indegree, ← Finset.add_sum_erase _ _ (Finset.mem_univ d), hrest,
    Function.update_self, ← Finset.add_sum_erase _ (fun x => edgesTo (g x) j) (Finset.mem_univ d)]
  omega

theorem indegree_congr {g g' : Node → Edges Label Node}
    (h : ∀ d l, (g d).lookup l = (g' d).lookup l) (j : Node) : indegree g j = indegree g' j :=
  Finset.sum_congr rfl fun d _ => edgesTo_congr (h d) j

theorem indegree_insert (g : Node → Edges Label Node) (d : Node) (l : Label) (i j : Node) :
    indegree (Function.update g d ((g d).insert l i)) j + slot (g d) l j =
      indegree g j + one i j := by
  have hupdate := indegree_update g d ((g d).insert l i) j
  have hinsert := edgesTo_insert (g d) l i j
  omega

theorem indegree_erase (g : Node → Edges Label Node) (d : Node) (l : Label) (j : Node) :
    indegree (Function.update g d ((g d).erase l)) j + slot (g d) l j = indegree g j := by
  have hupdate := indegree_update g d ((g d).erase l) j
  have herase := edgesTo_erase (g d) l j
  omega

omit [DecidableEq Label] in
theorem indegree_clear (g : Node → Edges Label Node) (d j : Node) :
    indegree (Function.update g d ∅) j + edgesTo (g d) j = indegree g j := by
  have hupdate := indegree_update g d ∅ j
  rw [edgesTo_empty] at hupdate
  omega

theorem indegree_pos {g : Node → Edges Label Node} {d i : Node} {l : Label}
    (h : (g d).lookup l = some i) : 0 < indegree g i := by
  have herase := indegree_erase g d l i
  rw [slot_of_some h, one_self] at herase
  omega

/-- Two different edges to a node count for two. -/
theorem indegree_two {g : Node → Edges Label Node} {d d' i : Node} {l l' : Label}
    (h : (g d).lookup l = some i) (h' : (g d').lookup l' = some i) (hne : d ≠ d' ∨ l ≠ l') :
    2 ≤ indegree g i := by
  have herase := indegree_erase g d l i
  rw [slot_of_some h, one_self] at herase
  have hstill : (Function.update g d ((g d).erase l) d').lookup l' = some i := by
    by_cases hd : d' = d
    · subst hd
      rw [Function.update_self, AList.lookup_erase_ne]
      · exact h'
      · exact fun hl => hne.elim (fun hd => hd rfl) fun hl' => hl' hl.symm
    · rw [Function.update_of_ne hd]
      exact h'
  have hpos := indegree_pos hstill
  omega

end Indegree

end DiscoBsd.Lib
