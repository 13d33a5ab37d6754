import Mathlib.Algebra.GroupWithZero.Nat
import Mathlib.Algebra.BigOperators.Group.Finset.Basic
import Mathlib.Algebra.Order.BigOperators.Group.Finset
import Mathlib.Data.Fintype.BigOperators

/-!
# Counting the holders of a resource

Every owner has a row of slots, each empty or holding a resource. `holders` counts the slots of all
owners that hold a resource. The lemmas say what a change of one slot, or of the row of one owner,
does to the count of every resource at once.
-/

namespace DiscoBsd.Lib

variable {Owner Slot Resource : Type*} [Fintype Owner] [DecidableEq Owner] [Fintype Slot]
  [DecidableEq Slot] [DecidableEq Resource]

/-- One, when a slot with this content holds the resource. -/
def holds (content : Option Resource) (r : Resource) : Nat := if content = some r then 1 else 0

@[simp] theorem holds_none (r : Resource) : holds none r = 0 := rfl

@[simp] theorem holds_self (r : Resource) : holds (some r) r = 1 := if_pos rfl

theorem holds_ne {content : Option Resource} {r : Resource} (h : content ≠ some r) :
    holds content r = 0 := if_neg h

/-- How many slots of a row hold the resource. -/
def held (row : Slot → Option Resource) (r : Resource) : Nat := ∑ slot, holds (row slot) r

/-- How many slots of all rows hold the resource. -/
def holders (rows : Owner → Slot → Option Resource) (r : Resource) : Nat :=
  ∑ owner, held (rows owner) r

theorem held_update (row : Slot → Option Resource) (slot : Slot) (content : Option Resource)
    (r : Resource) :
    held (Function.update row slot content) r + holds (row slot) r =
      held row r + holds content r := by
  have hrest : ∑ other ∈ Finset.univ.erase slot, holds (Function.update row slot content other) r =
      ∑ other ∈ Finset.univ.erase slot, holds (row other) r := by
    refine Finset.sum_congr rfl fun other hother => ?_
    rw [Function.update_of_ne (Finset.ne_of_mem_erase hother)]
  rw [held, held, ← Finset.add_sum_erase _ _ (Finset.mem_univ slot), hrest, Function.update_self,
    ← Finset.add_sum_erase _ (fun other => holds (row other) r) (Finset.mem_univ slot)]
  omega

omit [DecidableEq Slot] in
/-- Another row for one owner. -/
theorem holders_update (rows : Owner → Slot → Option Resource) (owner : Owner)
    (row : Slot → Option Resource) (r : Resource) :
    holders (Function.update rows owner row) r + held (rows owner) r =
      holders rows r + held row r := by
  have hrest : ∑ other ∈ Finset.univ.erase owner, held (Function.update rows owner row other) r =
      ∑ other ∈ Finset.univ.erase owner, held (rows other) r := by
    refine Finset.sum_congr rfl fun other hother => ?_
    rw [Function.update_of_ne (Finset.ne_of_mem_erase hother)]
  rw [holders, holders, ← Finset.add_sum_erase _ _ (Finset.mem_univ owner), hrest,
    Function.update_self, ← Finset.add_sum_erase _ (fun other => held (rows other) r)
      (Finset.mem_univ owner)]
  omega

theorem holders_put (rows : Owner → Slot → Option Resource) (owner : Owner) (slot : Slot)
    (content : Option Resource) (r : Resource) :
    holders (Function.update rows owner (Function.update (rows owner) slot content)) r +
      holds (rows owner slot) r = holders rows r + holds content r := by
  have hrows := holders_update rows owner (Function.update (rows owner) slot content) r
  have hrow := held_update (rows owner) slot content r
  omega

omit [DecidableEq Slot] in
theorem held_empty {row : Slot → Option Resource} (h : ∀ slot, row slot = none) (r : Resource) :
    held row r = 0 := by
  refine Finset.sum_eq_zero fun slot _ => ?_
  rw [h slot, holds_none]

omit [DecidableEq Owner] [DecidableEq Slot] in
theorem holders_empty {rows : Owner → Slot → Option Resource}
    (h : ∀ owner slot, rows owner slot = none) (r : Resource) : holders rows r = 0 :=
  Finset.sum_eq_zero fun owner _ => held_empty (h owner) r

omit [DecidableEq Slot] in
theorem held_pos {row : Slot → Option Resource} {slot : Slot} {r : Resource}
    (h : row slot = some r) : 0 < held row r := by
  refine Finset.sum_pos' (fun _ _ => Nat.zero_le _) ⟨slot, Finset.mem_univ slot, ?_⟩
  rw [h, holds_self]
  exact Nat.one_pos

omit [DecidableEq Owner] [DecidableEq Slot] in
theorem holders_pos {rows : Owner → Slot → Option Resource} {owner : Owner} {slot : Slot}
    {r : Resource} (h : rows owner slot = some r) : 0 < holders rows r :=
  Finset.sum_pos' (fun _ _ => Nat.zero_le _) ⟨owner, Finset.mem_univ owner, held_pos h⟩

/-- The slot that holds a resource counted once is the only one. -/
theorem holder_unique {rows : Owner → Slot → Option Resource} {owner owner' : Owner}
    {slot slot' : Slot} {r : Resource} (hone : holders rows r = 1) (h : rows owner slot = some r)
    (h' : rows owner' slot' = some r) : owner = owner' ∧ slot = slot' := by
  have hcleared := holders_put rows owner slot none r
  rw [h, holds_self, hone, holds_none] at hcleared
  by_contra hne
  have hstill : Function.update rows owner (Function.update (rows owner) slot none) owner' slot' =
      some r := by
    by_cases howner : owner' = owner
    · subst howner
      rw [Function.update_self, Function.update_of_ne]
      · exact h'
      · exact fun hslot => hne ⟨rfl, hslot.symm⟩
    · rw [Function.update_of_ne howner]
      exact h'
  have hpos := holders_pos hstill
  omega

/-- Elements that count for nothing may be left out of a sum. -/
theorem sum_map_filter {α : Type*} {f : α → Nat} {keep : α → Bool} {xs : List α}
    (h : ∀ x ∈ xs, ¬ keep x → f x = 0) : ((xs.filter keep).map f).sum = (xs.map f).sum := by
  induction xs with
  | nil => rfl
  | cons x xs ih =>
      have hrest := ih fun y hy => h y (List.mem_cons_of_mem x hy)
      rw [List.map_cons, List.sum_cons]
      by_cases hx : keep x
      · rw [List.filter_cons_of_pos hx, List.map_cons, List.sum_cons, hrest]
      · rw [List.filter_cons_of_neg hx, h x List.mem_cons_self hx, hrest, Nat.zero_add]

omit [DecidableEq Owner] [DecidableEq Slot] in
theorem holders_eq_card (rows : Owner → Slot → Option Resource) (r : Resource) :
    holders rows r =
      (Finset.univ.filter fun slot : Owner × Slot => rows slot.1 slot.2 = some r).card := by
  rw [Finset.card_filter, Fintype.sum_prod_type]
  rfl

end DiscoBsd.Lib
