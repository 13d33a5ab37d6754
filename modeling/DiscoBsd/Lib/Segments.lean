import Mathlib.Order.CompletePartialOrder
import Mathlib.Algebra.GroupWithZero.Nat
import Mathlib.Data.Set.Lattice
import Mathlib.Order.Interval.Set.Basic
import Mathlib.Algebra.BigOperators.Group.List.Basic

/-!
# Separated segments of a discrete address space

A segment is a start and a length; it holds the units from its start up to, but not
including, its end. A list of segments is `Separated` when each ends strictly before the
next one starts, so no two overlap or abut. The lemmas say what replacing, carving and
joining segments does to the set of units and to their number, whatever the list is used
for.
-/

namespace DiscoBsd.Lib

/-- A segment: `len` units from `start` on. -/
structure Seg where
  start : Nat
  len : Nat

namespace Seg

/-- The first address behind the segment. -/
def stop (seg : Seg) : Nat := seg.start + seg.len

/-- The units of the segment. -/
def units (seg : Seg) : Set Nat := Set.Ico seg.start seg.stop

@[simp] theorem mem_units {seg : Seg} {unit : Nat} :
    unit ∈ seg.units ↔ seg.start ≤ unit ∧ unit < seg.stop := Iff.rfl

theorem units_eq_empty {seg : Seg} (h : seg.len = 0) : seg.units = ∅ := by
  simp [units, stop, h]

theorem units_split (start size len : Nat) (h : size ≤ len) :
    (Seg.mk start len).units =
      (Seg.mk start size).units ∪ (Seg.mk (start + size) (len - size)).units := by
  ext unit
  simp only [mem_units, Set.mem_union, stop]
  omega

/-- A segment that shares no unit with a nonempty one starting behind it ends before that
one. -/
theorem stop_le_start {seg other : Seg} (hother : 0 < other.len)
    (hdisj : Disjoint seg.units other.units) (hle : seg.start ≤ other.start) :
    seg.stop ≤ other.start := by
  by_contra hover
  have hmem : other.start ∈ seg.units := by
    simp only [mem_units]
    omega
  refine Set.disjoint_left.mp hdisj hmem ?_
  simp only [mem_units, stop]
  omega

end Seg

/-- Each segment ends strictly before every later one starts. -/
def Separated (segs : List Seg) : Prop :=
  segs.Pairwise fun seg next => seg.stop < next.start

/-- The units of a list of segments. -/
def unitsOf (segs : List Seg) : Set Nat := {unit | ∃ seg ∈ segs, unit ∈ seg.units}

/-- The number of units of a list of segments, each counted as often as it is listed. -/
def countOf (segs : List Seg) : Nat := (segs.map Seg.len).sum

@[simp] theorem unitsOf_nil : unitsOf [] = ∅ := by simp [unitsOf]

@[simp] theorem unitsOf_cons (seg : Seg) (segs : List Seg) :
    unitsOf (seg :: segs) = seg.units ∪ unitsOf segs := by
  ext unit
  simp [unitsOf]

@[simp] theorem unitsOf_append (segs more : List Seg) :
    unitsOf (segs ++ more) = unitsOf segs ∪ unitsOf more := by
  ext unit
  simp [unitsOf, or_and_right, exists_or]

@[simp] theorem countOf_nil : countOf [] = 0 := rfl

@[simp] theorem countOf_cons (seg : Seg) (segs : List Seg) :
    countOf (seg :: segs) = seg.len + countOf segs := by
  simp [countOf]

@[simp] theorem countOf_append (segs more : List Seg) :
    countOf (segs ++ more) = countOf segs + countOf more := by
  simp [countOf]

theorem disjoint_unitsOf {units : Set Nat} {segs : List Seg} :
    Disjoint units (unitsOf segs) ↔ ∀ seg ∈ segs, Disjoint units seg.units := by
  simp only [Set.disjoint_left, unitsOf, Set.mem_ofPred_eq]
  constructor
  · intro h seg hseg unit hunit hmem
    exact h hunit ⟨seg, hseg, hmem⟩
  · rintro h unit hunit ⟨seg, hseg, hmem⟩
    exact h seg hseg hunit hmem

/-- Replace the middle of a separated list by one segment that stays clear of both sides. -/
theorem Separated.replace {before after : List Seg} {seg : Seg} (middle : List Seg)
    (h : Separated (before ++ middle ++ after))
    (hbefore : ∀ prev ∈ before, prev.stop < seg.start)
    (hafter : ∀ next ∈ after, seg.stop < next.start) :
    Separated (before ++ seg :: after) := by
  obtain ⟨hleft, hright, hacross⟩ := List.pairwise_append.mp h
  obtain ⟨hpairs, -, -⟩ := List.pairwise_append.mp hleft
  refine List.pairwise_append.mpr ⟨hpairs, List.pairwise_cons.mpr ⟨hafter, hright⟩, ?_⟩
  intro prev hprev next hnext
  rcases List.mem_cons.mp hnext with rfl | hnext
  · exact hbefore prev hprev
  · exact hacross prev (List.mem_append_left _ hprev) next hnext

theorem Separated.stop_lt {before after : List Seg} {seg : Seg}
    (h : Separated (before ++ seg :: after)) : ∀ prev ∈ before, prev.stop < seg.start :=
  fun prev hprev => (List.pairwise_append.mp h).2.2 prev hprev seg List.mem_cons_self

theorem Separated.lt_start {before after : List Seg} {seg : Seg}
    (h : Separated (before ++ seg :: after)) : ∀ next ∈ after, seg.stop < next.start :=
  (List.pairwise_cons.mp (List.pairwise_append.mp h).2.1).1

/-- A segment of a separated list shares no unit with the others. -/
theorem Separated.disjoint_rest {before after : List Seg} {seg : Seg}
    (h : Separated (before ++ seg :: after)) :
    Disjoint seg.units (unitsOf (before ++ after)) := by
  refine disjoint_unitsOf.mpr fun other hother => ?_
  refine Set.disjoint_left.mpr fun unit hunit hmem => ?_
  simp only [Seg.mem_units, Seg.stop] at hunit hmem
  rcases List.mem_append.mp hother with hother | hother
  · have := h.stop_lt other hother
    simp only [Seg.stop] at this
    omega
  · have := h.lt_start other hother
    simp only [Seg.stop] at this
    omega

end DiscoBsd.Lib
