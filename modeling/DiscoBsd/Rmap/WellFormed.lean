import DiscoBsd.Lib.Segments
import DiscoBsd.Rmap.Map

/-!
# Well-formed resource maps

The live segments of a map are the slots before the first slot of size 0. A map is
well formed when that slot is the delimiter `(0, 0)` and the live segments are separated,
nonempty, away from address 0 and end inside the 32-bit address space. Where `m_limit` lies
does not matter for that. The shift lemmas say what the copying loops do to the array.
-/

namespace DiscoBsd.Rmap

open Lib

/-- The units a slot describes. -/
def Mapent.seg (ent : Mapent) : Seg := ⟨ent.mAddr, ent.mSize⟩

@[simp] theorem Mapent.seg_start (ent : Mapent) : ent.seg.start = ent.mAddr := rfl
@[simp] theorem Mapent.seg_len (ent : Mapent) : ent.seg.len = ent.mSize := rfl
@[simp] theorem Mapent.seg_stop (ent : Mapent) : ent.seg.stop = ent.mAddr + ent.mSize := rfl

/-- The delimiter slot: neither 0 is a legal address nor 0 a legal size. -/
def closing : Mapent := ⟨0, 0⟩

/-- The live segments: the slots before the first one of size 0. -/
def Map.entries (mp : Map) : List Mapent := mp.mMap.takeWhile (·.mSize ≠ 0)

/-- The free units of a map. -/
def Map.free (mp : Map) : Set Nat := unitsOf (mp.entries.map Mapent.seg)

/-- The number of free units of a map. -/
def Map.freeCount (mp : Map) : Nat := countOf (mp.entries.map Mapent.seg)

/-- Separated segments away from address 0 that end inside the address space. While `malloc3`
works, some of them may have run out of units. -/
structure Spans (ents : List Mapent) : Prop where
  addr_pos : ∀ ent ∈ ents, 0 < ent.mAddr
  stop_lt : ∀ ent ∈ ents, ent.mAddr + ent.mSize < 2 ^ 32
  separated : Separated (ents.map Mapent.seg)

/-- The live segments as the map keeps them: none of them is empty. -/
structure Segments (ents : List Mapent) : Prop extends Spans ents where
  size_pos : ∀ ent ∈ ents, 0 < ent.mSize

/-- A well-formed map: good segments and the delimiter behind them. -/
structure WellFormed (mp : Map) : Prop where
  segments : Segments mp.entries
  closed : ∃ behind, mp.mMap = mp.entries ++ closing :: behind

/-- `takeWhile` stops at the first slot of size 0. -/
theorem take_while_entries {ents : List Mapent} (hpos : ∀ ent ∈ ents, 0 < ent.mSize)
    (behind : List Mapent) :
    (ents ++ closing :: behind).takeWhile (·.mSize ≠ 0) = ents := by
  rw [List.takeWhile_append_of_pos]
  · simp [closing]
  · intro ent hent
    have := hpos ent hent
    simp only [ne_eq, decide_eq_true_eq]
    omega

theorem Map.entries_eq {mp : Map} {ents behind : List Mapent}
    (hpos : ∀ ent ∈ ents, 0 < ent.mSize) (h : mp.mMap = ents ++ closing :: behind) :
    mp.entries = ents := by
  rw [Map.entries, h, take_while_entries hpos]

theorem WellFormed.of_slots {mp : Map} {ents behind : List Mapent} (hents : Segments ents)
    (hslots : mp.mMap = ents ++ closing :: behind) : WellFormed mp := by
  have hentries := Map.entries_eq hents.size_pos hslots
  exact ⟨hentries ▸ hents, ⟨behind, hentries ▸ hslots⟩⟩

/-- The copy-down loop removes the first slot and leaves a second delimiter. -/
theorem move_down_eq (first : Mapent) {ents : List Mapent}
    (hpos : ∀ ent ∈ ents, 0 < ent.mSize) (behind : List Mapent) :
    moveDown (first :: (ents ++ closing :: behind)) =
      some (ents ++ closing :: closing :: behind) := by
  induction ents generalizing first with
  | nil => simp [moveDown, closing]
  | cons ent ents ih =>
      have hne : ent.mSize ≠ 0 := (hpos ent List.mem_cons_self).ne'
      have hrest := ih ent fun other hother => hpos other (List.mem_cons_of_mem _ hother)
      simp [moveDown, hne, hrest]

/-- The copy-up loop puts a slot in front and uses up the slot behind the delimiter. -/
theorem move_up_eq (ent : Mapent) {ents : List Mapent}
    (hpos : ∀ ent ∈ ents, 0 < ent.mSize) (last : Mapent) (behind : List Mapent) :
    moveUp ent (ents ++ closing :: last :: behind) =
      some (ent :: (ents ++ closing :: behind)) := by
  induction ents generalizing ent with
  | nil => simp [moveUp, closing]
  | cons next ents ih =>
      have hne : next.mSize ≠ 0 := (hpos next List.mem_cons_self).ne'
      have hrest := ih next fun other hother => hpos other (List.mem_cons_of_mem _ hother)
      simp [moveUp, hne, hrest]

theorem move_up_none (ent : Mapent) {ents : List Mapent} (hpos : ∀ ent ∈ ents, 0 < ent.mSize) :
    moveUp ent (ents ++ [closing]) = none := by
  induction ents generalizing ent with
  | nil => rfl
  | cons next ents ih =>
      have hne : next.mSize ≠ 0 := (hpos next List.mem_cons_self).ne'
      have hrest := ih next fun other hother => hpos other (List.mem_cons_of_mem _ hother)
      simp [moveUp, hne, hrest]

theorem size_add_eq {a b : Nat} (h : a + b < 2 ^ 32) : sizeAdd a b = a + b :=
  Nat.mod_eq_of_lt h

namespace Spans

theorem sublist {ents more : List Mapent} (h : Spans ents) (hsub : List.Sublist more ents) :
    Spans more where
  addr_pos ent hent := h.addr_pos ent (hsub.subset hent)
  stop_lt ent hent := h.stop_lt ent (hsub.subset hent)
  separated := h.separated.sublist (hsub.map _)

/-- Replace the middle of a good list by one good segment that keeps clear of both sides. -/
theorem replace {before after : List Mapent} {ent : Mapent} (middle : List Mapent)
    (h : Spans (before ++ middle ++ after))
    (haddr : 0 < ent.mAddr) (hstop : ent.mAddr + ent.mSize < 2 ^ 32)
    (hbefore : ∀ prev ∈ before, prev.mAddr + prev.mSize < ent.mAddr)
    (hafter : ∀ next ∈ after, ent.mAddr + ent.mSize < next.mAddr) :
    Spans (before ++ ent :: after) := by
  have hsides : ∀ other ∈ before ++ ent :: after, other = ent ∨
      other ∈ before ++ middle ++ after := by
    intro other hother
    simp only [List.mem_append, List.mem_cons] at hother ⊢
    tauto
  refine ⟨?_, ?_, ?_⟩
  · intro other hother
    rcases hsides other hother with rfl | hold
    · exact haddr
    · exact h.addr_pos other hold
  · intro other hother
    rcases hsides other hother with rfl | hold
    · exact hstop
    · exact h.stop_lt other hold
  · rw [List.map_append, List.map_cons]
    refine Separated.replace (middle.map Mapent.seg)
      (by simpa using h.separated) ?_ ?_
    · simpa using hbefore
    · simpa using hafter

theorem stop_lt_addr {before after : List Mapent} {ent : Mapent}
    (h : Spans (before ++ ent :: after)) :
    ∀ prev ∈ before, prev.mAddr + prev.mSize < ent.mAddr := by
  have hsep : Separated (before.map Mapent.seg ++ ent.seg :: after.map Mapent.seg) := by
    simpa using h.separated
  intro prev hprev
  exact hsep.stop_lt prev.seg (List.mem_map_of_mem hprev)

theorem stop_lt_next {before after : List Mapent} {ent : Mapent}
    (h : Spans (before ++ ent :: after)) :
    ∀ next ∈ after, ent.mAddr + ent.mSize < next.mAddr := by
  have hsep : Separated (before.map Mapent.seg ++ ent.seg :: after.map Mapent.seg) := by
    simpa using h.separated
  intro next hnext
  exact hsep.lt_start next.seg (List.mem_map_of_mem hnext)

end Spans

/-! ## Carving units off a segment -/

/-- A segment after its first `size` units are handed out. -/
def carve (size : Nat) (ent : Mapent) : Mapent := ⟨ent.mSize - size, ent.mAddr + size⟩

/-- The segments that still have units. -/
def occupied (ents : List Mapent) : List Mapent := ents.filter (·.mSize ≠ 0)

theorem occupied_cons {ent : Mapent} (h : ent.mSize ≠ 0) (ents : List Mapent) :
    occupied (ent :: ents) = ent :: occupied ents := by
  simp [occupied, h]

theorem occupied_cons_empty {ent : Mapent} (h : ent.mSize = 0) (ents : List Mapent) :
    occupied (ent :: ents) = occupied ents := by
  simp [occupied, h]

theorem occupied_eq_self {ents : List Mapent} (h : ∀ ent ∈ ents, 0 < ent.mSize) :
    occupied ents = ents :=
  List.filter_eq_self.mpr fun ent hent => by simpa using (h ent hent).ne'

theorem Spans.occupied {ents : List Mapent} (h : Spans ents) : Segments (occupied ents) where
  toSpans := h.sublist List.filter_sublist
  size_pos ent hent := by
    have hne : ent.mSize ≠ 0 := by simpa using (List.mem_filter.mp hent).2
    omega

/-- Segments without units hold none. -/
theorem units_occupied (ents : List Mapent) :
    unitsOf ((occupied ents).map Mapent.seg) = unitsOf (ents.map Mapent.seg) := by
  induction ents with
  | nil => rfl
  | cons ent ents ih =>
      by_cases hsize : ent.mSize = 0
      · have hnone : ent.seg.units = ∅ := Seg.units_eq_empty hsize
        rw [occupied_cons_empty hsize, ih, List.map_cons, unitsOf_cons, hnone, Set.empty_union]
      · rw [occupied_cons hsize, List.map_cons, List.map_cons, unitsOf_cons, unitsOf_cons, ih]

/-- Segments without units count for nothing. -/
theorem count_occupied (ents : List Mapent) :
    countOf ((occupied ents).map Mapent.seg) = countOf (ents.map Mapent.seg) := by
  induction ents with
  | nil => rfl
  | cons ent ents ih =>
      by_cases hsize : ent.mSize = 0
      · rw [occupied_cons_empty hsize, ih, List.map_cons, countOf_cons, Mapent.seg_len, hsize,
          Nat.zero_add]
      · rw [occupied_cons hsize, List.map_cons, List.map_cons, countOf_cons, countOf_cons, ih]

/-- The effect of handing out the first `size` units of one segment. -/
structure Carved (ents : List Mapent) (range : Seg) (ents' : List Mapent) : Prop where
  start_pos : 0 < range.start
  stop_lt : range.stop < 2 ^ 32
  spans : Spans ents'
  units : unitsOf (ents.map Mapent.seg) = range.units ∪ unitsOf (ents'.map Mapent.seg)
  outside : Disjoint range.units (unitsOf (ents'.map Mapent.seg))
  count : countOf (ents'.map Mapent.seg) + range.len = countOf (ents.map Mapent.seg)

/-- Carving one segment of a good list. -/
theorem Spans.carve {before after : List Mapent} {ent : Mapent} {size : Nat}
    (h : Spans (before ++ ent :: after)) (hsize : size ≤ ent.mSize) :
    Carved (before ++ ent :: after) ⟨ent.mAddr, size⟩
      (before ++ Rmap.carve size ent :: after) := by
  have hsep : Separated (before.map Mapent.seg ++ ent.seg :: after.map Mapent.seg) := by
    simpa using h.separated
  have hunits : ent.seg.units =
      (Seg.mk ent.mAddr size).units ∪ (Rmap.carve size ent).seg.units :=
    Seg.units_split ent.mAddr size ent.mSize hsize
  have haddr := h.addr_pos ent (by simp)
  have hstop := h.stop_lt ent (by simp)
  refine ⟨haddr, ?_, ?_, ?_, ?_, ?_⟩
  · show ent.mAddr + size < 2 ^ 32
    omega
  · refine Spans.replace [ent] (by simpa using h) ?_ ?_ ?_ ?_
    · show 0 < ent.mAddr + size
      omega
    · show ent.mAddr + size + (ent.mSize - size) < 2 ^ 32
      omega
    · intro prev hprev
      show prev.mAddr + prev.mSize < ent.mAddr + size
      have := h.stop_lt_addr prev hprev
      omega
    · intro next hnext
      show ent.mAddr + size + (ent.mSize - size) < next.mAddr
      have := h.stop_lt_next next hnext
      omega
  · simp only [List.map_append, List.map_cons, unitsOf_append, unitsOf_cons, hunits]
    ext unit
    simp only [Set.mem_union]
    tauto
  · have hrest := hsep.disjoint_rest
    rw [hunits, Set.disjoint_union_left] at hrest
    simp only [List.map_append, List.map_cons, unitsOf_append, unitsOf_cons,
      Set.disjoint_union_right] at hrest ⊢
    refine ⟨hrest.1.1, ?_, hrest.1.2⟩
    refine Set.disjoint_left.mpr fun unit hunit hmem => ?_
    simp only [Seg.mem_units, Seg.stop, Mapent.seg, Rmap.carve] at hunit hmem
    omega
  · simp only [List.map_append, List.map_cons, countOf_append, countOf_cons, Mapent.seg_len,
      Rmap.carve]
    omega

end DiscoBsd.Rmap
