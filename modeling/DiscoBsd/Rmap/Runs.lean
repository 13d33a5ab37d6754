import DiscoBsd.Lib.Steps
import DiscoBsd.Rmap.Malloc
import DiscoBsd.Rmap.Malloc3
import DiscoBsd.Rmap.Mfree

/-!
# Runs over a resource map

The state of a run is the map and the ranges its callers hold. `Accounted` says that the
held ranges are good ranges apart from each other and from the free units; every operation
keeps it, the number of free and held units together, the slots and `m_limit`.
`resource_map_run` states what follows for every sequence of operations.
-/

namespace DiscoBsd.Rmap

open Lib

/-- A map and the ranges that are allocated from it. -/
structure State where
  map : Map
  live : List Seg

/-- The calls made on a map. -/
inductive Op where
  | malloc (size : Nat)
  | malloc3 (dSize sSize uSize : Nat)
  | mfree (range : Seg)

/-- What is left of an allocation on both sides when a range inside it is returned. -/
def remnants (whole range : Seg) : List Seg :=
  [⟨whole.start, range.start - whole.start⟩, ⟨range.stop, whole.stop - range.stop⟩]

/-- One call. A range is returned only by a caller that holds it, as a whole allocation or as a
part of one, and only when the map has a slot for it. -/
inductive Step : State → Op → State → Prop where
  | malloc {mp live size addr mp'} : 0 < size →
      Rmap.malloc mp size = some (addr, mp') → addr ≠ 0 →
      Step ⟨mp, live⟩ (.malloc size) ⟨mp', ⟨addr, size⟩ :: live⟩
  | mallocFail {mp live size mp'} : 0 < size →
      Rmap.malloc mp size = some (0, mp') →
      Step ⟨mp, live⟩ (.malloc size) ⟨mp', live⟩
  | malloc3 {mp live dSize sSize uSize a0 a1 a2 addr mp'} :
      Rmap.malloc3 mp dSize sSize uSize = some (addr, [a0, a1, a2], mp') → addr ≠ 0 →
      Step ⟨mp, live⟩ (.malloc3 dSize sSize uSize)
        ⟨mp', ⟨a2, uSize⟩ :: ⟨a1, sSize⟩ :: ⟨a0, dSize⟩ :: live⟩
  | malloc3Fail {mp live dSize sSize uSize a mp'} :
      Rmap.malloc3 mp dSize sSize uSize = some (0, a, mp') →
      Step ⟨mp, live⟩ (.malloc3 dSize sSize uSize) ⟨mp', live⟩
  | mfree {mp before whole after mp'} {range : Seg} :
      whole.start ≤ range.start → range.stop ≤ whole.stop →
      Rmap.mfree mp range.len range.start = some (.done, mp') →
      Step ⟨mp, before ++ whole :: after⟩ (.mfree range)
        ⟨mp', before ++ (remnants whole range ++ after)⟩

/-- The held ranges are good ranges, apart from each other and from the free segments. -/
structure Accounted (ents : List Mapent) (live : List Seg) : Prop where
  start_pos : ∀ range ∈ live, 0 < range.start
  stop_lt : ∀ range ∈ live, range.stop < 2 ^ 32
  apart : live.Pairwise fun range other => Disjoint range.units other.units
  outside : ∀ range ∈ live, Disjoint range.units (unitsOf (ents.map Mapent.seg))

/-- A state in which the map is well formed and the held ranges are accounted for. -/
structure Good (st : State) : Prop where
  wellFormed : WellFormed st.map
  accounted : Accounted st.map.entries st.live

/-- The units of a state: free or held. -/
def State.units (st : State) : Nat := st.map.freeCount + countOf st.live

/-- What no call changes: the number of units, of slots, and the limit. -/
structure Kept (st st' : State) : Prop where
  units : st'.units = st.units
  length : st'.map.mMap.length = st.map.mMap.length
  limit : st'.map.mLimit = st.map.mLimit

/-! ## Handing units out -/

/-- Units carved off a segment are handed to a caller. -/
theorem Accounted.carve {ents ents' : List Mapent} {live : List Seg} {range : Seg}
    (h : Accounted ents live) (hcarved : Carved ents range ents') :
    Accounted ents' (range :: live) := by
  have hinside : range.units ⊆ unitsOf (ents.map Mapent.seg) := by
    rw [hcarved.units]
    exact Set.subset_union_left
  have hless : unitsOf (ents'.map Mapent.seg) ⊆ unitsOf (ents.map Mapent.seg) := by
    rw [hcarved.units]
    exact Set.subset_union_right
  refine ⟨?_, ?_, ?_, ?_⟩
  · exact List.forall_mem_cons.mpr ⟨hcarved.start_pos, h.start_pos⟩
  · exact List.forall_mem_cons.mpr ⟨hcarved.stop_lt, h.stop_lt⟩
  · refine List.pairwise_cons.mpr ⟨fun other hother => ?_, h.apart⟩
    exact ((h.outside other hother).mono_right hinside).symm
  · refine List.forall_mem_cons.mpr ⟨hcarved.outside, fun other hother => ?_⟩
    exact (h.outside other hother).mono_right hless

theorem Accounted.occupied {ents : List Mapent} {live : List Seg} (h : Accounted ents live) :
    Accounted (occupied ents) live :=
  ⟨h.start_pos, h.stop_lt, h.apart, by rw [units_occupied]; exact h.outside⟩

/-- A successful `malloc` hands out units that were free. -/
theorem malloc_good {mp mp' : Map} {live : List Seg} {size addr : Nat} (h : Good ⟨mp, live⟩)
    (hsize : 0 < size) (hcall : malloc mp size = some (addr, mp')) (haddr : addr ≠ 0) :
    Good ⟨mp', ⟨addr, size⟩ :: live⟩ ∧ Kept ⟨mp, live⟩ ⟨mp', ⟨addr, size⟩ :: live⟩ := by
  rcases malloc_cases h.wellFormed hsize with ⟨-, hfail⟩ |
    ⟨before, ent, after, mp'', hentries, hfit, hcall', hgood, hlimit, hlength, hentries'⟩
  · rw [hfail] at hcall
    cases hcall
    exact absurd rfl haddr
  · rw [hcall'] at hcall
    cases hcall
    have hcarved := Spans.carve (hentries ▸ h.wellFormed.segments.toSpans) hfit
    rw [← hentries] at hcarved
    refine ⟨⟨hgood, ?_⟩, ?_, hlength, hlimit⟩
    · show Accounted mp'.entries _
      rw [hentries']
      exact (h.accounted.carve hcarved).occupied
    · have hcount := hcarved.count
      simp only [State.units, Map.freeCount, hentries', count_occupied, countOf_cons] at hcount ⊢
      omega

/-- A successful `malloc3` hands out three ranges that were free. -/
theorem malloc3_good {mp mp' : Map} {live : List Seg} {dSize sSize uSize addr a0 a1 a2 : Nat}
    (h : Good ⟨mp, live⟩)
    (hcall : malloc3 mp dSize sSize uSize = some (addr, [a0, a1, a2], mp')) :
    Good ⟨mp', ⟨a2, uSize⟩ :: ⟨a1, sSize⟩ :: ⟨a0, dSize⟩ :: live⟩ ∧
      Kept ⟨mp, live⟩ ⟨mp', ⟨a2, uSize⟩ :: ⟨a1, sSize⟩ :: ⟨a0, dSize⟩ :: live⟩ := by
  rcases malloc3_cases h.wellFormed dSize sSize uSize with hfail |
    ⟨b0, b1, b2, mp'', ents1, ents2, ents3, hcall', hgood, hlimit, hlength, hentries', hc0, hc1,
      hc2⟩
  · rw [hfail] at hcall
    cases hcall
  · rw [hcall'] at hcall
    cases hcall
    refine ⟨⟨hgood, ?_⟩, ?_, hlength, hlimit⟩
    · show Accounted mp'.entries _
      rw [hentries']
      exact (((h.accounted.carve hc0).carve hc1).carve hc2).occupied
    · have hcount0 := hc0.count
      have hcount1 := hc1.count
      have hcount2 := hc2.count
      simp only [State.units, Map.freeCount, hentries', count_occupied, countOf_cons] at *
      omega

/-! ## Taking units back -/

theorem mem_remnants {whole range piece : Seg} (hstart : whole.start ≤ range.start)
    (hstop : range.stop ≤ whole.stop) (hpiece : piece ∈ remnants whole range) :
    whole.start ≤ piece.start ∧ piece.stop ≤ whole.stop ∧
      (piece.stop ≤ range.start ∨ range.stop ≤ piece.start) := by
  simp only [remnants, List.mem_cons, List.not_mem_nil, or_false] at hpiece
  rcases hpiece with rfl | rfl <;> simp only [Seg.stop] at * <;> omega

/-- A caller that holds an allocation may return any part of it. -/
theorem Accounted.release {ents ents' : List Mapent} {before after : List Seg}
    {whole range : Seg} (h : Accounted ents (before ++ whole :: after))
    (hstart : whole.start ≤ range.start) (hstop : range.stop ≤ whole.stop)
    (hfree : unitsOf (ents'.map Mapent.seg) = unitsOf (ents.map Mapent.seg) ∪ range.units) :
    Accounted ents' (before ++ (remnants whole range ++ after)) := by
  obtain ⟨hbefore, hrest, hacross⟩ := List.pairwise_append.mp h.apart
  obtain ⟨hwhole, hafter⟩ := List.pairwise_cons.mp hrest
  have hpart : ∀ piece ∈ remnants whole range, piece.units ⊆ whole.units := by
    intro piece hpiece unit hunit
    have := mem_remnants hstart hstop hpiece
    simp only [Seg.mem_units] at hunit ⊢
    omega
  have hrange : range.units ⊆ whole.units := Set.Ico_subset_Ico hstart hstop
  -- every range held afterwards was held before, or is a side of the allocation
  have hold : ∀ other ∈ before ++ (remnants whole range ++ after),
      (other ∈ before ∨ other ∈ after) ∨ other ∈ remnants whole range := by
    intro other hother
    simp only [List.mem_append] at hother
    tauto
  have hmem : ∀ other, other ∈ before ∨ other ∈ after → other ∈ before ++ whole :: after := by
    intro other hother
    rcases hother with hother | hother <;> simp [hother]
  have hwholeMem : whole ∈ before ++ whole :: after := by simp
  refine ⟨?_, ?_, ?_, ?_⟩
  · intro other hother
    rcases hold other hother with hother | hpiece
    · exact h.start_pos other (hmem other hother)
    · have := h.start_pos whole hwholeMem
      have := mem_remnants hstart hstop hpiece
      omega
  · intro other hother
    rcases hold other hother with hother | hpiece
    · exact h.stop_lt other (hmem other hother)
    · have := h.stop_lt whole hwholeMem
      have := mem_remnants hstart hstop hpiece
      omega
  · refine List.pairwise_append.mpr ⟨hbefore, List.pairwise_append.mpr ⟨?_, hafter, ?_⟩, ?_⟩
    · refine List.pairwise_pair.mpr (Set.disjoint_left.mpr fun unit hunit hmem => ?_)
      simp only [Seg.mem_units, Seg.stop] at hunit hmem
      omega
    · intro piece hpiece other hother
      exact (hwhole other hother).mono_left (hpart piece hpiece)
    · intro prev hprev other hother
      rcases List.mem_append.mp hother with hpiece | hother
      · exact (hacross prev hprev whole List.mem_cons_self).mono_right (hpart other hpiece)
      · exact hacross prev hprev other (List.mem_cons_of_mem _ hother)
  · intro other hother
    rw [hfree, Set.disjoint_union_right]
    rcases hold other hother with hother | hpiece
    · refine ⟨h.outside other (hmem other hother), ?_⟩
      rcases hother with hother | hother
      · exact (hacross other hother whole List.mem_cons_self).mono_right hrange
      · exact ((hwhole other hother).mono_left hrange).symm
    · refine ⟨(h.outside whole hwholeMem).mono_left (hpart other hpiece), ?_⟩
      refine Set.disjoint_left.mpr fun unit hunit hmem => ?_
      have := mem_remnants hstart hstop hpiece
      simp only [Seg.mem_units] at hunit hmem
      omega

/-- A nonempty part of a held range can be returned. -/
theorem Good.returnable {mp : Map} {live : List Seg} {whole range : Seg} (h : Good ⟨mp, live⟩)
    (hwhole : whole ∈ live) (hstart : whole.start ≤ range.start)
    (hstop : range.stop ≤ whole.stop) (hlen : 0 < range.len) : Returnable mp range := by
  refine ⟨hlen, ?_, ?_, ?_⟩
  · have := h.accounted.start_pos whole hwhole
    omega
  · have := h.accounted.stop_lt whole hwhole
    omega
  · exact (h.accounted.outside whole hwhole).mono_left (Set.Ico_subset_Ico hstart hstop)

/-- Returning a held range puts its units back. -/
theorem mfree_good {mp mp' : Map} {before after : List Seg} {whole range : Seg}
    (h : Good ⟨mp, before ++ whole :: after⟩) (hstart : whole.start ≤ range.start)
    (hstop : range.stop ≤ whole.stop)
    (hcall : mfree mp range.len range.start = some (.done, mp')) :
    Good ⟨mp', before ++ (remnants whole range ++ after)⟩ ∧
      Kept ⟨mp, before ++ whole :: after⟩ ⟨mp', before ++ (remnants whole range ++ after)⟩ := by
  have hwholeMem : whole ∈ before ++ whole :: after := by simp
  have hsplit : countOf (remnants whole range) + range.len = whole.len := by
    simp only [remnants, countOf_cons, countOf_nil, Seg.stop] at *
    omega
  -- an empty range is returned without a look at the map
  by_cases hempty : range.len = 0
  · have hsame : mp' = mp := by simpa [mfree, hempty, eq_comm] using hcall
    subst hsame
    refine ⟨⟨h.wellFormed, h.accounted.release hstart hstop ?_⟩, ?_, rfl, rfl⟩
    · rw [Seg.units_eq_empty hempty, Set.union_empty]
    · simp only [State.units, countOf_append, countOf_cons]
      omega
  · have hreturnable := h.returnable hwholeMem hstart hstop (by omega)
    rcases mfree_cases h.wellFormed hreturnable with ⟨mp'', hdone, hreturned, -⟩ | ⟨hover, -⟩ |
      ⟨hnone, -⟩
    · rw [hdone] at hcall
      cases hcall
      refine ⟨⟨hreturned.wellFormed, h.accounted.release hstart hstop hreturned.free⟩, ?_,
        hreturned.length, hreturned.limit⟩
      have hcount : mp'.freeCount = mp.freeCount + range.len := hreturned.count
      simp only [State.units, countOf_append, countOf_cons]
      omega
    · rw [hover] at hcall
      cases hcall
    · rw [hnone] at hcall
      cases hcall

/-! ## Whole runs -/

/-- One call keeps the state good and what no call changes. -/
theorem step_good {st st' : State} {op : Op} (h : Good st) (hstep : Step st op st') :
    Good st' ∧ Kept st st' := by
  cases hstep with
  | malloc hsize hcall haddr => exact malloc_good h hsize hcall haddr
  | mallocFail hsize hcall =>
      rcases malloc_cases h.wellFormed hsize with ⟨-, hfail⟩ |
        ⟨before, ent, after, mp'', hentries, -, hcall', -⟩
      · rw [hfail] at hcall
        cases hcall
        exact ⟨h, rfl, rfl, rfl⟩
      · rw [hcall'] at hcall
        have haddr := h.wellFormed.segments.addr_pos ent (by simp [hentries])
        simp only [Option.some.injEq, Prod.mk.injEq] at hcall
        omega
  | malloc3 hcall _ => exact malloc3_good h hcall
  | malloc3Fail hcall =>
      rename_i dSize sSize uSize _ _
      rcases malloc3_cases h.wellFormed dSize sSize uSize with hfail |
        ⟨_, _, a2, mp'', _, _, _, hcall', -, -, -, -, -, -, hc2⟩
      · rw [hfail] at hcall
        cases hcall
        exact ⟨h, rfl, rfl, rfl⟩
      · rw [hcall'] at hcall
        have haddr : 0 < a2 := hc2.start_pos
        simp only [Option.some.injEq, Prod.mk.injEq] at hcall
        omega
  | mfree hstart hstop hcall => exact mfree_good h hstart hstop hcall

theorem run_good {st st' : State} {ops : List Op} (h : Good st) (hrun : Steps Step st ops st') :
    Good st' ∧ Kept st st' := by
  refine hrun.invariant (fun state => Good state ∧ Kept st state) ?_ ⟨h, rfl, rfl, rfl⟩
  rintro state op next ⟨hgood, hkept⟩ hstep
  obtain ⟨hgood', hkept'⟩ := step_good hgood hstep
  exact ⟨hgood', hkept'.units.trans hkept.units, hkept'.length.trans hkept.length,
    hkept'.limit.trans hkept.limit⟩

theorem WellFormed.length_entries_lt {mp : Map} (h : WellFormed mp) :
    mp.entries.length < mp.mMap.length := by
  obtain ⟨behind, hslots⟩ := h.closed
  have hlength := congrArg List.length hslots
  rw [List.length_append, List.length_cons] at hlength
  omega

/-- `malloc` always returns, and finds room exactly when some segment is large enough. -/
theorem malloc_succeeds_iff {mp : Map} (h : WellFormed mp) {size : Nat} (hsize : 0 < size) :
    ∃ addr mp', malloc mp size = some (addr, mp') ∧
      (addr ≠ 0 ↔ ∃ ent ∈ mp.entries, size ≤ ent.mSize) := by
  rcases malloc_cases h hsize with ⟨hsmall, hfail⟩ |
    ⟨before, ent, after, mp', hentries, hfit, hcall, -⟩
  · refine ⟨0, mp, hfail, fun hne => absurd rfl hne, ?_⟩
    rintro ⟨ent, hent, hfit⟩
    have := hsmall ent hent
    omega
  · have hmem : ent ∈ mp.entries := by simp [hentries]
    exact ⟨ent.mAddr, mp', hcall, fun _ => ⟨ent, hmem, hfit⟩,
      fun _ => (h.segments.addr_pos ent hmem).ne'⟩

theorem malloc3_fails_unchanged {mp : Map} (h : WellFormed mp) (dSize sSize uSize : Nat) :
    ∃ addr a mp', malloc3 mp dSize sSize uSize = some (addr, a, mp') ∧
      (addr = 0 → mp' = mp) := by
  rcases malloc3_cases h dSize sSize uSize with hfail |
    ⟨_, _, a2, mp', _, _, _, hcall, -, -, -, -, -, -, hc2⟩
  · exact ⟨0, [], mp, hfail, fun _ => rfl⟩
  · exact ⟨a2, _, mp', hcall, fun hzero => absurd hzero hc2.start_pos.ne'⟩

/-- Returning what `malloc` just handed out needs no slot the map does not have: unless it is
reported as an overflow, which takes a delimiter behind `m_limit`, it restores the set of free
units. -/
theorem mfree_after_malloc {mp mp' : Map} (h : WellFormed mp) {size addr : Nat}
    (hsize : 0 < size) (hcall : malloc mp size = some (addr, mp')) (haddr : addr ≠ 0) :
    ∃ freed mp'', mfree mp' size addr = some (freed, mp'') ∧
      (freed = .done → mp''.free = mp.free) ∧
      (mp.entries.length ≤ mp.mLimit → freed = .done) := by
  rcases malloc_cases h hsize with ⟨-, hfail⟩ |
    ⟨before, ent, after, mpx, hentries, hfit, hcall', hgood, hlimit, hlength, hentries'⟩
  · rw [hfail] at hcall
    cases hcall
    exact absurd rfl haddr
  · rw [hcall'] at hcall
    cases hcall
    have hspans : Spans (before ++ ent :: after) := hentries ▸ h.segments.toSpans
    have hcarved := Spans.carve hspans hfit
    have hfree : mp.free = (Seg.mk ent.mAddr size).units ∪ mp'.free := by
      simp only [Map.free, hentries, hentries', units_occupied]
      exact hcarved.units
    have houtside : Disjoint (Seg.mk ent.mAddr size).units mp'.free := by
      simp only [Map.free, hentries', units_occupied]
      exact hcarved.outside
    -- the rest of the segment abuts the range, or the segment gave its slot up
    have hplace : (∃ rest ∈ mp'.entries, rest.mAddr = ent.mAddr + size) ∨
        mp'.entries.length < mp.entries.length := by
      have hsplit : occupied (before ++ carve size ent :: after) =
          occupied before ++ occupied (carve size ent :: after) := List.filter_append _ _
      by_cases hwhole : (carve size ent).mSize = 0
      · have hshort := List.length_filter_le (fun ent : Mapent => decide (ent.mSize ≠ 0))
          (before ++ after)
        rw [List.filter_append] at hshort
        rw [hentries', hsplit, occupied_cons_empty hwhole, hentries]
        simp only [List.length_append, List.length_cons, occupied] at hshort ⊢
        omega
      · refine Or.inl ⟨carve size ent, ?_, rfl⟩
        rw [hentries', hsplit, occupied_cons hwhole]
        simp
    rcases mfree_cases hgood ⟨hsize, hcarved.start_pos, hcarved.stop_lt, houtside⟩ with
      ⟨mp'', hdone, hreturned, -⟩ | ⟨hover, hfull, hclear⟩ | ⟨-, -, hnot⟩
    · refine ⟨.done, mp'', hdone, fun _ => ?_, fun _ => rfl⟩
      rw [hreturned.free, hfree, Set.union_comm]
    · refine ⟨.overflow, mp', hover, by simp, fun hroom => ?_⟩
      rcases hplace with ⟨rest, hrest, habut⟩ | hshort
      · exact absurd habut (hclear rest hrest).2
      · omega
    · refine absurd ?_ hnot
      rcases hplace with ⟨rest, hrest, habut⟩ | hshort
      · exact Or.inr (Or.inl ⟨rest, hrest, Or.inr habut⟩)
      · have hslots := h.length_entries_lt
        exact Or.inr (Or.inr (by omega))

/-- `mfree` of a held range returns where there is a place for the range or `m_limit` is reached,
and leaves the array otherwise. -/
theorem mfree_returns_iff {st : State} (h : Good st) {whole range : Seg} (hwhole : whole ∈ st.live)
    (hstart : whole.start ≤ range.start) (hstop : range.stop ≤ whole.stop) :
    (∃ freed mp', mfree st.map range.len range.start = some (freed, mp')) ↔
      Fits st.map range ∨ st.map.mLimit ≤ st.map.entries.length := by
  by_cases hempty : range.len = 0
  · exact iff_of_true ⟨.done, st.map, by simp [mfree, hempty]⟩ (Or.inl (Or.inl hempty))
  · have hreturnable := Good.returnable h hwhole hstart hstop (by omega)
    rcases mfree_cases h.wellFormed hreturnable with ⟨mp', hdone, -, hfits⟩ | ⟨hover, hfull, -⟩ |
      ⟨hnone, hbelow, hnot⟩
    · exact iff_of_true ⟨.done, mp', hdone⟩ (Or.inl hfits)
    · exact iff_of_true ⟨.overflow, st.map, hover⟩ (Or.inr hfull)
    · refine iff_of_false (by simp [hnone]) ?_
      rintro (hfits | hfull)
      · exact hnot hfits
      · omega

/-- From any good state, for every sequence of calls: the map stays well formed, the held ranges
stay apart from each other and from the free units, free and held units together stay as many
as they were, `malloc` returns and succeeds exactly when some segment is large enough, and a
failing `malloc3` leaves the map as it was. `mfree` of a held range returns unless it needs a slot
behind the array that `m_limit` still allows, and right after `malloc` it restores the set of free
units unless it reports an overflow, which takes a delimiter behind `m_limit`. -/
theorem resource_map_run {st st' : State} {ops : List Op} (h : Good st)
    (hrun : Steps Step st ops st') :
    WellFormed st'.map ∧
    st'.live.Pairwise (fun range other => Disjoint range.units other.units) ∧
    (∀ range ∈ st'.live, Disjoint range.units st'.map.free) ∧
    st'.map.freeCount + countOf st'.live = st.map.freeCount + countOf st.live ∧
    (∀ size, 0 < size → ∃ addr mp, malloc st'.map size = some (addr, mp) ∧
      (addr ≠ 0 ↔ ∃ ent ∈ st'.map.entries, size ≤ ent.mSize)) ∧
    (∀ dSize sSize uSize, ∃ addr a mp, malloc3 st'.map dSize sSize uSize = some (addr, a, mp) ∧
      (addr = 0 → mp = st'.map)) ∧
    (∀ whole ∈ st'.live, ∀ range : Seg, whole.start ≤ range.start → range.stop ≤ whole.stop →
      ((∃ freed mp, mfree st'.map range.len range.start = some (freed, mp)) ↔
        Fits st'.map range ∨ st'.map.mLimit ≤ st'.map.entries.length)) ∧
    (∀ size addr mp, 0 < size → malloc st'.map size = some (addr, mp) → addr ≠ 0 →
      ∃ freed mp', mfree mp size addr = some (freed, mp') ∧
        (freed = .done → mp'.free = st'.map.free) ∧
        (st'.map.entries.length ≤ st'.map.mLimit → freed = .done)) := by
  obtain ⟨hgood, hkept⟩ := run_good h hrun
  refine ⟨hgood.wellFormed, hgood.accounted.apart, hgood.accounted.outside, hkept.units, ?_, ?_,
    ?_, ?_⟩
  · intro size hsize
    exact malloc_succeeds_iff hgood.wellFormed hsize
  · intro dSize sSize uSize
    exact malloc3_fails_unchanged hgood.wellFormed dSize sSize uSize
  · intro whole hwhole range hstart hstop
    exact mfree_returns_iff hgood hwhole hstart hstop
  · intro size addr mp hsize hcall haddr
    exact mfree_after_malloc hgood.wellFormed hsize hcall haddr

/-- A map of ten units at address 5 with one slot to spare, and `m_limit` behind the last slot, where
the swap map has it. -/
def tenUnits : Map := ⟨[⟨10, 5⟩, closing, closing], 3⟩

theorem ten_units_good : Good ⟨tenUnits, []⟩ := by
  have hents : Segments [⟨10, 5⟩] := by
    refine ⟨⟨?_, ?_, ?_⟩, ?_⟩ <;> simp [Separated]
  have hslots : tenUnits.mMap = [⟨10, 5⟩] ++ closing :: [closing] := rfl
  exact ⟨WellFormed.of_slots hents hslots, by simp, by simp, by simp, by simp⟩

/-- A run that allocates four units, then three pieces, and returns two units from the middle of
the first allocation. -/
theorem resource_map_run_ten_units :
    ∃ st', Steps Step ⟨tenUnits, []⟩ [.malloc 4, .malloc3 2 0 1, .mfree ⟨6, 2⟩] st' ∧
      WellFormed st'.map ∧ st'.map.freeCount + countOf st'.live = 10 := by
  have hrun : Steps Step ⟨tenUnits, []⟩ [.malloc 4, .malloc3 2 0 1, .mfree ⟨6, 2⟩]
      ⟨⟨[⟨2, 6⟩, ⟨3, 12⟩, closing], 3⟩,
        [⟨11, 1⟩, ⟨11, 0⟩, ⟨9, 2⟩] ++ (remnants ⟨5, 4⟩ ⟨6, 2⟩ ++ [])⟩ := by
    have hmalloc : Step ⟨tenUnits, []⟩ (.malloc 4) ⟨⟨[⟨6, 9⟩, closing, closing], 3⟩, [⟨5, 4⟩]⟩ :=
      .malloc (by decide) rfl (by decide)
    have hmalloc3 : Step ⟨⟨[⟨6, 9⟩, closing, closing], 3⟩, [⟨5, 4⟩]⟩ (.malloc3 2 0 1)
        ⟨⟨[⟨3, 12⟩, closing, closing], 3⟩, [⟨11, 1⟩, ⟨11, 0⟩, ⟨9, 2⟩] ++ ⟨5, 4⟩ :: []⟩ :=
      .malloc3 rfl (by decide)
    have hstart : (Seg.mk 5 4).start ≤ (Seg.mk 6 2).start := by decide
    have hstop : (Seg.mk 6 2).stop ≤ (Seg.mk 5 4).stop := by decide
    exact .cons hmalloc (.cons hmalloc3 (.cons (.mfree hstart hstop rfl) (.refl _)))
  have h := resource_map_run ten_units_good hrun
  exact ⟨_, hrun, h.1, h.2.2.2.1⟩

/-- Sorted segments with a slot of size 0 behind them and nothing else: the addresses may be 0, the
segments may end at the top of the address space, and the slot of size 0 may hold an address. -/
def Sorted (mp : Map) : Prop :=
  Separated (mp.entries.map Mapent.seg) ∧ mp.entries.length < mp.mMap.length

/-- On a map that is only `Sorted` the calls go wrong. A segment at address 0 is handed out as a
failure; the address in the closing slot makes `malloc3` revive old slots, so that units appear
from nowhere; and a segment that ends at the top of the address space lets `malloc3` report a
failure after changing the map. -/
theorem sorted_map_not_enough :
    (Sorted ⟨[⟨5, 0⟩, closing], 1⟩ ∧
      malloc ⟨[⟨5, 0⟩, closing], 1⟩ 3 = some (0, ⟨[⟨2, 3⟩, closing], 1⟩)) ∧
    (Sorted ⟨[⟨6, 10⟩, ⟨0, 7⟩, ⟨3, 99⟩, closing], 3⟩ ∧
      ∃ mp', malloc3 ⟨[⟨6, 10⟩, ⟨0, 7⟩, ⟨3, 99⟩, closing], 3⟩ 5 0 1 =
          some (15, [10, 15, 15], mp') ∧
        mp'.freeCount + (5 + 0 + 1) = 9 ∧
        Map.freeCount ⟨[⟨6, 10⟩, ⟨0, 7⟩, ⟨3, 99⟩, closing], 3⟩ = 6) ∧
    (Sorted ⟨[⟨16, 2 ^ 32 - 16⟩, closing], 1⟩ ∧
      ∃ mp', malloc3 ⟨[⟨16, 2 ^ 32 - 16⟩, closing], 1⟩ 16 0 0 =
          some (0, [2 ^ 32 - 16, 0, 0], mp') ∧
        mp' ≠ ⟨[⟨16, 2 ^ 32 - 16⟩, closing], 1⟩) := by
  refine ⟨⟨?_, rfl⟩, ⟨?_, _, rfl, rfl, rfl⟩, ⟨?_, _, rfl, by decide⟩⟩ <;>
    exact ⟨List.pairwise_singleton _ _, by decide⟩

end DiscoBsd.Rmap
