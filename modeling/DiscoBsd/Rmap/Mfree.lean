import Mathlib.Data.List.TakeWhile
import DiscoBsd.Rmap.WellFormed

/-!
# Returning a range

`mfree_cases` says everything `mfree` can do to a well-formed map when the returned range
shares no unit with it. Separation decides each of the four joins: the range abuts at most
one segment on each side, and after joining with it nothing else abuts. Only a range that
abuts nothing needs a slot of its own: only then can the map overflow, or, where `m_limit` lies
behind the array, can `mfree` leave the array.
-/

namespace DiscoBsd.Rmap

open Lib

/-- A range outside the map that may be returned to it. -/
structure Returnable (mp : Map) (range : Seg) : Prop where
  len_pos : 0 < range.len
  start_pos : 0 < range.start
  stop_lt : range.stop < 2 ^ 32
  outside : Disjoint range.units mp.free

/-- There is a place for the range: it is empty, it abuts a segment, or a slot is left for it and for
the closing slot. -/
def Fits (mp : Map) (range : Seg) : Prop :=
  range.len = 0 ∨
    (∃ ent ∈ mp.entries, ent.mAddr + ent.mSize = range.start ∨ ent.mAddr = range.stop) ∨
    mp.entries.length + 1 < mp.mMap.length

/-- `mfree` put the range back: the map is good, keeps its slots and its limit, and has gained
exactly the units of the range. -/
structure Returned (mp : Map) (range : Seg) (mp' : Map) : Prop where
  wellFormed : WellFormed mp'
  limit : mp'.mLimit = mp.mLimit
  length : mp'.mMap.length = mp.mMap.length
  free : mp'.free = mp.free ∪ range.units
  count : mp'.freeCount = mp.freeCount + range.len

/-- A good list splits into the segments that end at or before a disjoint range and those that
start at or after its end. -/
theorem split_around {mp : Map} (h : WellFormed mp) {range : Seg} (hrange : Returnable mp range) :
    ∃ before after, mp.entries = before ++ after ∧
      (∀ ent ∈ before, ent.mAddr ≤ range.start ∧ ent.mAddr + ent.mSize ≤ range.start) ∧
      (∀ ent ∈ after, range.start < ent.mAddr ∧ range.stop ≤ ent.mAddr) := by
  have hdisj : ∀ ent ∈ mp.entries, Disjoint range.units ent.seg.units := by
    have := disjoint_unitsOf.mp hrange.outside
    intro ent hent
    exact this ent.seg (List.mem_map_of_mem hent)
  refine ⟨mp.entries.takeWhile (·.mAddr ≤ range.start),
    mp.entries.dropWhile (·.mAddr ≤ range.start), List.takeWhile_append_dropWhile.symm, ?_, ?_⟩
  · intro ent hent
    have hle : ent.mAddr ≤ range.start := by simpa using List.mem_takeWhile_imp hent
    have hmem : ent ∈ mp.entries := List.takeWhile_subset _ hent
    exact ⟨hle, Seg.stop_le_start hrange.len_pos (hdisj ent hmem).symm hle⟩
  · intro ent hent
    have hmem : ent ∈ mp.entries := (List.dropWhile_sublist _).subset hent
    have hlt : range.start < ent.mAddr := by
      cases hdrop : mp.entries.dropWhile (·.mAddr ≤ range.start) with
      | nil => simp [hdrop] at hent
      | cons first rest =>
          have hfirst : range.start < first.mAddr := by
            have hne : mp.entries.dropWhile (·.mAddr ≤ range.start) ≠ [] := by simp [hdrop]
            have hnot := List.head_dropWhile_not _ hne
            simpa [hdrop] using hnot
          rw [hdrop] at hent
          rcases List.mem_cons.mp hent with rfl | hent
          · exact hfirst
          · have hcons : Spans ([] ++ first :: rest) :=
              hdrop ▸ h.segments.sublist (List.dropWhile_sublist _)
            have := hcons.stop_lt_next ent hent
            omega
    exact ⟨hlt, Seg.stop_le_start (h.segments.size_pos ent hmem) (hdisj ent hmem) hlt.le⟩

/-- The skip loop stops exactly between the two sides of the range. -/
theorem skip_loop_eq {before after : List Mapent} (behind : List Mapent) {addr : Nat}
    (hpos : ∀ ent ∈ before, 0 < ent.mSize) (hbefore : ∀ ent ∈ before, ent.mAddr ≤ addr)
    (hafter : ∀ ent ∈ after, addr < ent.mAddr) :
    (before ++ (after ++ closing :: behind)).takeWhile (startsBefore addr) = before ∧
      (before ++ (after ++ closing :: behind)).dropWhile (startsBefore addr) =
        after ++ closing :: behind := by
  have hskip : ∀ ent ∈ before, startsBefore addr ent = true := by
    intro ent hent
    have := hpos ent hent
    have := hbefore ent hent
    simp only [startsBefore, ne_eq, Bool.and_eq_true, decide_eq_true_eq]
    omega
  rw [List.takeWhile_append_of_pos hskip, List.dropWhile_append_of_pos hskip]
  cases after with
  | nil => simp [startsBefore, closing]
  | cons bp after =>
      have hstop : startsBefore addr bp = false := by
        have := hafter bp List.mem_cons_self
        simp only [startsBefore, Bool.and_eq_false_iff, decide_eq_false_iff_not]
        omega
      simp [hstop]

/-- Putting one segment in the place of the ones the range joins returns the range. -/
theorem Returned.of_slots {mp mp' : Map} {range : Seg} {before after behind : List Mapent}
    (ent : Mapent) (middle : List Mapent) (h : WellFormed mp) (hrange : Returnable mp range)
    (hentries : mp.entries = before ++ middle ++ after)
    (hslots : mp'.mMap = before ++ ent :: (after ++ closing :: behind))
    (hlength : mp'.mMap.length = mp.mMap.length) (hlimit : mp'.mLimit = mp.mLimit)
    (hunits : ent.seg.units = unitsOf (middle.map Mapent.seg) ∪ range.units)
    (hcount : ent.mSize = countOf (middle.map Mapent.seg) + range.len)
    (haddr : 0 < ent.mAddr) (hstop : ent.mAddr + ent.mSize < 2 ^ 32)
    (hbefore : ∀ prev ∈ before, prev.mAddr + prev.mSize < ent.mAddr)
    (hafter : ∀ next ∈ after, ent.mAddr + ent.mSize < next.mAddr) :
    Returned mp range mp' := by
  have hsize : 0 < ent.mSize := by
    have := hrange.len_pos
    omega
  have hpos : ∀ other ∈ before ++ ent :: after, 0 < other.mSize := by
    intro other hother
    have hold := h.segments.size_pos
    rw [hentries] at hold
    rcases List.mem_append.mp hother with hother | hother
    · exact hold other (by simp [hother])
    · rcases List.mem_cons.mp hother with rfl | hother
      · exact hsize
      · exact hold other (by simp [hother])
  have hgood : Segments (before ++ ent :: after) :=
    ⟨Spans.replace middle (hentries ▸ h.segments.toSpans) haddr hstop hbefore hafter, hpos⟩
  have hslots' : mp'.mMap = (before ++ ent :: after) ++ closing :: behind := by simp [hslots]
  have hentries' := Map.entries_eq hgood.size_pos hslots'
  refine ⟨WellFormed.of_slots hgood hslots', hlimit, hlength, ?_, ?_⟩
  · simp only [Map.free, hentries, hentries', List.map_append, List.map_cons, unitsOf_append,
      unitsOf_cons, hunits]
    ext unit
    simp only [Set.mem_union]
    tauto
  · simp only [Map.freeCount, hentries, hentries', List.map_append, List.map_cons,
      countOf_append, countOf_cons, Mapent.seg_len, hcount]
    omega

theorem units_join (start len more : Nat) :
    (Seg.mk start (len + more)).units =
      (Seg.mk start len).units ∪ (Seg.mk (start + len) more).units := by
  have h := Seg.units_split start len (len + more) (Nat.le_add_right _ _)
  rwa [Nat.add_sub_cancel_left] at h

/-- A range that abuts nothing does not fit without a slot to spare. -/
theorem not_fits {mp : Map} {range : Seg} (hpos : 0 < range.len)
    (habut : ∀ ent ∈ mp.entries, ent.mAddr + ent.mSize ≠ range.start ∧ ent.mAddr ≠ range.stop)
    (hfull : mp.mMap.length ≤ mp.entries.length + 1) : ¬ Fits mp range := by
  rintro (hempty | ⟨ent, hent, hstop | hstart⟩ | hslot)
  · exact hpos.ne' hempty
  · exact (habut ent hent).1 hstop
  · exact (habut ent hent).2 hstart
  · omega

/-- A range that abuts no segment on its left: it joins the segment on its right, or takes a
slot of its own, or `m_limit` is reached, or the array ends below `m_limit`. -/
theorem mfree_right_cases {mp : Map} (h : WellFormed mp) {range : Seg}
    (hrange : Returnable mp range) {before after behind : List Mapent}
    (hentries : mp.entries = before ++ after)
    (hslots : mp.mMap = before ++ (after ++ closing :: behind))
    (hbefore : ∀ ent ∈ before, ent.mAddr + ent.mSize < range.start)
    (hafter : ∀ ent ∈ after, range.start < ent.mAddr ∧ range.stop ≤ ent.mAddr) :
    (∃ slots, mfreeRight mp.mLimit range.len range.start before.length
        (after ++ closing :: behind) = some (.done, slots) ∧
      Returned mp range { mp with mMap := before ++ slots } ∧ Fits mp range) ∨
    (mfreeRight mp.mLimit range.len range.start before.length (after ++ closing :: behind) =
        some (.overflow, after ++ closing :: behind) ∧
      mp.mLimit ≤ mp.entries.length ∧ ∀ ent ∈ after, ent.mAddr ≠ range.stop) ∨
    (mfreeRight mp.mLimit range.len range.start before.length (after ++ closing :: behind) = none ∧
      mp.entries.length < mp.mLimit ∧ ¬ Fits mp range) := by
  have hsum : sizeAdd range.start range.len = range.stop := size_add_eq hrange.stop_lt
  have hgood : Segments (before ++ after) := hentries ▸ h.segments
  have hpos : ∀ ent ∈ after, 0 < ent.mSize :=
    fun ent hent => hgood.size_pos ent (List.mem_append_right _ hent)
  by_cases habut : ∃ ent ∈ after, ent.mAddr = range.stop
  · -- only the first segment on the right can start where the range ends
    obtain ⟨bp, rest, rfl, hbp⟩ : ∃ bp rest, after = bp :: rest ∧ bp.mAddr = range.stop := by
      obtain ⟨ent, hent, heq⟩ := habut
      cases after with
      | nil => simp at hent
      | cons bp rest =>
          refine ⟨bp, rest, rfl, ?_⟩
          rcases List.mem_cons.mp hent with rfl | hmem
          · exact heq
          · have := hgood.stop_lt_next ent hmem
            have := (hafter bp List.mem_cons_self).2
            omega
    have hbpPos := hpos bp List.mem_cons_self
    have hbpStop := hgood.stop_lt bp (by simp)
    have hjoin : sizeAdd bp.mSize range.len = range.len + bp.mSize := by
      rw [size_add_eq, Nat.add_comm]
      simp only [Seg.stop] at hbp
      omega
    refine Or.inl ⟨⟨range.len + bp.mSize, range.start⟩ :: (rest ++ closing :: behind), ?_, ?_,
      Or.inr (Or.inl ⟨bp, by simp [hentries], Or.inr hbp⟩)⟩
    · rw [List.cons_append, mfreeRight, if_pos ⟨hbpPos.ne', by rw [hsum, hbp]⟩, hjoin]
    · have hunits : (Mapent.mk (range.len + bp.mSize) range.start).seg.units =
          unitsOf ([bp].map Mapent.seg) ∪ range.units := by
        have hbpSeg : bp.seg = ⟨range.start + range.len, bp.mSize⟩ := by
          rw [Mapent.seg, hbp]
          rfl
        rw [Mapent.seg, units_join, List.map_cons, List.map_nil, unitsOf_cons, unitsOf_nil,
          Set.union_empty, Set.union_comm, hbpSeg]
      refine Returned.of_slots _ [bp] h hrange (by simpa using hentries) rfl ?_ rfl hunits
        (by simp [Nat.add_comm]) hrange.start_pos ?_ hbefore ?_
      · rw [hslots]
        simp
      · simp only [Seg.stop] at hbp
        show range.start + (range.len + bp.mSize) < 2 ^ 32
        omega
      · intro next hnext
        have := hgood.stop_lt_next next hnext
        simp only [Seg.stop] at hbp
        show range.start + (range.len + bp.mSize) < next.mAddr
        omega
  · -- nothing abuts: the range needs a slot, which the closing slot makes room for
    have hclear : ∀ ent ∈ after, range.stop < ent.mAddr := by
      intro ent hent
      have hle := (hafter ent hent).2
      have hne : ent.mAddr ≠ range.stop := fun heq => habut ⟨ent, hent, heq⟩
      omega
    have hlive : ((after ++ closing :: behind).takeWhile (·.mSize ≠ 0)) = after :=
      take_while_entries hpos behind
    have hscan : mfreeRight mp.mLimit range.len range.start before.length
        (after ++ closing :: behind) =
        if mp.mLimit < before.length + after.length + 1 then
          some (.overflow, after ++ closing :: behind)
        else (moveUp ⟨range.len, range.start⟩ (after ++ closing :: behind)).map
          fun slots => (.done, slots) := by
      cases after with
      | nil => simp [mfreeRight, closing, Option.map_eq_bind]
      | cons bp rest =>
          have hfar : ¬ (bp.mSize ≠ 0 ∧ bp.mAddr ≤ sizeAdd range.start range.len) := by
            have := hclear bp List.mem_cons_self
            rw [hsum]
            omega
          rw [List.cons_append] at hlive ⊢
          rw [mfreeRight, if_neg hfar, hlive]
          simp [Option.map_eq_bind]
    have hlenEntries : mp.entries.length = before.length + after.length := by
      rw [hentries, List.length_append]
    have hlenSlots : mp.mMap.length = mp.entries.length + 1 + behind.length := by
      rw [hslots, hlenEntries]
      simp only [List.length_append, List.length_cons]
      omega
    by_cases hroom : mp.mLimit < before.length + after.length + 1
    · exact Or.inr (Or.inl ⟨by rw [hscan, if_pos hroom], by omega,
        fun ent hent => (hclear ent hent).ne'⟩)
    · rw [if_neg hroom] at hscan
      cases behind with
      | nil =>
          refine Or.inr (Or.inr ⟨by rw [hscan, move_up_none _ hpos]; rfl, by omega, ?_⟩)
          have hlen := hrange.len_pos
          refine not_fits hlen (fun ent hent => ?_) hlenSlots.le
          rw [hentries] at hent
          rcases List.mem_append.mp hent with hent | hent
          · have hleft := hbefore ent hent
            simp only [Seg.stop]
            omega
          · have hright := hclear ent hent
            have hpos' := hpos ent hent
            simp only [Seg.stop] at hright ⊢
            omega
      | cons last behind =>
        refine Or.inl ⟨⟨range.len, range.start⟩ :: (after ++ closing :: behind),
          by rw [hscan, move_up_eq _ hpos]; rfl, ?_, Or.inr (Or.inr ?_)⟩
        · refine Returned.of_slots ⟨range.len, range.start⟩ [] h hrange
            (by simpa using hentries) rfl ?_ rfl (by simp [Mapent.seg]) (by simp) hrange.start_pos
            hrange.stop_lt hbefore hclear
          rw [hslots]
          simp only [List.length_append, List.length_cons]
          omega
        · simp only [List.length_cons] at hlenSlots
          omega

/-- What `mfree` does once it has found a segment on the left that ends where the range starts:
the slot on the right decides. -/
theorem mfree_left_step {mp : Map} (h : WellFormed mp) {range : Seg}
    (hrange : Returnable mp range) {before after rest : List Mapent} {ep bp : Mapent}
    (hentries : mp.entries = before ++ ep :: after)
    (hep : ep.mAddr + ep.mSize = range.start)
    (htake : mp.mMap.takeWhile (startsBefore range.start) = before ++ [ep])
    (hdrop : mp.mMap.dropWhile (startsBefore range.start) = bp :: rest) :
    mfree mp range.len range.start =
      if bp.mSize ≠ 0 ∧ bp.mAddr ≤ range.stop then
        (moveDown (bp :: rest)).map fun slots => (.done, { mp with
          mMap := before ++ ⟨sizeAdd (ep.mSize + range.len) bp.mSize, ep.mAddr⟩ :: slots })
      else some (.done, { mp with
        mMap := before ++ ⟨ep.mSize + range.len, ep.mAddr⟩ :: bp :: rest }) := by
  have hgood : Segments (before ++ ep :: after) := hentries ▸ h.segments
  have hstop : range.start + range.len < 2 ^ 32 := hrange.stop_lt
  have hsum : sizeAdd range.start range.len = range.stop := size_add_eq hrange.stop_lt
  have hepEnd : sizeAdd ep.mAddr ep.mSize = range.start := by
    rw [size_add_eq (hgood.stop_lt ep (by simp)), hep]
  have hjoin : sizeAdd ep.mSize range.len = ep.mSize + range.len := size_add_eq (by omega)
  simp only [mfree, hrange.len_pos.ne', hrange.start_pos.ne', if_false, htake, hdrop,
    List.getLast?_append, List.getLast?_singleton, Option.some_or, hepEnd, le_refl, if_true,
    hsum, hjoin, List.dropLast_concat]
  split
  · simp [Option.map_eq_bind]
  · rfl

/-- A range that abuts segments on both sides closes the gap between them. -/
theorem mfree_join_both {mp : Map} (h : WellFormed mp) {range : Seg}
    (hrange : Returnable mp range) {before rest behind : List Mapent} {ep bp : Mapent}
    (hentries : mp.entries = before ++ ep :: bp :: rest)
    (hslots : mp.mMap = before ++ ep :: bp :: (rest ++ closing :: behind))
    (hep : ep.mAddr + ep.mSize = range.start) (hbp : bp.mAddr = range.stop)
    (htake : mp.mMap.takeWhile (startsBefore range.start) = before ++ [ep])
    (hdrop : mp.mMap.dropWhile (startsBefore range.start) = bp :: (rest ++ closing :: behind)) :
    ∃ mp', mfree mp range.len range.start = some (.done, mp') ∧ Returned mp range mp' := by
  have hgood : Segments (before ++ ep :: bp :: rest) := hentries ▸ h.segments
  have hlast : Segments ((before ++ [ep]) ++ bp :: rest) := by simpa using hgood
  have hbpStop := hgood.stop_lt bp (by simp)
  have hbpPos := hgood.size_pos bp (by simp)
  have hposRest : ∀ ent ∈ rest, 0 < ent.mSize :=
    fun ent hent => hgood.size_pos ent (by simp [hent])
  have hbpStart : bp.mAddr = range.start + range.len := hbp
  have hall : sizeAdd (ep.mSize + range.len) bp.mSize = ep.mSize + (range.len + bp.mSize) := by
    rw [size_add_eq, Nat.add_assoc]
    omega
  refine ⟨{ mp with mMap := before ++ ⟨ep.mSize + (range.len + bp.mSize), ep.mAddr⟩ ::
    (rest ++ closing :: closing :: behind) }, ?_, ?_⟩
  · rw [mfree_left_step h hrange hentries hep htake hdrop, if_pos ⟨hbpPos.ne', hbp.le⟩,
      move_down_eq _ hposRest, hall]
    rfl
  · have hbpSeg : bp.seg = ⟨ep.mAddr + ep.mSize + range.len, bp.mSize⟩ := by
      rw [Mapent.seg, hbpStart, hep]
    have hunits : (Mapent.mk (ep.mSize + (range.len + bp.mSize)) ep.mAddr).seg.units =
        unitsOf ([ep, bp].map Mapent.seg) ∪ range.units := by
      rw [Mapent.seg, units_join, units_join, ← hbpSeg, hep]
      simp only [List.map_cons, List.map_nil, unitsOf_cons, unitsOf_nil, Set.union_empty]
      rw [Set.union_assoc, Set.union_comm range.units]
      rfl
    refine Returned.of_slots _ [ep, bp] h hrange (by simpa using hentries) rfl ?_ rfl hunits
      ?_ (hgood.addr_pos ep (by simp)) ?_ hgood.stop_lt_addr ?_
    · rw [hslots]
      simp only [List.length_append, List.length_cons]
      omega
    · simp only [List.map_cons, List.map_nil, countOf_cons, countOf_nil, Mapent.seg_len]
      omega
    · show ep.mAddr + (ep.mSize + (range.len + bp.mSize)) < 2 ^ 32
      omega
    · intro next hnext
      show ep.mAddr + (ep.mSize + (range.len + bp.mSize)) < next.mAddr
      have := hlast.stop_lt_next next hnext
      omega

/-- A range that abuts only the segment on its left extends it. -/
theorem mfree_join_left {mp : Map} (h : WellFormed mp) {range : Seg}
    (hrange : Returnable mp range) {before after behind : List Mapent} {ep : Mapent}
    (hentries : mp.entries = before ++ ep :: after)
    (hslots : mp.mMap = before ++ ep :: (after ++ closing :: behind))
    (hep : ep.mAddr + ep.mSize = range.start) (hclear : ∀ ent ∈ after, range.stop < ent.mAddr)
    (htake : mp.mMap.takeWhile (startsBefore range.start) = before ++ [ep])
    (hdrop : mp.mMap.dropWhile (startsBefore range.start) = after ++ closing :: behind) :
    ∃ mp', mfree mp range.len range.start = some (.done, mp') ∧ Returned mp range mp' := by
  have hgood : Segments (before ++ ep :: after) := hentries ▸ h.segments
  have hstop : range.start + range.len < 2 ^ 32 := hrange.stop_lt
  refine ⟨{ mp with mMap := before ++ ⟨ep.mSize + range.len, ep.mAddr⟩ ::
    (after ++ closing :: behind) }, ?_, ?_⟩
  · cases after with
    | nil =>
        rw [mfree_left_step h hrange hentries hep htake hdrop, if_neg (by simp [closing])]
        rfl
    | cons bp rest =>
        have hfar := hclear bp List.mem_cons_self
        rw [mfree_left_step h hrange hentries hep htake hdrop,
          if_neg fun hnear => absurd hnear.2 (by omega)]
        rfl
  · have hunits : (Mapent.mk (ep.mSize + range.len) ep.mAddr).seg.units =
        unitsOf ([ep].map Mapent.seg) ∪ range.units := by
      rw [Mapent.seg, units_join, hep]
      simp [Mapent.seg]
    refine Returned.of_slots _ [ep] h hrange (by simpa using hentries) rfl ?_ rfl hunits ?_
      (hgood.addr_pos ep (by simp)) ?_ hgood.stop_lt_addr ?_
    · rw [hslots]
      simp
    · simp
    · show ep.mAddr + (ep.mSize + range.len) < 2 ^ 32
      omega
    · intro next hnext
      have hgap : range.start + range.len < next.mAddr := hclear next hnext
      show ep.mAddr + (ep.mSize + range.len) < next.mAddr
      omega

/-- A range that abuts the segment on its left is always returned. -/
theorem mfree_left {mp : Map} (h : WellFormed mp) {range : Seg}
    (hrange : Returnable mp range) {before after behind : List Mapent} {ep : Mapent}
    (hentries : mp.entries = before ++ ep :: after)
    (hslots : mp.mMap = before ++ ep :: (after ++ closing :: behind))
    (hep : ep.mAddr + ep.mSize = range.start)
    (htake : mp.mMap.takeWhile (startsBefore range.start) = before ++ [ep])
    (hdrop : mp.mMap.dropWhile (startsBefore range.start) = after ++ closing :: behind)
    (hafter : ∀ ent ∈ after, range.stop ≤ ent.mAddr) :
    ∃ mp', mfree mp range.len range.start = some (.done, mp') ∧ Returned mp range mp' := by
  cases after with
  | nil => exact mfree_join_left h hrange hentries hslots hep (by simp) htake hdrop
  | cons bp rest =>
      have hle := hafter bp List.mem_cons_self
      by_cases hbp : bp.mAddr = range.stop
      · exact mfree_join_both h hrange hentries hslots hep hbp htake hdrop
      · refine mfree_join_left h hrange hentries hslots hep ?_ htake hdrop
        intro ent hent
        rcases List.mem_cons.mp hent with rfl | hent
        · omega
        · have hlast : Segments ((before ++ [ep]) ++ bp :: rest) := by
            simpa [hentries] using h.segments
          have := hlast.stop_lt_next ent hent
          omega

/-- A range that abuts no segment on its left goes to the slots behind it. -/
theorem mfree_right_step {mp : Map} {range : Seg} {before after rest : List Mapent}
    (hlen : 0 < range.len) (hstart : 0 < range.start) (hgood : Segments (before ++ after))
    (htake : mp.mMap.takeWhile (startsBefore range.start) = before)
    (hdrop : mp.mMap.dropWhile (startsBefore range.start) = after ++ closing :: rest)
    (hclear : ∀ ent ∈ before, ent.mAddr + ent.mSize < range.start) :
    mfree mp range.len range.start =
      (mfreeRight mp.mLimit range.len range.start before.length (after ++ closing :: rest)).map
        fun (freed, slots) => (freed, { mp with mMap := before ++ slots }) := by
  have hlen := hlen.ne'
  have hstart := hstart.ne'
  rcases List.eq_nil_or_concat before with rfl | ⟨front, ep, rfl⟩
  · simp [mfree, hlen, hstart, htake, hdrop, Option.map_eq_bind]
  · have hfar : ¬ range.start ≤ sizeAdd ep.mAddr ep.mSize := by
      rw [size_add_eq (hgood.stop_lt ep (by simp))]
      have := hclear ep (by simp)
      omega
    cases hrest : after ++ closing :: rest with
    | nil => simp at hrest
    | cons bp rest =>
        rw [hrest] at hdrop
        simp [mfree, hlen, hstart, htake, hdrop, hfar, Option.map_eq_bind]

/-- Everything `mfree` can do with a range that shares no unit with a well-formed map. -/
theorem mfree_cases {mp : Map} (h : WellFormed mp) {range : Seg} (hrange : Returnable mp range) :
    (∃ mp', mfree mp range.len range.start = some (.done, mp') ∧ Returned mp range mp' ∧
      Fits mp range) ∨
    (mfree mp range.len range.start = some (.overflow, mp) ∧
      mp.mLimit ≤ mp.entries.length ∧
      ∀ ent ∈ mp.entries, ent.mAddr + ent.mSize ≠ range.start ∧ ent.mAddr ≠ range.stop) ∨
    (mfree mp range.len range.start = none ∧ mp.entries.length < mp.mLimit ∧ ¬ Fits mp range) := by
  obtain ⟨before, after, hentries, hbefore, hafter⟩ := split_around h hrange
  obtain ⟨behind, hslots⟩ := h.closed
  rw [hentries, List.append_assoc] at hslots
  have hgood : Segments (before ++ after) := hentries ▸ h.segments
  have hskip := skip_loop_eq behind
    (fun ent hent => hgood.size_pos ent (List.mem_append_left _ hent))
    (fun ent hent => (hbefore ent hent).1) (fun ent hent => (hafter ent hent).1)
  rw [← hslots] at hskip
  by_cases hleft : ∃ front ep, before = front ++ [ep] ∧ ep.mAddr + ep.mSize = range.start
  · obtain ⟨front, ep, rfl, hep⟩ := hleft
    obtain ⟨mp', hdone, hreturned⟩ := mfree_left h hrange (by simpa using hentries)
      (by simpa using hslots) hep hskip.1 hskip.2 fun ent hent => (hafter ent hent).2
    exact Or.inl ⟨mp', hdone, hreturned,
      Or.inr (Or.inl ⟨ep, by simp [hentries], Or.inl hep⟩)⟩
  · have hclear : ∀ ent ∈ before, ent.mAddr + ent.mSize < range.start := by
      intro ent hent
      have hle := (hbefore ent hent).2
      rcases List.eq_nil_or_concat before with rfl | ⟨front, ep, rfl⟩
      · simp at hent
      · have hlast : ep.mAddr + ep.mSize < range.start := by
          have hne : ep.mAddr + ep.mSize ≠ range.start := fun heq =>
            hleft ⟨front, ep, List.concat_eq_append, heq⟩
          have := (hbefore ep (by simp)).2
          omega
        rw [List.concat_eq_append, List.mem_append, List.mem_singleton] at hent
        rcases hent with hent | rfl
        · have hsides : Segments (front ++ ep :: after) := by simpa using hgood
          have := hsides.stop_lt_addr ent hent
          omega
        · exact hlast
    have hstep := mfree_right_step hrange.len_pos hrange.start_pos hgood hskip.1 hskip.2 hclear
    rcases mfree_right_cases h hrange hentries hslots hclear hafter with
      ⟨slots, hright, hreturned, hfits⟩ | ⟨hright, hfull, hnoabut⟩ | ⟨hright, hbelow, hnot⟩
    · exact Or.inl ⟨_, by rw [hstep, hright]; rfl, hreturned, hfits⟩
    · refine Or.inr (Or.inl ⟨?_, hfull, ?_⟩)
      · rw [hstep, hright]
        simp [← hslots]
      · intro ent hent
        rw [hentries] at hent
        rcases List.mem_append.mp hent with hent | hent
        · have := hclear ent hent
          have hstop : range.start ≤ range.stop := Nat.le_add_right _ _
          omega
        · have hne := hnoabut ent hent
          have := (hafter ent hent).1
          omega
    · exact Or.inr (Or.inr ⟨by rw [hstep, hright]; rfl, hbelow, hnot⟩)

end DiscoBsd.Rmap
