import DiscoBsd.Rmap.WellFormed

/-!
# First-fit allocation

`malloc_cases` says everything `malloc` can do to a well-formed map: either every segment
is too small and nothing changes, or the first segment that is large enough loses the
requested units from its front, and disappears when nothing is left of it.
-/

namespace DiscoBsd.Rmap

open Lib

/-- The scan passes over segments that are too small. -/
theorem malloc_scan_small {size : Nat} {ents : List Mapent} (slots : List Mapent)
    (hpos : ∀ ent ∈ ents, 0 < ent.mSize) (hsmall : ∀ ent ∈ ents, ent.mSize < size) :
    mallocScan size (ents ++ slots) =
      (mallocScan size slots).map fun (addr, rest) => (addr, ents ++ rest) := by
  induction ents with
  | nil =>
      rw [List.nil_append]
      cases mallocScan size slots <;> rfl
  | cons ent ents ih =>
      have hne : ent.mSize ≠ 0 := (hpos ent List.mem_cons_self).ne'
      have hlt : ¬ size ≤ ent.mSize := Nat.not_le.mpr (hsmall ent List.mem_cons_self)
      have hrest := ih (fun other hother => hpos other (List.mem_cons_of_mem _ hother))
        (fun other hother => hsmall other (List.mem_cons_of_mem _ hother))
      rw [List.cons_append, mallocScan, if_neg hne, if_neg hlt, hrest]
      cases mallocScan size slots <;> rfl

/-- The scan takes from the first segment that is large enough. -/
theorem malloc_scan_fit {size : Nat} {ent : Mapent} {after : List Mapent} (behind : List Mapent)
    (hsize : 0 < size) (hfit : size ≤ ent.mSize) (hstop : ent.mAddr + ent.mSize < 2 ^ 32)
    (hpos : ∀ next ∈ after, 0 < next.mSize) :
    ∃ behind', mallocScan size (ent :: (after ++ closing :: behind)) =
        some (ent.mAddr, occupied (carve size ent :: after) ++ closing :: behind') ∧
      (occupied (carve size ent :: after) ++ closing :: behind').length =
        (ent :: (after ++ closing :: behind)).length := by
  have hne : ent.mSize ≠ 0 := by omega
  rw [mallocScan, if_neg hne, if_pos hfit]
  by_cases hwhole : ent.mSize = size
  · have hgone : occupied (carve size ent :: after) = after := by
      rw [occupied_cons_empty (by simp [carve, hwhole]), occupied_eq_self hpos]
    refine ⟨closing :: behind, ?_, ?_⟩
    · rw [if_neg (by omega), move_down_eq _ hpos, hgone]
      rfl
    · rw [hgone]
      simp only [List.length_append, List.length_cons]
      omega
  · have hleft : occupied (carve size ent :: after) = carve size ent :: after := by
      have hne' : (carve size ent).mSize ≠ 0 := by
        show ent.mSize - size ≠ 0
        omega
      rw [occupied_cons hne', occupied_eq_self hpos]
    refine ⟨behind, ?_, ?_⟩
    · rw [if_pos (by omega), size_add_eq (by omega), hleft]
      rfl
    · rw [hleft]
      simp

/-- Everything `malloc` can do to a well-formed map. -/
theorem malloc_cases {mp : Map} (h : WellFormed mp) {size : Nat} (hsize : 0 < size) :
    ((∀ ent ∈ mp.entries, ent.mSize < size) ∧ malloc mp size = some (0, mp)) ∨
    ∃ before ent after mp',
      mp.entries = before ++ ent :: after ∧ size ≤ ent.mSize ∧
      malloc mp size = some (ent.mAddr, mp') ∧ WellFormed mp' ∧
      mp'.mLimit = mp.mLimit ∧ mp'.mMap.length = mp.mMap.length ∧
      mp'.entries = occupied (before ++ carve size ent :: after) := by
  obtain ⟨behind, hslots⟩ := h.closed
  have hpos := h.segments.size_pos
  cases hfind : mp.entries.find? (size ≤ ·.mSize) with
  | none =>
      have hsmall : ∀ ent ∈ mp.entries, ent.mSize < size := by
        intro ent hent
        simpa using List.find?_eq_none.mp hfind ent hent
      have hscan : mallocScan size mp.mMap = some (0, mp.mMap) := by
        conv_lhs => rw [hslots]
        rw [malloc_scan_small _ hpos hsmall]
        conv_rhs => rw [hslots]
        rfl
      exact Or.inl ⟨hsmall, by simp [malloc, hsize.ne', hscan]⟩
  | some ent =>
      obtain ⟨hfit, before, after, hentries, hbefore⟩ := List.find?_eq_some_iff_append.mp hfind
      simp only [decide_eq_true_eq] at hfit
      have hsmall : ∀ prev ∈ before, prev.mSize < size := by
        intro prev hprev
        simpa using hbefore prev hprev
      rw [hentries] at hpos
      have hgood : Segments (before ++ ent :: after) := hentries ▸ h.segments
      have hposAfter : ∀ next ∈ after, 0 < next.mSize :=
        fun next hnext => hpos next (by simp [hnext])
      obtain ⟨behind', hscan, hlength⟩ := malloc_scan_fit behind hsize hfit
        (hgood.stop_lt ent (by simp)) hposAfter
      have hcarve := (hgood.toSpans.carve hfit).spans.occupied
      have hbeforeAll : occupied before = before :=
        occupied_eq_self fun prev hprev => hpos prev (List.mem_append_left _ hprev)
      have hsplit : occupied (before ++ carve size ent :: after) =
          before ++ occupied (carve size ent :: after) := by
        rw [occupied, List.filter_append]
        exact congrArg (· ++ _) hbeforeAll
      let mp' : Map :=
        { mp with mMap := before ++ (occupied (carve size ent :: after) ++ closing :: behind') }
      have hslots' : mp'.mMap =
          occupied (before ++ carve size ent :: after) ++ closing :: behind' := by
        rw [hsplit, List.append_assoc]
      refine Or.inr ⟨before, ent, after, mp', hentries, hfit, ?_,
        WellFormed.of_slots hcarve hslots', rfl, ?_, ?_⟩
      · have hfull : mallocScan size mp.mMap = some (ent.mAddr, mp'.mMap) := by
          rw [hslots, hentries, List.append_assoc, List.cons_append,
            malloc_scan_small _ (fun prev hprev => hpos prev (by simp [hprev])) hsmall, hscan]
          rfl
        simp [malloc, hsize.ne', hfull, mp']
      · rw [hslots, hentries]
        simp only [mp', List.length_append, List.length_cons] at hlength ⊢
        omega
      · exact Map.entries_eq hcarve.size_pos hslots'

end DiscoBsd.Rmap
