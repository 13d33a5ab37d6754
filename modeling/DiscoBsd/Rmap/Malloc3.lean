import Mathlib.Data.Fintype.Fin
import Mathlib.Tactic.FinCases
import DiscoBsd.Rmap.WellFormed

/-!
# Three segments in one pass

`malloc3` first shrinks the segments it takes pieces from and only then moves their start
addresses, so between its loops the array is not a good map. `placed` counts what slot
number `bp` has given away; `malloc3_scan_spec` says that the search leaves every slot
short by exactly that much and never by more than it had. The success path then amounts to
carving the three pieces off one after the other, and the failure path puts back exactly
what was taken: `malloc3_cases`.
-/

namespace DiscoBsd.Rmap

open Lib

/-! ## Offering one slot -/

/-- The units slot number `bp` has given to piece `next`. -/
def given (sizes : Fin 3 → Nat) (madd : Fin 3 → Option Nat) (bp : Nat) (next : Fin 3) : Nat :=
  if madd next = some bp then sizes next else 0

/-- The units slot number `bp` has given to the pieces placed in it. -/
def placed (sizes : Fin 3 → Nat) (madd : Fin 3 → Option Nat) (bp : Nat) : Nat :=
  given sizes madd bp 0 + given sizes madd bp 1 + given sizes madd bp 2

/-- How many pieces have a place. -/
def placedCount (madd : Fin 3 → Option Nat) : Nat :=
  (if madd 0 = none then 0 else 1) + (if madd 1 = none then 0 else 1) +
    (if madd 2 = none then 0 else 1)

theorem placed_update (sizes : Fin 3 → Nat) {madd : Fin 3 → Option Nat} {next : Fin 3}
    (hnone : madd next = none) (bp : Nat) :
    placed sizes (Function.update madd next (some bp)) bp =
      placed sizes madd bp + sizes next := by
  fin_cases next <;> simp_all [placed, given, Function.update] <;> omega

theorem placed_count_update {madd : Fin 3 → Option Nat} {next : Fin 3}
    (hnone : madd next = none) (bp : Nat) :
    placedCount (Function.update madd next (some bp)) = placedCount madd + 1 := by
  fin_cases next <;> simp_all [placedCount, Function.update] <;> omega

/-- A slot after the search took `taken` units from it. -/
def shrink (taken : Nat) (ent : Mapent) : Mapent := { ent with mSize := ent.mSize - taken }

/-- The state of the inner loop on slot number `bp`, which held `ent` when it was reached. -/
structure Offered (sizes : Fin 3 → Nat) (bp : Nat) (pieces : Pieces) (ent : Mapent)
    (out : Pieces × Mapent) : Prop where
  madd : ∀ next, out.1.madd next = pieces.madd next ∨
    pieces.madd next = none ∧ out.1.madd next = some bp
  le_size : placed sizes out.1.madd bp ≤ ent.mSize
  slot : out.2 = shrink (placed sizes out.1.madd bp) ent
  remap : out.1.remap =
    if out.2.mSize = 0 ∧ pieces.remap = none then some bp else pieces.remap
  found : out.1.found = placedCount out.1.madd

/-- One turn of the inner loop. -/
theorem Offered.take_piece {sizes : Fin 3 → Nat} {bp : Nat} {pieces : Pieces} {ent : Mapent}
    {out : Pieces × Mapent} (h : Offered sizes bp pieces ent out) (next : Fin 3) :
    Offered sizes bp pieces ent (takePiece sizes bp next out) := by
  obtain ⟨mid, slot⟩ := out
  obtain ⟨hmadd, hle, hslot, hremap, hfound⟩ := h
  simp only at hmadd hle hslot hremap hfound
  simp only [takePiece]
  split
  · rename_i hfit
    obtain ⟨hnone, hsize⟩ := hfit
    have hplaced := placed_update sizes hnone bp
    have hleft : slot.mSize = ent.mSize - placed sizes mid.madd bp := by rw [hslot, shrink]
    refine ⟨?_, ?_, ?_, ?_, ?_⟩
    · intro other
      by_cases hother : other = next
      · subst hother
        refine Or.inr ⟨?_, by simp⟩
        rcases hmadd other with heq | hnew
        · rw [← heq, hnone]
        · exact hnew.1
      · simpa [hother] using hmadd other
    · show placed sizes (Function.update mid.madd next (some bp)) bp ≤ ent.mSize
      omega
    · show { slot with mSize := slot.mSize - sizes next } =
        shrink (placed sizes (Function.update mid.madd next (some bp)) bp) ent
      rw [hslot, hplaced, shrink, shrink, Nat.sub_add_eq]
    · -- a slot that was empty before this turn stays empty, so `remap` is set at most once
      simp only [hremap]
      by_cases hzero : slot.mSize = 0 <;> by_cases hfirst : pieces.remap = none <;>
        simp [hzero, hfirst]
    · show mid.found + 1 = placedCount (Function.update mid.madd next (some bp))
      rw [placed_count_update hnone, hfound]
  · exact ⟨hmadd, hle, hslot, hremap, hfound⟩

/-- The inner loop of `malloc3` on a slot that no piece has used before. -/
theorem take_pieces_offered (sizes : Fin 3 → Nat) {bp : Nat} {pieces : Pieces} {ent : Mapent}
    (hfresh : ∀ next, pieces.madd next ≠ some bp) (hent : 0 < ent.mSize)
    (hfound : pieces.found = placedCount pieces.madd) :
    Offered sizes bp pieces ent (takePieces sizes bp (pieces, ent)) := by
  have hstart : Offered sizes bp pieces ent (pieces, ent) := by
    have hnothing : placed sizes pieces.madd bp = 0 := by simp [placed, given, hfresh]
    refine ⟨fun next => Or.inl rfl, ?_, ?_, ?_, hfound⟩
    · simp [hnothing]
    · simp [hnothing, shrink]
    · simp [hent.ne']
  exact ((hstart.take_piece 0).take_piece 1).take_piece 2

/-! ## The search -/

/-- The state when the search, started at slot number `bp` over the segments `ents`, stops. -/
structure Searched (sizes : Fin 3 → Nat) (bp : Nat) (ents : List Mapent) (pieces : Pieces)
    (pieces' : Pieces) (ents' : List Mapent) : Prop where
  madd : ∀ next, pieces'.madd next = pieces.madd next ∨
    pieces.madd next = none ∧ ∃ i, pieces'.madd next = some (bp + i) ∧ i < ents.length
  le_size : ∀ i ent, ents[i]? = some ent → placed sizes pieces'.madd (bp + i) ≤ ent.mSize
  slots : ∀ i, ents'[i]? = ents[i]?.map (shrink (placed sizes pieces'.madd (bp + i)))
  remap : pieces'.remap = if pieces.remap = none then
    (ents'.findIdx? (·.mSize = 0)).map (bp + ·) else pieces.remap
  found : pieces'.found = placedCount pieces'.madd

/-- The search leaves every slot short by exactly what it placed there. -/
theorem malloc3_scan_spec (sizes : Fin 3 → Nat) (behind : List Mapent) (ents : List Mapent)
    (hpos : ∀ ent ∈ ents, 0 < ent.mSize) (bp : Nat) (pieces : Pieces)
    (hused : ∀ next i, pieces.madd next = some i → i < bp)
    (hfound : pieces.found = placedCount pieces.madd) :
    ∃ pieces' ents', malloc3Scan sizes bp (ents ++ closing :: behind) pieces =
        some (pieces', ents' ++ closing :: behind) ∧
      Searched sizes bp ents pieces pieces' ents' := by
  induction ents generalizing bp pieces with
  | nil =>
      refine ⟨pieces, [], by simp [malloc3Scan, closing], ?_⟩
      exact ⟨fun next => Or.inl rfl, by simp, by simp, by simp, hfound⟩
  | cons ent ents ih =>
      have hent := hpos ent List.mem_cons_self
      have hfresh : ∀ next, pieces.madd next ≠ some bp := fun next heq =>
        absurd (hused next bp heq) (lt_irrefl bp)
      obtain ⟨hmadd, hle, hslot, hremap, hcount⟩ := take_pieces_offered sizes hfresh hent hfound
      rcases hout : takePieces sizes bp (pieces, ent) with ⟨mid, slot⟩
      rw [hout] at hmadd hle hslot hremap hcount
      simp only at hmadd hle hslot hremap hcount
      have hmidUsed : ∀ next i, mid.madd next = some i → i < bp + 1 := by
        intro next i hi
        rcases hmadd next with heq | ⟨-, hnew⟩
        · have := hused next i (heq ▸ hi)
          omega
        · rw [hnew] at hi
          cases hi
          omega
      have hscan : malloc3Scan sizes bp (ent :: ents ++ closing :: behind) pieces =
          if mid.found = 3 then some (mid, slot :: (ents ++ closing :: behind))
          else (malloc3Scan sizes (bp + 1) (ents ++ closing :: behind) mid).map
            fun r => (r.1, slot :: r.2) := by
        rw [List.cons_append, malloc3Scan, if_neg hent.ne', hout]
        simp [Option.map_eq_bind]
      by_cases hdone : mid.found = 3
      · -- three pieces placed: the slots behind this one are not looked at
        refine ⟨mid, slot :: ents, by rw [hscan, if_pos hdone]; rfl, ?_⟩
        have hlater : ∀ i, placed sizes mid.madd (bp + (i + 1)) = 0 := by
          intro i
          have hnot : ∀ next, mid.madd next ≠ some (bp + (i + 1)) := fun next heq => by
            have := hmidUsed next _ heq
            omega
          simp [placed, given, hnot]
        have hnoempty : ents.findIdx? (·.mSize = 0) = none := by
          rw [List.findIdx?_eq_none_iff]
          intro other hother
          simpa using (hpos other (List.mem_cons_of_mem _ hother)).ne'
        refine ⟨?_, ?_, ?_, ?_, hcount⟩
        · intro next
          rcases hmadd next with heq | ⟨hnone, hnew⟩
          · exact Or.inl heq
          · exact Or.inr ⟨hnone, 0, hnew, by simp⟩
        · intro i other hother
          cases i with
          | zero =>
              cases hother
              exact hle
          | succ i =>
              rw [hlater]
              exact Nat.zero_le _
        · intro i
          cases i with
          | zero => simp [hslot]
          | succ i =>
              simp only [List.getElem?_cons_succ, hlater]
              cases ents[i]? <;> rfl
        · rw [hremap, List.findIdx?_cons, hnoempty]
          by_cases hzero : slot.mSize = 0 <;> by_cases hfirst : pieces.remap = none <;>
            simp [hzero, hfirst]
      · obtain ⟨pieces', ents', hrest, hsearch⟩ := ih
          (fun other hother => hpos other (List.mem_cons_of_mem _ hother)) (bp + 1) mid
          hmidUsed hcount
        obtain ⟨hmadd', hle', hslots', hremap', hcount'⟩ := hsearch
        refine ⟨pieces', slot :: ents', by rw [hscan, if_neg hdone, hrest]; rfl, ?_⟩
        -- the slots behind this one do not change what it has given away
        have hsame : placed sizes pieces'.madd bp = placed sizes mid.madd bp := by
          have hiff : ∀ next, pieces'.madd next = some bp ↔ mid.madd next = some bp := by
            intro next
            rcases hmadd' next with heq | ⟨hnone, i, hnew, -⟩
            · rw [heq]
            · rw [hnone, hnew]
              simp
              omega
          simp only [placed, given, hiff]
        refine ⟨?_, ?_, ?_, ?_, hcount'⟩
        · intro next
          rcases hmadd' next with heq | ⟨hnone, i, hnew, hlt⟩
          · rcases hmadd next with hold | ⟨hnone, hnew⟩
            · exact Or.inl (heq.trans hold)
            · exact Or.inr ⟨hnone, 0, heq.trans hnew, by simp⟩
          · rcases hmadd next with hold | ⟨-, hplaced⟩
            · refine Or.inr ⟨hold ▸ hnone, i + 1, ?_, by simpa using hlt⟩
              rw [hnew]
              congr 1
              omega
            · simp [hnone] at hplaced
        · intro i other hother
          cases i with
          | zero =>
              cases hother
              rw [Nat.add_zero, hsame]
              exact hle
          | succ i =>
              have := hle' i other (by simpa using hother)
              rwa [show bp + (i + 1) = bp + 1 + i by omega]
        · intro i
          cases i with
          | zero => simp [hslot, hsame]
          | succ i =>
              rw [List.getElem?_cons_succ, List.getElem?_cons_succ, hslots' i,
                show bp + (i + 1) = bp + 1 + i by omega]
        · rw [hremap', hremap, List.findIdx?_cons]
          by_cases hzero : slot.mSize = 0 <;> by_cases hfirst : pieces.remap = none <;>
            simp [hzero, hfirst, Function.comp_def, Nat.add_comm, Nat.add_left_comm]

/-! ## Success and failure -/

/-- Carve `size` units off segment number `bp`. -/
def carveAt (bp size : Nat) (ents : List Mapent) : List Mapent := ents.modify bp (carve size)

theorem Spans.carve_at {ents : List Mapent} {bp size : Nat} {ent : Mapent} (h : Spans ents)
    (hent : ents[bp]? = some ent) (hsize : size ≤ ent.mSize) :
    Carved ents ⟨ent.mAddr, size⟩ (carveAt bp size ents) := by
  obtain ⟨hlt, rfl⟩ := List.getElem?_eq_some_iff.mp hent
  have hsplit : ents = ents.take bp ++ ents[bp] :: ents.drop (bp + 1) := by simp
  have hcarved := Spans.carve (hsplit ▸ h) hsize
  rwa [← hsplit, ← List.modify_eq_take_cons_drop hlt] at hcarved

/-- `keptSlots` keeps the segments with units, and the delimiter. -/
theorem kept_slots_eq (behind : List Mapent) {ents : List Mapent}
    (hpos : ∀ ent ∈ ents, 0 < ent.mAddr) :
    keptSlots (ents ++ closing :: behind) = some (occupied ents ++ [closing]) := by
  induction ents with
  | nil => simp [keptSlots, closing, occupied]
  | cons ent ents ih =>
      have haddr : ent.mAddr ≠ 0 := (hpos ent List.mem_cons_self).ne'
      have hrest := ih fun other hother => hpos other (List.mem_cons_of_mem _ hother)
      by_cases hsize : ent.mSize = 0
      · rw [occupied_cons_empty hsize, List.cons_append, keptSlots, if_neg (by simp [hsize, haddr]),
          hrest]
      · rw [occupied_cons hsize, List.cons_append, keptSlots, if_pos (Or.inl hsize),
          if_neg haddr, hrest]
        rfl

/-- The last loop of `malloc3` removes exactly the segments without units. -/
theorem remove_empty_eq (behind : List Mapent) {ents : List Mapent}
    (hpos : ∀ ent ∈ ents, 0 < ent.mAddr) :
    ∃ behind', removeEmpty (ents.findIdx? (·.mSize = 0)) (ents ++ closing :: behind) =
        some (occupied ents ++ closing :: behind') ∧
      (occupied ents ++ closing :: behind').length = (ents ++ closing :: behind).length := by
  cases hfind : ents.findIdx? (·.mSize = 0) with
  | none =>
      have hall : occupied ents = ents := by
        refine occupied_eq_self fun ent hent => ?_
        have := List.findIdx?_eq_none_iff.mp hfind ent hent
        simp only [decide_eq_false_iff_not] at this
        omega
      exact ⟨behind, by rw [hall]; rfl, by rw [hall]⟩
  | some first =>
      rw [List.findIdx?_eq_some_iff_getElem] at hfind
      obtain ⟨hlt, hzero, hbefore⟩ := hfind
      simp only [decide_eq_true_eq] at hzero
      have hsplit : ents = ents.take first ++ ents[first] :: ents.drop (first + 1) := by simp
      have hfront : occupied (ents.take first) = ents.take first := by
        refine occupied_eq_self fun ent hent => ?_
        obtain ⟨i, hi, rfl⟩ := List.mem_take_iff_getElem.mp hent
        have := hbefore i (by omega)
        simp only [decide_eq_true_eq] at this
        omega
      have hoccupied : occupied ents =
          ents.take first ++ occupied (ents.drop (first + 1)) := by
        conv_lhs => rw [hsplit]
        rw [occupied, List.filter_append]
        exact congrArg₂ (· ++ ·) hfront (occupied_cons_empty hzero _)
      have hkept : keptSlots (ents.drop (first + 1) ++ closing :: behind) =
          some (occupied (ents.drop (first + 1)) ++ [closing]) :=
        kept_slots_eq behind fun ent hent => hpos ent (List.mem_of_mem_drop hent)
      have hroom : (occupied (ents.drop (first + 1))).length ≤ ents.length - (first + 1) := by
        have := List.length_filter_le (fun ent : Mapent => decide (ent.mSize ≠ 0))
          (ents.drop (first + 1))
        rwa [List.length_drop] at this
      refine ⟨(ents ++ closing :: behind).drop
        (first + (occupied (ents.drop (first + 1)) ++ [closing]).length), ?_, ?_⟩
      · rw [removeEmpty, List.drop_append_of_le_length (by omega), hkept,
          List.take_append_of_le_length (by omega), hoccupied]
        simp
      · rw [hoccupied]
        simp only [List.length_append, List.length_cons, List.length_drop, List.length_take,
          List.length_nil]
        omega

/-- Each slot is short of its segment by the units `owed` there: those of the pieces whose
addresses are not resolved yet. -/
structure Owing (owed : Nat → Nat) (ents slots : List Mapent) : Prop where
  le_size : ∀ i ent, ents[i]? = some ent → owed i ≤ ent.mSize
  slots : ∀ i, slots[i]? = ents[i]?.map (shrink (owed i))

theorem Owing.length_eq {owed : Nat → Nat} {ents slots : List Mapent} (h : Owing owed ents slots) :
    slots.length = ents.length := by
  refine le_antisymm (Nat.le_of_not_lt fun hlt => ?_) (Nat.le_of_not_lt fun hlt => ?_)
  · have := h.slots ents.length
    simp [hlt] at this
  · have := h.slots slots.length
    simp [hlt] at this

theorem modify_front {slots : List Mapent} {bp : Nat} (hbp : bp < slots.length)
    (f : Mapent → Mapent) (behind : List Mapent) :
    (slots ++ behind).modify bp f = slots.modify bp f ++ behind := by
  rw [List.modify_eq_take_cons_drop (by simp; omega), List.modify_eq_take_cons_drop hbp,
    List.take_append_of_le_length (by omega), List.drop_append_of_le_length (by omega),
    List.getElem_append_left hbp, List.append_assoc, List.cons_append]

/-- Resolving one piece carves it off the segment its slot stands for. -/
theorem resolve_piece_carves {sizes : Fin 3 → Nat} {pieces : Pieces} {next : Fin 3} {bp : Nat}
    {owed : Nat → Nat} {ents slots : List Mapent} (behind : List Mapent) (h : Spans ents)
    (howing : Owing (fun i => given sizes pieces.madd i next + owed i) ents slots)
    (hmadd : pieces.madd next = some bp) (hbp : bp < ents.length) :
    ∃ addr ents' slots', resolvePiece sizes pieces next (slots ++ closing :: behind) =
        some (addr, slots' ++ closing :: behind) ∧
      Carved ents ⟨addr, sizes next⟩ ents' ∧ Owing owed ents' slots' ∧
      ents'.length = ents.length ∧ slots'.map Mapent.mSize = slots.map Mapent.mSize := by
  obtain ⟨ent, hent⟩ : ∃ ent, ents[bp]? = some ent := ⟨_, List.getElem?_eq_getElem hbp⟩
  have hslotsLt : bp < slots.length := by rw [howing.length_eq]; exact hbp
  have hslot := howing.slots bp
  have hfit := howing.le_size bp ent hent
  simp only [given, hmadd, if_true] at hfit
  refine ⟨ent.mAddr, carveAt bp (sizes next) ents, slots.modify bp fun ent =>
    { ent with mAddr := sizeAdd ent.mAddr (sizes next) }, ?_, ?_, ⟨?_, ?_⟩, ?_, ?_⟩
  · rw [hent] at hslot
    simp [resolvePiece, hmadd, List.getElem?_append_left hslotsLt, hslot,
      modify_front hslotsLt, shrink]
  · exact h.carve_at hent (by omega)
  · intro i other hother
    have hold := howing.le_size i
    rw [carveAt, List.getElem?_modify] at hother
    obtain ⟨old, hi, rfl⟩ := Option.map_eq_some_iff.mp hother
    have hle := hold old hi
    simp only [given, hmadd, Option.some.injEq] at hle
    by_cases heq : bp = i
    · simp only [heq, if_true, carve] at hle ⊢
      omega
    · simp only [heq, if_false] at hle ⊢
      omega
  · intro i
    rw [carveAt, List.getElem?_modify, List.getElem?_modify, howing.slots i]
    cases hi : ents[i]? with
    | none => rfl
    | some old =>
        have hstop := h.stop_lt old (List.mem_of_getElem? hi)
        have hle := howing.le_size i old hi
        simp only [given, hmadd, Option.some.injEq] at hle
        by_cases heq : bp = i
        · simp only [heq, if_true, Option.map_some, Option.map_eq_map, shrink, carve, given,
            hmadd, Option.some.injEq, Mapent.mk.injEq] at hle ⊢
          refine ⟨by omega, size_add_eq (by omega)⟩
        · simp [heq, shrink, given, hmadd]
  · exact List.length_modify _ _ _
  · refine List.ext_getElem? fun i => ?_
    rw [List.getElem?_map, List.getElem?_map, List.getElem?_modify]
    by_cases heq : bp = i <;> cases slots[i]? <;> simp [heq]

theorem Searched.owing {sizes : Fin 3 → Nat} {ents ents' : List Mapent} {pieces : Pieces}
    (h : Searched sizes 0 ents .empty pieces ents') :
    Owing (placed sizes pieces.madd) ents ents' := by
  refine ⟨fun i ent hent => ?_, fun i => ?_⟩
  · simpa using h.le_size i ent hent
  · simpa using h.slots i

/-- Every piece of a successful search has a slot among the live segments. -/
theorem Searched.madd_lt {sizes : Fin 3 → Nat} {ents ents' : List Mapent} {pieces : Pieces}
    (h : Searched sizes 0 ents .empty pieces ents') (hfound : pieces.found = 3) (next : Fin 3) :
    ∃ bp, pieces.madd next = some bp ∧ bp < ents.length := by
  have hplaced : pieces.madd next ≠ none := by
    have hcount := h.found
    rw [hfound, placedCount] at hcount
    intro hnone
    by_cases h0 : pieces.madd 0 = none <;> by_cases h1 : pieces.madd 1 = none <;>
      by_cases h2 : pieces.madd 2 = none <;> fin_cases next <;> simp_all
  rcases h.madd next with hold | ⟨-, i, hnew, hlt⟩
  · exact absurd hold hplaced
  · exact ⟨i, by simpa using hnew, hlt⟩

/-- A failing `malloc3` puts back exactly what its search took. -/
theorem restore_slots {sizes : Fin 3 → Nat} {ents ents' : List Mapent} {pieces : Pieces}
    (behind : List Mapent) (h : Spans ents)
    (hsearch : Searched sizes 0 ents .empty pieces ents') :
    restorePiece sizes pieces 2 (restorePiece sizes pieces 1
      (restorePiece sizes pieces 0 (ents' ++ closing :: behind))) =
        ents ++ closing :: behind := by
  -- restoring one piece adds to each slot what that piece was given there
  have hrestore : ∀ next slots i, (restorePiece sizes pieces next slots)[i]? =
      slots[i]?.map fun ent => if pieces.madd next = some i then
        { ent with mSize := sizeAdd ent.mSize (sizes next) } else ent := by
    intro next slots i
    unfold restorePiece
    cases hmadd : pieces.madd next with
    | none => cases slots[i]? <;> simp
    | some bp =>
        simp only [List.getElem?_modify, Option.map_eq_map, Option.some.injEq]
  have hlength := hsearch.owing.length_eq
  refine List.ext_getElem? fun i => ?_
  rw [hrestore, hrestore, hrestore]
  by_cases hi : i < ents.length
  · rw [List.getElem?_append_left (hlength ▸ hi), List.getElem?_append_left hi, hsearch.slots i]
    obtain ⟨⟨size, addr⟩, hent⟩ : ∃ ent, ents[i]? = some ent :=
      ⟨_, List.getElem?_eq_getElem hi⟩
    have hle : placed sizes pieces.madd (0 + i) ≤ size := hsearch.le_size i _ hent
    have hstop : addr + size < 2 ^ 32 := h.stop_lt _ (List.mem_of_getElem? hent)
    rw [hent]
    rw [Nat.zero_add] at hle
    simp only [placed, given] at hle
    simp only [Option.map_some, Option.some.injEq, Nat.zero_add, shrink, placed, given]
    by_cases hm0 : pieces.madd 0 = some i <;> by_cases hm1 : pieces.madd 1 = some i <;>
      by_cases hm2 : pieces.madd 2 = some i <;>
      simp only [hm0, hm1, hm2, if_true, if_false, sizeAdd, Mapent.mk.injEq, and_true] at hle ⊢ <;>
      omega
  · have hnone : ∀ next, pieces.madd next ≠ some i := by
      intro next heq
      rcases hsearch.madd next with hold | ⟨-, j, hnew, hlt⟩
      · simp [hold, Pieces.empty] at heq
      · rw [hnew] at heq
        simp only [Nat.zero_add, Option.some.injEq] at heq
        omega
    rw [List.getElem?_append_right (by omega), List.getElem?_append_right (by omega), hlength]
    simp [hnone]

/-- Everything `malloc3` can do to a well-formed map: fail and leave it exactly as it was, or
carve the three pieces off one after the other and drop the segments that ran out. -/
theorem malloc3_cases {mp : Map} (h : WellFormed mp) (dSize sSize uSize : Nat) :
    malloc3 mp dSize sSize uSize = some (0, [], mp) ∨
    ∃ a0 a1 a2 mp' ents1 ents2 ents3,
      malloc3 mp dSize sSize uSize = some (a2, [a0, a1, a2], mp') ∧
      WellFormed mp' ∧ mp'.mLimit = mp.mLimit ∧ mp'.mMap.length = mp.mMap.length ∧
      mp'.entries = occupied ents3 ∧
      Carved mp.entries ⟨a0, dSize⟩ ents1 ∧ Carved ents1 ⟨a1, sSize⟩ ents2 ∧
      Carved ents2 ⟨a2, uSize⟩ ents3 := by
  obtain ⟨behind, hslots⟩ := h.closed
  have hspans := h.segments.toSpans
  obtain ⟨pieces, ents', hscan, hsearch⟩ := malloc3_scan_spec ![dSize, sSize, uSize] behind
    mp.entries h.segments.size_pos 0 .empty (by simp [Pieces.empty]) (by simp [Pieces.empty,
      placedCount])
  rw [← hslots] at hscan
  by_cases hfound : pieces.found = 3
  · obtain ⟨m0, h0, hlt0⟩ := hsearch.madd_lt hfound 0
    obtain ⟨m1, h1, hlt1⟩ := hsearch.madd_lt hfound 1
    obtain ⟨m2, h2, hlt2⟩ := hsearch.madd_lt hfound 2
    have howing : Owing (fun i => given ![dSize, sSize, uSize] pieces.madd i 0 +
        (given ![dSize, sSize, uSize] pieces.madd i 1 +
          (given ![dSize, sSize, uSize] pieces.madd i 2 + 0))) mp.entries ents' := by
      have hplaced := hsearch.owing
      unfold placed at hplaced
      simpa only [Nat.add_assoc, Nat.add_zero] using hplaced
    obtain ⟨a0, ents1, slots1, hres0, hcarve0, howing1, hlen1, hsize1⟩ :=
      resolve_piece_carves behind hspans howing h0 hlt0
    obtain ⟨a1, ents2, slots2, hres1, hcarve1, howing2, hlen2, hsize2⟩ :=
      resolve_piece_carves behind hcarve0.spans howing1 h1 (hlen1 ▸ hlt1)
    obtain ⟨a2, ents3, slots3, hres2, hcarve2, howing3, hlen3, hsize3⟩ :=
      resolve_piece_carves behind hcarve1.spans howing2 h2 (hlen2 ▸ hlen1 ▸ hlt2)
    have hslots3 : slots3 = ents3 := by
      refine List.ext_getElem? fun i => ?_
      rw [howing3.slots i]
      cases ents3[i]? <;> rfl
    subst hslots3
    have hremap : pieces.remap = slots3.findIdx? (·.mSize = 0) := by
      have hsame : ∀ slots : List Mapent, slots.findIdx? (·.mSize = 0) =
          (slots.map Mapent.mSize).findIdx? (· = 0) := fun slots => by
        simp [Function.comp_def]
      rw [hsearch.remap, hsame, hsame, hsize3, hsize2, hsize1]
      simp [Pieces.empty]
    obtain ⟨behind', hremove, hlength⟩ := remove_empty_eq behind hcarve2.spans.addr_pos
    have hgood := hcarve2.spans.occupied
    refine Or.inr ⟨a0, a1, a2, { mp with mMap := occupied slots3 ++ closing :: behind' },
      ents1, ents2, slots3, ?_, WellFormed.of_slots hgood rfl, rfl, ?_, ?_, hcarve0, hcarve1,
      hcarve2⟩
    · simp [malloc3, hscan, hfound, hres0, hres1, hres2, hremap, hremove]
    · show (occupied slots3 ++ closing :: behind').length = mp.mMap.length
      rw [hlength, hslots, List.length_append, List.length_append, hlen3, hlen2, hlen1]
    · exact Map.entries_eq hgood.size_pos rfl
  · refine Or.inl ?_
    have hrestore := restore_slots behind hspans hsearch
    simp [malloc3, hscan, hfound, hrestore, ← hslots]

end DiscoBsd.Rmap
