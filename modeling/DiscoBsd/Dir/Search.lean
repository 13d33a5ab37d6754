import DiscoBsd.Dir.Layout

/-!
# The search

`searchloop_ends` is the rule for the loop of `namei`: what one turn over an entry preserves
holds when the loop ends, at the first entry of the name or behind the last entry. `Position`
says where the variables of the loop point, `SlotFor` that the slot which a creation remembers
is a run of entries in one block with enough space among them.
-/

namespace DiscoBsd.Dir

open Lib

variable {m : Bytes} {name : Name} {needed endsearch fuel p : Nat} {s : Search} {e : Entry}
  {seen todo : List Entry}

/-! ## One turn of the loop -/

/-- One turn over an entry that is not the one. -/
def Search.visit (s : Search) (slotneeded : Nat) (ep : Entry) : Search :=
  (s.atBlock.checkSlot slotneeded ep).advance ep

/-- An entry in use, of that name. -/
def Entry.Is (e : Entry) (name : Name) : Prop := e.dIno ≠ 0 ∧ e.dName = name

@[simp] theorem atBlock_niOffset (s : Search) : s.atBlock.niOffset = s.niOffset := rfl

@[simp] theorem visit_niOffset (s : Search) (needed : Nat) (e : Entry) :
    (s.visit needed e).niOffset = s.niOffset + e.dReclen := rfl

/-! ## The rule for the loop -/

/-- How the loop ends over the entries `todo` from `p` on, when `Inv` is what it preserves. -/
inductive Ends (Inv : List Entry → Search → Prop) (name : Name) (needed : Nat)
    (seen todo : List Entry) (p : Nat) : Scan → Prop where
  | found {before after : List Entry} {e : Entry} {s : Search} :
      todo = before ++ e :: after → e.Is name → (∀ a ∈ before, ¬ a.Is name) →
      Inv (seen ++ before) s → s.niOffset = p + total before → e.Fits s.niOffset →
      Ends Inv name needed seen todo p (.found (s.atBlock.checkSlot needed e) e)
  | notfound {s : Search} :
      (∀ a ∈ todo, ¬ a.Is name) → Inv (seen ++ todo) s → s.niOffset = p + total todo →
      Ends Inv name needed seen todo p (.notfound s)

/-- What a turn over an entry preserves holds when the loop ends. -/
theorem searchloop_ends {Inv : List Entry → Search → Prop}
    (hstep : ∀ seen e s, Inv seen s → e.Fits s.niOffset → Inv (seen ++ [e]) (s.visit needed e))
    (hinit : Inv seen s) (hlaid : Laid m s.niOffset todo)
    (hend : s.niOffset + total todo = endsearch) (hfuel : total todo ≤ fuel) :
    Ends Inv name needed seen todo s.niOffset (searchloop m name needed endsearch fuel s) := by
  induction fuel generalizing seen todo s with
  | zero =>
      have hlen := length_le_total hlaid.pos
      obtain rfl : todo = [] := List.eq_nil_of_length_eq_zero (by omega)
      exact .notfound (by simp) (by simpa using hinit) rfl
  | succ fuel ih =>
      cases todo with
      | nil =>
          simp only [total_nil, Nat.add_zero] at hend
          rw [searchloop, if_neg (by omega)]
          exact .notfound (by simp) (by simpa using hinit) rfl
      | cons e todo =>
          obtain ⟨hentry, hfits, hrest⟩ := hlaid
          have hpos := hfits.pos
          simp only [total_cons] at hend hfuel
          rw [searchloop, if_pos (by omega)]
          simp only [atBlock_niOffset, hentry, if_neg (by omega : ¬ e.dReclen = 0)]
          by_cases his : e.dIno ≠ 0 ∧ e.dName = name
          · rw [if_pos his]
            have hfirst : e :: todo = [] ++ e :: todo := rfl
            exact .found hfirst his (by simp) (by simpa using hinit) rfl hfits
          · rw [if_neg his]
            have hnext := ih (hstep seen e s hinit hfits) (by simpa using hrest)
              (by rw [visit_niOffset]; omega) (by omega)
            rw [visit_niOffset] at hnext
            generalize hscan : searchloop m name needed endsearch fuel (s.visit needed e) = scan
              at hnext
            rw [Search.visit] at hscan
            rw [hscan]
            -- the entries behind `e` give the end, `e` itself is not of the name
            cases hnext with
            | @found before after e' s' htodo hfound hbefore hinv hoff hfit =>
                have hsplit : e :: todo = (e :: before) ++ e' :: after := by rw [htodo]; rfl
                refine .found hsplit hfound ?_ (by simpa using hinv) ?_ hfit
                · exact List.forall_mem_cons.mpr ⟨his, hbefore⟩
                · rw [hoff, total_cons]
                  omega
            | notfound hnone hinv hoff =>
                refine .notfound (List.forall_mem_cons.mpr ⟨his, hnone⟩) (by simpa using hinv) ?_
                rw [hoff, total_cons]
                omega

/-! ## Where the variables point -/

/-- The loop has come from `start` over the entries `seen`. -/
structure Position (start : Nat) (seen : List Entry) (s : Search) : Prop where
  offset : s.niOffset = start + total seen
  inblock : s.niOffset % DIRBLKSIZ ≠ 0 → s.entryoffsetinblock = s.niOffset % DIRBLKSIZ
  prevoff : ∀ before e, seen = before ++ [e] → s.prevoff = start + total before

theorem Position.atBlock {start : Nat} (h : Position start seen s) :
    s.atBlock.entryoffsetinblock = s.niOffset % DIRBLKSIZ := by
  show (if s.niOffset % DIRBLKSIZ = 0 then 0 else s.entryoffsetinblock) = _
  split
  · next hzero => exact hzero.symm
  · next hne => exact h.inblock hne

theorem Position.visit {start : Nat} (h : Position start seen s) (hfits : e.Fits s.niOffset) :
    Position start (seen ++ [e]) (s.visit needed e) where
  offset := by
    rw [visit_niOffset, h.offset, total_append, total_cons, total_nil]
    omega
  inblock := by
    intro hne
    have hblock := hfits.block
    have hin := h.atBlock
    show s.atBlock.entryoffsetinblock + e.dReclen = _
    rw [visit_niOffset] at hne ⊢
    rw [hin]
    simp only [DIRBLKSIZ] at hblock hne ⊢
    omega
  prevoff := by
    intro before e' heq
    obtain ⟨rfl, -⟩ := List.append_inj' heq rfl
    exact h.offset

/-! ## The slot of a creation -/

/-- What the entries have to spare. -/
def spares (es : List Entry) : Nat := (es.map Entry.spare).sum

@[simp] theorem spares_nil : spares [] = 0 := rfl

@[simp] theorem spares_cons (e : Entry) (es : List Entry) :
    spares (e :: es) = e.spare + spares es := rfl

@[simp] theorem spares_append (as bs : List Entry) : spares (as ++ bs) = spares as + spares bs := by
  simp [spares]

/-- The space of the block that is gathered so far; the slot reaches to the entry at hand. -/
def Gathers (seen : List Entry) (slot : Slot) : Prop :=
  match slot.slotoffset with
  | none => slot.slotfreespace = 0
  | some offset => ∃ before inside, seen = before ++ inside ∧ offset = total before ∧
      offset % DIRBLKSIZ + total inside < DIRBLKSIZ ∧ slot.slotfreespace = spares inside

/-- A run of entries in one block, with enough space among them. -/
def SlotFor (needed : Nat) (seen : List Entry) (offset size : Nat) : Prop :=
  ∃ before inside after, seen = before ++ inside ++ after ∧ offset = total before ∧
    size = total inside ∧ offset % DIRBLKSIZ + size ≤ DIRBLKSIZ ∧ needed ≤ spares inside

/-- The slot that a creation remembers. -/
def Remembers (needed : Nat) (seen : List Entry) (slot : Slot) : Prop :=
  ∃ offset, slot.slotoffset = some offset ∧ SlotFor needed seen offset slot.slotsize

/-- The search for a slot, over the entries from the start of the directory. -/
structure Creating (needed : Nat) (seen : List Entry) (s : Search) : Prop where
  useful : ∃ front back, seen = front ++ back ∧ s.enduseful = total front ∧
    ∀ e ∈ back, e.dIno = 0
  gathers : s.slot.slotstatus = .none → s.niOffset % DIRBLKSIZ ≠ 0 → Gathers seen s.slot
  remembers : s.slot.slotstatus ≠ .none → Remembers needed seen s.slot

theorem SlotFor.snoc {offset size : Nat} (h : SlotFor needed seen offset size) (e : Entry) :
    SlotFor needed (seen ++ [e]) offset size := by
  obtain ⟨before, inside, after, rfl, hoffset, hsize, hblock, hneeded⟩ := h
  exact ⟨before, inside, after ++ [e], by simp, hoffset, hsize, hblock, hneeded⟩

/-- An entry with nothing to spare changes nothing. -/
theorem Gathers.snoc {slot : Slot} {offset : Nat} (h : Gathers seen slot)
    (hspare : e.spare = 0) (hoffset : offset = total seen) (hfits : e.Fits offset)
    (hne : (offset + e.dReclen) % DIRBLKSIZ ≠ 0) : Gathers (seen ++ [e]) slot := by
  unfold Gathers at h ⊢
  cases hslot : slot.slotoffset with
  | none => rw [hslot] at h; exact h
  | some start =>
      rw [hslot] at h
      obtain ⟨before, inside, rfl, hstart, hblock, hfree⟩ := h
      have hend := hfits.block
      rw [total_append] at hoffset
      refine ⟨before, inside ++ [e], by simp, hstart, ?_, by simp [hfree, hspare]⟩
      simp only [total_append, total_cons, total_nil, DIRBLKSIZ] at hblock hend hne ⊢
      omega

/-- The space of an entry is added; when it is enough, the slot ends at the entry. -/
theorem Gathers.accumulate {slot : Slot} {offset : Nat} (h : Gathers seen slot)
    (hoffset : offset = total seen) (hfits : e.Fits offset)
    (hstatus : slot.slotstatus = .none) :
    ((slot.accumulate needed offset e).slotstatus = .none →
      (offset + e.dReclen) % DIRBLKSIZ ≠ 0 →
      Gathers (seen ++ [e]) (slot.accumulate needed offset e)) ∧
    ((slot.accumulate needed offset e).slotstatus ≠ .none →
      Remembers needed (seen ++ [e]) (slot.accumulate needed offset e)) := by
  have hend := hfits.block
  obtain ⟨before, inside, hseen, hstart, hblock, hfree⟩ : ∃ before inside,
      seen ++ [e] = before ++ inside ∧ slot.slotoffset.getD offset = total before ∧
      total before % DIRBLKSIZ + total inside ≤ DIRBLKSIZ ∧
      slot.slotfreespace + e.spare = spares inside := by
    unfold Gathers at h
    cases hslot : slot.slotoffset with
    | none =>
        rw [hslot] at h
        simp only at h
        refine ⟨seen, [e], rfl, hoffset, ?_, by simp [h]⟩
        rw [← hoffset]
        simpa using hend
    | some start =>
        rw [hslot] at h
        obtain ⟨before, inside, rfl, hstart, hblock, hfree⟩ := h
        rw [total_append] at hoffset
        refine ⟨before, inside ++ [e], by simp, hstart, ?_, by simp [hfree]⟩
        simp only [total_append, total_cons, total_nil, DIRBLKSIZ] at hblock hend ⊢
        omega
  have htotal : total before + total inside = offset + e.dReclen := by
    rw [← total_append, ← hseen, total_append, ← hoffset, total_cons, total_nil]
    omega
  unfold Slot.accumulate
  simp only [hstart, hfree]
  by_cases henough : needed ≤ spares inside
  · rw [if_pos henough]
    refine ⟨by simp, fun _ => ⟨total before, rfl, before, inside, [], by simp [hseen], rfl, ?_, ?_,
      henough⟩⟩
    · show offset + e.dReclen - total before = total inside
      omega
    · show total before % DIRBLKSIZ + (offset + e.dReclen - total before) ≤ DIRBLKSIZ
      omega
  · rw [if_neg henough]
    refine ⟨fun _ hne => ⟨before, inside, hseen, rfl, ?_, rfl⟩, by simp [hstatus]⟩
    simp only [DIRBLKSIZ] at hblock hne ⊢
    omega

/-- At the head of the loop the space gathered is of the block at hand. -/
theorem Creating.gathers_atBlock (h : Creating needed seen s)
    (hposition : Position 0 seen s) (hstatus : s.slot.slotstatus = .none) :
    Gathers seen s.atBlock.slot := by
  have hin := hposition.atBlock
  show Gathers seen (s.slot.atBlock s.atBlock.entryoffsetinblock)
  rw [hin]
  unfold Slot.atBlock
  split
  · next hreset => rfl
  · next hkeep => exact h.gathers hstatus (by simpa [hstatus] using hkeep)

theorem atBlock_slotstatus (s : Search) : s.atBlock.slot.slotstatus = s.slot.slotstatus := by
  show (s.slot.atBlock s.atBlock.entryoffsetinblock).slotstatus = _
  generalize s.atBlock.entryoffsetinblock = offset
  unfold Slot.atBlock
  split <;> rfl

theorem atBlock_slot (h : s.slot.slotstatus ≠ .none) : s.atBlock.slot = s.slot := by
  show s.slot.atBlock _ = _
  unfold Slot.atBlock
  rw [if_neg (fun hreset => h hreset.1)]

/-- One look at an entry. -/
theorem Creating.check (h : Creating needed seen s) (hposition : Position 0 seen s)
    (hfits : e.Fits s.niOffset) :
    ((s.atBlock.slot.check needed s.niOffset e).slotstatus = .none →
      (s.niOffset + e.dReclen) % DIRBLKSIZ ≠ 0 →
      Gathers (seen ++ [e]) (s.atBlock.slot.check needed s.niOffset e)) ∧
    ((s.atBlock.slot.check needed s.niOffset e).slotstatus ≠ .none →
      Remembers needed (seen ++ [e]) (s.atBlock.slot.check needed s.niOffset e)) := by
  have hoffset : s.niOffset = total seen := by rw [hposition.offset, Nat.zero_add]
  have hstatus := atBlock_slotstatus s
  have hkeep : s.slot.slotstatus ≠ .none → Remembers needed (seen ++ [e]) s.atBlock.slot := by
    intro hne
    obtain ⟨offset, hslot, hfor⟩ := h.remembers hne
    rw [atBlock_slot hne]
    exact ⟨offset, hslot, hfor.snoc e⟩
  unfold Slot.check
  split_ifs with hdone henough hnone
  · -- nothing to look for, or nothing to spare
    rw [hstatus]
    refine ⟨fun hnone hne => ?_, hkeep⟩
    have hspare : e.spare = 0 := by simpa [hstatus, hnone] using hdone
    exact (h.gathers_atBlock hposition hnone).snoc hspare hoffset hfits hne
  · refine ⟨by simp, fun _ => ⟨s.niOffset, rfl, seen, [e], [], by simp, hoffset, ?_, ?_, ?_⟩⟩
    · simp
    · exact hfits.block
    · simpa using henough
  · exact (h.gathers_atBlock hposition (hstatus ▸ hnone)).accumulate hoffset hfits hnone
  · rw [hstatus] at hnone ⊢
    exact ⟨fun hnone' => absurd hnone' hnone, hkeep⟩

theorem Creating.visit (h : Creating needed seen s) (hposition : Position 0 seen s)
    (hfits : e.Fits s.niOffset) : Creating needed (seen ++ [e]) (s.visit needed e) where
  useful := by
    obtain ⟨front, back, rfl, hfront, hback⟩ := h.useful
    show ∃ front' back', _ ∧ (if e.dIno ≠ 0 then s.niOffset + e.dReclen else s.enduseful) = _ ∧ _
    by_cases hlive : e.dIno ≠ 0
    · rw [if_pos hlive]
      refine ⟨front ++ back ++ [e], [], by simp, ?_, by simp⟩
      rw [hposition.offset, total_append _ [e], total_cons, total_nil]
      omega
    · rw [if_neg hlive]
      refine ⟨front, back ++ [e], by simp, hfront, ?_⟩
      intro e' he'
      rcases List.mem_append.mp he' with hin | hlast
      · exact hback e' hin
      · rw [List.mem_singleton.mp hlast]
        simpa using hlive
  gathers := (h.check hposition hfits).1
  remembers := (h.check hposition hfits).2

end DiscoBsd.Dir
