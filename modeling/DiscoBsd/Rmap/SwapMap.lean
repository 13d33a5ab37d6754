import DiscoBsd.Rmap.Runs

/-!
# The swap map

`swapmap` is an array of `SMAPSIZ` slots whose `m_limit` is the address of the slot behind the last
one. `main` hands the swap space to it with one `mfree`; everything after that is `malloc`,
`malloc3` and `mfree` of what they handed out. `mfree` compares the place behind the closing slot
with `m_limit`, and would need the slot at `m_limit` when the array holds `SMAPSIZ - 1` segments:
that is the one case in which it leaves the array, and it is also the case in which it should have
reported the loss.

A run keeps the state good and `m_limit` behind the last slot, so that `mfree` never reports an
overflow: it puts the range back or leaves the array.
-/

namespace DiscoBsd.Rmap

open Lib

/-- `swapmap` before any space is put into it: every slot is zero. -/
def swapmap (smapsiz : Nat) : Map := ⟨List.replicate smapsiz closing, smapsiz⟩

/-- The state in which `main` has found the swap space and not given it to the map yet. -/
def swapBoot (smapsiz swapstart nswap : Nat) : State := ⟨swapmap smapsiz, [⟨swapstart, nswap⟩]⟩

/-- One call that stays inside the array. A range the map has no slot for is lost. -/
inductive SwapStep : State → Op → State → Prop where
  | call {st op st'} : Step st op st' → SwapStep st op st'
  | lost {mp before whole after mp'} {range : Seg} :
      whole.start ≤ range.start → range.stop ≤ whole.stop →
      mfree mp range.len range.start = some (.overflow, mp') →
      SwapStep ⟨mp, before ++ whole :: after⟩ (.mfree range)
        ⟨mp', before ++ (remnants whole range ++ after)⟩

/-- `mfree` stays inside the array, and reports a range for which there is no place and leaves the map
unchanged. -/
def MfreeInside (mp : Map) (range : Seg) : Prop :=
  ∃ freed mp', mfree mp range.len range.start = some (freed, mp') ∧
    (¬ Fits mp range → freed = .overflow ∧ mp' = mp)

/-- The map with its last slot for a limit. -/
def Map.inside (mp : Map) : Map := { mp with mLimit := mp.mMap.length - 1 }

theorem WellFormed.of_inside {mp : Map} (h : WellFormed mp.inside) : WellFormed mp :=
  ⟨h.segments, h.closed⟩

/-- The swap map as a run finds it: good, with `m_limit` behind the last slot. -/
structure SwapGood (st : State) : Prop where
  limit : st.map.mLimit = st.map.mMap.length
  good : Good st

/-! ## One call -/

/-- On a good map `mfree` either puts the range back, or finds no place for it and leaves the array. -/
theorem SwapGood.mfree_cases {st : State} (h : SwapGood st) {range : Seg}
    (hrange : Returnable st.map range) :
    (∃ mp', mfree st.map range.len range.start = some (.done, mp') ∧ Fits st.map range) ∨
    (mfree st.map range.len range.start = none ∧ ¬ Fits st.map range) := by
  rcases Rmap.mfree_cases h.good.wellFormed hrange with ⟨mp', hdone, -, hfits⟩ | ⟨-, hfull, -⟩ |
    ⟨hnone, -, hnot⟩
  · exact Or.inl ⟨mp', hdone, hfits⟩
  · have hslots := h.good.wellFormed.length_entries_lt
    have hlimit := h.limit
    omega
  · exact Or.inr ⟨hnone, hnot⟩

/-- `mfree` of a held range stays inside the array exactly when there is a place for the range. -/
theorem SwapGood.mfree_inside_iff {st : State} (h : SwapGood st) {whole range : Seg}
    (hwhole : whole ∈ st.live) (hstart : whole.start ≤ range.start)
    (hstop : range.stop ≤ whole.stop) : MfreeInside st.map range ↔ Fits st.map range := by
  by_cases hempty : range.len = 0
  · have hfits : Fits st.map range := Or.inl hempty
    exact iff_of_true ⟨.done, st.map, by simp [mfree, hempty], fun hnot => absurd hfits hnot⟩ hfits
  · have hrange := Good.returnable h.good hwhole hstart hstop (by omega)
    rcases h.mfree_cases hrange with ⟨mp', hdone, hfits⟩ | ⟨hnone, hnot⟩
    · exact iff_of_true ⟨_, _, hdone, fun hnot => absurd hfits hnot⟩ hfits
    · refine iff_of_false ?_ hnot
      rintro ⟨freed, mp', hcall, -⟩
      rw [hnone] at hcall
      cases hcall

/-! ## Runs -/

variable {st st' : State}

theorem SwapGood.step {op : Op} (h : SwapGood st) (hstep : Step st op st') : SwapGood st' := by
  obtain ⟨hgood, hkept⟩ := step_good h.good hstep
  exact ⟨by rw [hkept.limit, hkept.length, h.limit], hgood⟩

/-- Every call that stays inside the array keeps the swap map good; no range is ever lost. -/
theorem SwapGood.swap_step {op : Op} (h : SwapGood st) (hstep : SwapStep st op st') :
    SwapGood st' := by
  cases hstep with
  | call hstep => exact h.step hstep
  | @lost mp before whole after mp' range hstart hstop hcall =>
      exfalso
      by_cases hempty : range.len = 0
      · simp [mfree, hempty] at hcall
      · have hrange := Good.returnable h.good (by simp) hstart hstop (by omega)
        rcases h.mfree_cases hrange with ⟨mp0, hdone, -⟩ | ⟨hnone, -⟩
        · cases hdone.symm.trans hcall
        · cases hnone.symm.trans hcall

/-- The empty map is good with the swap space held by `main`. -/
theorem swap_boot_good {smapsiz swapstart nswap : Nat} (hsize : 0 < smapsiz)
    (hstart : 0 < swapstart) (hspace : swapstart + nswap < 2 ^ 32) :
    SwapGood (swapBoot smapsiz swapstart nswap) := by
  obtain ⟨n, rfl⟩ := Nat.exists_eq_succ_of_ne_zero hsize.ne'
  have hslots : (swapmap (n + 1)).mMap = [] ++ closing :: List.replicate n closing := rfl
  have hents : Segments [] := ⟨⟨by simp, by simp, by simp [Separated]⟩, by simp⟩
  have hentries : (swapmap (n + 1)).entries = [] := Map.entries_eq hents.size_pos hslots
  refine ⟨by simp [swapBoot, swapmap], WellFormed.of_slots hents hslots, ?_⟩
  refine ⟨by simpa [swapBoot] using hstart, by simpa [swapBoot, Seg.stop] using hspace,
    by simp [swapBoot], ?_⟩
  intro range _
  show Disjoint range.units (unitsOf ((swapmap (n + 1)).entries.map Mapent.seg))
  simp [hentries]

/-- In every state that a run on the swap map reaches, `malloc` and `malloc3` stay inside the array,
and `mfree` of a held range stays inside it, or reports the loss and leaves the map unchanged,
exactly when there is a place for the range. -/
theorem swap_map_inside {smapsiz swapstart nswap : Nat} {ops : List Op} (hsize : 0 < smapsiz)
    (hstart : 0 < swapstart) (hspace : swapstart + nswap < 2 ^ 32)
    (hrun : Steps SwapStep (swapBoot smapsiz swapstart nswap) ops st) :
    (∀ size, 0 < size → (malloc st.map size).isSome) ∧
    (∀ dSize sSize uSize, (malloc3 st.map dSize sSize uSize).isSome) ∧
    ∀ whole ∈ st.live, ∀ range : Seg, whole.start ≤ range.start → range.stop ≤ whole.stop →
      (MfreeInside st.map range ↔ Fits st.map range) := by
  have h : SwapGood st := hrun.invariant SwapGood (fun _ _ _ h hstep => h.swap_step hstep)
    (swap_boot_good hsize hstart hspace)
  have hwf := h.good.wellFormed
  refine ⟨?_, ?_, ?_⟩
  · intro size hpos
    obtain ⟨addr, mp, hcall, -⟩ := malloc_succeeds_iff hwf hpos
    exact Option.isSome_iff_exists.mpr ⟨_, hcall⟩
  · intro dSize sSize uSize
    obtain ⟨addr, a, mp, hcall, -⟩ := malloc3_fails_unchanged hwf dSize sSize uSize
    exact Option.isSome_iff_exists.mpr ⟨_, hcall⟩
  · intro whole hwhole range hlow hhigh
    exact h.mfree_inside_iff hwhole hlow hhigh

deriving instance DecidableEq for Seg

/-- `malloc`, and `mfree` of whole allocations, as a function. -/
def State.call (st : State) : Op → Option State
  | .malloc size => do
      let (addr, mp) ← malloc st.map size
      if addr = 0 then none else some ⟨mp, ⟨addr, size⟩ :: st.live⟩
  | .malloc3 .. => none
  | .mfree range => do
      let (freed, mp) ← mfree st.map range.len range.start
      let before := st.live.takeWhile (· ≠ range)
      match freed, st.live.dropWhile (· ≠ range) with
      | .done, whole :: after =>
          if whole = range then some ⟨mp, before ++ (remnants whole range ++ after)⟩ else none
      | _, _ => none

/-- What the function does is a call. -/
theorem State.call_step {op : Op} (h : st.call op = some st') : SwapStep st op st' := by
  cases op with
  | malloc size =>
      obtain ⟨⟨addr, mp⟩, hcall, hres⟩ := Option.bind_eq_some_iff.mp h
      dsimp only at hres
      split at hres
      · cases hres
      · rename_i haddr
        cases hres
        have hsize : 0 < size := by
          by_contra hzero
          rw [malloc, if_pos (by omega)] at hcall
          cases hcall
        exact .call (.malloc hsize hcall haddr)
  | malloc3 => cases h
  | mfree range =>
      obtain ⟨⟨freed, mp⟩, hcall, hres⟩ := Option.bind_eq_some_iff.mp h
      dsimp only at hres
      split at hres
      · rename_i whole after hdrop
        split at hres
        · rename_i hwhole
          subst hwhole
          cases hres
          have hlive : st.live = st.live.takeWhile (· ≠ whole) ++ whole :: after := by
            rw [← hdrop, List.takeWhile_append_dropWhile]
          obtain ⟨map, live⟩ := st
          dsimp only at hlive hcall ⊢
          generalize live.takeWhile (· ≠ whole) = before at hlive
          subst hlive
          exact .call (.mfree le_rfl le_rfl hcall)
        · cases hres
      · cases hres

/-- A swap space of 100 blocks of which four are allocated: the second of them can be returned. -/
theorem swap_map_inside_four :
    ∃ st, Steps SwapStep (swapBoot 28 1 100) [.mfree ⟨1, 100⟩, .malloc 4] st ∧
      (malloc3 st.map 2 1 3).isSome ∧ MfreeInside st.map ⟨2, 1⟩ ∧ Fits st.map ⟨2, 1⟩ := by
  have hrun : (([.mfree ⟨1, 100⟩, .malloc 4] : List Op).foldlM State.call
      (swapBoot 28 1 100)).any fun st =>
        (⟨1, 4⟩ : Seg) ∈ st.live ∧ st.map.entries.length + 1 < st.map.mMap.length := by
    decide +kernel
  obtain ⟨st, hrun, hst⟩ := (Option.any_eq_true _ _).mp hrun
  obtain ⟨hlive, hroom⟩ := of_decide_eq_true hst
  have hsteps := (Steps.of_foldlM hrun).mono fun _ _ _ => State.call_step
  have h := swap_map_inside (by decide) (by decide) (by decide) hsteps
  have hfits : Fits st.map ⟨2, 1⟩ := Or.inr (Or.inr hroom)
  exact ⟨st, hsteps, h.2.1 2 1 3,
    (h.2.2 ⟨1, 4⟩ hlive ⟨2, 1⟩ (by decide) (by decide)).mpr hfits, hfits⟩

/-- The swap space of 100 blocks, 55 of them allocated one by one, and the even ones up to 52
returned. -/
def fragmenting : List Op :=
  .mfree ⟨1, 100⟩ :: (List.replicate 55 (.malloc 1) ++
    (List.range 26).map fun i => .mfree ⟨2 * i + 2, 1⟩)

/-- With the 28 slots of the machine, 27 segments fill the map: `mfree` of one more allocated block
that abuts none of them writes the closing slot behind the array instead of reporting the loss. -/
theorem mfree_outside :
    ∃ st, Steps SwapStep (swapBoot 28 1 100) fragmenting st ∧ st.map.mMap.length = 28 ∧
      st.map.entries.length = 27 ∧ (⟨54, 1⟩ : Seg) ∈ st.live ∧ mfree st.map 1 54 = none ∧
      ¬ MfreeInside st.map ⟨54, 1⟩ := by
  have hrun : (fragmenting.foldlM State.call (swapBoot 28 1 100)).any fun st =>
      st.map.mMap.length = 28 ∧ st.map.entries.length = 27 ∧ (⟨54, 1⟩ : Seg) ∈ st.live ∧
        mfree st.map 1 54 = none := by
    decide +kernel
  obtain ⟨st, hrun, hst⟩ := (Option.any_eq_true _ _).mp hrun
  obtain ⟨hlength, hentries, hlive, hnone⟩ := of_decide_eq_true hst
  refine ⟨st, (Steps.of_foldlM hrun).mono fun _ _ _ => State.call_step, hlength, hentries, hlive,
    hnone, ?_⟩
  rintro ⟨freed, mp', hcall, -⟩
  cases hnone.symm.trans hcall

end DiscoBsd.Rmap
