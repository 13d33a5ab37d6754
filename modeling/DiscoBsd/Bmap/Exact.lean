import DiscoBsd.Bmap.Released

/-!
# Truncation is exact

`itrunc_exact` is the result: of a file that is made shorter, exactly the blocks are freed from which
no kept logical block is reached, each of them once; the kept logical blocks are mapped as
before, and the last one of them is cleared behind the new end. An indirect block whose range
reaches below the end stays, whether or not it maps anything.
-/

namespace DiscoBsd.Bmap

open Alloc Lib.Pointers

/-- The first logical block behind a slot of the inode. -/
def firstBlock (a : Nat) : Nat := if a < 4 then a else base (a - 3)

/-- The blocks of a file with the first logical block behind each. -/
def fileSpans (f : File) : List (Nat × Nat) :=
  (List.range NADDR).flatMap fun a =>
    spans NINDIR (words f.vol) (height a) (f.i_addr a) (firstBlock a)

/-- The address that is kept in a slot if `kept` logical blocks are. -/
def keptSlot (kept a p : Nat) : Nat := if kept ≤ firstBlock a then 0 else p

/-- What is done for one slot of the inode. -/
def slotStep (kept a p : Nat) (d : Disk) : Disk :=
  if p = 0 then d
  else if kept ≤ firstBlock a then dropTree (height a) p d
  else if kept ≤ firstBlock a + NINDIR ^ height a then
    keepTree (height a) p (kept - 1 - firstBlock a) d
  else d

/-- The tree of a slot before and after. -/
structure SlotCut (d d' : Disk) (kept a p : Nat) : Prop where
  spans : spans NINDIR (words d'.1) (height a) (keptSlot kept a p) (firstBlock a) =
    (spans NINDIR (words d.1) (height a) p (firstBlock a)).filter fun x => x.2 < kept
  follow : ∀ path : List Nat, path.length = height a → (∀ i ∈ path, i < NINDIR) →
    follow (words d'.1) path (keptSlot kept a p) =
      if firstBlock a + number NINDIR path < kept then follow (words d.1) path p else 0

theorem spans_map_subset {mem : Nat → Nat → Nat} {height p lo b : Nat} {q : Nat × Nat → Bool}
    (hb : b ∈ ((Lib.Pointers.spans NINDIR mem height p lo).filter q).map Prod.fst) :
    b ∈ blocks NINDIR mem height p := by
  obtain ⟨x, hx, hxb⟩ := List.mem_map.mp hb
  rw [← spans_map_fst height p lo]
  exact List.mem_map.mpr ⟨x, (List.mem_filter.mp hx).1, hxb⟩

/-- One slot. -/
theorem slot_freed (kept a : Nat) {p : Nat} (d : Disk)
    (hnodup : (blocks NINDIR (words d.1) (height a) p).Nodup) :
    ∃ freed, freed.Perm (((Lib.Pointers.spans NINDIR (words d.1) (height a) p
        (firstBlock a)).filter fun x => ¬ x.2 < kept).map Prod.fst) ∧
      Freed d (slotStep kept a p d) freed (inner NINDIR (words d.1) (height a) p) ∧
      SlotCut d (slotStep kept a p d) kept a p := by
  have hfan : 0 < NINDIR := by decide
  have hrange : ∀ x ∈ Lib.Pointers.spans NINDIR (words d.1) (height a) p (firstBlock a),
      firstBlock a ≤ x.2 ∧ x.2 < firstBlock a + NINDIR ^ height a :=
    fun x hx => spans_range hfan hx
  unfold slotStep
  by_cases hp : p = 0
  · subst hp
    rw [if_pos rfl]
    have hnull : keptSlot kept a 0 = 0 := by
      unfold keptSlot
      split <;> rfl
    refine ⟨[], by simp, (Freed.refl d).weaken (by simp), by simp [hnull], fun path _ _ => ?_⟩
    rw [hnull]
    simp
  rw [if_neg hp]
  by_cases hdrop : kept ≤ firstBlock a
  · rw [if_pos hdrop]
    have hzero : keptSlot kept a p = 0 := if_pos hdrop
    obtain ⟨freed, hperm, hfreed⟩ := drop_freed d hp hnodup
    refine ⟨freed, ?_, hfreed.weaken (by simp), ?_, fun path _ _ => ?_⟩
    · rw [← spans_map_fst (height a) p (firstBlock a)] at hperm
      rw [List.filter_eq_self.mpr]
      · exact hperm
      · intro x hx
        have hlow := (hrange x hx).1
        simp only [decide_eq_true_eq]
        omega
    · rw [hzero, spans_null, filter_spans_above hfan hdrop]
    · rw [hzero, follow_null, if_neg (by omega)]
  rw [if_neg hdrop]
  have hsame : keptSlot kept a p = p := if_neg hdrop
  by_cases hcut : kept ≤ firstBlock a + NINDIR ^ height a
  · rw [if_pos hcut]
    obtain ⟨freed, hperm, hfreed, hspans, hfollow⟩ := keep_freed (m := kept - 1 - firstBlock a) d
      (firstBlock a) (by omega) hnodup
    have hbound : firstBlock a + (kept - 1 - firstBlock a) + 1 = kept := by omega
    rw [hbound] at hperm hspans
    refine ⟨freed, hperm, hfreed, ?_, fun path hlength hpath => ?_⟩
    · rw [hsame]
      exact hspans
    · rw [hsame, hfollow path hlength hpath]
      exact if_congr (by omega) rfl rfl
  · rw [if_neg hcut]
    refine ⟨[], ?_, (Freed.refl d).weaken (by simp), ?_, fun path hlength hpath => ?_⟩
    · rw [List.filter_eq_nil_iff.mpr]
      · simp
      · intro x hx
        have hhigh := (hrange x hx).2
        simp only [decide_eq_true_eq]
        omega
    · rw [hsame, filter_spans_below hfan (by omega)]
    · have hnumber := number_lt hpath
      rw [hlength] at hnumber
      rw [hsame, if_pos (by omega)]

/-- All slots below one of them, the last one first. -/
theorem slots_freed (kept : Nat) (i_addr : Nat → Nat) (n : Nat) (d : Disk)
    (hnodup : ((List.range n).flatMap fun a =>
      blocks NINDIR (words d.1) (height a) (i_addr a)).Nodup) :
    ∃ freed, freed.Perm (((List.range n).flatMap fun a =>
        Lib.Pointers.spans NINDIR (words d.1) (height a) (i_addr a) (firstBlock a)).filter
          (fun x => ¬ x.2 < kept) |>.map Prod.fst) ∧
      Freed d (downTo 0 (fun a d => slotStep kept a (i_addr a) d) n d) freed
        ((List.range n).flatMap fun a => inner NINDIR (words d.1) (height a) (i_addr a)) ∧
      ∀ a < n, SlotCut d (downTo 0 (fun a d => slotStep kept a (i_addr a) d) n d) kept a
        (i_addr a) := by
  induction n generalizing d with
  | zero => exact ⟨[], by simp, .refl d, by simp⟩
  | succ n ih =>
      unfold downTo
      rw [if_pos (Nat.zero_le n)]
      rw [List.range_succ, List.flatMap_append] at hnodup
      obtain ⟨hrest, hlast, hapart⟩ := List.nodup_append.mp hnodup
      simp only [List.flatMap_cons, List.flatMap_nil, List.append_nil] at hlast hapart
      have hapart' : ∀ a < n, ∀ b ∈ blocks NINDIR (words d.1) (height a) (i_addr a),
          b ∉ blocks NINDIR (words d.1) (height n) (i_addr n) := fun a ha b hb hb' =>
        hapart b (List.mem_flatMap.mpr ⟨a, List.mem_range.mpr ha, hb⟩) b hb' rfl
      obtain ⟨freed₁, hperm₁, hfreed₁, hslot₁⟩ := slot_freed kept n d hlast
      have hsub₁ : ∀ b ∈ freed₁, b ∈ blocks NINDIR (words d.1) (height n) (i_addr n) :=
        fun b hb => spans_map_subset (hperm₁.subset hb)
      obtain ⟨d₁, hd₁⟩ : ∃ d₁, d₁ = slotStep kept n (i_addr n) d := ⟨_, rfl⟩
      rw [← hd₁] at hfreed₁ hslot₁ ⊢
      have hsame : ∀ a < n, ∀ b ∈ inner NINDIR (words d.1) (height a) (i_addr a),
          ∀ i < NINDIR, words d₁.1 b i = words d.1 b i := fun a ha =>
        hfreed₁.same_tree _ _ (fun b hb hmem => hapart' a ha b hb (hsub₁ b hmem))
          fun b hb hmem => hapart' a ha b hb (inner_subset_blocks hmem)
      have hblocks : ∀ a ∈ List.range n, blocks NINDIR (words d₁.1) (height a) (i_addr a) =
          blocks NINDIR (words d.1) (height a) (i_addr a) :=
        fun a ha => blocks_congr (hsame a (List.mem_range.mp ha))
      have hspans : ∀ a ∈ List.range n,
          Lib.Pointers.spans NINDIR (words d₁.1) (height a) (i_addr a) (firstBlock a) =
            Lib.Pointers.spans NINDIR (words d.1) (height a) (i_addr a) (firstBlock a) :=
        fun a ha => spans_congr _ (hsame a (List.mem_range.mp ha))
      have hinner : ∀ a ∈ List.range n, inner NINDIR (words d₁.1) (height a) (i_addr a) =
          inner NINDIR (words d.1) (height a) (i_addr a) :=
        fun a ha => inner_congr (hsame a (List.mem_range.mp ha))
      obtain ⟨freed₂, hperm₂, hfreed₂, hslots₂⟩ := ih d₁ (by
        rw [List.flatMap_congr hblocks]
        exact hrest)
      rw [List.flatMap_congr hspans] at hperm₂
      rw [List.flatMap_congr hinner] at hfreed₂
      have hsub₂ : ∀ b ∈ freed₂, ∃ a, a < n ∧
          b ∈ blocks NINDIR (words d.1) (height a) (i_addr a) := by
        intro b hb
        obtain ⟨x, hx, hxb⟩ := List.mem_map.mp (hperm₂.subset hb)
        obtain ⟨a, ha, hmem⟩ := List.mem_flatMap.mp (List.mem_filter.mp hx).1
        refine ⟨a, List.mem_range.mp ha, ?_⟩
        rw [← spans_map_fst (height a) (i_addr a) (firstBlock a)]
        exact List.mem_map.mpr ⟨x, hmem, hxb⟩
      have htouched₂ : ∀ b ∈ (List.range n).flatMap fun a =>
          inner NINDIR (words d.1) (height a) (i_addr a), ∃ a, a < n ∧
            b ∈ blocks NINDIR (words d.1) (height a) (i_addr a) := by
        intro b hb
        obtain ⟨a, ha, hmem⟩ := List.mem_flatMap.mp hb
        exact ⟨a, List.mem_range.mp ha, inner_subset_blocks hmem⟩
      have hall := hfreed₁.trans hfreed₂ fun b hb hmem => by
        obtain ⟨a, ha, hb'⟩ := htouched₂ b hb
        exact hapart' a ha b hb' (hsub₁ b hmem)
      obtain ⟨d₂, hd₂⟩ : ∃ d₂, d₂ =
        downTo 0 (fun a d => slotStep kept a (i_addr a) d) n d₁ := ⟨_, rfl⟩
      rw [← hd₂] at hfreed₂ hslots₂ hall ⊢
      refine ⟨freed₁ ++ freed₂, ?_, hall.weaken ?_, ?_⟩
      · rw [List.range_succ, List.flatMap_append, List.filter_append, List.map_append]
        simp only [List.flatMap_cons, List.flatMap_nil, List.append_nil]
        exact List.perm_append_comm.trans (hperm₂.append hperm₁)
      · intro b hb
        rw [List.range_succ, List.flatMap_append]
        simp only [List.flatMap_cons, List.flatMap_nil, List.append_nil]
        exact Or.inl (List.mem_append.mpr (List.mem_append.mp hb).symm)
      · intro a ha
        rcases Nat.lt_succ_iff_lt_or_eq.mp ha with hlt | rfl
        · obtain ⟨hcut, hfollow⟩ := hslots₂ a hlt
          refine ⟨?_, fun path hlength hpath => ?_⟩
          · rw [hcut, hspans a (List.mem_range.mpr hlt)]
          · rw [hfollow path hlength hpath, follow_congr hlength.le hpath (hsame a hlt)]
        · -- what is left of the tree of the last slot is not touched any more
          have hleft : ∀ b ∈ blocks NINDIR (words d₁.1) (height a)
              (keptSlot kept a (i_addr a)), b ∈ blocks NINDIR (words d.1) (height a)
                (i_addr a) := by
            intro b hb
            rw [← spans_map_fst (height a) _ (firstBlock a), hslot₁.spans] at hb
            exact spans_map_subset hb
          have hkept := hfreed₂.same_tree (height a) (keptSlot kept a (i_addr a))
            (fun b hb hmem => by
              obtain ⟨c, hc, hmem'⟩ := hsub₂ b hmem
              exact hapart' c hc b hmem' (hleft b hb)) (fun b hb hmem => by
              obtain ⟨c, hc, hmem'⟩ := htouched₂ b hmem
              exact hapart' c hc b hmem' (hleft b hb))
          refine ⟨?_, fun path hlength hpath => ?_⟩
          · rw [spans_congr _ hkept, hslot₁.spans]
          · rw [follow_congr hlength.le hpath hkept, hslot₁.follow path hlength hpath]

/-! ## The order of `itrunc` -/

theorem lastiblock_eq (kept level : Nat) :
    lastiblock ((kept : Int) - 1) level = (kept : Int) - 1 - base (level + 1) := by
  induction level with
  | zero => rfl
  | succ level ih =>
      have hbase : base (level + 1 + 1) = base (level + 1) + NINDIR ^ (level + 1) := rfl
      rw [lastiblock, ih, hbase]
      push_cast
      omega

theorem keptAddr_eq (i_addr : Nat → Nat) (kept : Nat) {a : Nat} :
    keptAddr i_addr ((kept : Int) - 1) a = keptSlot kept a (i_addr a) := by
  unfold keptAddr keptSlot firstBlock
  have hdirect : NDADDR = 4 := rfl
  by_cases ha : a < 4
  · rw [if_pos (by omega), if_pos ha]
    exact if_congr (by omega) rfl rfl
  · rw [if_neg (by omega), if_neg ha, lastiblock_eq]
    have hlevel : a - NDADDR + 1 = a - 3 := by omega
    rw [hlevel]
    exact if_congr (by omega) rfl rfl

/-- A loop that starts later is a loop whose body does nothing at first. -/
theorem downTo_eq {σ : Type} (low : Nat) (f : Nat → σ → σ) (n : Nat) (s : σ) :
    downTo low f n s = downTo 0 (fun i s => if low ≤ i then f i s else s) n s := by
  have hnothing : ∀ n s, n ≤ low →
      downTo 0 (fun i s => if low ≤ i then f i s else s) n s = s := by
    intro n
    induction n with
    | zero => exact fun _ _ => rfl
    | succ n ih =>
        intro s hle
        rw [downTo, if_pos (Nat.zero_le n), if_neg (by omega)]
        exact ih s (by omega)
  induction n generalizing s with
  | zero => rfl
  | succ n ih =>
      rw [downTo, downTo, if_pos (Nat.zero_le n)]
      by_cases hlow : low ≤ n
      · rw [if_pos hlow, if_pos hlow]
        exact ih (f n s)
      · rw [if_neg hlow, if_neg hlow]
        exact (hnothing n s (by omega)).symm

theorem downTo_congr {σ : Type} {f g : Nat → σ → σ} {n : Nat} (h : ∀ i < n, ∀ s, f i s = g i s)
    (s : σ) : downTo 0 f n s = downTo 0 g n s := by
  induction n generalizing s with
  | zero => rfl
  | succ n ih =>
      rw [downTo, downTo, if_pos (Nat.zero_le n), if_pos (Nat.zero_le n), h n (Nat.lt_succ_self n)]
      exact ih (fun i hi => h i (Nat.lt_succ_of_lt hi)) (g n s)

theorem downTo_id {σ : Type} {f : Nat → σ → σ} {n : Nat} (h : ∀ i < n, ∀ s, f i s = s) (s : σ) :
    downTo 0 f n s = s := by
  induction n generalizing s with
  | zero => rfl
  | succ n ih =>
      rw [downTo, if_pos (Nat.zero_le n), h n (Nat.lt_succ_self n)]
      exact ih (fun i hi => h i (Nat.lt_succ_of_lt hi)) s

theorem base_mono {l l' : Nat} (h : l ≤ l') : base l ≤ base l' := by
  induction h with
  | refl => exact le_refl _
  | step _ ih => exact ih.trans (Nat.le_add_right _ _)

/-- The slots below one with indirect blocks end where its range starts. -/
theorem slot_end {a n : Nat} (h : a < n + 4) :
    firstBlock a + NINDIR ^ height a ≤ base (n + 1) := by
  unfold firstBlock height
  by_cases ha : a < 4
  · rw [if_pos ha]
    have hzero : a - 3 = 0 := by omega
    rw [hzero, Nat.pow_zero]
    have hone : base 1 ≤ base (n + 1) := base_mono (by omega)
    have hfour : base 1 = 4 := rfl
    omega
  · rw [if_neg ha]
    exact base_mono (l := a - 3 + 1) (by omega)

/-- `itrunc` goes over the slots of the inode from the last one to the first. -/
theorem freeIndirect_slots (i_addr : Nat → Nat) (kept n : Nat) (d : Disk)
    (h : kept ≤ base (n + 1)) :
    (if (freeIndirect i_addr ((kept : Int) - 1) n d).2 = true
      then (freeIndirect i_addr ((kept : Int) - 1) n d).1
      else downTo kept (fun i d => if i_addr i = 0 then d else d.free (i_addr i)) NDADDR
        (freeIndirect i_addr ((kept : Int) - 1) n d).1) =
      downTo 0 (fun a d => slotStep kept a (i_addr a) d) (n + 4) d := by
  induction n generalizing d with
  | zero =>
      rw [freeIndirect, if_neg (by simp), downTo_eq]
      refine downTo_congr (fun a ha d => ?_) d
      have hfirst : firstBlock a = a := if_pos ha
      have hheight : height a = 0 := Nat.sub_eq_zero_of_le (Nat.le_of_lt_succ ha)
      unfold slotStep
      rw [hfirst, hheight]
      by_cases hp : i_addr a = 0
      · rw [if_pos hp, if_pos hp, ite_self]
      · rw [if_neg hp, if_neg hp]
        refine if_congr Iff.rfl rfl ?_
        exact (ite_self d).symm
  | succ n ih =>
      have hfirst : firstBlock (n + 4) = base (n + 1) := if_neg (by omega)
      have hheight : height (n + 4) = n + 1 := rfl
      have hslot : NDADDR + n = n + 4 := Nat.add_comm 4 n
      have hsucc : base (n + 1 + 1) = base (n + 1) + NINDIR ^ (n + 1) := rfl
      have hstep : n + 1 + 4 = n + 4 + 1 := by omega
      rw [freeIndirect, hstep, downTo, if_pos (Nat.zero_le _), lastiblock_eq, hslot]
      have hone : (if i_addr (n + 4) = 0 then d
          else if (kept : Int) - 1 - base (n + 1) < 0
            then (indirtrunc n (i_addr (n + 4)) (-1) d).free (i_addr (n + 4))
            else indirtrunc n (i_addr (n + 4)) ((kept : Int) - 1 - base (n + 1)) d) =
          slotStep kept (n + 4) (i_addr (n + 4)) d := by
        unfold slotStep
        rw [hfirst, hheight]
        by_cases hp : i_addr (n + 4) = 0
        · rw [if_pos hp, if_pos hp]
        · rw [if_neg hp, if_neg hp]
          by_cases hdrop : kept ≤ base (n + 1)
          · rw [if_pos (by omega), if_pos hdrop]
            rfl
          · have hrest : kept ≤ base (n + 1) + NINDIR ^ (n + 1) := by omega
            have hcast : (kept : Int) - 1 - base (n + 1) = (kept - 1 - base (n + 1) : Nat) := by
              omega
            rw [if_neg (by omega), if_neg hdrop, if_pos hrest, hcast, keepTree, if_neg hp]
      rw [hone]
      by_cases hlast : 0 ≤ (kept : Int) - 1 - base (n + 1)
      · -- the slots below this one are kept as they are
        rw [if_pos hlast, if_pos rfl]
        refine (downTo_id (fun a ha d => ?_) _).symm
        have hend := slot_end ha
        have hlow : ¬ kept ≤ firstBlock a := by omega
        have hhigh : ¬ kept ≤ firstBlock a + NINDIR ^ height a := by omega
        rw [slotStep, if_neg hlow, if_neg hhigh, ite_self]
      · rw [if_neg hlast]
        exact ih _ (by omega)

/-! ## What is released -/

/-- The blocks of a file with pointers. -/
def fileInner (f : File) : List Nat :=
  (List.range NADDR).flatMap fun a => inner NINDIR (words f.vol) (height a) (f.i_addr a)

theorem fileSpans_map_fst (f : File) : (fileSpans f).map Prod.fst = fileBlocks f := by
  rw [fileSpans, List.map_flatMap]
  exact List.flatMap_congr fun a _ => spans_map_fst (height a) (f.i_addr a) (firstBlock a)

theorem fileInner_subset {f : File} {b : Nat} (hb : b ∈ fileInner f) : b ∈ fileBlocks f := by
  obtain ⟨a, ha, hb⟩ := List.mem_flatMap.mp hb
  exact List.mem_flatMap.mpr ⟨a, ha, inner_subset_blocks hb⟩

theorem number_digits (levels n : Nat) : number NINDIR (digits levels n) = n % NINDIR ^ levels := by
  induction levels with
  | zero => simp [digits, number, Nat.mod_one]
  | succ levels ih =>
      rw [digits, number, digits_length, ih, Nat.pow_succ, Nat.mod_mul, Nat.mul_comm]
      exact Nat.add_comm _ _

theorem path_number {bn : Int} {a : Nat} {indices : List Nat} (h : path bn = some (a, indices)) :
    bn = (firstBlock a + number NINDIR indices : Nat) := by
  rcases path_cases h with ⟨hlt, rfl, hbn⟩ | ⟨levels, n, hpos, -, rfl, rfl, hn, hbn⟩
  · rw [hbn, firstBlock, if_pos hlt]
    rfl
  · have hlevels : 3 + levels - 3 = levels := Nat.add_sub_cancel_left 3 levels
    rw [hbn, firstBlock, if_neg (by omega), hlevels, number_digits, Nat.mod_eq_of_lt hn]

/-- What the release of everything behind the first `kept` logical blocks makes of a file. -/
structure Released (f f' : File) (kept : Nat) (freed free : List Nat) : Prop where
  blocks : freed.Perm (((fileSpans f).filter fun x => ¬ x.2 < kept).map Prod.fst)
  left : fileSpans f' = (fileSpans f).filter fun x => x.2 < kept
  recorded : ∀ bn, recorded f' bn = if bn < kept then recorded f bn else 0
  frame : ∀ b, b ∉ freed → b ∉ fileInner f → f'.vol.block b = f.vol.block b
  sound : Sound f' (freed.reverse ++ free)

/-- The release is a step for each slot. -/
theorem release_eq (kept : Nat) (f : File) (h : kept ≤ base 4) :
    release ((kept : Int) - 1) f =
      let d := downTo 0 (fun a d => slotStep kept a (f.i_addr a) d) NADDR (f.vol, [])
      ({ f with
          vol := d.1
          i_addr := fun a => keptSlot kept a (f.i_addr a)
          i_flag := true }, d.2) := by
  have hlow : ((kept : Int) - 1 + 1).toNat = kept := by omega
  have haddr : keptAddr f.i_addr ((kept : Int) - 1) = fun a => keptSlot kept a (f.i_addr a) :=
    funext fun a => keptAddr_eq f.i_addr kept
  have hcount : NADDR = 3 + 4 := rfl
  unfold release
  dsimp only
  rw [hlow, freeIndirect_slots f.i_addr kept 3 (f.vol, []) h, haddr, hcount]

theorem release_exact {f : File} {free : List Nat} {kept : Nat} (hsound : Sound f free)
    (h : kept ≤ base 4) :
    Released f (release ((kept : Int) - 1) f).1 kept (release ((kept : Int) - 1) f).2 free := by
  obtain ⟨hfile, hfree, hapart⟩ := List.nodup_append.mp hsound.nodup
  obtain ⟨freed, hperm, hfreed, hslots⟩ := slots_freed kept f.i_addr NADDR (f.vol, [])
    hfile
  rw [release_eq kept f h]
  dsimp only
  generalize downTo 0 (fun a d => slotStep kept a (f.i_addr a) d) NADDR (f.vol, []) = d at *
  have hlog : d.2 = freed := hfreed.log
  rw [hlog]
  have hleft : fileSpans { f with
      vol := d.1
      i_addr := fun a => keptSlot kept a (f.i_addr a)
      i_flag := true } = (fileSpans f).filter fun x => x.2 < kept := by
    unfold fileSpans
    rw [List.filter_flatMap]
    exact List.flatMap_congr fun a ha => (hslots a (List.mem_range.mp ha)).spans
  have hall := List.filter_append_perm (fun x : Nat × Nat => decide (x.2 < kept)) (fileSpans f)
  have hsplit : (((fileSpans f).filter fun x => x.2 < kept).map Prod.fst ++ freed).Perm
      (fileBlocks f) := by
    rw [← fileSpans_map_fst]
    refine List.Perm.trans ?_ (hall.map Prod.fst)
    rw [List.map_append]
    refine List.Perm.append_left _ (hperm.trans ?_)
    simp only [decide_not]
    exact .refl _
  have hgone : ∀ b ∈ freed, b ∈ fileBlocks f := fun b hb =>
    hsplit.subset (List.mem_append_right _ hb)
  refine ⟨hperm, hleft, fun bn => ?_, fun b hb hb' => hfreed.frame b hb hb', ?_⟩
  · unfold recorded
    cases hpath : path bn with
    | none => simp
    | some place =>
        obtain ⟨a, indices⟩ := place
        obtain ⟨ha, hlength, hindices⟩ := path_fits hpath
        have hbn := path_number hpath
        dsimp only
        rw [(hslots a ha).follow indices hlength hindices]
        exact if_congr (by omega) rfl rfl
  · have hperm' : (fileBlocks f ++ free).Perm
        (((fileSpans f).filter fun x => x.2 < kept).map Prod.fst ++ (freed.reverse ++ free)) := by
      rw [← List.append_assoc]
      refine List.Perm.append_right _ (hsplit.symm.trans ?_)
      exact List.Perm.append_left _ (List.reverse_perm freed).symm
    have hnodup := hperm'.nodup_iff.mp hsound.nodup
    refine ⟨?_, ?_, ?_⟩
    · refine hfreed.wellFormed free hsound.wellFormed (fun b hb => hsound.in_range b (hgone b hb))
        (List.nodup_append.mp hnodup).2.1 fun b hb hmem => ?_
      exact hapart b (fileInner_subset hb) b hmem rfl
    · rw [← fileSpans_map_fst, hleft]
      exact hnodup
    · intro b hb
      rw [← fileSpans_map_fst, hleft] at hb
      rw [hfreed.area.1, hfreed.area.2]
      exact hsound.in_range b (hsplit.subset (List.mem_append_left _ hb))

end DiscoBsd.Bmap
