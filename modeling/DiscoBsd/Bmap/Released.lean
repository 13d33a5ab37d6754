import DiscoBsd.Bmap.Faithful
import DiscoBsd.Bmap.Truncate

/-!
# What a truncation frees

`Freed` says what calls of `free` and writes to some blocks do to a volume. `drop_freed` is about a
whole tree of indirect blocks and `keep_freed` about a tree cut behind one of its leaves: what is
freed are the blocks from which no kept leaf is reached, once each, and the tree that stays has
the other blocks, with their pointers as before. `spans` gives each block the number of the
first leaf below it.
-/

namespace DiscoBsd.Bmap

open Alloc Lib.Pointers

/-- Blocks that were passed to `free` one after the other, and blocks that were written to. -/
structure Freed (d d' : Disk) (freed touched : List Nat) : Prop where
  log : d'.2 = d.2 ++ freed
  area : d'.1.fs.fsIsize = d.1.fs.fsIsize ∧ d'.1.fs.fsFsize = d.1.fs.fsFsize
  frame : ∀ b, b ∉ freed → b ∉ touched → d'.1.block b = d.1.block b
  wellFormed : ∀ free, WellFormed d.1 free →
    (∀ b ∈ freed, d.1.fs.fsIsize ≤ b ∧ b < d.1.fs.fsFsize) → (freed.reverse ++ free).Nodup →
    (∀ b ∈ touched, b ∉ free) → WellFormed d'.1 (freed.reverse ++ free)

theorem Freed.refl (d : Disk) : Freed d d [] [] :=
  ⟨(List.append_nil _).symm, ⟨rfl, rfl⟩, fun _ _ _ => rfl, fun _ hwf _ _ _ => hwf⟩

theorem Freed.trans {d d' d'' : Disk} {freed freed' touched touched' : List Nat}
    (h : Freed d d' freed touched) (h' : Freed d' d'' freed' touched')
    (hapart : ∀ b ∈ touched', b ∉ freed) :
    Freed d d'' (freed ++ freed') (touched ++ touched') := by
  refine ⟨?_, ⟨h'.area.1.trans h.area.1, h'.area.2.trans h.area.2⟩, ?_, ?_⟩
  · rw [h'.log, h.log, List.append_assoc]
  · intro b hb hb'
    rw [List.mem_append, not_or] at hb hb'
    exact (h'.frame b hb.2 hb'.2).trans (h.frame b hb.1 hb'.1)
  · intro free hwf hrange hnodup htouched
    rw [List.reverse_append, List.append_assoc] at hnodup ⊢
    refine h'.wellFormed _ (h.wellFormed free hwf (fun b hb => hrange b
      (List.mem_append_left _ hb)) (List.nodup_append.mp hnodup).2.1 fun b hb =>
      htouched b (List.mem_append_left _ hb)) ?_ hnodup ?_
    · intro b hb
      rw [h.area.1, h.area.2]
      exact hrange b (List.mem_append_right _ hb)
    · intro b hb hmem
      rcases List.mem_append.mp hmem with hfreed | hfree
      · exact hapart b hb (List.mem_reverse.mp hfreed)
      · exact htouched b (List.mem_append_right _ hb) hfree

/-- A block that is freed in the end may be written to before. -/
theorem Freed.weaken {d d' : Disk} {freed touched touched' : List Nat}
    (h : Freed d d' freed touched) (hsub : ∀ b ∈ touched, b ∈ touched' ∨ b ∈ freed) :
    Freed d d' freed touched' := by
  refine ⟨h.log, h.area, fun b hb hb' => h.frame b hb fun hmem => ?_, ?_⟩
  · exact (hsub b hmem).elim hb' hb
  · intro free hwf hrange hnodup htouched
    refine h.wellFormed free hwf hrange hnodup fun b hb hfree => ?_
    rcases hsub b hb with hmem | hmem
    · exact htouched b hmem hfree
    · exact (List.nodup_append.mp hnodup).2.2 b (List.mem_reverse.mpr hmem) b hfree rfl

/-- One call of `free`. -/
theorem freed_free (d : Disk) (bno : Nat) : Freed d (d.free bno) [bno] [] := by
  refine ⟨rfl, ?_, ?_, ?_⟩
  · show (Alloc.free bno d.1).fs.fsIsize = _ ∧ (Alloc.free bno d.1).fs.fsFsize = _
    unfold Alloc.free
    split <;> exact ⟨rfl, rfl⟩
  · intro b hb _
    show (Alloc.free bno d.1).block b = _
    unfold Alloc.free
    split
    · rfl
    · dsimp only
      split
      · exact Function.update_of_ne (fun heq => hb (List.mem_singleton.mpr heq)) _ _
      · rfl
  · intro free hwf hrange hnodup _
    obtain ⟨hlow, hhigh⟩ := hrange bno (List.mem_singleton.mpr rfl)
    exact free_push hwf hlow hhigh (List.nodup_cons.mp hnodup).1

theorem freed_write (d : Disk) (bno : Nat) (contents : Fblk) :
    Freed d (d.write bno contents) [] [bno] := by
  refine ⟨(List.append_nil _).symm, ⟨rfl, rfl⟩, ?_, ?_⟩
  · intro b _ hb
    exact Function.update_of_ne (fun heq => hb (List.mem_singleton.mpr heq)) _ _
  · intro free hwf _ _ htouched
    exact hwf.store (htouched bno (List.mem_singleton.mpr rfl)) contents

theorem Freed.same_tree {d d' : Disk} {freed touched : List Nat} (h : Freed d d' freed touched)
    (height p : Nat) (hfreed : ∀ b ∈ blocks NINDIR (words d.1) height p, b ∉ freed)
    (htouched : ∀ b ∈ blocks NINDIR (words d.1) height p, b ∉ touched) :
    ∀ b ∈ inner NINDIR (words d.1) height p, ∀ i < NINDIR, words d'.1 b i = words d.1 b i :=
  fun b hb i _ => words_congr (h.frame b (hfreed b (inner_subset_blocks hb))
    (htouched b (inner_subset_blocks hb))) i

/-! ## Words -/

theorem word_mapWords (b : Fblk) {f : Nat → Nat → Nat} (i : Nat)
    (h : f 0 (word b 0) < 2 ^ 32) : word (mapWords b f) i = f i (word b i) := by
  unfold mapWords
  by_cases hi : i = 0
  · subst hi
    exact word_setWord_same _ 0 h
  · rw [word_setWord_other _ _ hi]
    have hsucc : i - 1 + 1 = i := by omega
    simp only [word, if_neg hi, hsucc]

theorem word_zero_lt (b : Fblk) : word b 0 < 2 ^ 32 := by
  simp only [word, if_true]
  omega

theorem word_zeroWords (b : Fblk) (index i : Nat) :
    word (zeroWords b index) i = if i < index then word b i else 0 := by
  refine word_mapWords b i ?_
  split
  · exact word_zero_lt b
  · exact Nat.two_pow_pos 32

/-! ## Whole trees -/

/-- Everything below a pointer is released, and the block it names. -/
def dropTree : (height p : Nat) → Disk → Disk
  | 0, p, d => d.free p
  | level + 1, p, d => (indirtrunc level p (-1) d).free p

/-- The loop of `indirtrunc` over the pointers that are not kept. -/
def dropBehind (level : Nat) (cpy : Fblk) (kept : Nat) (d : Disk) : Disk :=
  downTo kept (fun i d => if word cpy i = 0 then d else dropTree level (word cpy i) d) NINDIR d

theorem indirtrunc_drop (level p : Nat) (d : Disk) :
    indirtrunc level p (-1) d =
      dropBehind level (d.1.block p) 0 (d.write p (zeroWords (d.1.block p) 0)) := by
  have hkept : ((-1 : Int) + 1).toNat = 0 := rfl
  have hneg : ¬ (0 : Int) < -1 ∧ ¬ (0 : Int) ≤ -1 := by decide
  cases level with
  | zero => simp only [indirtrunc, trsingle, dropBehind, dropTree, hkept]
  | succ level =>
      simp only [indirtrunc, dropBehind, dropTree, hkept, if_neg hneg.1, if_neg hneg.2]

/-- A loop over trees that have no block in common. -/
theorem downTo_freed (low level : Nat) (c : Nat → Nat) (step : Nat → Disk → Disk) (n : Nat) (d : Disk)
    (hstep : ∀ i < n, ∀ d' : Disk, (blocks NINDIR (words d'.1) level (c i)).Nodup →
      ∃ freed, freed.Perm (blocks NINDIR (words d'.1) level (c i)) ∧ Freed d' (step i d') freed [])
    (hnodup : ((List.range n).flatMap fun i => blocks NINDIR (words d.1) level (c i)).Nodup) :
    ∃ freed, freed.Perm ((List.range' low (n - low)).flatMap fun i =>
        blocks NINDIR (words d.1) level (c i)) ∧ Freed d (downTo low step n d) freed [] := by
  induction n generalizing d with
  | zero => exact ⟨[], by simp, .refl d⟩
  | succ n ih =>
      unfold downTo
      split
      · rename_i hlow
        rw [List.range_succ, List.flatMap_append] at hnodup
        obtain ⟨hrest, hlast, hapart⟩ := List.nodup_append.mp hnodup
        simp only [List.flatMap_cons, List.flatMap_nil, List.append_nil] at hlast hapart
        obtain ⟨freed, hperm, hfreed⟩ := hstep n (Nat.lt_succ_self n) d hlast
        have hsame : ∀ i, i < n → blocks NINDIR (words (step n d).1) level (c i) =
            blocks NINDIR (words d.1) level (c i) := by
          intro i hi
          refine blocks_congr (hfreed.same_tree _ _ (fun b hb hmem => ?_) (by simp))
          exact hapart b (List.mem_flatMap.mpr ⟨i, List.mem_range.mpr hi, hb⟩) b
            (hperm.subset hmem) rfl
        have hblocks : ∀ l : List Nat, (∀ i ∈ l, i < n) →
            (l.flatMap fun i => blocks NINDIR (words (step n d).1) level (c i)) =
              l.flatMap fun i => blocks NINDIR (words d.1) level (c i) :=
          fun l hl => List.flatMap_congr fun i hi => hsame i (hl i hi)
        obtain ⟨freed', hperm', hfreed'⟩ := ih (step n d)
          (fun i hi => hstep i (Nat.lt_succ_of_lt hi)) (by
            rw [hblocks _ fun i hi => List.mem_range.mp hi]
            exact hrest)
        rw [hblocks _ fun i hi => by have := List.mem_range'_1.mp hi; omega] at hperm'
        refine ⟨freed ++ freed', ?_, hfreed.trans hfreed' (by simp)⟩
        have hcount : n + 1 - low = (n - low) + 1 := by omega
        have hlast' : low + (n - low) = n := by omega
        rw [hcount, List.range'_1_concat, hlast', List.flatMap_append, List.flatMap_cons,
          List.flatMap_nil, List.append_nil]
        exact (hperm.append hperm').trans List.perm_append_comm
      · rename_i hlow
        have hcount : n + 1 - low = 0 := by omega
        rw [hcount]
        exact ⟨[], by simp, .refl d⟩

/-- The pointers behind the kept ones are cleared, and their trees freed. -/
theorem dropBehind_freed {level p : Nat} (kept : Nat) (d : Disk) (hp : p ≠ 0)
    (hnodup : (blocks NINDIR (words d.1) (level + 1) p).Nodup)
    (hdrop : ∀ c (d' : Disk), c ≠ 0 → (blocks NINDIR (words d'.1) level c).Nodup →
      ∃ freed, freed.Perm (blocks NINDIR (words d'.1) level c) ∧
        Freed d' (dropTree level c d') freed []) :
    ∃ freed, freed.Perm ((List.range' kept (NINDIR - kept)).flatMap fun i =>
        blocks NINDIR (words d.1) level (words d.1 p i)) ∧
      Freed (d.write p (zeroWords (d.1.block p) kept))
        (dropBehind level (d.1.block p) kept (d.write p (zeroWords (d.1.block p) kept)))
        freed [] := by
  have hwrite := freed_write d p (zeroWords (d.1.block p) kept)
  have hsame : ∀ i < NINDIR,
      blocks NINDIR (words (d.write p (zeroWords (d.1.block p) kept)).1) level (words d.1 p i) =
        blocks NINDIR (words d.1) level (words d.1 p i) := by
    intro i hi
    refine blocks_congr (hwrite.same_tree _ _ (by simp) fun b hb hmem => ?_)
    rw [List.mem_singleton.mp hmem] at hb
    exact root_notMem_child hnodup hp hi hb
  have hchildren := hnodup
  rw [blocks_node hp] at hchildren
  have hblocks : ∀ l : List Nat, (∀ i ∈ l, i < NINDIR) →
      (l.flatMap fun i => blocks NINDIR
        (words (d.write p (zeroWords (d.1.block p) kept)).1) level (words d.1 p i)) =
        l.flatMap fun i => blocks NINDIR (words d.1) level (words d.1 p i) :=
    fun l hl => List.flatMap_congr fun i hi => hsame i (hl i hi)
  obtain ⟨freed, hperm, hfreed⟩ := downTo_freed kept level (fun i => words d.1 p i)
    (fun i d' => if word (d.1.block p) i = 0 then d' else dropTree level (word (d.1.block p) i) d')
    NINDIR (d.write p (zeroWords (d.1.block p) kept)) (by
      intro i _ d' htree
      dsimp only [words] at htree ⊢
      by_cases hchild : word (d.1.block p) i = 0
      · rw [if_pos hchild, hchild]
        exact ⟨[], by simp, .refl d'⟩
      · rw [if_neg hchild]
        exact hdrop _ d' hchild htree) (by
      rw [hblocks _ fun i hi => List.mem_range.mp hi]
      exact (List.nodup_cons.mp hchildren).2)
  rw [hblocks _ fun i hi => by have := List.mem_range'_1.mp hi; omega] at hperm
  exact ⟨freed, hperm, hfreed⟩

/-- A tree is freed as a whole. -/
theorem drop_freed {height p : Nat} (d : Disk) (hp : p ≠ 0)
    (hnodup : (blocks NINDIR (words d.1) height p).Nodup) :
    ∃ freed, freed.Perm (blocks NINDIR (words d.1) height p) ∧
      Freed d (dropTree height p d) freed [] := by
  induction height generalizing p d with
  | zero => exact ⟨[p], by rw [blocks_leaf hp], freed_free d p⟩
  | succ level ih =>
      obtain ⟨freed, hperm, hfreed⟩ := dropBehind_freed 0 d hp hnodup
        fun c d' hc htree => ih d' hc htree
      rw [← indirtrunc_drop] at hfreed
      have hall := ((freed_write d p _).trans hfreed (by simp)).trans (freed_free _ p) (by simp)
      refine ⟨freed ++ [p], ?_, hall.weaken (by simp)⟩
      rw [blocks_node hp, List.range_eq_range']
      exact (List.perm_append_singleton p freed).trans (hperm.cons p)

/-! ## Trees that are cut -/

/-- Everything behind leaf `m` of a tree is released. -/
def keepTree : (height p m : Nat) → Disk → Disk
  | 0, _, _, d => d
  | level + 1, p, m, d => if p = 0 then d else indirtrunc level p m d

theorem indirtrunc_keep (level p m : Nat) (d : Disk) :
    indirtrunc level p m d =
      keepTree level (word (d.1.block p) (m / NINDIR ^ level)) (m % NINDIR ^ level)
        (dropBehind level (d.1.block p) (m / NINDIR ^ level + 1)
          (d.write p (zeroWords (d.1.block p) (m / NINDIR ^ level + 1)))) := by
  cases level with
  | zero =>
      have hkept : ((m : Int) + 1).toNat = m + 1 := by omega
      simp only [indirtrunc, trsingle, keepTree, dropBehind, dropTree, hkept, Nat.pow_zero,
        Nat.div_one]
  | succ level =>
      have hlast : (if (0 : Int) < m then (m : Int) / factor (level + 1) else m) =
          (m / NINDIR ^ (level + 1) : Nat) := by
        split
        · rfl
        · have hzero : m = 0 := by omega
          simp [hzero]
      have hkept : (((m / NINDIR ^ (level + 1) : Nat) : Int) + 1).toNat =
          m / NINDIR ^ (level + 1) + 1 := Int.toNat_natCast (m / NINDIR ^ (level + 1) + 1)
      have hrest : (m : Int) % factor (level + 1) = (m % NINDIR ^ (level + 1) : Nat) := rfl
      have hpos : (0 : Int) ≤ m := by omega
      simp only [indirtrunc, hlast, hkept, hrest, if_pos hpos, Int.toNat_natCast, keepTree,
        dropBehind, dropTree]

/-- A tree in which the leaves behind leaf `m` are gone. -/
structure Cut (d d' : Disk) (height p m lo : Nat) : Prop where
  spans : spans NINDIR (words d'.1) height p lo =
    (spans NINDIR (words d.1) height p lo).filter fun x => x.2 < lo + m + 1
  follow : ∀ path : List Nat, path.length = height → (∀ i ∈ path, i < NINDIR) →
    follow (words d'.1) path p =
      if number NINDIR path ≤ m then follow (words d.1) path p else 0

/-- What is freed of a tree that is cut, and what stays of it. -/
theorem keep_freed {height p m : Nat} (d : Disk) (lo : Nat) (hm : m < NINDIR ^ height)
    (hnodup : (blocks NINDIR (words d.1) height p).Nodup) :
    ∃ freed, freed.Perm (((Lib.Pointers.spans NINDIR (words d.1) height p lo).filter
        fun x => ¬ x.2 < lo + m + 1).map Prod.fst) ∧
      Freed d (keepTree height p m d) freed (inner NINDIR (words d.1) height p) ∧
      Cut d (keepTree height p m d) height p m lo := by
  have hfan : 0 < NINDIR := by decide
  induction height generalizing p m d lo with
  | zero =>
      obtain rfl : m = 0 := by simpa using hm
      refine ⟨[], ?_, (Freed.refl d).weaken (by simp), ?_, ?_⟩
      · by_cases hp : p = 0
        · simp [hp]
        · simp [Lib.Pointers.spans, hp]
      · by_cases hp : p = 0
        · simp [hp]
        · simp [Lib.Pointers.spans, hp]
      · intro path hlength _
        rw [List.length_eq_zero_iff.mp hlength]
        rfl
  | succ level ih =>
      by_cases hp : p = 0
      · subst hp
        have hsame : keepTree (level + 1) 0 m d = d := by simp [keepTree]
        rw [hsame]
        refine ⟨[], by simp, (Freed.refl d).weaken (by simp), by simp, fun path _ _ => ?_⟩
        simp
      · have hkeep : keepTree (level + 1) p m d = indirtrunc level p m d := if_neg hp
        rw [hkeep, indirtrunc_keep]
        have hk : m / NINDIR ^ level < NINDIR := by
          rw [Nat.div_lt_iff_lt_mul (Nat.pow_pos hfan), Nat.mul_comm, ← Nat.pow_succ]
          exact hm
        have hr : m % NINDIR ^ level < NINDIR ^ level := Nat.mod_lt _ (Nat.pow_pos hfan)
        have hsplit : m / NINDIR ^ level * NINDIR ^ level + m % NINDIR ^ level = m := by
          rw [Nat.mul_comm]
          exact Nat.div_add_mod m _
        generalize m / NINDIR ^ level = k at *
        generalize m % NINDIR ^ level = r at *
        obtain ⟨freed₁, hperm₁, hfreed₁⟩ := dropBehind_freed (k + 1) d hp hnodup
          fun c d' hc htree => drop_freed d' hc htree
        obtain ⟨d₁, hd₁⟩ : ∃ d₁, d₁ = dropBehind level (d.1.block p) (k + 1)
          (d.write p (zeroWords (d.1.block p) (k + 1))) := ⟨_, rfl⟩
        rw [← hd₁] at hfreed₁ ⊢
        have hall₁ := (freed_write d p (zeroWords (d.1.block p) (k + 1))).trans hfreed₁ (by simp)
        simp only [List.nil_append, List.append_nil] at hall₁
        -- the first part frees only trees behind the one that is cut
        have hapart₁ : ∀ i ≤ k, ∀ b ∈ blocks NINDIR (words d.1) level (words d.1 p i),
            b ∉ freed₁ := by
          intro i hi b hb hmem
          obtain ⟨j, hj, hmem'⟩ := List.mem_flatMap.mp (hperm₁.subset hmem)
          have hrange := List.mem_range'_1.mp hj
          exact children_apart hnodup hp (by omega) (by omega) (by omega) hb hmem'
        have hnot : ∀ i < NINDIR, p ∉ blocks NINDIR (words d.1) level (words d.1 p i) :=
          fun i hi => root_notMem_child hnodup hp hi
        have hsame₁ := hall₁.same_tree _ _ (hapart₁ k (le_refl k)) fun b hb hmem =>
          hnot k hk (List.mem_singleton.mp hmem ▸ hb)
        have hchild : blocks NINDIR (words d₁.1) level (words d.1 p k) =
            blocks NINDIR (words d.1) level (words d.1 p k) := blocks_congr hsame₁
        obtain ⟨freed₂, hperm₂, hfreed₂, hcut⟩ := ih (p := words d.1 p k) (m := r) d₁
          (lo + k * NINDIR ^ level) hr (by
            rw [hchild]
            exact nodup_child hnodup hp hk)
        rw [spans_congr _ hsame₁] at hperm₂
        rw [inner_congr hsame₁] at hfreed₂
        have hcutSpans := hcut.spans
        rw [spans_congr _ hsame₁] at hcutSpans
        -- the second part frees only blocks of the tree that is cut
        have hsub₂ : ∀ b ∈ freed₂, b ∈ blocks NINDIR (words d.1) level (words d.1 p k) := by
          intro b hb
          obtain ⟨x, hx, hxb⟩ := List.mem_map.mp (hperm₂.subset hb)
          rw [← spans_map_fst level (words d.1 p k) (lo + k * NINDIR ^ level)]
          exact List.mem_map.mpr ⟨x, (List.mem_filter.mp hx).1, hxb⟩
        have hall := hall₁.trans hfreed₂ fun b hb => hapart₁ k (le_refl k) b
          (inner_subset_blocks hb)
        obtain ⟨d₂, hd₂⟩ : ∃ d₂, d₂ = keepTree level (words d.1 p k) r d₁ := ⟨_, rfl⟩
        rw [← hd₂] at hfreed₂ hcutSpans hall hcut
        show ∃ freed, _ ∧ Freed d (keepTree level (words d.1 p k) r d₁) freed _ ∧
          Cut d (keepTree level (words d.1 p k) r d₁) _ _ _ _
        rw [← hd₂]
        have hroot : d₂.1.block p = zeroWords (d.1.block p) (k + 1) := by
          have hlast := hfreed₂.frame p (fun hmem => hnot k hk (hsub₂ p hmem))
            fun hmem => hnot k hk (inner_subset_blocks hmem)
          have hfirst := hfreed₁.frame p (fun hmem => ?_) (by simp)
          · exact (hlast.trans hfirst).trans (Function.update_self ..)
          · obtain ⟨j, hj, hmem'⟩ := List.mem_flatMap.mp (hperm₁.subset hmem)
            have hrange := List.mem_range'_1.mp hj
            exact hnot j (by omega) hmem'
        have hwords : ∀ i < NINDIR, words d₂.1 p i = if i ≤ k then words d.1 p i else 0 := by
          intro i _
          rw [words, hroot, word_zeroWords]
          exact if_congr Nat.lt_succ_iff rfl rfl
        have hbefore : ∀ i < k, ∀ b ∈ inner NINDIR (words d.1) level (words d.1 p i),
            ∀ j < NINDIR, words d₂.1 b j = words d.1 b j := by
          intro i hi
          have hother : ∀ b ∈ blocks NINDIR (words d.1) level (words d.1 p i),
              b ∉ blocks NINDIR (words d.1) level (words d.1 p k) :=
            fun b hb => children_apart hnodup hp (by omega) hk (by omega) hb
          refine hall.same_tree _ _ (fun b hb hmem => ?_) fun b hb hmem => ?_
          · rcases List.mem_append.mp hmem with h₁ | h₂
            · exact hapart₁ i (by omega) b hb h₁
            · exact hother b hb (hsub₂ b h₂)
          · rcases List.mem_append.mp hmem with h₁ | h₂
            · exact hnot i (by omega) (List.mem_singleton.mp h₁ ▸ hb)
            · exact hother b hb (inner_subset_blocks h₂)
        refine ⟨freed₁ ++ freed₂, ?_, hall.weaken ?_, ?_, ?_⟩
        · rw [← hsplit, spans_behind hp hk hr, List.map_append, List.map_flatMap]
          simp only [spans_map_fst]
          exact (List.perm_append_comm).trans (hperm₂.append hperm₁)
        · intro b hb
          refine Or.inl ?_
          rcases List.mem_append.mp hb with h₁ | h₂
          · rw [List.mem_singleton.mp h₁, inner_node hp]
            exact List.mem_cons_self
          · exact child_mem_inner hp hk h₂
        · rw [← hsplit]
          exact spans_cut hp hk hr hwords hbefore hcutSpans
        · intro path hlength hpath
          rw [← hsplit]
          refine follow_cut hp hr hwords hbefore (fun rest hlen hrest => ?_) hlength hpath
          rw [hcut.follow rest hlen hrest, follow_congr hlen.le hrest hsame₁]

end DiscoBsd.Bmap
