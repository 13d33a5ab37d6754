import DiscoBsd.Bmap.Bmap

/-!
# What the block map means

`path` is the place of a logical block in the pointers of a file: a slot of the inode and the indices
in the indirect blocks. `recorded` is the block found there, and `fileBlocks` lists all blocks that
belong to the file. A file system is sound for a file when none of them occurs twice or is
free. `fetch_extends` says what a search with `B_WRITE` makes of one tree of indirect blocks:
the missing blocks are added, on the path only.
-/

namespace DiscoBsd.Bmap

open Alloc Lib.Pointers

/-- The indices of a block number in the given number of levels of indirect blocks. -/
def digits : Nat → Nat → List Nat
  | 0, _ => []
  | levels + 1, bn => bn / NINDIR ^ levels % NINDIR :: digits levels bn

/-- The place of a logical block: the slot of the inode and the indices in the indirect blocks. -/
def path (bn : Int) : Option (Nat × List Nat) :=
  if bn < 0 then none
  else if bn < 4 then some (bn.toNat, [])
  else if bn < 4 + 256 then some (4, digits 1 (bn.toNat - 4))
  else if bn < 4 + 256 + 256 ^ 2 then some (5, digits 2 (bn.toNat - (4 + 256)))
  else if bn < 4 + 256 + 256 ^ 2 + 256 ^ 3 then some (6, digits 3 (bn.toNat - (4 + 256 + 256 ^ 2)))
  else none

/-- The block recorded for a logical block, or 0 for a hole. -/
def recorded (f : File) (bn : Int) : Nat :=
  match path bn with
  | none => 0
  | some (a, indices) => follow (words f.vol) indices (f.i_addr a)

/-- The levels of indirect blocks at a slot of the inode. -/
def height (a : Nat) : Nat := a - 3

/-- The blocks of a file. -/
def fileBlocks (f : File) : List Nat :=
  (List.range NADDR).flatMap fun a => blocks NINDIR (words f.vol) (height a) (f.i_addr a)

/-- The place of the pointer to a logical block: in the inode, or in an indirect block that is
there. -/
def slot (f : File) (bn : Int) : Option (Nat ⊕ Nat × Nat) :=
  match path bn with
  | none => none
  | some (a, []) => some (.inl a)
  | some (a, i :: indices) =>
      let parent := follow (words f.vol) (i :: indices).dropLast (f.i_addr a)
      if parent = 0 then none
      else some (.inr (parent, (i :: indices).getLast (List.cons_ne_nil i indices)))

/-- The free list is well formed, and no block occurs twice in the file and the free list. -/
structure Sound (f : File) (free : List Nat) : Prop where
  wellFormed : WellFormed f.vol free
  nodup : (fileBlocks f ++ free).Nodup
  in_range : ∀ bno ∈ fileBlocks f, f.vol.fs.fsIsize ≤ bno ∧ bno < f.vol.fs.fsFsize

/-! ## Words -/

theorem word_setWord_same (b : Fblk) (i : Nat) {value : Nat} (h : value < 2 ^ 32) :
    word (setWord b i value) i = value := by
  unfold word setWord
  by_cases hi : i = 0
  · simp only [hi, if_true]
    split <;> omega
  · simp [hi]

theorem word_setWord_other (b : Fblk) {i j : Nat} (value : Nat) (h : j ≠ i) :
    word (setWord b i value) j = word b j := by
  unfold word setWord
  by_cases hi : i = 0
  · have hj : j ≠ 0 := hi ▸ h
    simp [hi, hj]
  · by_cases hj : j = 0
    · simp [hi, hj]
    · have hne : j - 1 ≠ i - 1 := by omega
      simp [hi, hj, Function.update_of_ne hne]

theorem words_congr {vol vol' : Vol} {bno : Nat} (h : vol'.block bno = vol.block bno) (i : Nat) :
    words vol' bno i = words vol bno i := by
  simp only [words, h]

/-! ## Digits -/

theorem digits_length (levels bn : Nat) : (digits levels bn).length = levels := by
  induction levels with
  | zero => rfl
  | succ levels ih => simp [digits, ih]

theorem digits_lt (levels bn : Nat) : ∀ i ∈ digits levels bn, i < NINDIR := by
  induction levels with
  | zero => simp [digits]
  | succ levels ih =>
      intro i hi
      rcases List.mem_cons.mp hi with rfl | hrest
      · exact Nat.mod_lt _ (by decide)
      · exact ih i hrest

theorem digits_injective {levels bn bn' : Nat} (h : digits levels bn = digits levels bn') :
    bn % NINDIR ^ levels = bn' % NINDIR ^ levels := by
  induction levels with
  | zero => simp [Nat.mod_one]
  | succ levels ih =>
      obtain ⟨hhead, htail⟩ := List.cons_eq_cons.mp h
      rw [Nat.pow_succ, Nat.mod_mul, Nat.mod_mul, hhead, ih htail]

/-- The first logical block behind a slot with indirect blocks. -/
def base : Nat → Nat
  | 0 => 3
  | levels + 1 => base levels + NINDIR ^ levels

/-- The place of a logical block: a direct one, or one in the range of some levels. -/
theorem path_cases {bn : Int} {a : Nat} {indices : List Nat} (h : path bn = some (a, indices)) :
    (a < 4 ∧ indices = [] ∧ bn = a) ∨
      ∃ levels n, 0 < levels ∧ levels ≤ 3 ∧ a = 3 + levels ∧ indices = digits levels n ∧
        n < NINDIR ^ levels ∧ bn = (base levels + n : Nat) := by
  unfold path at h
  have hbase : base 1 = 4 ∧ base 2 = 4 + 256 ∧ base 3 = 4 + 256 + 256 ^ 2 := by decide
  have hpow : NINDIR ^ 1 = 256 ∧ NINDIR ^ 2 = 256 ^ 2 ∧ NINDIR ^ 3 = 256 ^ 3 := by decide
  split at h
  · cases h
  · split at h
    · cases h
      exact Or.inl ⟨by omega, rfl, by omega⟩
    · right
      split at h
      · cases h
        exact ⟨1, _, by omega, by omega, rfl, rfl, by omega, by omega⟩
      · split at h
        · cases h
          exact ⟨2, _, by omega, by omega, rfl, rfl, by omega, by omega⟩
        · split at h
          · cases h
            exact ⟨3, _, by omega, by omega, rfl, rfl, by omega, by omega⟩
          · cases h

/-- Logical blocks with the same place are the same. -/
theorem path_injective {bn bn' : Int} {place : Nat × List Nat} (h : path bn = some place)
    (h' : path bn' = some place) : bn = bn' := by
  obtain ⟨a, indices⟩ := place
  rcases path_cases h with ⟨hlt, -, hbn⟩ | ⟨levels, n, hpos, -, ha, hdigits, hn, hbn⟩ <;>
    rcases path_cases h' with ⟨hlt', -, hbn'⟩ | ⟨levels', n', hpos', -, ha', hdigits', hn', hbn'⟩
  · omega
  · omega
  · omega
  · obtain rfl : levels = levels' := by omega
    have hmod := digits_injective (hdigits.symm.trans hdigits')
    rw [Nat.mod_eq_of_lt hn, Nat.mod_eq_of_lt hn'] at hmod
    rw [hbn, hbn', hmod]

theorem path_fits {bn : Int} {a : Nat} {indices : List Nat} (h : path bn = some (a, indices)) :
    a < NADDR ∧ indices.length = height a ∧ ∀ i ∈ indices, i < NINDIR := by
  rcases path_cases h with ⟨hlt, rfl, -⟩ | ⟨levels, n, hpos, hle, rfl, rfl, -⟩
  · exact ⟨by simp only [NADDR]; omega, by simp only [height, List.length_nil]; omega, by simp⟩
  · refine ⟨by simp only [NADDR]; omega, ?_, digits_lt levels n⟩
    rw [digits_length, height]
    omega

/-- The blocks without a place. -/
theorem path_none {bn : Int} : path bn = none ↔ bn < 0 ∨ 4 + 256 + 256 ^ 2 + 256 ^ 3 ≤ bn := by
  unfold path
  constructor
  · intro h
    by_contra hrange
    rw [if_neg (by omega)] at h
    split at h
    · cases h
    · split at h
      · cases h
      · split at h
        · cases h
        · split at h
          · cases h
          · omega
  · rintro (hneg | hlarge)
    · rw [if_pos hneg]
    · rw [if_neg (by omega), if_neg (by omega), if_neg (by omega), if_neg (by omega),
        if_neg (by omega)]

/-- The loop over the levels finds the place of a block that is not direct. -/
theorem level_path {bn : Int} (h : 4 ≤ bn) :
    (path bn = none ∧ level 3 0 1 (bn.toNat - (NADDR - 3)) = none) ∨
      ∃ levels n, 0 < levels ∧ levels ≤ 3 ∧ path bn = some (3 + levels, digits levels n) ∧
        level 3 0 1 (bn.toNat - (NADDR - 3)) = some (4 - levels, 8 * levels, n) := by
  have hbits : 1 * 2 ^ NSHIFT = 256 ∧ 256 * 2 ^ NSHIFT = 256 ^ 2 ∧
      256 ^ 2 * 2 ^ NSHIFT = 256 ^ 3 ∧ NADDR - 3 = 4 := by decide
  simp only [level, hbits.1, hbits.2.1, hbits.2.2.1, hbits.2.2.2]
  unfold path
  rw [if_neg (by omega), if_neg (by omega)]
  have hsub : bn.toNat - 4 - 256 = bn.toNat - (4 + 256) := Nat.sub_sub ..
  have hsub' : bn.toNat - (4 + 256) - 256 ^ 2 = bn.toNat - (4 + 256 + 256 ^ 2) :=
    Nat.sub_sub ..
  rw [hsub, hsub']
  obtain ⟨n1, hn1⟩ : ∃ n, n = bn.toNat - 4 := ⟨_, rfl⟩
  obtain ⟨n2, hn2⟩ : ∃ n, n = bn.toNat - (4 + 256) := ⟨_, rfl⟩
  obtain ⟨n3, hn3⟩ : ∃ n, n = bn.toNat - (4 + 256 + 256 ^ 2) := ⟨_, rfl⟩
  rw [← hn1, ← hn2, ← hn3]
  by_cases h1 : bn < 4 + 256
  · rw [if_pos h1, if_pos (show n1 < 256 by omega)]
    exact Or.inr ⟨1, n1, by omega, by omega, rfl, rfl⟩
  rw [if_neg h1, if_neg (show ¬ n1 < 256 by omega)]
  by_cases h2 : bn < 4 + 256 + 256 ^ 2
  · rw [if_pos h2, if_pos (show n2 < 256 ^ 2 by omega)]
    exact Or.inr ⟨2, n2, by omega, by omega, rfl, rfl⟩
  rw [if_neg h2, if_neg (show ¬ n2 < 256 ^ 2 by omega)]
  by_cases h3 : bn < 4 + 256 + 256 ^ 2 + 256 ^ 3
  · rw [if_pos h3, if_pos (show n3 < 256 ^ 3 by omega)]
    exact Or.inr ⟨3, n3, by omega, by omega, rfl, rfl⟩
  · rw [if_neg h3, if_neg (show ¬ n3 < 256 ^ 3 by omega)]
    exact Or.inl ⟨rfl, rfl⟩

/-! ## Slots -/

/-- Different logical blocks have different slots if no block occurs twice in the file. -/
theorem slot_injective {f : File} (h : (fileBlocks f).Nodup) {bn bn' : Int}
    {place : Nat ⊕ Nat × Nat} (hslot : slot f bn = some place) (hslot' : slot f bn' = some place) :
    bn = bn' := by
  unfold slot at hslot hslot'
  cases hpath : path bn with
  | none => simp [hpath] at hslot
  | some found =>
  cases hpath' : path bn' with
  | none => simp [hpath'] at hslot'
  | some found' =>
  obtain ⟨a, indices⟩ := found
  obtain ⟨a', indices'⟩ := found'
  obtain ⟨ha, hlength, hindices⟩ := path_fits hpath
  obtain ⟨ha', hlength', hindices'⟩ := path_fits hpath'
  rw [hpath] at hslot
  rw [hpath'] at hslot'
  suffices hsame : a = a' ∧ indices = indices' by
    obtain ⟨rfl, rfl⟩ := hsame
    exact path_injective hpath hpath'
  cases indices with
  | nil =>
      cases indices' with
      | nil =>
          cases hslot.trans hslot'.symm
          exact ⟨rfl, rfl⟩
      | cons i' rest' =>
          dsimp only at hslot hslot'
          split at hslot'
          · cases hslot'
          · cases hslot.trans hslot'.symm
  | cons i rest =>
      cases indices' with
      | nil =>
          dsimp only at hslot hslot'
          split at hslot
          · cases hslot
          · cases hslot.trans hslot'.symm
      | cons i' rest' =>
          dsimp only at hslot hslot'
          split at hslot
          · cases hslot
          · rename_i hparent
            split at hslot'
            · cases hslot'
            · rename_i hparent'
              have heq := Sum.inr.inj (Option.some.inj (hslot.trans hslot'.symm))
              obtain ⟨hfollow, hlast⟩ := Prod.mk.inj heq
              have hinit : ∀ {k : Nat} {l : List Nat}, (∀ j ∈ k :: l, j < NINDIR) →
                  ∀ j ∈ (k :: l).dropLast, j < NINDIR :=
                fun hall j hj => hall j (List.mem_of_mem_dropLast hj)
              have hmem := follow_mem_blocks NINDIR (height a)
                (by rw [List.length_dropLast]; omega) (hinit hindices) hparent
              have hmem' := follow_mem_blocks NINDIR (height a')
                (by rw [List.length_dropLast]; omega) (hinit hindices') hparent'
              obtain rfl : a = a' := by
                by_contra hne
                exact flatMap_apart h ha ha' hne hmem (hfollow ▸ hmem')
              have hpaths := follow_injective ((List.nodup_flatMap.mp h).1 a (List.mem_range.mpr ha))
                (by rw [List.length_dropLast]; omega) (by rw [List.length_dropLast]; omega)
                (hinit hindices) (hinit hindices') hparent hfollow
              refine ⟨rfl, ?_⟩
              rw [← List.dropLast_concat_getLast (List.cons_ne_nil i rest), hpaths, hlast,
                List.dropLast_concat_getLast]

/-! ## One tree of indirect blocks -/

/-- A tree after blocks have been added for one path. -/
structure Extended (vol vol' : Vol) (levels p p' : Nat) (added indices : List Nat) : Prop where
  blocks : (blocks NINDIR (words vol') levels p').Perm
    (added ++ blocks NINDIR (words vol) levels p)
  others : ∀ other : List Nat, other.length ≤ levels → (∀ i ∈ other, i < NINDIR) →
    ¬ other <+: indices → follow (words vol') other p' = follow (words vol) other p
  found : follow (words vol) indices p ≠ 0 →
    follow (words vol') indices p' = follow (words vol) indices p

/-- What happens below one pointer of an indirect block. -/
theorem Extended.parent {vol vol' : Vol} {levels nb i p' : Nat} {added indices : List Nat}
    (hnodup : (Lib.Pointers.blocks NINDIR (words vol) (levels + 1) nb).Nodup) (hnb : nb ≠ 0)
    (hi : i < NINDIR) (h : Extended vol vol' levels (words vol nb i) p' added indices)
    (hself : words vol' nb i = p')
    (hsame : ∀ j < NINDIR, j ≠ i → words vol' nb j = words vol nb j)
    (hframe : ∀ b, b ≠ nb → b ∉ Lib.Pointers.blocks NINDIR (words vol) levels (words vol nb i) →
      b ∉ added → vol'.block b = vol.block b)
    (hadded : ∀ b ∈ added, b ∉ Lib.Pointers.blocks NINDIR (words vol) (levels + 1) nb) :
    Extended vol vol' (levels + 1) nb nb added (i :: indices) := by
  -- the trees of the other pointers are as before
  have hinner : ∀ j < NINDIR, j ≠ i → ∀ b ∈ inner NINDIR (words vol) levels (words vol nb j),
      ∀ k < NINDIR, words vol' b k = words vol b k := by
    intro j hj hne b hb k _
    have hmem := inner_subset_blocks hb
    refine words_congr (hframe b ?_ ?_ ?_) k
    · rintro rfl
      exact root_notMem_child hnodup hnb hj hmem
    · exact children_apart hnodup hnb hj hi hne hmem
    · exact fun hb' => hadded b hb' (child_mem_blocks hnb hj hmem)
  refine ⟨?_, ?_, ?_⟩
  · refine blocks_replace hnb hi hsame ?_ fun j hj hne => blocks_congr (hinner j hj hne)
    rw [hself]
    exact h.blocks
  · intro other hlength hother hne
    cases other with
    | nil => exact absurd List.nil_prefix hne
    | cons j rest =>
        have hj := hother j List.mem_cons_self
        have hrest : ∀ k ∈ rest, k < NINDIR := fun k hk => hother k (List.mem_cons_of_mem _ hk)
        have hlen : rest.length ≤ levels := Nat.le_of_succ_le_succ hlength
        simp only [follow, if_neg hnb]
        by_cases hji : j = i
        · subst hji
          rw [hself]
          exact h.others rest hlen hrest fun hpre => hne (List.cons_prefix_cons.mpr ⟨rfl, hpre⟩)
        · rw [hsame j hj hji]
          exact follow_congr hlen hrest (hinner j hj hji)
  · simp only [follow, if_neg hnb]
    rw [hself]
    exact h.found

end DiscoBsd.Bmap
