import DiscoBsd.Bmap.Exact

/-!
# Truncation is exact

A block of a file is behind the first `kept` logical blocks when the first logical block that is
reached from it is. These blocks are what `itrunc` passes to `free`. An indirect block with
kept logical blocks below it stays, also when they are all holes.
-/

namespace DiscoBsd.Bmap

open Alloc Lib.Pointers

/-- A data block or an indirect block of a file from which no logical block below `kept` is
reached. -/
def Behind (f : File) (kept b : Nat) : Prop :=
  b ≠ 0 ∧ ∃ (a : Nat) (place : List Nat), a < NADDR ∧ place.length ≤ height a ∧
    (∀ i ∈ place, i < NINDIR) ∧ follow (words f.vol) place (f.i_addr a) = b ∧
    kept ≤ firstBlock a + number NINDIR place * NINDIR ^ (height a - place.length)

theorem behind_spans {f : File} {kept b : Nat} :
    b ∈ ((fileSpans f).filter fun x => ¬ x.2 < kept).map Prod.fst ↔ Behind f kept b := by
  constructor
  · intro h
    obtain ⟨⟨b, n⟩, hx, rfl⟩ := List.mem_map.mp h
    obtain ⟨hx, hn⟩ := List.mem_filter.mp hx
    obtain ⟨a, ha, hspan⟩ := List.mem_flatMap.mp hx
    obtain ⟨place, hlength, hplace, hfollow, hb, rfl⟩ := mem_spans.mp hspan
    simp only [decide_eq_true_eq] at hn
    exact ⟨hb, a, place, List.mem_range.mp ha, hlength, hplace, hfollow, Nat.le_of_not_lt hn⟩
  · rintro ⟨hb, a, place, ha, hlength, hplace, hfollow, hkept⟩
    refine List.mem_map.mpr ⟨(b, _), List.mem_filter.mpr ⟨List.mem_flatMap.mpr ⟨a,
      List.mem_range.mpr ha, mem_spans.mpr ⟨place, hlength, hplace, hfollow, hb, rfl⟩⟩, ?_⟩, rfl⟩
    simpa only [decide_eq_true_eq, Nat.not_lt] using hkept

theorem recorded_mem {f : File} {bn : Int} (h : recorded f bn ≠ 0) :
    recorded f bn ∈ fileBlocks f := by
  unfold recorded at h ⊢
  cases hpath : path bn with
  | none =>
      rw [hpath] at h
      exact absurd rfl h
  | some place =>
      rw [hpath] at h
      obtain ⟨a, indices⟩ := place
      obtain ⟨ha, hlength, hindices⟩ := path_fits hpath
      exact List.mem_flatMap.mpr ⟨a, List.mem_range.mpr ha,
        follow_mem_blocks NINDIR (height a) hlength.le hindices h⟩

/-- A data block holds no pointers. -/
theorem recorded_notMem_inner {f : File} {bn : Int} (hnodup : (fileBlocks f).Nodup)
    (h : recorded f bn ≠ 0) : recorded f bn ∉ fileInner f := by
  intro hmem
  obtain ⟨a', ha', hmem⟩ := List.mem_flatMap.mp hmem
  have ha' := List.mem_range.mp ha'
  unfold recorded at h hmem
  cases hpath : path bn with
  | none =>
      rw [hpath] at h
      exact absurd rfl h
  | some place =>
      rw [hpath] at h hmem
      obtain ⟨a, indices⟩ := place
      obtain ⟨ha, hlength, hindices⟩ := path_fits hpath
      have hleaf := follow_mem_blocks NINDIR (height a) hlength.le hindices h
      by_cases heq : a = a'
      · subst heq
        have htree := (List.nodup_flatMap.mp hnodup).1 a (List.mem_range.mpr ha)
        exact leaf_notMem_inner htree hlength hindices h hmem
      · exact flatMap_apart (f := fun a => blocks NINDIR (words f.vol) (height a) (f.i_addr a))
          hnodup ha ha' heq hleaf (inner_subset_blocks hmem)

/-! ## The partial block -/

theorem word_zeroBytes (b : Fblk) (offset i : Nat) :
    word (zeroBytes b offset) i =
      if 4 * i + 4 ≤ offset then word b i
      else if offset ≤ 4 * i then 0 else word b i % 2 ^ (8 * (offset - 4 * i)) := by
  refine word_mapWords b i ?_
  have hword := word_zero_lt b
  split
  · exact hword
  · split
    · exact Nat.two_pow_pos 32
    · exact (Nat.mod_le _ _).trans_lt hword

/-- The bytes behind the offset are zero. -/
theorem byteAt_zeroBytes (b : Fblk) {offset k : Nat} (h : offset ≤ k) :
    byteAt (zeroBytes b offset) k = 0 := by
  have hk : 4 * (k / 4) + k % 4 = k := Nat.div_add_mod k 4
  have hlt : k % 4 < 4 := Nat.mod_lt k (by decide)
  unfold byteAt
  rw [word_zeroBytes, if_neg (by omega)]
  split
  · simp
  · have hsmall : word b (k / 4) % 2 ^ (8 * (offset - 4 * (k / 4))) < 2 ^ (8 * (k % 4)) := by
      refine (Nat.mod_lt _ (Nat.two_pow_pos _)).trans_le (Nat.pow_le_pow_right (by decide) ?_)
      omega
    rw [Nat.div_eq_of_lt hsmall, Nat.zero_mod]

/-- No pointer is cleared with the end of a data block. -/
theorem clearTail_inner {f : File} {bn : Int} (hnodup : (fileBlocks f).Nodup)
    (hbn : recorded f bn ≠ 0) (offset : Nat) {a : Nat} (ha : a < NADDR) :
    ∀ b ∈ inner NINDIR (words f.vol) (height a) (f.i_addr a), ∀ i < NINDIR,
      words (f.clearTail (recorded f bn) offset).vol b i = words f.vol b i := by
  intro b hb i _
  refine words_congr (Function.update_of_ne ?_ _ _) i
  rintro rfl
  exact recorded_notMem_inner hnodup hbn
    (List.mem_flatMap.mpr ⟨a, List.mem_range.mpr ha, hb⟩)

/-- A file in which the end of a data block has been cleared. -/
theorem Sound.clearTail {f : File} {free : List Nat} {bn : Int} (h : Sound f free)
    (hbn : recorded f bn ≠ 0) (offset : Nat) :
    Sound (f.clearTail (recorded f bn) offset) free ∧
      fileSpans (f.clearTail (recorded f bn) offset) = fileSpans f ∧
      ∀ other, recorded (f.clearTail (recorded f bn) offset) other = recorded f other := by
  obtain ⟨hfile, -, hapart⟩ := List.nodup_append.mp h.nodup
  have hspans : fileSpans (f.clearTail (recorded f bn) offset) = fileSpans f :=
    List.flatMap_congr fun a ha =>
      spans_congr _ (clearTail_inner hfile hbn offset (List.mem_range.mp ha))
  have hblocks : fileBlocks (f.clearTail (recorded f bn) offset) = fileBlocks f := by
    rw [← fileSpans_map_fst, hspans, fileSpans_map_fst]
  refine ⟨⟨?_, ?_, ?_⟩, hspans, fun other => ?_⟩
  · exact h.wellFormed.store (fun hmem => hapart _ (recorded_mem hbn) _ hmem rfl) _
  · rw [hblocks]
    exact h.nodup
  · rw [hblocks]
    exact h.in_range
  · unfold recorded
    cases hpath : path other with
    | none => rfl
    | some place =>
        obtain ⟨a, indices⟩ := place
        obtain ⟨ha, hlength, hindices⟩ := path_fits hpath
        exact follow_congr hlength.le hindices (clearTail_inner hfile hbn offset ha)

/-- Blocks that are added for one logical block are not behind it. -/
theorem Written.behind {f : File} {bn : Int} {rest : List Nat} {r : Result × File}
    (h : Written f bn rest r) {kept : Nat} (hbn : bn < kept) (b : Nat) :
    Behind r.2 kept b ↔ Behind f kept b := by
  have hsame : ∀ (a : Nat) (place : List Nat), a < NADDR → place.length ≤ height a →
      (∀ i ∈ place, i < NINDIR) →
      kept ≤ firstBlock a + number NINDIR place * NINDIR ^ (height a - place.length) →
      follow (words r.2.vol) place (r.2.i_addr a) = follow (words f.vol) place (f.i_addr a) := by
    intro a place ha hlength hplace hkept
    refine h.nodes a place ha hlength hplace fun indices hpath hpre => ?_
    have hfirst := number_prefix NINDIR hpre
    have hnumber := path_number hpath
    rw [(path_fits hpath).2.1] at hfirst
    omega
  constructor
  · rintro ⟨hb, a, place, ha, hlength, hplace, hfollow, hkept⟩
    refine ⟨hb, a, place, ha, hlength, hplace, ?_, hkept⟩
    rw [← hsame a place ha hlength hplace hkept]
    exact hfollow
  · rintro ⟨hb, a, place, ha, hlength, hplace, hfollow, hkept⟩
    refine ⟨hb, a, place, ha, hlength, hplace, ?_, hkept⟩
    rw [hsame a place ha hlength hplace hkept]
    exact hfollow

/-- A data block is behind the kept ones if its logical block is. -/
theorem behind_data {f : File} {bn : Int} (hnodup : (fileBlocks f).Nodup) (h : recorded f bn ≠ 0)
    (kept : Nat) : Behind f kept (recorded f bn) ↔ kept ≤ bn := by
  unfold recorded at h ⊢
  cases hpath : path bn with
  | none =>
      rw [hpath] at h
      exact absurd rfl h
  | some found =>
      rw [hpath] at h
      obtain ⟨a, indices⟩ := found
      obtain ⟨ha, hlength, hindices⟩ := path_fits hpath
      have hbn := path_number hpath
      constructor
      · rintro ⟨-, a', place, ha', hlength', hplace, hfollow, hkept⟩
        have hmem := follow_mem_blocks NINDIR (height a) hlength.le hindices h
        have hmem' := follow_mem_blocks NINDIR (height a') hlength' hplace
          (by rw [hfollow]; exact h)
        rw [hfollow] at hmem'
        obtain rfl : a = a' := by
          by_contra hne
          exact flatMap_apart (f := fun a => blocks NINDIR (words f.vol) (height a) (f.i_addr a))
            hnodup ha ha' hne hmem hmem'
        have htree := (List.nodup_flatMap.mp hnodup).1 a (List.mem_range.mpr ha)
        obtain rfl := follow_injective htree hlength.le hlength' hindices hplace h hfollow.symm
        rw [hlength, Nat.sub_self, Nat.pow_zero, Nat.mul_one] at hkept
        omega
      · intro hkept
        refine ⟨h, a, indices, ha, hlength.le, hindices, rfl, ?_⟩
        rw [hlength, Nat.sub_self, Nat.pow_zero, Nat.mul_one]
        omega

theorem Released.freed_iff {f f' : File} {kept : Nat} {freed free : List Nat}
    (h : Released f f' kept freed free) (b : Nat) : b ∈ freed ↔ Behind f kept b :=
  h.blocks.mem_iff.trans behind_spans

theorem Released.freed_nodup {f f' : File} {kept : Nat} {freed free : List Nat}
    (h : Released f f' kept freed free) : freed.Nodup :=
  List.nodup_reverse.mp (List.nodup_append.mp (List.nodup_append.mp h.sound.nodup).2.1).1

theorem Released.notMem_freed {f f' : File} {kept : Nat} {freed free : List Nat}
    (h : Released f f' kept freed free) {b : Nat} (hb : b ∈ fileBlocks f') : b ∉ freed :=
  fun hmem => (List.nodup_append.mp h.sound.nodup).2.2 b hb b
    (List.mem_append_left _ (List.mem_reverse.mpr hmem)) rfl

/-- The pointers that stay, in the inode and in the indirect blocks, name blocks that stay. -/
theorem Released.pointers {f f' : File} {kept : Nat} {freed free : List Nat}
    (h : Released f f' kept freed free) :
    (∀ a < NADDR, f'.i_addr a ∉ freed) ∧
      ∀ b ∈ fileInner f', ∀ i < NINDIR, words f'.vol b i ∉ freed := by
  have hzero : 0 ∉ freed := fun hmem => ((h.freed_iff 0).mp hmem).1 rfl
  refine ⟨fun a ha => ?_, fun b hb i hi => ?_⟩
  · by_cases hnull : f'.i_addr a = 0
    · rwa [hnull]
    · exact h.notMem_freed (List.mem_flatMap.mpr ⟨a, List.mem_range.mpr ha,
        root_mem_blocks hnull⟩)
  · by_cases hnull : words f'.vol b i = 0
    · rwa [hnull]
    · obtain ⟨a, ha, hb⟩ := List.mem_flatMap.mp hb
      exact h.notMem_freed (List.mem_flatMap.mpr ⟨a, ha, pointer_mem_blocks hb hi hnull⟩)

/-! ## `itrunc` -/

/-- What the truncation of a file to `length` bytes does to its blocks. -/
structure Truncated (f f' : File) (length : Nat) (freed : List Nat) : Prop where
  once : freed.Nodup
  freed_iff : ∀ b, b ∈ freed ↔ Behind f ((length + DEV_BSIZE - 1) / DEV_BSIZE) b
  data : ∀ bn : Int, recorded f bn ≠ 0 →
    (recorded f bn ∈ freed ↔ ((length + DEV_BSIZE - 1) / DEV_BSIZE : Nat) ≤ bn)
  behind : ∀ bn : Int, ((length + DEV_BSIZE - 1) / DEV_BSIZE : Nat) ≤ bn → recorded f' bn = 0
  mapping : ∀ bn : Int, bn < ((length + DEV_BSIZE - 1) / DEV_BSIZE : Nat) → recorded f bn ≠ 0 ∨
    bn ≠ (length / DEV_BSIZE : Nat) → recorded f' bn = recorded f bn
  tail : length % DEV_BSIZE ≠ 0 → recorded f' (length / DEV_BSIZE : Nat) ≠ 0 ∧
    ∀ k, length % DEV_BSIZE ≤ k → k < DEV_BSIZE →
      byteAt (f'.vol.block (recorded f' (length / DEV_BSIZE : Nat))) k = 0
  pointers : (∀ a < NADDR, f'.i_addr a ∉ freed) ∧
    ∀ b ∈ fileInner f', ∀ i < NINDIR, words f'.vol b i ∉ freed
  sound : ∃ rest, Sound f' (freed.reverse ++ rest)

/-- `itrunc` to a smaller length on a block boundary. -/
theorem itrunc_aligned (time : Nat) {length : Nat} {o : Open} (hpipe : o.ipipe = false)
    (hlength : length < o.i_size) (hoffset : length % DEV_BSIZE = 0) :
    itrunc time length o =
      let r := release (((length + DEV_BSIZE - 1) / DEV_BSIZE : Nat) - 1) o.file
      ({ o with file := r.1, i_size := length }, r.2) := by
  have hne : ¬ (o.ipipe = false ∧ o.i_size = length) := by omega
  have hnot : ¬ o.ipipe = true := by simp [hpipe]
  unfold itrunc
  dsimp only
  rw [if_neg hnot, if_neg hne, if_neg (Nat.lt_asymm hlength), if_pos hoffset]

/-- `itrunc` to a smaller length within a block. -/
theorem itrunc_within (time : Nat) {length : Nat} {o : Open} (hpipe : o.ipipe = false)
    (hlength : length < o.i_size) (hoffset : length % DEV_BSIZE ≠ 0) :
    itrunc time length o =
      let w := bmap true true time (length / DEV_BSIZE : Nat) o.file
      let u_error := w.1.error.or o.u_error
      if u_error.isSome ∨ w.1.bn < 0 then ({ o with file := w.2, u_error := u_error }, [])
      else
        let r := release (((length + DEV_BSIZE - 1) / DEV_BSIZE : Nat) - 1)
          (w.2.clearTail w.1.bn.toNat (length % DEV_BSIZE))
        ({ o with file := r.1, i_size := length, u_error := u_error }, r.2) := by
  have hne : ¬ (o.ipipe = false ∧ o.i_size = length) := by omega
  have hnot : ¬ o.ipipe = true := by simp [hpipe]
  unfold itrunc
  dsimp only
  rw [if_neg hnot, if_neg hne, if_neg (Nat.lt_asymm hlength), if_neg hoffset]

/-- A file of block 4 and of block 8, which is behind word 1 of the indirect block 3. -/
def twoBlockFile : File where
  vol :=
    { smallVol with block := fun b => if b = 3 then ⟨0, fun slot => if slot = 0 then 8 else 0⟩
                      else smallVol.block b }
  i_addr a := if a = 0 then 4 else if a = 4 then 3 else 0
  i_flag := false
  rablock := 0

theorem two_block_sound : Sound twoBlockFile [5, 7] := by
  have hblocks : fileBlocks twoBlockFile = [4, 3, 8] := by decide +kernel
  refine ⟨⟨by decide, by decide, Or.inr ?_, by decide, by decide, rfl⟩, ?_, ?_⟩
  · exact .link _ 0 rfl (by decide) (by decide) (.last _ 1 rfl (by decide) rfl)
  · rw [hblocks]
    decide
  · rw [hblocks]
    decide

/-- A file whose only data block is behind word 5 of the indirect block 3. -/
def holeyFile : File where
  vol :=
    { smallVol with
      block := fun b => if b = 3 then ⟨0, fun slot => if slot = 4 then 8 else 0⟩ else smallVol.block b }
  i_addr a := if a = 4 then 3 else 0
  i_flag := false
  rablock := 0

end DiscoBsd.Bmap
