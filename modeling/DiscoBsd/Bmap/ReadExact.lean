import DiscoBsd.Bmap.Faithful
import DiscoBsd.Bmap.Rwip

/-!
# What a read returns

`fileByte` is a byte of a file as the block map has it, with zeros for holes. One turn of the loop of
`rwip` moves at least one byte, all of one block (`readTurn_moves`). A negative offset is not
refused: as an unsigned number it has a block number that is in the range of the block map, and
the read goes on from there to the bytes at 0.
-/

namespace DiscoBsd.Bmap

open Alloc

/-- A byte of a logical block. -/
def blockByte (f : File) (bn : Int) (k : Nat) : Nat :=
  if recorded f bn = 0 then 0 else byteAt (f.vol.block (recorded f bn)) k

/-- A byte of a file. -/
def fileByte (f : File) (i : Nat) : Nat := blockByte f (i / DEV_BSIZE : Nat) (i % DEV_BSIZE)

/-- A file with the same blocks. -/
def SameBlocks (f f' : File) : Prop := f'.vol = f.vol ∧ f'.i_addr = f.i_addr

theorem SameBlocks.blockByte {f f' : File} (h : SameBlocks f f') :
    blockByte f' = blockByte f := by
  funext bn k
  unfold Bmap.blockByte recorded
  rw [h.1, h.2]

theorem byteAt_zeroBlock (k : Nat) : byteAt zeroBlock k = 0 := by
  have hword : word zeroBlock (k / 4) = 0 := by
    unfold word zeroBlock
    split <;> rfl
  rw [byteAt, hword, Nat.zero_div, Nat.zero_mod]

theorem off_t_id {x : Int} (hlow : -2 ^ 31 ≤ x) (hhigh : x < 2 ^ 31) : off_t x = x := by
  unfold off_t
  omega

theorem path_lblkno (offset : Int) : path (lblkno offset) ≠ none := by
  intro hnone
  have hshift : (2 : Int) ^ DEV_BSHIFT = 1024 := by decide
  unfold lblkno at hnone
  rw [hshift] at hnone
  rcases path_none.mp hnone with hlow | hhigh <;> omega

/-- The buffer for a logical block holds its bytes. -/
theorem Reading.buffer_bytes (s : Reading) {lbn bn : Int} {f : File}
    (hsame : SameBlocks f s.file) (hbn : bn = if recorded f lbn = 0 then -1 else ↑(recorded f lbn)) :
    byteAt (s.buffer lbn bn).1 = blockByte f lbn ∧
      ∃ ahead, (s.buffer lbn bn).2 = { s with ahead := ahead } := by
  have hnonneg : ¬ ((recorded f lbn : Nat) : Int) < 0 := Int.not_lt.mpr (Int.natCast_nonneg _)
  unfold Reading.buffer blockByte
  by_cases hhole : recorded f lbn = 0
  · rw [if_pos hhole] at hbn
    subst hbn
    rw [if_pos (by decide)]
    refine ⟨funext fun k => ?_, s.ahead, rfl⟩
    rw [if_pos hhole]
    exact byteAt_zeroBlock k
  · rw [if_neg hhole] at hbn
    subst hbn
    rw [if_neg hnonneg]
    refine ⟨funext fun k => ?_, ?_⟩
    · rw [if_neg hhole]
      split
      · simp only [Reading.breada, Int.toNat_natCast, hsame.1]
      · simp only [Int.toNat_natCast, hsame.1]
    · split
      · unfold Reading.breada
        dsimp only
        split
        · exact ⟨s.ahead, rfl⟩
        · exact ⟨_, rfl⟩
      · exact ⟨s.ahead, rfl⟩

/-- A turn of the loop before the end of the file. -/
theorem readTurn_turns {s : Reading} (hdiff : 0 < s.diff) (herror : s.u_error = none) :
    ∃ (file : File) (ahead : List Nat) (b : Fblk), SameBlocks s.file file ∧
      byteAt b = blockByte s.file (lblkno s.uio_offset) ∧
      let s' := { s with
        file := file
        i_lastr := lblkno s.uio_offset
        ahead := ahead
        u_error := none }.uiomove b (blkoff s.uio_offset) s.n
      readTurn s = (s', decide (s'.uio_resid ≠ 0 ∧ s.n ≠ 0)) := by
  have hread := bmap_reads false 0 (lblkno s.uio_offset) s.file
  rw [if_neg (path_lblkno s.uio_offset)] at hread
  obtain ⟨hresult, rablock, hfile⟩ := hread
  have hnoerror : (bmap false false 0 (lblkno s.uio_offset) s.file).1.error = none := by
    rw [hresult]
    split <;> rfl
  have hbn : (bmap false false 0 (lblkno s.uio_offset) s.file).1.bn =
      if recorded s.file (lblkno s.uio_offset) = 0 then -1
      else ↑(recorded s.file (lblkno s.uio_offset)) := by
    rw [hresult]
    split <;> rfl
  obtain ⟨hbytes, ahead, hbuffer⟩ := Reading.buffer_bytes (f := s.file)
    { s with file := { s.file with rablock := rablock }, u_error := none } ⟨rfl, rfl⟩ hbn
  refine ⟨{ s.file with rablock := rablock }, ahead, _, ⟨rfl, rfl⟩, hbytes, ?_⟩
  unfold readTurn
  dsimp only
  rw [if_neg (Int.not_le.mpr hdiff), hfile, hnoerror, herror, Option.or_none, if_neg (by decide),
    hbuffer]

/-- What a turn of the loop does to a read that is not at its end. -/
structure Moved (s s' : Reading) (n : Nat) : Prop where
  pos : 0 < n
  resid : n + s'.uio_resid = s.uio_resid
  in_file : s.uio_offset + n ≤ s.i_size
  in_block : blkoff s.uio_offset + n ≤ DEV_BSIZE
  moved : s'.moved = s.moved ++
    (List.range' (blkoff s.uio_offset) n).map (blockByte s.file (lblkno s.uio_offset))
  offset : s'.uio_offset = s.uio_offset + n
  same : SameBlocks s.file s'.file
  i_size : s'.i_size = s.i_size
  u_error : s'.u_error = none

theorem readTurn_moves {s : Reading} (hlow : -2 ^ 31 ≤ s.uio_offset)
    (hhigh : s.uio_offset < s.i_size) (hsize : s.i_size < 2 ^ 31)
    (hdiff : s.i_size - s.uio_offset < 2 ^ 31) (hresid : s.uio_resid ≠ 0)
    (herror : s.u_error = none) :
    ∃ n, Moved s (readTurn s).1 n ∧ (readTurn s).2 = decide ((readTurn s).1.uio_resid ≠ 0) := by
  have hbsize : DEV_BSIZE = 1024 := rfl
  have hon : blkoff s.uio_offset < DEV_BSIZE := by
    unfold blkoff
    rw [hbsize]
    omega
  have hleft : s.diff = s.i_size - s.uio_offset := off_t_id (by omega) hdiff
  have hbound : 0 < s.n ∧ s.n ≤ s.uio_resid ∧ s.uio_offset + s.n ≤ s.i_size ∧
      blkoff s.uio_offset + s.n ≤ DEV_BSIZE := by
    unfold Reading.n
    dsimp only
    split <;> omega
  obtain ⟨hpos, hle, hin, hblock⟩ := hbound
  have hoffset : off_t (s.uio_offset + s.n) = s.uio_offset + s.n :=
    off_t_id (by omega) (by omega)
  have hne : s.n ≠ 0 := by omega
  obtain ⟨file, ahead, b, hsame, hbytes, hturn⟩ := readTurn_turns (by omega) herror
  rw [hturn]
  refine ⟨s.n, ⟨hpos, ?_, hin, hblock, ?_, hoffset, hsame, rfl, rfl⟩, by simp [hne]⟩
  · show s.n + (s.uio_resid - s.n) = s.uio_resid
    omega
  · show s.moved ++ (List.range' (blkoff s.uio_offset) s.n).map (byteAt b) = _
    rw [hbytes]

/-- No turn sets an error or takes back what was moved. -/
theorem readTurn_keeps {s : Reading} (herror : s.u_error = none) :
    (readTurn s).1.u_error = none ∧ s.moved <+: (readTurn s).1.moved := by
  by_cases hdiff : s.diff ≤ 0
  · have hturn : readTurn s = (s, false) := by
      unfold readTurn
      dsimp only
      rw [if_pos hdiff]
    rw [hturn]
    exact ⟨herror, List.prefix_rfl⟩
  · obtain ⟨file, ahead, b, -, -, hturn⟩ := readTurn_turns (by omega) herror
    rw [hturn]
    exact ⟨rfl, List.prefix_append ..⟩

theorem readLoop_keeps (turns : Nat) {s : Reading} (herror : s.u_error = none) :
    (readLoop turns s).u_error = none ∧ s.moved <+: (readLoop turns s).moved := by
  induction turns generalizing s with
  | zero => exact ⟨herror, List.prefix_rfl⟩
  | succ turns ih =>
      obtain ⟨herror', hprefix⟩ := readTurn_keeps herror
      rw [readLoop]
      split
      · obtain ⟨hlast, hprefix'⟩ := ih herror'
        exact ⟨hlast, hprefix.trans hprefix'⟩
      · exact ⟨herror', hprefix⟩

/-! ## Whole reads -/

/-- The bytes of a block that a turn moves are bytes of the file. -/
theorem blockByte_fileByte (f : File) {offset n : Nat} (h : blkoff offset + n ≤ DEV_BSIZE)
    (hsmall : offset < 2 ^ 31) :
    (List.range' (blkoff offset) n).map (blockByte f (lblkno offset)) =
      (List.range' offset n).map (fileByte f) := by
  have hbsize : DEV_BSIZE = 1024 := rfl
  have hshift : (2 : Int) ^ DEV_BSHIFT = 1024 := by decide
  have hon : blkoff offset = offset % 1024 := by
    unfold blkoff
    rw [hbsize]
    omega
  have hlbn : lblkno offset = (offset / 1024 : Nat) := by
    unfold lblkno
    rw [hshift]
    omega
  rw [hon, hbsize] at h
  refine List.ext_getElem (by simp) fun k hk hk' => ?_
  have hkn : k < n := by simpa using hk
  have hdiv : (offset + k) / 1024 = offset / 1024 := by omega
  have hmod : (offset + k) % 1024 = offset % 1024 + k := by omega
  simp only [List.getElem_map, List.getElem_range', Nat.one_mul]
  rw [fileByte, hbsize, hdiv, hmod, hlbn, hon]

/-- The loop from an offset in the file moves the bytes up to the end of the file. -/
theorem readLoop_moves {turns : Nat} {s : Reading} (hresid : s.uio_resid ≤ turns)
    (hpos : s.uio_resid ≠ 0) (hlow : 0 ≤ s.uio_offset) (hhigh : s.uio_offset < 2 ^ 31)
    (hnonneg : 0 ≤ s.i_size) (hsize : s.i_size < 2 ^ 31) (herror : s.u_error = none) :
    let count := min s.uio_resid (s.i_size - s.uio_offset).toNat
    (readLoop turns s).moved =
        s.moved ++ (List.range' s.uio_offset.toNat count).map (fileByte s.file) ∧
      (readLoop turns s).uio_offset = s.uio_offset + count ∧
      count + (readLoop turns s).uio_resid = s.uio_resid ∧ (readLoop turns s).u_error = none := by
  induction turns generalizing s with
  | zero => exact absurd (Nat.le_zero.mp hresid) hpos
  | succ turns ih =>
      intro count
      obtain ⟨offset, hoffset⟩ : ∃ offset : Nat, s.uio_offset = offset :=
        ⟨s.uio_offset.toNat, by omega⟩
      have htoNat : s.uio_offset.toNat = offset := by omega
      by_cases hend : s.i_size ≤ s.uio_offset
      · -- at the end of the file
        have hcount : count = 0 := by omega
        have hdiff : s.diff ≤ 0 := by
          have hleft : s.diff = s.i_size - s.uio_offset := off_t_id (by omega) (by omega)
          omega
        have hturn : readTurn s = (s, false) := by
          unfold readTurn
          dsimp only
          rw [if_pos hdiff]
        rw [hcount, readLoop, hturn]
        exact ⟨by simp, by simp, by simp, herror⟩
      · obtain ⟨n, hmoved, hmore⟩ := readTurn_moves (by omega) (by omega) hsize (by omega) hpos herror
        obtain ⟨hn, hrest, hin, hblock, hbytes, hnext, hsame, hsize', herror'⟩ := hmoved
        rw [hoffset] at hblock hbytes
        rw [blockByte_fileByte s.file hblock (by omega)] at hbytes
        rw [readLoop]
        by_cases hdone : (readTurn s).1.uio_resid = 0
        · have hcount : count = n := by omega
          rw [hmore, decide_eq_false (by omega), if_neg (by decide), hcount, htoNat]
          exact ⟨hbytes, hnext, hrest, herror'⟩
        · rw [hmore, decide_eq_true hdone, if_pos rfl]
          obtain ⟨hmoved', hoffset', hresid', herror''⟩ := ih (s := (readTurn s).1) (by omega) hdone
            (by omega) (by omega) (by omega) (by omega) herror'
          obtain ⟨later, hlater⟩ : ∃ later, later = min (readTurn s).1.uio_resid
              ((readTurn s).1.i_size - (readTurn s).1.uio_offset).toNat := ⟨_, rfl⟩
          rw [← hlater] at hmoved' hoffset' hresid'
          have hcount : count = n + later := by omega
          have hstart : (readTurn s).1.uio_offset.toNat = offset + n := by omega
          have hfile : fileByte (readTurn s).1.file = fileByte s.file := by
            funext i
            rw [fileByte, fileByte, hsame.blockByte]
          refine ⟨?_, by omega, by omega, herror''⟩
          rw [hmoved', hbytes, hstart, hcount, htoNat, hfile, List.append_assoc, ← List.map_append,
            List.range'_append_1]

/-- What a read is to return. -/
def ReadsExactly (f : File) (i_size offset : Int) (count : Nat) (s : Reading) : Prop :=
  if offset < 0 then s.u_error ≠ none ∨ s.moved = []
  else
    s.u_error = none ∧
      s.moved = (List.range' offset.toNat (min count (i_size - offset).toNat)).map (fileByte f) ∧
      s.uio_offset = offset + s.moved.length ∧ s.moved.length + s.uio_resid = count

/-- A read is exact unless the offset is negative: then zeros or data are returned, except when the
distance to the end of the file does not fit into `off_t`. -/
theorem rwip_exact_iff (f : File) (i_size i_lastr offset : Int) (ahead : List Nat) (count : Nat)
    (hnonneg : 0 ≤ i_size) (hsize : i_size < 2 ^ 31) (hlow : -2 ^ 31 ≤ offset)
    (hhigh : offset < 2 ^ 31) :
    ReadsExactly f i_size offset count
        (rwip ⟨f, i_size, i_lastr, ahead, offset, count, [], none⟩) ↔
      0 ≤ offset ∨ count = 0 ∨ 2 ^ 31 ≤ i_size - offset := by
  obtain ⟨s, hs⟩ : ∃ s : Reading, s = ⟨f, i_size, i_lastr, ahead, offset, count, [], none⟩ :=
    ⟨_, rfl⟩
  have hfile : s.file = f := by rw [hs]
  have hfields : s.i_size = i_size ∧ s.uio_offset = offset ∧ s.uio_resid = count ∧
      s.moved = [] ∧ s.u_error = none := by
    rw [hs]
    exact ⟨rfl, rfl, rfl, rfl, rfl⟩
  rw [← hs]
  clear hs
  obtain ⟨rfl, rfl, rfl, hmoved, herror⟩ := hfields
  unfold ReadsExactly rwip
  by_cases hcount : s.uio_resid = 0
  · rw [if_pos hcount]
    refine iff_of_true ?_ (Or.inr (Or.inl hcount))
    split
    · exact Or.inr hmoved
    · simp [hcount, hmoved, herror]
  rw [if_neg hcount]
  by_cases hneg : s.uio_offset < 0
  · rw [if_pos hneg]
    by_cases hwrap : 2 ^ 31 ≤ s.i_size - s.uio_offset
    · -- the difference is negative as an `off_t`
      refine iff_of_true (Or.inr ?_) (Or.inr (Or.inr hwrap))
      have hdiff : s.diff ≤ 0 := by
        unfold Reading.diff off_t
        omega
      obtain ⟨turns, hturns⟩ : ∃ turns, s.uio_resid = turns + 1 := ⟨s.uio_resid - 1, by omega⟩
      have hturn : readTurn s = (s, false) := by
        unfold readTurn
        dsimp only
        rw [if_pos hdiff]
      rw [hturns, readLoop, hturn]
      exact hmoved
    · refine iff_of_false ?_ (by omega)
      obtain ⟨turns, hturns⟩ : ∃ turns, s.uio_resid = turns + 1 := ⟨s.uio_resid - 1, by omega⟩
      obtain ⟨n, hfirst, -⟩ := readTurn_moves hlow (by omega) hsize (by omega) hcount herror
      have hne : (readTurn s).1.moved ≠ [] := by
        rw [hfirst.moved, hmoved]
        have hpos := hfirst.pos
        simp only [List.nil_append, ne_eq, List.map_eq_nil_iff, List.range'_eq_nil_iff]
        omega
      obtain ⟨herror', hlast⟩ : (readLoop s.uio_resid s).u_error = none ∧
          (readLoop s.uio_resid s).moved ≠ [] := by
        rw [hturns, readLoop]
        split
        · obtain ⟨herror', hprefix⟩ := readLoop_keeps turns hfirst.u_error
          refine ⟨herror', fun hnil => hne ?_⟩
          rw [hnil] at hprefix
          exact List.prefix_nil.mp hprefix
        · exact ⟨hfirst.u_error, hne⟩
      rintro (hsome | hnil)
      · exact hsome herror'
      · exact hlast hnil
  · rw [if_neg hneg]
    refine iff_of_true ?_ (Or.inl (by omega))
    obtain ⟨hbytes, hoffset, hresid, herror'⟩ := readLoop_moves (Nat.le_refl s.uio_resid) hcount
      (by omega) hhigh hnonneg hsize herror
    rw [hmoved, List.nil_append, hfile] at hbytes
    refine ⟨herror', hbytes, ?_, ?_⟩
    · rw [hbytes, List.length_map, List.length_range']
      exact hoffset
    · rw [hbytes, List.length_map, List.length_range']
      exact hresid

/-- A file of the three bytes 7, 8 and 9. -/
def threeByteFile : File where
  vol := { smallVol with block := fun b => if b = 4 then ⟨0x090807, fun _ => 0⟩ else smallVol.block b }
  i_addr a := if a = 0 then 4 else 0
  i_flag := false
  rablock := 0

/-- A read of four bytes at offset 1. -/
theorem rwip_exact_three_bytes :
    ReadsExactly threeByteFile 3 1 4 (rwip ⟨threeByteFile, 3, 0, [], 1, 4, [], none⟩) ∧
      (rwip ⟨threeByteFile, 3, 0, [], 1, 4, [], none⟩).moved = [8, 9] :=
  ⟨(rwip_exact_iff threeByteFile 3 0 1 [] 4 (by decide) (by decide) (by decide) (by decide)).mpr
    (Or.inl (by decide)), by decide +kernel⟩

/-- After a seek to -2 a read returns two zeros and then the start of the file, without an error. -/
theorem negative_offset_returns_data :
    let r := read (lseek ⟨threeByteFile, 3, 0, 0⟩ (-2) .L_SET) 4
    r.1 = [0, 0, 7, 8] ∧ r.2.1 = none ∧ r.2.2.f_offset = 2 := by
  decide +kernel

end DiscoBsd.Bmap
