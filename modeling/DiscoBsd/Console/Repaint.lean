import DiscoBsd.Console.Cursor
import Mathlib.Data.List.GetD

/-!
# The backing store and the pixels

`Sound` says that the pixels of the console's cells are those of the backing store. Drawing a cell,
scrolling and clearing keep it as long as the palette has room, which `Good` provides for.
-/

namespace DiscoBsd.Console

open Lib

variable {font : Font} {colours : List UInt16} {s : State} {vram : Int → UInt16}

/-! ## Cells -/

/-- The three parts of a cell's word. -/
theorem unpack {ch fi bi : Nat} (hch : ch < 256) (hfi : fi < 16) (hbi : bi < 16) :
    GTXT_UNCH (GTXT_PACK ch fi bi) = UInt8.ofNat ch ∧ GTXT_UNFI (GTXT_PACK ch fi bi) = fi ∧
      GTXT_UNBI (GTXT_PACK ch fi bi) = bi := by
  have hlow : fi <<< 8 ||| ch % 256 = fi * 256 + ch := by
    rw [Nat.mod_eq_of_lt hch, ← Nat.shiftLeft_add_eq_or_of_lt (show ch < 2 ^ 8 from hch), Nat.shiftLeft_eq]
  have hhigh : bi <<< 12 ||| (fi * 256 + ch) = bi * 4096 + (fi * 256 + ch) := by
    rw [← Nat.shiftLeft_add_eq_or_of_lt (show fi * 256 + ch < 2 ^ 12 by omega), Nat.shiftLeft_eq]
  have hpack : GTXT_PACK ch fi bi = bi * 4096 + (fi * 256 + ch) := by
    rw [GTXT_PACK, Nat.or_assoc, hlow, hhigh, Nat.mod_eq_of_lt (by omega)]
  rw [hpack, GTXT_UNCH, GTXT_UNFI, GTXT_UNBI]
  refine ⟨?_, by omega, by omega⟩
  congr 1
  omega

/-- A cell's word is made of its parts. -/
theorem pack_unpack {v : Nat} (hv : v < 65536) :
    GTXT_PACK (GTXT_UNCH v).toNat (GTXT_UNFI v) (GTXT_UNBI v) = v := by
  have hch : (GTXT_UNCH v).toNat = v % 256 := by
    rw [GTXT_UNCH, UInt8.toNat_ofNat']
    omega
  have hlow : (v / 256 % 16) <<< 8 ||| v % 256 % 256 = v / 256 % 16 * 256 + v % 256 := by
    rw [Nat.mod_mod, ← Nat.shiftLeft_add_eq_or_of_lt (show v % 256 < 2 ^ 8 by omega), Nat.shiftLeft_eq]
  have hhigh : (v / 4096 % 16) <<< 12 ||| (v / 256 % 16 * 256 + v % 256) =
      v / 4096 % 16 * 4096 + (v / 256 % 16 * 256 + v % 256) := by
    rw [← Nat.shiftLeft_add_eq_or_of_lt (show v / 256 % 16 * 256 + v % 256 < 2 ^ 12 by omega),
      Nat.shiftLeft_eq]
  rw [hch, GTXT_PACK, GTXT_UNFI, GTXT_UNBI, Nat.or_assoc, hlow, hhigh]
  omega

/-! ## The palette -/

/-- A palette of different colours, all of them from the list of colours in use. -/
structure Palette (colours pal : List UInt16) : Prop where
  few : colours.length ≤ GTXT_NPAL
  nodup : pal.Nodup
  subset : ∀ color ∈ pal, color ∈ colours

theorem Palette.length_le {pal : List UInt16} (h : Palette colours pal) : pal.length ≤ GTXT_NPAL :=
  Nat.le_trans (List.Nodup.length_le_of_subset h.nodup h.subset) h.few

/-- A colour in use is found in the palette or added to it. -/
theorem pal_index_spec {pal : List UInt16} (h : Palette colours pal) {color : UInt16}
    (hcolor : color ∈ colours) :
    Palette colours (gtxt_pal_index color pal).2 ∧
      (gtxt_pal_index color pal).1 < (gtxt_pal_index color pal).2.length ∧
      (gtxt_pal_index color pal).2.getD (gtxt_pal_index color pal).1 0 = color ∧
      pal <+: (gtxt_pal_index color pal).2 := by
  rw [gtxt_pal_index]
  by_cases hmem : color ∈ pal
  · rw [if_pos hmem]
    have hlt := List.idxOf_lt_length_of_mem hmem
    refine ⟨h, hlt, ?_, List.prefix_rfl⟩
    rw [List.getD_eq_getElem _ _ hlt, List.getElem_idxOf]
  · rw [if_neg hmem]
    have hnodup : (color :: pal).Nodup := List.nodup_cons.mpr ⟨hmem, h.nodup⟩
    have hsubset : (color :: pal) ⊆ colours := List.cons_subset.mpr ⟨hcolor, h.subset⟩
    have hroom : pal.length < GTXT_NPAL :=
      Nat.lt_of_succ_le (Nat.le_trans (List.Nodup.length_le_of_subset hnodup hsubset) h.few)
    rw [if_pos hroom]
    refine ⟨⟨h.few, ?_, ?_⟩, ?_, ?_, List.prefix_append ..⟩
    · exact List.nodup_append_comm.mp hnodup
    · intro other hother
      rcases List.mem_append.mp hother with hold | hnew
      · exact h.subset other hold
      · exact List.mem_singleton.mp hnew ▸ hcolor
    · simp
    · simp

theorem getD_grown {pal pal' : List UInt16} (h : pal <+: pal') {i : Nat} (hi : i < pal.length) :
    pal'.getD i 0 = pal.getD i 0 := by
  obtain ⟨rest, rfl⟩ := h
  rw [List.getD_append _ _ _ _ hi]

theorem pal_index_getD {pal : List UInt16} (h : pal.Nodup) {i : Nat} (hi : i < pal.length) :
    gtxt_pal_index (pal.getD i 0) pal = (i, pal) := by
  rw [List.getD_eq_getElem _ _ hi, gtxt_pal_index, if_pos (List.getElem_mem hi), h.idxOf_getElem]

/-- A cell's word has two colours of the palette. -/
structure ValidCell (pal : List UInt16) (v : Nat) : Prop where
  fi_lt : GTXT_UNFI v < pal.length
  bi_lt : GTXT_UNBI v < pal.length
  word : v < 65536

/-- What a cell's word shows. -/
def wordColor (font : Font) (pal : List UInt16) (v : Nat) (dot : Int × Int) : UInt16 :=
  glyphColor font (GTXT_UNCH v) (pal.getD (GTXT_UNFI v) 0) (pal.getD (GTXT_UNBI v) 0) dot

theorem wordColor_grown {pal pal' : List UInt16} (h : pal <+: pal') {v : Nat} (hv : ValidCell pal v)
    (dot : Int × Int) : wordColor font pal' v dot = wordColor font pal v dot := by
  rw [wordColor, wordColor, getD_grown h hv.fi_lt, getD_grown h hv.bi_lt]

theorem ValidCell.grown {pal pal' : List UInt16} (h : pal <+: pal') {v : Nat} (hv : ValidCell pal v) :
    ValidCell pal' v :=
  ⟨Nat.lt_of_lt_of_le hv.1 h.length_le, Nat.lt_of_lt_of_le hv.2 h.length_le, hv.3⟩

/-! ## The backing store -/

/-- A cell of the screen. -/
def OnScreen (row col : Int) : Prop := (0 ≤ row ∧ row < GTXT_ROWS) ∧ 0 ≤ col ∧ col < GTXT_COLS

/-- The palette has room for the colours in use, and every cell of the screen has two of its entries. -/
structure Good (colours : List UInt16) (s : State) : Prop where
  palette : Palette colours s.gtxt_pal
  fg : s.gtxt_fg ∈ colours
  bg : s.gtxt_bg ∈ colours
  normal : s.gtxt_fg_normal ∈ colours
  green : GTXT_GREEN ∈ colours
  cells : ∀ row col, OnScreen row col → ValidCell s.gtxt_pal (s.gtxt_cells (row * GTXT_COLS + col))

/-- The colour of a pixel of a cell, from the backing store. -/
def cellPixel (font : Font) (s : State) (row col : Int) (dot : Int × Int) : UInt16 :=
  wordColor font s.gtxt_pal (s.gtxt_cells (row * GTXT_COLS + col)) dot

theorem cell_index_inj {row col row' col' : Int} (h : OnScreen row col) (h' : OnScreen row' col')
    (heq : row * GTXT_COLS + col = row' * GTXT_COLS + col') : row = row' ∧ col = col' := by
  have hcols : GTXT_COLS = 40 := rfl
  simp only [OnScreen, hcols] at h h' heq
  omega

/-- Different pixels of the screen have different addresses. -/
theorem cellAddress_inj {row col row' col' : Int} {dot dot' : Int × Int} (h : OnScreen row col)
    (h' : OnScreen row' col') (hdot : dot ∈ cellDots) (hdot' : dot' ∈ cellDots)
    (heq : cellAddress row col dot = cellAddress row' col' dot') :
    row = row' ∧ col = col' ∧ dot = dot' := by
  rw [mem_cellDots] at hdot hdot'
  have hcols : GTXT_COLS = 40 := rfl
  have hpixels : GTXT_ROW_PIXELS = 1920 := rfl
  simp only [OnScreen, hcols] at h h'
  simp only [cellAddress, hpixels, GTXT_CHAR_W, GTXT_SCREEN_W] at heq
  have hrow : row = row' := by omega
  have hcol : col = col' := by omega
  exact ⟨hrow, hcol, Prod.ext (by omega) (by omega)⟩

/-- The word and the palette after a cell is set. -/
theorem record_state (font : Font) (c : UInt8) (row col : Int) {fg bg : UInt16}
    (hs : Palette colours s.gtxt_pal) (hfg : fg ∈ colours) (hbg : bg ∈ colours) :
    ∃ v pal, s.record c row col fg bg =
        { s with
          gtxt_pal := pal
          gtxt_cells := Function.update s.gtxt_cells (row * GTXT_COLS + col) v } ∧
      Palette colours pal ∧ s.gtxt_pal <+: pal ∧ ValidCell pal v ∧
      ∀ dot, wordColor font pal v dot = glyphColor font c fg bg dot := by
  obtain ⟨hpal, hblt, hbget, hbpre⟩ := pal_index_spec hs hbg
  obtain ⟨hpal', hflt, hfget, hfpre⟩ := pal_index_spec hpal hfg
  have hmax := hpal'.length_le
  have hnpal : GTXT_NPAL = 16 := rfl
  have hblt' := Nat.lt_of_lt_of_le hblt hfpre.length_le
  obtain ⟨hch, hfi, hbi⟩ := unpack c.toNat_lt (Nat.lt_of_lt_of_le hflt hmax)
    (Nat.lt_of_lt_of_le hblt' hmax)
  refine ⟨_, _, rfl, hpal', hbpre.trans hfpre, ⟨?_, ?_, Nat.mod_lt _ (by decide)⟩, fun dot => ?_⟩
  · rw [hfi]
    exact hflt
  · rw [hbi]
    exact hblt'
  · rw [wordColor, hch, hfi, hbi, hfget, getD_grown hfpre hblt, hbget, UInt8.ofNat_toNat]

theorem update_word (cells : Int → Nat) {row col row' col' : Int} (v : Nat) (h : OnScreen row col)
    (h' : OnScreen row' col') (hne : ¬ (row' = row ∧ col' = col)) :
    Function.update cells (row * GTXT_COLS + col) v (row' * GTXT_COLS + col') =
      cells (row' * GTXT_COLS + col') :=
  Function.update_of_ne (fun heq => hne (cell_index_inj h' h heq)) ..

/-- Setting a cell of the screen. -/
theorem record_good (font : Font) (c : UInt8) {row col : Int} {fg bg : UInt16} (hs : Good colours s)
    (h : OnScreen row col) (hfg : fg ∈ colours) (hbg : bg ∈ colours) :
    Good colours (s.record c row col fg bg) ∧
      (∀ dot, cellPixel font (s.record c row col fg bg) row col dot = glyphColor font c fg bg dot) ∧
      ∀ row' col', OnScreen row' col' → ¬ (row' = row ∧ col' = col) → ∀ dot,
        cellPixel font (s.record c row col fg bg) row' col' dot = cellPixel font s row' col' dot := by
  obtain ⟨v, pal, hstate, hpal, hpre, hvalid, hcolor⟩ :=
    record_state font c row col hs.palette hfg hbg
  rw [hstate]
  refine ⟨{ hs with palette := hpal, cells := fun row' col' h' => ?_ }, fun dot => ?_,
    fun row' col' h' hne dot => ?_⟩
  · dsimp only
    by_cases hsame : row' = row ∧ col' = col
    · rw [hsame.1, hsame.2, Function.update_self]
      exact hvalid
    · rw [update_word _ v h h' hsame]
      exact (hs.cells row' col' h').grown hpre
  · rw [cellPixel]
    dsimp only
    rw [Function.update_self, hcolor]
  · rw [cellPixel, cellPixel]
    dsimp only
    rw [update_word _ v h h' hne, wordColor_grown hpre (hs.cells row' col' h')]

/-- A blank is a space in the background colour. -/
theorem cell_blank_eq (row col : Int) (s : State) :
    gtxt_cell_blank row col s = (s.record 32 row col s.gtxt_bg s.gtxt_bg, []) := by
  have hagain : gtxt_pal_index s.gtxt_bg (gtxt_pal_index s.gtxt_bg s.gtxt_pal).2 =
      gtxt_pal_index s.gtxt_bg s.gtxt_pal := by
    rw [gtxt_pal_index.eq_def s.gtxt_bg s.gtxt_pal]
    split
    · rename_i hmem
      rw [gtxt_pal_index, if_pos hmem]
    · split
      · rename_i hnew _
        have hidx : (s.gtxt_pal ++ [s.gtxt_bg]).idxOf s.gtxt_bg = s.gtxt_pal.length := by
          rw [List.idxOf_append_of_notMem hnew]
          simp
        rw [gtxt_pal_index, if_pos (by simp), hidx]
      · rename_i hnew hfull
        rw [gtxt_pal_index, if_neg hnew, if_neg hfull]
  rw [gtxt_cell_blank, Emit.change, State.record]
  dsimp only
  rw [hagain]
  rfl

theorem blank_color (font : Font) (bg : UInt16) (dot : Int × Int) :
    glyphColor font 32 bg bg dot = bg := by
  rw [glyphColor, ite_self]

/-- Blanking cells of the screen: each of them shows the background, and the others keep their words. -/
theorem blanks (font : Font) {places : List (Int × Int)} (s : State)
    (hplaces : ∀ place ∈ places, OnScreen place.1 place.2) (hpal : Palette colours s.gtxt_pal)
    (hbg : s.gtxt_bg ∈ colours) :
    ∃ cells pal, Emit.each (fun cell => gtxt_cell_blank cell.1 cell.2) places s =
        ({ s with gtxt_cells := cells, gtxt_pal := pal }, []) ∧
      Palette colours pal ∧ s.gtxt_pal <+: pal ∧
      ∀ row col, OnScreen row col →
        ((row, col) ∈ places ∧ ValidCell pal (cells (row * GTXT_COLS + col)) ∧
          ∀ dot, wordColor font pal (cells (row * GTXT_COLS + col)) dot = s.gtxt_bg) ∨
        ((row, col) ∉ places ∧
          cells (row * GTXT_COLS + col) = s.gtxt_cells (row * GTXT_COLS + col)) := by
  induction places generalizing s with
  | nil =>
      exact ⟨s.gtxt_cells, s.gtxt_pal, rfl, hpal, List.prefix_rfl,
        fun _ _ _ => .inr ⟨List.not_mem_nil, rfl⟩⟩
  | cons place places ih =>
      obtain ⟨v, pal₁, hstate, hpal₁, hpre, hvalid, hcolor⟩ :=
        record_state font 32 place.1 place.2 hpal hbg hbg
      have hplace := hplaces place (List.mem_cons_self ..)
      obtain ⟨cells, pal, heach, hpal₂, hpre₂, hcells⟩ :=
        ih (s.record 32 place.1 place.2 s.gtxt_bg s.gtxt_bg)
          (fun other hother => hplaces other (List.mem_cons_of_mem _ hother))
          (by rw [hstate]; exact hpal₁) hbg
      refine ⟨cells, pal, ?_, hpal₂, ?_, fun row col hcell => ?_⟩
      · rw [Emit.each, Emit.andThen, cell_blank_eq]
        dsimp only
        rw [heach]
        rfl
      · rw [hstate] at hpre₂
        exact hpre.trans hpre₂
      rw [hstate] at hpre₂ hcells
      rcases hcells row col hcell with ⟨hmem, hword⟩ | ⟨hnot, hold⟩
      · exact .inl ⟨List.mem_cons_of_mem _ hmem, hword⟩
      by_cases hsame : row = place.1 ∧ col = place.2
      · left
        have hword : cells (row * GTXT_COLS + col) = v := by
          rw [hold, hsame.1, hsame.2]
          exact Function.update_self ..
        rw [hword]
        refine ⟨?_, hvalid.grown hpre₂, fun dot => ?_⟩
        · rw [hsame.1, hsame.2]
          exact List.mem_cons_self ..
        · rw [wordColor_grown hpre₂ hvalid, hcolor, blank_color]
      · right
        refine ⟨?_, hold.trans (update_word _ v hplace hcell hsame)⟩
        rw [List.mem_cons, not_or]
        exact ⟨fun heq => hsame ⟨congrArg Prod.fst heq, congrArg Prod.snd heq⟩, hnot⟩

/-! ## The pixels -/

/-- A cell of the console. -/
def InConsole (row col : Int) : Prop := (0 ≤ row ∧ row ≤ GTXT_BOTTOM) ∧ 0 ≤ col ∧ col < GTXT_COLS

theorem InConsole.onScreen {row col : Int} (h : InConsole row col) : OnScreen row col :=
  ⟨⟨h.1.1, Int.lt_of_le_of_lt h.1.2 (by decide)⟩, h.2⟩

/-- The pixels of the console are those of the backing store. -/
structure Sound (font : Font) (colours : List UInt16) (p : State × (Int → UInt16)) : Prop where
  good : Good colours p.1
  faithful : ∀ row col, InConsole row col → ∀ dot ∈ cellDots,
    p.2 (cellAddress row col dot) = cellPixel font p.1 row col dot

/-- A property that a routine keeps. -/
def Keeps (P : State × (Int → UInt16) → Prop) (f : Routine) : Prop := ∀ p, P p → P (runOn f p)

variable {P : State × (Int → UInt16) → Prop} {p : State × (Int → UInt16)}

theorem Keeps.andThen {f g : Routine} (hf : Keeps P f) (hg : Keeps P g) : Keeps P (f.andThen g) := by
  intro p hp
  rw [runOn_andThen]
  exact hg _ (hf p hp)

theorem Keeps.each {Index : Type} {f : Index → Routine} {is : List Index}
    (h : ∀ i ∈ is, Keeps P (f i)) : Keeps P (Emit.each f is) := by
  induction is with
  | nil => exact fun p hp => hp
  | cons i is ih =>
      exact (h i (List.mem_cons_self ..)).andThen (ih fun j hj => h j (List.mem_cons_of_mem _ hj))

/-- Drawing a cell of the console. -/
theorem draw_cell_sound (c : UInt8) {row col : Int} {fg bg : UInt16} (hp : Sound font colours p)
    (h : InConsole row col) (hfg : fg ∈ colours) (hbg : bg ∈ colours) :
    Sound font colours (runOn (gtxt_draw_cell font false c col row fg bg) p) := by
  obtain ⟨hgood, hsame, hother⟩ := record_good font c hp.good h.onScreen hfg hbg
  have hrun : runOn (gtxt_draw_cell font false c col row fg bg) p =
      (p.1.record c row col fg bg,
        paint p.2 (cellDots.map fun dot => (cellAddress row col dot, glyphColor font c fg bg dot))) := by
    have hscreen : (0 ≤ row ∧ row < GTXT_ROWS) ∧ 0 ≤ col ∧ col < GTXT_COLS := h.onScreen
    rw [runOn, gtxt_draw_cell, if_pos hscreen]
    rfl
  rw [hrun]
  refine ⟨hgood, fun row' col' h' dot hdot => ?_⟩
  dsimp only
  by_cases hcell : row' = row ∧ col' = col
  · obtain ⟨rfl, rfl⟩ := hcell
    have hinj : ∀ k ∈ cellDots, cellAddress row' col' k = cellAddress row' col' dot → k = dot :=
      fun k hk heq => (cellAddress_inj h.onScreen h.onScreen hk hdot heq).2.2
    rw [hsame, paint_map p.2 hinj hdot]
  · rw [hother row' col' h'.onScreen hcell, paint_of_not_mem, hp.faithful row' col' h' dot hdot]
    rw [List.map_map]
    intro hmem
    obtain ⟨k, hk, heq⟩ := List.mem_map.mp hmem
    obtain ⟨hrow, hcol, -⟩ := cellAddress_inj h.onScreen h'.onScreen hk hdot heq
    exact hcell ⟨hrow.symm, hcol.symm⟩

/-- What a cell shows after another one has been drawn. -/
theorem draw_cell_pixel (c : UInt8) {row col : Int} {fg bg : UInt16} (hp : Sound font colours p)
    (h : InConsole row col) (hfg : fg ∈ colours) (hbg : bg ∈ colours) :
    (∀ dot, cellPixel font (runOn (gtxt_draw_cell font false c col row fg bg) p).1 row col dot =
      glyphColor font c fg bg dot) ∧
    ∀ row' col', InConsole row' col' → ¬ (row' = row ∧ col' = col) → ∀ dot,
      cellPixel font (runOn (gtxt_draw_cell font false c col row fg bg) p).1 row' col' dot =
        cellPixel font p.1 row' col' dot := by
  obtain ⟨-, hsame, hother⟩ := record_good font c hp.good h.onScreen hfg hbg
  have hstate : (runOn (gtxt_draw_cell font false c col row fg bg) p).1 =
      p.1.record c row col fg bg := if_pos h.onScreen
  rw [hstate]
  exact ⟨hsame, fun row' col' h' => hother row' col' h'.onScreen⟩

/-- The pixels of the console that the column behind the last one has: the lines of the row's first cell
but for the top one, and the top line of the row below. -/
theorem overhang {row row' col' : Int} {dot dot' : Int × Int} (hdot : dot ∈ cellDots)
    (hdot' : dot' ∈ cellDots) (h' : InConsole row' col')
    (heq : cellAddress row GTXT_COLS dot = cellAddress row' col' dot') :
    col' = 0 ∧ (row' = row ∨ (row' = row + 1 ∧ dot'.1 = 0)) := by
  rw [mem_cellDots] at hdot hdot'
  have hcols : GTXT_COLS = 40 := rfl
  have hpixels : GTXT_ROW_PIXELS = 1920 := rfl
  simp only [InConsole, hcols] at h'
  simp only [cellAddress, hpixels, hcols, GTXT_CHAR_W, GTXT_SCREEN_W] at heq
  omega

/-- A blank behind the last column, where it falls on background. -/
theorem draw_overhang {row : Int} {bg : UInt16} (hp : Sound font colours p)
    (hfirst : ∀ dot ∈ cellDots, cellPixel font p.1 row 0 dot = bg)
    (hbelow : row < GTXT_BOTTOM → ∀ dot ∈ cellDots, dot.1 = 0 → cellPixel font p.1 (row + 1) 0 dot = bg) :
    Sound font colours (runOn (gtxt_draw_cell font false 32 GTXT_COLS row bg bg) p) := by
  have hrun : runOn (gtxt_draw_cell font false 32 GTXT_COLS row bg bg) p =
      (p.1, paint p.2 (cellDots.map fun dot => (cellAddress row GTXT_COLS dot, bg))) := by
    have hout : ¬ ((0 ≤ row ∧ row < GTXT_ROWS) ∧ 0 ≤ GTXT_COLS ∧ GTXT_COLS < GTXT_COLS) :=
      fun h => Int.lt_irrefl _ h.2.2
    rw [runOn, gtxt_draw_cell, if_neg hout]
    simp only [blank_color]
    rfl
  rw [hrun]
  refine ⟨hp.good, fun row' col' h' dot' hdot' => ?_⟩
  rw [← hp.faithful row' col' h' dot' hdot']
  dsimp only
  refine paint_const p.2 fun hmem => ?_
  obtain ⟨dot, hdot, heq⟩ := List.mem_map.mp hmem
  obtain ⟨rfl, hrow⟩ := overhang hdot hdot' h' heq
  rw [hp.faithful row' 0 h' dot' hdot']
  rcases hrow with rfl | ⟨rfl, htop⟩
  · exact hfirst dot' hdot'
  · exact hbelow (by have hle := h'.1.2; omega) dot' hdot' htop

/-! ## Erasing -/

theorem runOn_congr {f g : Routine} (h : f p.1 = g p.1) : runOn f p = runOn g p := by
  rw [runOn, runOn, h]

/-- A round of `gtxt_clear_span`. -/
def clearCell (font : Font) (row c : Int) : Routine := fun s =>
  gtxt_draw_cell font false 32 c row s.gtxt_bg s.gtxt_bg s

theorem clear_span_eq (row c0 c1 : Int) :
    gtxt_clear_span font false row c0 c1 = Emit.each (clearCell font row) (interval c0 c1) := rfl

theorem runOn_clearCell (font : Font) (row c : Int) (p : State × (Int → UInt16)) :
    runOn (clearCell font row c) p =
      runOn (gtxt_draw_cell font false 32 c row p.1.gtxt_bg p.1.gtxt_bg) p :=
  runOn_congr rfl

theorem span_sound {row c0 c1 : Int} (hrow : 0 ≤ row ∧ row ≤ GTXT_BOTTOM) (hc0 : 0 ≤ c0)
    (hc1 : c1 < GTXT_COLS) : Keeps (Sound font colours) (gtxt_clear_span font false row c0 c1) := by
  rw [clear_span_eq]
  refine Keeps.each fun c hc p hp => ?_
  rw [mem_interval] at hc
  rw [runOn_clearCell]
  exact draw_cell_sound 32 hp ⟨hrow, Int.le_trans hc0 hc.1, Int.lt_of_le_of_lt hc.2 hc1⟩ hp.good.bg
    hp.good.bg

theorem interval_cons {first last : Int} (h : first ≤ last) :
    interval first last = first :: interval (first + 1) last := by
  have hlength : (last + 1 - first).toNat = (last + 1 - (first + 1)).toNat + 1 := by omega
  rw [interval, interval, hlength, List.range_succ_eq_map, List.map_cons, List.map_map]
  congr 1
  · omega
  · refine List.map_congr_left fun i _ => ?_
    have hnext : first + ((i + 1 : Nat) : Int) = first + 1 + i := by omega
    exact hnext

theorem interval_concat {first last : Int} (h : first ≤ last) :
    interval first last = interval first (last - 1) ++ [last] := by
  have hlength : (last + 1 - first).toNat = (last - 1 + 1 - first).toNat + 1 := by omega
  rw [interval, interval, hlength, List.range_succ, List.map_append, List.map_singleton]
  congr 2
  omega

/-- Erasing in a row would fall on background behind its end. -/
structure Overhung (font : Font) (colours : List UInt16) (row : Int) (p : State × (Int → UInt16)) :
    Prop where
  sound : Sound font colours p
  below : row < GTXT_BOTTOM → ∀ dot ∈ cellDots, dot.1 = 0 →
    cellPixel font p.1 (row + 1) 0 dot = p.1.gtxt_bg

theorem clearCell_bg (row c : Int) (p : State × (Int → UInt16)) :
    (runOn (clearCell font row c) p).1.gtxt_bg = p.1.gtxt_bg := by
  rw [runOn, clearCell, gtxt_draw_cell]
  dsimp only
  split <;> rfl

/-- Clearing a cell of the row or of one above it. -/
theorem clearCell_overhung {row row' c : Int} (hrow : 0 ≤ row' ∧ row' ≤ row) (hbottom : row ≤ GTXT_BOTTOM)
    (hc : 0 ≤ c ∧ c < GTXT_COLS) : Keeps (Overhung font colours row) (clearCell font row' c) := by
  intro p hp
  have hcell : InConsole row' c := ⟨⟨hrow.1, Int.le_trans hrow.2 hbottom⟩, hc⟩
  have hbg := hp.sound.good.bg
  have hrun := runOn_clearCell font row' c p
  refine ⟨?_, fun hlast dot hdot htop => ?_⟩
  · rw [hrun]
    exact draw_cell_sound 32 hp.sound hcell hbg hbg
  · have hnext : InConsole (row + 1) 0 := ⟨⟨by omega, hlast⟩, by decide⟩
    rw [clearCell_bg, hrun, (draw_cell_pixel 32 hp.sound hcell hbg hbg).2 (row + 1) 0 hnext (by omega)]
    exact hp.below hlast dot hdot htop

/-- Clearing a row from its first column to behind its last one. -/
theorem span_overhang {row : Int} (hrow : 0 ≤ row ∧ row ≤ GTXT_BOTTOM) (hp : Overhung font colours row p) :
    Sound font colours (runOn (gtxt_clear_span font false row 0 GTXT_COLS) p) := by
  let First (p : State × (Int → UInt16)) : Prop :=
    Overhung font colours row p ∧ ∀ dot, cellPixel font p.1 row 0 dot = p.1.gtxt_bg
  have hsplit : Emit.each (clearCell font row) (interval 0 GTXT_COLS) =
      (clearCell font row 0).andThen ((Emit.each (clearCell font row) (interval 1 (GTXT_COLS - 1))).andThen
        (clearCell font row GTXT_COLS)) := by
    rw [interval_cons (by decide), interval_concat (by decide), Emit.each, Emit.each_append,
      Emit.each_singleton]
    rfl
  have hzero : InConsole row 0 := ⟨hrow, by decide⟩
  have hfirst : First (runOn (clearCell font row 0) p) := by
    refine ⟨clearCell_overhung ⟨hrow.1, Int.le_refl _⟩ hrow.2 hzero.2 p hp, fun dot => ?_⟩
    have hbg := hp.sound.good.bg
    rw [clearCell_bg, runOn_clearCell, (draw_cell_pixel 32 hp.sound hzero hbg hbg).1, blank_color]
  have hrest : Keeps First (Emit.each (clearCell font row) (interval 1 (GTXT_COLS - 1))) := by
    refine Keeps.each fun c hc q hq => ?_
    rw [mem_interval] at hc
    have hcell : InConsole row c := ⟨hrow, by omega, by omega⟩
    have hbg := hq.1.sound.good.bg
    refine ⟨clearCell_overhung ⟨hrow.1, Int.le_refl _⟩ hrow.2 hcell.2 q hq.1, fun dot => ?_⟩
    rw [clearCell_bg, runOn_clearCell,
      (draw_cell_pixel 32 hq.1.sound hcell hbg hbg).2 row 0 hzero (by omega), hq.2]
  obtain ⟨hover, hblank⟩ := hrest _ hfirst
  rw [clear_span_eq, hsplit, runOn_andThen, runOn_andThen, runOn_clearCell]
  exact draw_overhang hover.sound (fun dot _ => hblank dot) hover.below

/-! ## Scrolling -/

/-- The words of the cells after the rows have moved up. -/
theorem scrolled_word (cells : Int → Nat) {row col : Int} (h : OnScreen row col) :
    copyForward cells 0 GTXT_COLS (dmaUnits ((GTXT_BOTTOM + 1 - 1) * GTXT_COLS).toNat)
        (row * GTXT_COLS + col) =
      if row < GTXT_BOTTOM then cells ((row + 1) * GTXT_COLS + col)
      else cells (row * GTXT_COLS + col) := by
  have hunits : dmaUnits ((GTXT_BOTTOM + 1 - 1) * GTXT_COLS).toNat = 560 := rfl
  have hcols : GTXT_COLS = 40 := rfl
  have hbottom : GTXT_BOTTOM = 14 := rfl
  simp only [OnScreen, hcols] at h
  rw [hunits, copyForward_apply (by decide), hcols, hbottom]
  by_cases hrow : row < 14
  · rw [if_pos (by omega), if_pos hrow]
    congr 1
    omega
  · rw [if_neg (by omega), if_neg hrow]

/-- The pixels after the rows have moved up and the last one is filled. -/
theorem scrolled_pixel (vram : Int → UInt16) (bg : UInt16) {row col : Int} {dot : Int × Int}
    (h : InConsole row col) (hdot : dot ∈ cellDots) :
    drawn vram [.copy 0 GTXT_ROW_PIXELS (dmaUnits ((GTXT_BOTTOM + 1 - 1) * GTXT_ROW_PIXELS).toNat),
        .fill ((GTXT_BOTTOM + 1 - 1) * GTXT_ROW_PIXELS) (dmaUnits GTXT_ROW_PIXELS.toNat) bg]
        (cellAddress row col dot) =
      if row < GTXT_BOTTOM then vram (cellAddress (row + 1) col dot) else bg := by
  have hcopy : dmaUnits ((GTXT_BOTTOM + 1 - 1) * GTXT_ROW_PIXELS).toNat = 26880 := rfl
  have hfill : dmaUnits GTXT_ROW_PIXELS.toNat = 1920 := rfl
  have hstart : (GTXT_BOTTOM + 1 - 1) * GTXT_ROW_PIXELS = 26880 := rfl
  have hpixels : GTXT_ROW_PIXELS = 1920 := rfl
  have hbottom : GTXT_BOTTOM = 14 := rfl
  have hcols : GTXT_COLS = 40 := rfl
  rw [hcopy, hfill, hstart, drawn, List.foldl_cons, List.foldl_cons, List.foldl_nil, Effect.apply,
    Effect.apply]
  dsimp only
  rw [copyForward_apply (by decide)]
  rw [mem_cellDots] at hdot
  simp only [InConsole, hcols, hbottom] at h
  simp only [cellAddress, hpixels, GTXT_CHAR_W, GTXT_SCREEN_W, hbottom]
  by_cases hrow : row < 14
  · rw [if_neg (by omega), if_pos (by omega), if_pos hrow]
    congr 1
    omega
  · rw [if_pos (by omega), if_neg hrow]

/-- The last row of the console. -/
def lastRow : List (Int × Int) := (interval 0 (GTXT_COLS - 1)).map fun col => (GTXT_BOTTOM + 1 - 1, col)

theorem mem_lastRow {row col : Int} (h : OnScreen row col) :
    (row, col) ∈ lastRow ↔ row = GTXT_BOTTOM := by
  have hlast : GTXT_BOTTOM + 1 - 1 = GTXT_BOTTOM := rfl
  rw [lastRow, List.mem_map, hlast]
  constructor
  · rintro ⟨col', -, heq⟩
    exact (congrArg Prod.fst heq).symm
  · rintro rfl
    exact ⟨col, mem_interval.mpr ⟨h.2.1, Int.le_sub_one_of_lt h.2.2⟩, rfl⟩

theorem lastRow_onScreen : ∀ place ∈ lastRow, OnScreen place.1 place.2 := by
  intro place hplace
  obtain ⟨col, hcol, rfl⟩ := List.mem_map.mp hplace
  rw [mem_interval] at hcol
  have hlast : 0 ≤ GTXT_BOTTOM + 1 - 1 ∧ GTXT_BOTTOM + 1 - 1 < GTXT_ROWS := by decide
  exact ⟨hlast, hcol.1, Int.lt_of_le_sub_one hcol.2⟩

/-- What scrolling does to the state and the pixels. -/
theorem runOn_shift {cells : Int → Nat} {pal : List UInt16} {p : State × (Int → UInt16)}
    (h : Emit.each (fun cell => gtxt_cell_blank cell.1 cell.2) lastRow
        { p.1 with
          gtxt_cells := copyForward p.1.gtxt_cells 0 GTXT_COLS
            (dmaUnits ((GTXT_BOTTOM + 1 - 1) * GTXT_COLS).toNat) } =
      ({ p.1 with gtxt_cells := cells, gtxt_pal := pal }, [])) :
    runOn (gtxt_shift false) p =
      ({ p.1 with gtxt_cells := cells, gtxt_pal := pal },
        drawn p.2 [.copy 0 GTXT_ROW_PIXELS (dmaUnits ((GTXT_BOTTOM + 1 - 1) * GTXT_ROW_PIXELS).toNat),
          .fill ((GTXT_BOTTOM + 1 - 1) * GTXT_ROW_PIXELS) (dmaUnits GTXT_ROW_PIXELS.toNat)
            p.1.gtxt_bg]) := by
  rw [lastRow, Emit.each_map] at h
  rw [runOn, gtxt_shift, gtxt_scroll_rows, Emit.andThen, Emit.change, Emit.andThen]
  dsimp only at h ⊢
  rw [h]
  rfl

theorem shift_sound : Keeps (Sound font colours) (gtxt_shift false) := by
  intro p hp
  obtain ⟨cells, pal, heach, hpal, hpre, hcells⟩ :=
    blanks font
      { p.1 with
        gtxt_cells := copyForward p.1.gtxt_cells 0 GTXT_COLS
          (dmaUnits ((GTXT_BOTTOM + 1 - 1) * GTXT_COLS).toNat) }
      lastRow_onScreen hp.good.palette hp.good.bg
  have hword : ∀ row col, OnScreen row col → row ≠ GTXT_BOTTOM →
      cells (row * GTXT_COLS + col) =
        if row < GTXT_BOTTOM then p.1.gtxt_cells ((row + 1) * GTXT_COLS + col)
        else p.1.gtxt_cells (row * GTXT_COLS + col) := by
    intro row col hcell hrow
    rcases hcells row col hcell with ⟨hmem, -⟩ | ⟨-, hold⟩
    · exact absurd ((mem_lastRow hcell).mp hmem) hrow
    · exact hold.trans (scrolled_word p.1.gtxt_cells hcell)
  have hblank : ∀ col, OnScreen GTXT_BOTTOM col → ValidCell pal (cells (GTXT_BOTTOM * GTXT_COLS + col)) ∧
      ∀ dot, wordColor font pal (cells (GTXT_BOTTOM * GTXT_COLS + col)) dot = p.1.gtxt_bg := by
    intro col hcell
    rcases hcells GTXT_BOTTOM col hcell with ⟨-, hnew⟩ | ⟨hnot, -⟩
    · exact hnew
    · exact absurd ((mem_lastRow hcell).mpr rfl) hnot
  rw [runOn_shift heach]
  refine ⟨{ hp.good with palette := hpal, cells := fun row col hcell => ?_ },
    fun row col hcell dot hdot => ?_⟩
  · dsimp only
    by_cases hlast : row = GTXT_BOTTOM
    · rw [hlast]
      exact (hblank col (hlast ▸ hcell)).1
    · rw [hword row col hcell hlast]
      split
      · rename_i hrow
        refine (hp.good.cells (row + 1) col ⟨⟨?_, ?_⟩, hcell.2⟩).grown hpre
        · exact Int.le_add_one hcell.1.1
        · exact Int.lt_of_le_of_lt (Int.add_one_le_of_lt hrow) (by decide)
      · exact (hp.good.cells row col hcell).grown hpre
  · dsimp only
    rw [scrolled_pixel p.2 p.1.gtxt_bg hcell hdot, cellPixel]
    dsimp only
    by_cases hlast : row = GTXT_BOTTOM
    · rw [hlast, if_neg (Int.lt_irrefl _), (hblank col (hlast ▸ hcell.onScreen)).2 dot]
    · have hrow : row < GTXT_BOTTOM := by
        have hle := hcell.1.2
        omega
      have hnext : InConsole (row + 1) col := ⟨⟨Int.le_add_one hcell.1.1, hrow⟩, hcell.2⟩
      rw [if_pos hrow, hword row col hcell.onScreen hlast, if_pos hrow,
        hp.faithful (row + 1) col hnext dot hdot, cellPixel,
        wordColor_grown hpre (hp.good.cells (row + 1) col hnext.onScreen)]

end DiscoBsd.Console
