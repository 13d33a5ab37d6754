import DiscoBsd.Lib.Emit
import DiscoBsd.Lib.Plane
import Mathlib.Data.List.ProdSigma

/-!
# The text console and its framebuffer

The state of the console with its backing store of cells, and the routines that draw: cells, scrolling,
erasing, the cursor and the repaint from the backing store. The framebuffer is only ever written, so a
routine gives out what it does there as a list of effects; `Effect.apply` says what an effect does to
the pixels. `gfx` is what `gba_gfx_active` returns, and the font has a byte for each row of a glyph.
Uses of an array at an index that is not a constant are given out as well.
-/

namespace DiscoBsd.Console

open Lib

/-- Arithmetic of an `int`. -/
def int (n : Int) : Int := (n + 2147483648) % 4294967296 - 2147483648

def GTXT_SCREEN_W : Int := 240

def GTXT_SCREEN_H : Int := 160

def GTXT_CHAR_W : Int := 6

def GTXT_CHAR_H : Int := 8

def GTXT_COLS : Int := GTXT_SCREEN_W / GTXT_CHAR_W

def GTXT_ROWS : Int := GTXT_SCREEN_H / GTXT_CHAR_H

def GTXT_ROW_PIXELS : Int := GTXT_SCREEN_W * GTXT_CHAR_H

/-- What `gtxt_init` reserves for the keyboard. -/
def gtxt_reserved : Int := GTXT_CHAR_H * 5

def GTXT_CONS_H : Int := GTXT_SCREEN_H - gtxt_reserved

def GTXT_BOTTOM : Int := GTXT_CONS_H / GTXT_CHAR_H - 1

def GTXT_GREEN : UInt16 := 0x03E0

def GTXT_NPAL : Nat := 16

/-- `gtxt_font`: the byte of a row of a glyph. -/
abbrev Font := UInt8 → Nat → UInt8

/-! ## Effects -/

/-- What the console does to the framebuffer, whose pixels are numbered from `VRAM` on, and the indices
that it uses in `gtxt_parm` and `six.parm`. -/
inductive Effect where
  | dots (ds : List (Int × UInt16))
  | copy (dst src : Int) (n : Nat)
  | fill (dst : Int) (n : Nat) (color : UInt16)
  | invert (addresses : List Int)
  | gtxt_parm (i : Int)
  | six_parm (i : Int)

/-- The pixels after an effect. -/
def Effect.apply (vram : Int → UInt16) : Effect → Int → UInt16
  | dots ds => paint vram ds
  | copy dst src n => copyForward vram dst src n
  | fill dst n color => fun a => if dst ≤ a ∧ a < dst + n then color else vram a
  | invert addresses => touch (· ^^^ 0x7FFF) vram addresses
  | gtxt_parm _ => vram
  | six_parm _ => vram

/-- The pixels after a list of effects. -/
def drawn (vram : Int → UInt16) (effects : List Effect) : Int → UInt16 :=
  effects.foldl Effect.apply vram

/-! ## The state -/

/-- `gtxt_estate`. -/
inductive Estate where
  | TEXT
  | ESC
  | CSI
  | DCS
  | SIXEL
  | STR
  | ST
  deriving DecidableEq

/-- `struct sixel`. No command is pending when `cmd` is 0. -/
structure Sixel where
  x0 : Int
  y0 : Int
  x : Int
  y : Int
  w : Int
  h : Int
  color : Int
  rep : Int
  cmd : UInt8
  np : Int
  parm : Int → Int
  keep0 : Bool

/-- The variables of the console, with the palette RAM of sixel images. -/
structure State where
  gtxt_fg : UInt16
  gtxt_bg : UInt16
  gtxt_fg_normal : UInt16
  gtxt_estate : Estate
  gtxt_parm : Int → Int
  gtxt_nparm : Int
  gtxt_reverse : Bool
  gtxt_curx : Int
  gtxt_cury : Int
  gtxt_cursor_on : Bool
  gtxt_cells : Int → Nat
  gtxt_pal : List UInt16
  six : Sixel
  SIX_PAL : Int → UInt16

/-- A routine of the console. -/
abbrev Routine := Emit State Effect

/-! ## Palette and cells -/

/-- `gtxt_pal_index`. -/
def gtxt_pal_index (color : UInt16) (pal : List UInt16) : Nat × List UInt16 :=
  if color ∈ pal then (pal.idxOf color, pal)
  else if pal.length < GTXT_NPAL then (pal.length, pal ++ [color])
  else (0, pal)

def GTXT_PACK (ch fi bi : Nat) : Nat := (bi <<< 12 ||| fi <<< 8 ||| ch % 256) % 65536

def GTXT_UNCH (v : Nat) : UInt8 := UInt8.ofNat (v % 256)

def GTXT_UNFI (v : Nat) : Nat := v / 256 % 16

def GTXT_UNBI (v : Nat) : Nat := v / 4096 % 16

/-- A cell of the backing store is set. -/
def State.record (c : UInt8) (row col : Int) (fg bg : UInt16) (s : State) : State :=
  let b := gtxt_pal_index bg s.gtxt_pal
  let f := gtxt_pal_index fg b.2
  { s with
    gtxt_pal := f.2
    gtxt_cells := Function.update s.gtxt_cells (row * GTXT_COLS + col) (GTXT_PACK c.toNat f.1 b.1) }

/-- `gtxt_cell_blank`. -/
def gtxt_cell_blank (row col : Int) : Routine :=
  Emit.change fun s =>
    let b := gtxt_pal_index s.gtxt_bg s.gtxt_pal
    { s with
      gtxt_pal := b.2
      gtxt_cells := Function.update s.gtxt_cells (row * GTXT_COLS + col) (GTXT_PACK 32 b.1 b.1) }

/-! ## Drawing -/

/-- The numbers of units that `gtxt_dma16` moves: words of two, at most 65535 of them. -/
def dmaUnits (n : Nat) : Nat := 2 * (n / 2 % 65536)

/-- The integers from one to another. -/
def interval (first last : Int) : List Int :=
  (List.range (last + 1 - first).toNat).map fun i : Nat => first + i

/-- `gtxt_scroll_rows`. -/
def gtxt_scroll_rows (gfx : Bool) (rows : Int) : Routine :=
  (Emit.change fun s =>
    { s with
      gtxt_cells :=
        copyForward s.gtxt_cells 0 GTXT_COLS (dmaUnits ((rows - 1) * GTXT_COLS).toNat) }).andThen <|
  (Emit.each (gtxt_cell_blank (rows - 1)) (interval 0 (GTXT_COLS - 1))).andThen fun s =>
    if gfx then (s, [])
    else
      (s, [.copy 0 GTXT_ROW_PIXELS (dmaUnits ((rows - 1) * GTXT_ROW_PIXELS).toNat),
        .fill ((rows - 1) * GTXT_ROW_PIXELS) (dmaUnits GTXT_ROW_PIXELS.toNat) s.gtxt_bg])

/-- `gtxt_shift`. -/
def gtxt_shift (gfx : Bool) : Routine := gtxt_scroll_rows gfx (GTXT_BOTTOM + 1)

/-- `gtxt_linefeed`. -/
def gtxt_linefeed (gfx : Bool) : Routine := fun s =>
  if s.gtxt_cury < GTXT_BOTTOM then ({ s with gtxt_cury := s.gtxt_cury + 1 }, []) else gtxt_shift gfx s

/-- The rows and columns of the pixels of a cell. -/
def cellDots : List (Int × Int) := interval 0 (GTXT_CHAR_H - 1) ×ˢ interval 0 (GTXT_CHAR_W - 1)

/-- The address of a pixel of a cell. -/
def cellAddress (row col : Int) (dot : Int × Int) : Int :=
  row * GTXT_ROW_PIXELS + col * GTXT_CHAR_W + dot.1 * GTXT_SCREEN_W + dot.2

/-- The colour of a pixel of a glyph. -/
def glyphColor (font : Font) (c : UInt8) (fg bg : UInt16) (dot : Int × Int) : UInt16 :=
  if (font c dot.1.toNat).toNat.testBit (7 - dot.2.toNat) then fg else bg

/-- `gtxt_draw_cell`. -/
def gtxt_draw_cell (font : Font) (gfx : Bool) (c : UInt8) (col row : Int) (fg bg : UInt16) :
    Routine := fun s =>
  (if (0 ≤ row ∧ row < GTXT_ROWS) ∧ 0 ≤ col ∧ col < GTXT_COLS then s.record c row col fg bg else s,
    if gfx then []
    else [.dots (cellDots.map fun dot => (cellAddress row col dot, glyphColor font c fg bg dot))])

/-- `gtxt_clear_span`. -/
def gtxt_clear_span (font : Font) (gfx : Bool) (row c0 c1 : Int) : Routine :=
  Emit.each (fun c s => gtxt_draw_cell font gfx 32 c row s.gtxt_bg s.gtxt_bg s) (interval c0 c1)

/-- Where `gtxt_cursor` puts the cursor, and whether it can be shown there. -/
def State.cursorAt (s : State) (on : Bool) : Bool × Int × Int :=
  if s.gtxt_curx ≥ GTXT_COLS then
    if s.gtxt_cury < GTXT_BOTTOM then (on, s.gtxt_cury + 1, 0) else (false, s.gtxt_cury, GTXT_COLS - 1)
  else (on, s.gtxt_cury, s.gtxt_curx)

/-- `gtxt_cursor`. -/
def gtxt_cursor (gfx : Bool) (on : Bool) : Routine := fun s =>
  if gfx then (s, [])
  else
    let (on, cy, cx) := s.cursorAt on
    if on = s.gtxt_cursor_on then (s, [])
    else ({ s with gtxt_cursor_on := on }, [.invert (cellDots.map (cellAddress cy cx))])

/-- Every row and column of the screen. -/
def screenCells : List (Int × Int) := interval 0 (GTXT_ROWS - 1) ×ˢ interval 0 (GTXT_COLS - 1)

/-- `gtxt_cls`. -/
def gtxt_cls (gfx : Bool) : Routine :=
  (Emit.each (fun cell => gtxt_cell_blank cell.1 cell.2) screenCells).andThen fun s =>
    ({ s with gtxt_curx := 0, gtxt_cury := GTXT_BOTTOM, gtxt_cursor_on := false },
      if gfx then []
      else [.fill 0 (dmaUnits (GTXT_SCREEN_W * GTXT_SCREEN_H).toNat) s.gtxt_bg])

/-- A cell is drawn from the backing store. -/
def redraw (font : Font) (gfx : Bool) (cell : Int × Int) : Routine := fun s =>
  let v := s.gtxt_cells (cell.1 * GTXT_COLS + cell.2)
  gtxt_draw_cell font gfx (GTXT_UNCH v) cell.2 cell.1 (s.gtxt_pal.getD (GTXT_UNFI v) 0)
    (s.gtxt_pal.getD (GTXT_UNBI v) 0) s

/-- `gtxt_restore`. -/
def gtxt_restore (font : Font) (gfx : Bool) : Routine := fun s =>
  if gfx then (s, [])
  else
    ((Emit.change fun s => { s with gtxt_cursor_on := false }).andThen
      (Emit.each (redraw font gfx) screenCells)) s

/-- `gtxt_init`. -/
def gtxt_init (gfx : Bool) (fg bg : UInt16) : Routine :=
  (Emit.change fun s => { s with gtxt_fg := fg, gtxt_bg := bg, gtxt_fg_normal := fg }).andThen
    (gtxt_cls gfx)

/-- `gtxt_msgcolor`. -/
def gtxt_msgcolor (on : Bool) : Routine :=
  Emit.change fun s => { s with gtxt_fg := if on then GTXT_GREEN else s.gtxt_fg_normal }

end DiscoBsd.Console
