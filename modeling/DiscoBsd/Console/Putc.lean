import DiscoBsd.Console.Screen

/-!
# The console's state machines

`gtxt_putc` with the machine for escape sequences (`gtxt_esc_feed`, `gtxt_csi`) and the one for sixel
images (`six_feed` and what it calls). Numbers read from the stream are `int`s that may overflow.
-/

namespace DiscoBsd.Console

open Lib

def GTXT_MAXPARM : Int := 4

def SIX_NPARM : Int := 5

/-- The value of a digit. -/
def digit (c : UInt8) : Int := c.toNat - 48

/-! ## CSI sequences -/

/-- The count of a CSI sequence. -/
def State.count (s : State) : Int := if s.gtxt_parm 0 ≠ 0 then s.gtxt_parm 0 else 1

/-- The cursor moves, or reverse video is set, as the final byte says. -/
def State.moved (f : UInt8) (s : State) : State :=
  let n := s.count
  match f with
  | 72 | 102 => -- 'H', 'f'
      let cury := int ((if s.gtxt_parm 0 ≠ 0 then s.gtxt_parm 0 else 1) - 1)
      let curx := int ((if s.gtxt_parm 1 ≠ 0 then s.gtxt_parm 1 else 1) - 1)
      { s with
        gtxt_cury := min (max cury 0) GTXT_BOTTOM
        gtxt_curx := min (max curx 0) (GTXT_COLS - 1) }
  | 65 => { s with gtxt_cury := max (int (s.gtxt_cury - n)) 0 }
  | 66 => { s with gtxt_cury := min (int (s.gtxt_cury + n)) GTXT_BOTTOM }
  | 67 => { s with gtxt_curx := min (int (s.gtxt_curx + n)) (GTXT_COLS - 1) }
  | 68 => { s with gtxt_curx := max (int (s.gtxt_curx - n)) 0 }
  | 109 => { s with gtxt_reverse := decide (s.gtxt_parm 0 = 7) } -- 'm'
  | _ => s

variable (font : Font) (gfx : Bool)

/-- A whole row is cleared. -/
def clearRow (row : Int) : Routine := gtxt_clear_span font gfx row 0 (GTXT_COLS - 1)

/-- Case `'K'` of `gtxt_csi`. -/
def eraseLine : Routine := fun s =>
  if s.gtxt_parm 0 = 1 then gtxt_clear_span font gfx s.gtxt_cury 0 s.gtxt_curx s
  else if s.gtxt_parm 0 = 2 then clearRow font gfx s.gtxt_cury s
  else gtxt_clear_span font gfx s.gtxt_cury s.gtxt_curx (GTXT_COLS - 1) s

/-- Case `'J'` of `gtxt_csi`. -/
def eraseDisplay : Routine := fun s =>
  if s.gtxt_parm 0 = 2 then Emit.each (clearRow font gfx) (interval 0 GTXT_BOTTOM) s
  else if s.gtxt_parm 0 = 1 then
    ((Emit.each (clearRow font gfx) (interval 0 (s.gtxt_cury - 1))).andThen
      (gtxt_clear_span font gfx s.gtxt_cury 0 s.gtxt_curx)) s
  else
    ((gtxt_clear_span font gfx s.gtxt_cury s.gtxt_curx (GTXT_COLS - 1)).andThen
      (Emit.each (clearRow font gfx) (interval (s.gtxt_cury + 1) GTXT_BOTTOM))) s

/-- `gtxt_csi`. -/
def gtxt_csi (f : UInt8) : Routine :=
  (gtxt_cursor gfx false).andThen <|
    if f = 75 then eraseLine font gfx
    else if f = 74 then eraseDisplay font gfx
    else Emit.change (State.moved f)

/-! ## Sixel images -/

/-- `six_vt340`. -/
def six_vt340 : List (Int × Int × Int) :=
  [(0, 0, 0), (20, 20, 80), (80, 13, 13), (20, 80, 20),
    (80, 20, 80), (20, 80, 80), (80, 80, 20), (53, 53, 53),
    (26, 26, 26), (33, 33, 60), (60, 26, 26), (33, 60, 33),
    (60, 33, 60), (33, 60, 60), (60, 60, 33), (80, 80, 80)]

/-- Percent to one of 32 levels. -/
def level (r : Int) : Int := (int (int (min r 100 * 31) + 50)).tdiv 100

/-- `six_rgb`. -/
def six_rgb (r g b : Int) : UInt16 :=
  UInt16.ofInt (level b) <<< 10 ||| UInt16.ofInt (level g) <<< 5 ||| UInt16.ofInt (level r)

/-- `six_hls_ch`. -/
def six_hls_ch (m1 m2 h : Int) : Int :=
  let h := h.tmod 360
  let h := if h < 0 then h + 360 else h
  if h < 60 then int (m1 + (int (int (m2 - m1) * h)).tdiv 60)
  else if h < 180 then m2
  else if h < 240 then int (m1 + (int (int (m2 - m1) * (240 - h))).tdiv 60)
  else m1

/-- `six_hls`. -/
def six_hls (h l s : Int) : UInt16 :=
  let h := int (h + 240)
  let l := min l 100
  let s := min s 100
  let m2 :=
    if l ≤ 50 then (int (l * int (100 + s))).tdiv 100
    else int (int (l + s) - (int (l * s)).tdiv 100)
  let m1 := int (int (2 * l) - m2)
  six_rgb (six_hls_ch m1 m2 (int (h + 120))) (six_hls_ch m1 m2 h) (six_hls_ch m1 m2 (int (h - 120)))

/-- The rounds of `six_fit`, at most `fuel` of them. -/
def six_fit_rounds (y : Int) : Nat → Routine
  | 0 => Emit.change id
  | fuel + 1 => fun s =>
      if int (s.six.y0 + y + 6) > GTXT_CONS_H then
        ((gtxt_shift gfx).andThen
          ((Emit.change fun s => { s with six.y0 := int (s.six.y0 - GTXT_CHAR_H) }).andThen
            (six_fit_rounds y fuel))) s
      else (s, [])

/-- `six_fit`. -/
def six_fit (y : Int) : Routine := fun s =>
  six_fit_rounds gfx y (int (s.six.y0 + y + 6) - GTXT_CONS_H).toNat s

/-- The pixels of a row of `six_clear`. -/
def State.clearDots (s : State) (w y : Int) : List (Int × UInt16) :=
  let py := int (s.six.y0 + y)
  if py < 0 ∨ py ≥ GTXT_CONS_H then []
  else
    (interval s.six.x0 (min (int (s.six.x0 + w)) GTXT_SCREEN_W - 1)).map fun px =>
      (py * GTXT_SCREEN_W + px, s.gtxt_bg)

/-- `six_clear`. -/
def six_clear (w h : Int) : Routine := fun s =>
  (s, if gfx then [] else [.dots ((interval 0 (h - 1)).flatMap (s.clearDots w))])

/-- The pixels of a column of a band that a sixel value sets. -/
def State.columnDots (s : State) (v px : Int) : List (Int × UInt16) :=
  ((interval 0 5).filter fun b =>
      v.toNat.testBit b.toNat ∧ int (int (s.six.y0 + s.six.y) + b) ≥ 0).map fun b =>
    (int (s.six.y0 + s.six.y) * GTXT_SCREEN_W + px + b * GTXT_SCREEN_W,
      s.SIX_PAL (s.six.color % 256))

/-- The loop of `six_put`, at most `fuel` rounds of it, on the count that is left. -/
def six_put_rounds (v : Int) : Nat → Int → State → Int × State × List Effect
  | 0, n, s => (n, s, [])
  | fuel + 1, n, s =>
      let px := int (s.six.x0 + s.six.x)
      if n > 0 ∧ px < GTXT_SCREEN_W then
        let rest := six_put_rounds v fuel (n - 1) { s with six.x := int (s.six.x + 1) }
        (rest.1, rest.2.1, .dots (s.columnDots v px) :: rest.2.2)
      else (n, s, [])

/-- The extent of the image takes in a band. -/
def Sixel.extend (six : Sixel) : Sixel :=
  if int (six.y + 6) > six.h then { six with h := int (six.y + 6) } else six

/-- The end of `six_put`. -/
def Sixel.advance (n : Int) (six : Sixel) : Sixel :=
  { six with
    x := int (six.x + n)
    w := if int (six.x + n) > six.w then int (six.x + n) else six.w }

/-- `six_put` once the band fits. -/
def putColumns (v n : Int) : Routine := fun s =>
  if gfx then ({ s with six := s.six.extend.advance n }, [])
  else
    let rest := six_put_rounds v n.toNat n { s with six := s.six.extend }
    ({ rest.2.1 with six := rest.2.1.six.advance rest.1 }, rest.2.2)

/-- `six_put`. -/
def six_put (v n : Int) : Routine := fun s =>
  if v = 0 then ({ s with six := s.six.advance n }, [])
  else ((six_fit gfx s.six.y).andThen (putColumns gfx v n)) s

/-- The colour that a `'#'` command sets. -/
def Sixel.setColor (six : Sixel) (SIX_PAL : Int → UInt16) : Int → UInt16 :=
  if six.np ≥ 5 ∧ six.parm 1 = 2 then
    Function.update SIX_PAL (six.parm 0 % 256) (six_rgb (six.parm 2) (six.parm 3) (six.parm 4))
  else if six.np ≥ 5 ∧ six.parm 1 = 1 then
    Function.update SIX_PAL (six.parm 0 % 256) (six_hls (six.parm 2) (six.parm 3) (six.parm 4))
  else SIX_PAL

/-- `six_cmd_end`. -/
def six_cmd_end : Routine := fun s =>
  if s.six.cmd = 35 then -- '#'
    ({ s with
        SIX_PAL := s.six.setColor s.SIX_PAL
        six := { s.six with color := s.six.parm 0, cmd := 0 } }, [])
  else if s.six.cmd = 33 then -- '!'
    ({ s with six := { s.six with rep := if s.six.parm 0 ≠ 0 then s.six.parm 0 else 1, cmd := 0 } }, [])
  else if s.six.cmd = 34 ∧ ¬ s.six.keep0 ∧ s.six.np ≥ 4 ∧ s.six.parm 2 > 0 ∧ s.six.parm 3 > 0 then
    ((six_clear gfx (s.six.parm 2) (s.six.parm 3)).andThen
      (Emit.change fun s => { s with six := { s.six with cmd := 0 } })) s
  else ({ s with six := { s.six with cmd := 0 } }, [])

/-- The colour registers at the start of an image. -/
def defaultPalette (i : Int) : UInt16 :=
  let rgb := six_vt340.getD i.toNat (0, 0, 0)
  six_rgb rgb.1 rgb.2.1 rgb.2.2

/-- The sixel state at the start of an image. The parameters of the last command stay. -/
def State.startImage (s : State) : State :=
  { s with
    SIX_PAL := defaultPalette
    six :=
      { s.six with
        x0 := int (s.gtxt_curx * GTXT_CHAR_W)
        y0 := int (s.gtxt_cury * GTXT_CHAR_H)
        x := 0
        y := 0
        w := 0
        h := 0
        color := 0
        rep := 1
        cmd := 0
        keep0 := decide (s.gtxt_parm 1 = 1) } }

/-- A deferred wrap happens. -/
def wrapLine : Routine := fun s =>
  if s.gtxt_curx ≥ GTXT_COLS then
    ((Emit.change fun s => { s with gtxt_curx := 0 }).andThen (gtxt_linefeed gfx)) s
  else (s, [])

/-- `six_begin`. -/
def six_begin : Routine :=
  (gtxt_cursor gfx false).andThen ((wrapLine gfx).andThen (Emit.change State.startImage))

/-- The end of `six_end`: the cursor goes to the row of the last pixel row. -/
def State.endImage (s : State) : State :=
  if s.six.h = 0 then s
  else
    let row := (int (int (s.six.y0 + s.six.h) - 1)).tdiv GTXT_CHAR_H
    let row := if row < 0 then 0 else row
    let row := if row > GTXT_BOTTOM then GTXT_BOTTOM else row
    { s with gtxt_curx := 0, gtxt_cury := row }

/-- `six_end`. -/
def six_end : Routine := fun s =>
  ((if s.six.cmd ≠ 0 then six_cmd_end gfx else Emit.change id).andThen (Emit.change State.endImage)) s

/-- A byte of sixel data outside a command. -/
def six_data (c : UInt8) : Routine := fun s =>
  if 63 ≤ c ∧ c ≤ 126 then
    ((six_put gfx (c.toNat - 63) s.six.rep).andThen
      (Emit.change fun s => { s with six := { s.six with rep := 1 } })) s
  else if c = 35 ∨ c = 33 ∨ c = 34 then -- '#', '!', '"'
    ({ s with six := { s.six with cmd := c, np := 0, parm := fun _ => 0 } }, [])
  else if c = 36 then ({ s with six := { s.six with x := 0 } }, []) -- '$'
  else if c = 45 then -- '-'
    ({ s with six := { s.six with x := 0, y := int (s.six.y + 6) } }, [])
  else (s, [])

/-- A digit of a command's number. -/
def six_digit (c : UInt8) : Routine := fun s =>
  let np := if s.six.np = 0 then 1 else s.six.np
  if np ≤ SIX_NPARM then
    ({ s with
        six :=
          { s.six with
            np := np
            parm := Function.update s.six.parm (np - 1)
              (int (int (s.six.parm (np - 1) * 10) + digit c)) } },
      [.six_parm (np - 1)])
  else ({ s with six := { s.six with np := np } }, [])

/-- A semicolon in a command. -/
def six_next : Routine := fun s =>
  let np := if s.six.np = 0 then 1 else s.six.np
  if np < SIX_NPARM then
    ({ s with six := { s.six with np := np + 1, parm := Function.update s.six.parm np 0 } },
      [.six_parm np])
  else ({ s with six := { s.six with np := np } }, [])

/-- `six_feed`. -/
def six_feed (c : UInt8) : Routine := fun s =>
  if s.six.cmd ≠ 0 then
    if 48 ≤ c ∧ c ≤ 57 then six_digit c s
    else if c = 59 then six_next s
    else ((six_cmd_end gfx).andThen (six_data gfx c)) s
  else six_data gfx c s

/-! ## The console -/

/-- The parser goes to a state. -/
def goto (estate : Estate) : Routine := Emit.change fun s => { s with gtxt_estate := estate }

/-- A byte after `ESC`. -/
def feedEsc (c : UInt8) : Routine := fun s =>
  if c = 91 ∨ c = 80 then -- '[', 'P'
    ({ s with
        gtxt_estate := if c = 91 then .CSI else .DCS
        gtxt_nparm := 0
        gtxt_parm := fun _ => 0 }, [])
  else goto .TEXT s

/-- A digit of a number of a CSI or DCS sequence. -/
def parmDigit (c : UInt8) : Routine := fun s =>
  if s.gtxt_nparm < GTXT_MAXPARM then
    ({ s with
        gtxt_parm := Function.update s.gtxt_parm s.gtxt_nparm
          (int (int (s.gtxt_parm s.gtxt_nparm * 10) + digit c)) },
      [.gtxt_parm s.gtxt_nparm])
  else (s, [])

/-- A semicolon in a CSI or DCS sequence. -/
def parmNext : Routine := fun s =>
  if s.gtxt_nparm < GTXT_MAXPARM - 1 then ({ s with gtxt_nparm := s.gtxt_nparm + 1 }, []) else (s, [])

/-- A byte of the numbers of a CSI or DCS sequence, or the byte after them. -/
def feedParm (c : UInt8) : Routine := fun s =>
  if 48 ≤ c ∧ c ≤ 57 then parmDigit c s
  else if c = 59 then parmNext s
  else if s.gtxt_estate = .DCS then
    if c = 113 then ((six_begin gfx).andThen (goto .SIXEL)) s -- 'q'
    else if 64 ≤ c ∧ c ≤ 126 then goto .STR s
    else (s, [])
  else if 64 ≤ c ∧ c ≤ 126 then ((gtxt_csi font gfx c).andThen (goto .TEXT)) s
  else goto .TEXT s

/-- `gtxt_esc_feed`. -/
def gtxt_esc_feed (c : UInt8) : Routine := fun s =>
  match s.gtxt_estate with
  | .ESC => feedEsc c s
  | .SIXEL => if c = 27 then ((six_end gfx).andThen (goto .ST)) s else six_feed gfx c s
  | .STR => if c = 27 then goto .ST s else (s, [])
  | .ST => goto .TEXT s
  | _ => feedParm font gfx c s

/-- A glyph at the cursor, in reverse video where that is set. -/
def drawGlyph (c : UInt8) : Routine := fun s =>
  gtxt_draw_cell font gfx c s.gtxt_curx s.gtxt_cury
    (if s.gtxt_reverse then s.gtxt_bg else s.gtxt_fg)
    (if s.gtxt_reverse then s.gtxt_fg else s.gtxt_bg) s

/-- A glyph is drawn, and the cursor moves on. -/
def putGlyph (c : UInt8) : Routine :=
  (wrapLine gfx).andThen
    ((drawGlyph font gfx c).andThen (Emit.change fun s => { s with gtxt_curx := s.gtxt_curx + 1 }))

/-- A byte of text, once the cursor is rubbed out. -/
def putText (c : UInt8) : Routine := fun s =>
  if c = 7 ∨ c = 127 then (s, [])
  else if c = 13 then ({ s with gtxt_curx := 0 }, [])
  else if c = 10 then gtxt_linefeed gfx { s with gtxt_curx := 0 }
  else if c = 8 then
    if s.gtxt_curx > 0 then ({ s with gtxt_curx := s.gtxt_curx - 1 }, [])
    else if s.gtxt_cury > 0 then
      ({ s with gtxt_curx := GTXT_COLS - 1, gtxt_cury := s.gtxt_cury - 1 }, [])
    else (s, [])
  else putGlyph font gfx c s

/-- `gtxt_putc`. -/
def gtxt_putc (c : UInt8) : Routine := fun s =>
  if s.gtxt_estate ≠ .TEXT then gtxt_esc_feed font gfx c s
  else if c = 27 then goto .ESC s
  else ((gtxt_cursor gfx false).andThen (putText font gfx c)) s

end DiscoBsd.Console
