import DiscoBsd.Console.Safe
import Mathlib.Data.List.Nodup

/-!
# The cursor leaves no trace

A stream with calls of `gtxt_cursor` between its bytes is compared with the stream alone. Routines other
than `gtxt_cursor` do not look at whether the cursor is lit, and those that draw or move the cursor call
`gtxt_cursor` first. Sixel data does not: `cursor_transparent` asks that no byte of it draws, clears or
ends an image while the cursor is lit.
-/

namespace DiscoBsd.Console

open Lib

variable {font : Font} {gfx : Bool} {s : State}

/-- The cursor is taken to be lit or not. -/
def State.setOn (on : Bool) (s : State) : State := { s with gtxt_cursor_on := on }

/-- A routine that does not look at whether the cursor is lit. -/
def CursorFree (f : Routine) : Prop := ∀ on, Emit.Commutes (State.setOn on) f

/-! ## Routines that do not look at the cursor -/

theorem CursorFree.andThen {f g : Routine} (hf : CursorFree f) (hg : CursorFree g) :
    CursorFree (f.andThen g) :=
  fun on => (hf on).andThen (hg on)

theorem CursorFree.change {f : State → State} (h : ∀ s on, f (s.setOn on) = (f s).setOn on) :
    CursorFree (Emit.change f) :=
  fun on => Emit.Commutes.change fun s => h s on

theorem CursorFree.each {Index : Type} {f : Index → Routine} {is : List Index}
    (h : ∀ i, CursorFree (f i)) : CursorFree (Emit.each f is) :=
  fun on => Emit.Commutes.each fun i => h i on

theorem shift_free : CursorFree (gtxt_shift gfx) := by
  refine CursorFree.andThen (CursorFree.change fun _ _ => rfl)
    (CursorFree.andThen (CursorFree.each fun _ => CursorFree.change fun _ _ => rfl) ?_)
  intro on s
  cases gfx <;> rfl

theorem linefeed_free : CursorFree (gtxt_linefeed gfx) := fun on =>
  Emit.Commutes.ite (fun _ => Iff.rfl) (fun _ => rfl) (shift_free on)

theorem wrapLine_free : CursorFree (wrapLine gfx) := fun on =>
  Emit.Commutes.ite (fun _ => Iff.rfl)
    (Emit.Commutes.andThen (fun _ => rfl) (linefeed_free on)) (fun _ => rfl)

theorem draw_cell_free (c : UInt8) (col row : Int) (fg bg : UInt16) :
    CursorFree (gtxt_draw_cell font gfx c col row fg bg) := by
  intro on s
  rw [gtxt_draw_cell, gtxt_draw_cell]
  split <;> rfl

theorem clear_span_free (row c0 c1 : Int) : CursorFree (gtxt_clear_span font gfx row c0 c1) :=
  CursorFree.each fun c on s => draw_cell_free 32 c row s.gtxt_bg s.gtxt_bg on s

theorem eraseLine_free : CursorFree (eraseLine font gfx) := fun on =>
  Emit.Commutes.ite (fun _ => Iff.rfl)
    (fun s => clear_span_free s.gtxt_cury 0 s.gtxt_curx on s)
    (Emit.Commutes.ite (fun _ => Iff.rfl)
      (fun s => clear_span_free s.gtxt_cury 0 (GTXT_COLS - 1) on s)
      (fun s => clear_span_free s.gtxt_cury s.gtxt_curx (GTXT_COLS - 1) on s))

theorem clearRows_free (rows : List Int) : CursorFree (Emit.each (clearRow font gfx) rows) :=
  CursorFree.each fun row => clear_span_free row 0 (GTXT_COLS - 1)

theorem eraseDisplay_free : CursorFree (eraseDisplay font gfx) := fun on =>
  Emit.Commutes.ite (fun _ => Iff.rfl)
    (clearRows_free (interval 0 GTXT_BOTTOM) on)
    (Emit.Commutes.ite (fun _ => Iff.rfl)
      (fun s => (clearRows_free (interval 0 (s.gtxt_cury - 1))).andThen
        (clear_span_free s.gtxt_cury 0 s.gtxt_curx) on s)
      (fun s => (clear_span_free s.gtxt_cury s.gtxt_curx (GTXT_COLS - 1)).andThen
        (clearRows_free (interval (s.gtxt_cury + 1) GTXT_BOTTOM)) on s))

/-- What `gtxt_csi` does after it has rubbed out the cursor. -/
def csiAction (font : Font) (gfx : Bool) (f : UInt8) : Routine :=
  if f = 75 then eraseLine font gfx
  else if f = 74 then eraseDisplay font gfx
  else Emit.change (State.moved f)

theorem moved_setOn (f : UInt8) (s : State) (on : Bool) : (s.setOn on).moved f = (s.moved f).setOn on := by
  unfold State.moved
  split <;> rfl

theorem csiAction_free (f : UInt8) : CursorFree (csiAction font gfx f) := by
  rw [csiAction]
  split
  · exact eraseLine_free
  · split
    · exact eraseDisplay_free
    · exact CursorFree.change (moved_setOn f)

theorem fit_rounds_free (y : Int) (fuel : Nat) : CursorFree (six_fit_rounds gfx y fuel) := by
  induction fuel with
  | zero => exact fun _ _ => rfl
  | succ fuel ih =>
      exact fun on => Emit.Commutes.ite (fun _ => Iff.rfl)
        ((shift_free on).andThen (Emit.Commutes.andThen (fun _ => rfl) (ih on))) (fun _ => rfl)

theorem put_rounds_free (v : Int) (fuel : Nat) (n : Int) (s : State) (on : Bool) :
    six_put_rounds v fuel n (s.setOn on) =
      ((six_put_rounds v fuel n s).1, (six_put_rounds v fuel n s).2.1.setOn on,
        (six_put_rounds v fuel n s).2.2) := by
  induction fuel generalizing n s with
  | zero => rfl
  | succ fuel ih =>
      rw [six_put_rounds, six_put_rounds]
      by_cases hmore : n > 0 ∧ int (s.six.x0 + s.six.x) < GTXT_SCREEN_W
      · have hstep := ih (n - 1) { s with six.x := int (s.six.x + 1) }
        have hmore' : n > 0 ∧ int ((s.setOn on).six.x0 + (s.setOn on).six.x) < GTXT_SCREEN_W := hmore
        rw [if_pos hmore', if_pos hmore]
        exact congrArg (fun rest : Int × State × List Effect => (rest.1, rest.2.1,
          Effect.dots (s.columnDots v (int (s.six.x0 + s.six.x))) :: rest.2.2)) hstep
      · have hmore' : ¬ (n > 0 ∧ int ((s.setOn on).six.x0 + (s.setOn on).six.x) < GTXT_SCREEN_W) :=
          hmore
        rw [if_neg hmore', if_neg hmore]

theorem putColumns_free (v n : Int) : CursorFree (putColumns gfx v n) := fun on =>
  Emit.Commutes.ite (fun _ => Iff.rfl) (fun _ => rfl) fun s =>
    congrArg (fun rest : Int × State × List Effect =>
      ({ rest.2.1 with six := rest.2.1.six.advance rest.1 }, rest.2.2))
      (put_rounds_free v n.toNat n { s with six := s.six.extend } on)

theorem put_free (v n : Int) : CursorFree (six_put gfx v n) := fun on =>
  Emit.Commutes.ite (fun _ => Iff.rfl) (fun _ => rfl) fun s =>
    (fit_rounds_free s.six.y _ on).andThen (putColumns_free v n on) s

theorem clear_free (w h : Int) : CursorFree (six_clear gfx w h) := fun _ _ => rfl

theorem cmd_end_free : CursorFree (six_cmd_end gfx) := fun on =>
  Emit.Commutes.ite (fun _ => Iff.rfl) (fun _ => rfl)
    (Emit.Commutes.ite (fun _ => Iff.rfl) (fun _ => rfl)
      (Emit.Commutes.ite (fun _ => Iff.rfl)
        (fun s => (clear_free (s.six.parm 2) (s.six.parm 3) on).andThen (fun _ => rfl) s)
        (fun _ => rfl)))

theorem data_free (c : UInt8) : CursorFree (six_data gfx c) := fun on =>
  Emit.Commutes.ite (fun _ => Iff.rfl)
    (fun s => (put_free (c.toNat - 63) s.six.rep on).andThen (fun _ => rfl) s)
    (Emit.Commutes.ite (fun _ => Iff.rfl) (fun _ => rfl)
      (Emit.Commutes.ite (fun _ => Iff.rfl) (fun _ => rfl)
        (Emit.Commutes.ite (fun _ => Iff.rfl) (fun _ => rfl) (fun _ => rfl))))

theorem six_digit_free (c : UInt8) : CursorFree (six_digit c) := fun _ =>
  Emit.Commutes.ite (b := fun s : State => (if s.six.np = 0 then 1 else s.six.np) ≤ SIX_NPARM)
    (fun _ => Iff.rfl) (fun _ => rfl) (fun _ => rfl)

theorem six_next_free : CursorFree six_next := fun _ =>
  Emit.Commutes.ite (b := fun s : State => (if s.six.np = 0 then 1 else s.six.np) < SIX_NPARM)
    (fun _ => Iff.rfl) (fun _ => rfl) (fun _ => rfl)

theorem six_feed_free (c : UInt8) : CursorFree (six_feed gfx c) := fun on =>
  Emit.Commutes.ite (fun _ => Iff.rfl)
    (Emit.Commutes.ite (fun _ => Iff.rfl) (six_digit_free c on)
      (Emit.Commutes.ite (fun _ => Iff.rfl) (six_next_free on)
        ((cmd_end_free on).andThen (data_free c on))))
    (data_free c on)

theorem endImage_setOn (s : State) (on : Bool) : (s.setOn on).endImage = s.endImage.setOn on := by
  by_cases h : s.six.h = 0
  · have h' : (s.setOn on).six.h = 0 := h
    rw [State.endImage, State.endImage, if_pos h, if_pos h']
  · have h' : ¬ (s.setOn on).six.h = 0 := h
    rw [State.endImage, State.endImage, if_neg h, if_neg h']
    rfl

theorem end_free : CursorFree (six_end gfx) := by
  intro on s
  refine Emit.Commutes.andThen ?_ (Emit.Commutes.change fun t => endImage_setOn t on) s
  split
  · exact cmd_end_free on
  · exact fun _ => rfl

theorem drawGlyph_free (c : UInt8) : CursorFree (drawGlyph font gfx c) := fun on s =>
  draw_cell_free c s.gtxt_curx s.gtxt_cury _ _ on s

theorem putGlyph_free (c : UInt8) : CursorFree (putGlyph font gfx c) :=
  wrapLine_free.andThen ((drawGlyph_free c).andThen (CursorFree.change fun _ _ => rfl))

theorem putText_free (font : Font) (gfx : Bool) (c : UInt8) : CursorFree (putText font gfx c) := fun on =>
  Emit.Commutes.ite (fun _ => Iff.rfl) (fun _ => rfl)
    (Emit.Commutes.ite (fun _ => Iff.rfl) (fun _ => rfl)
      (Emit.Commutes.ite (fun _ => Iff.rfl) (fun s => linefeed_free on { s with gtxt_curx := 0 })
        (Emit.Commutes.ite (fun _ => Iff.rfl)
          (Emit.Commutes.ite (fun _ => Iff.rfl) (fun _ => rfl)
            (Emit.Commutes.ite (fun _ => Iff.rfl) (fun _ => rfl) (fun _ => rfl)))
          (putGlyph_free c on))))

/-! ## A lit cursor beside none -/

/-- What a routine makes of the state and the pixels. -/
def runOn (f : Routine) (p : State × (Int → UInt16)) : State × (Int → UInt16) :=
  ((f p.1).1, drawn p.2 (f p.1).2)

theorem drawn_append (vram : Int → UInt16) (first second : List Effect) :
    drawn vram (first ++ second) = drawn (drawn vram first) second :=
  List.foldl_append ..

theorem drawn_singleton (vram : Int → UInt16) (effect : Effect) :
    drawn vram [effect] = effect.apply vram := rfl

theorem runOn_andThen (f g : Routine) (p : State × (Int → UInt16)) :
    runOn (f.andThen g) p = runOn g (runOn f p) := by
  simp only [runOn, Emit.andThen, drawn_append]

/-- The pixels of the cell that the cursor is on. -/
def cursorPixels (s : State) : List Int :=
  cellDots.map (cellAddress (s.cursorAt true).2.1 (s.cursorAt true).2.2)

/-- The cursor can be shown: no wrap is due on the bottom row. -/
def Showable (s : State) : Prop := ¬ (s.gtxt_curx ≥ GTXT_COLS ∧ s.gtxt_cury ≥ GTXT_BOTTOM)

/-- A console whose cursor may be lit, beside one with the same content whose cursor is not. -/
inductive Shadow (gfx : Bool) : State × (Int → UInt16) → State × (Int → UInt16) → Prop where
  | off {p} : p.1.gtxt_cursor_on = false → Shadow gfx p p
  | lit {p} : p.1.gtxt_cursor_on = false → gfx = false → Showable p.1 →
      Shadow gfx (p.1.setOn true, touch (· ^^^ 0x7FFF) p.2 (cursorPixels p.1)) p

variable {p q : State × (Int → UInt16)}

theorem cursorPixels_nodup (s : State) : (cursorPixels s).Nodup := by
  refine List.Nodup.map_on (fun dot hdot dot' hdot' heq => ?_) (by decide)
  rw [mem_cellDots] at hdot hdot'
  simp only [cellAddress, GTXT_SCREEN_W] at heq
  exact Prod.ext (by omega) (by omega)

theorem setOn_self {on : Bool} (h : s.gtxt_cursor_on = on) : s.setOn on = s := by
  rw [State.setOn, ← h]

theorem cursorAt_false (s : State) : (s.cursorAt false).1 = false := by
  rw [State.cursorAt]
  split
  · split <;> rfl
  · rfl

theorem cursorAt_true (h : Showable s) : (s.cursorAt true).1 = true := by
  rw [State.cursorAt]
  split
  · rename_i hcol
    rw [if_pos (Int.not_le.mp fun hrow => h ⟨hcol, hrow⟩)]
  · rfl

theorem cursorAt_cell (h : Showable s) : (s.cursorAt false).2 = (s.cursorAt true).2 := by
  rw [State.cursorAt, State.cursorAt]
  split
  · rename_i hcol
    have hrow := Int.not_le.mp fun hrow => h ⟨hcol, hrow⟩
    rw [if_pos hrow, if_pos hrow]
  · rfl

theorem invert_invert (color : UInt16) : color ^^^ 0x7FFF ^^^ 0x7FFF = color := by
  rw [UInt16.xor_assoc, UInt16.xor_self, UInt16.xor_zero]

/-- `gtxt_cursor(0)` takes away a lit cursor, and nothing else. -/
theorem Shadow.rub (h : Shadow gfx p q) : runOn (gtxt_cursor gfx false) p = q := by
  cases h with
  | off hoff =>
      have hsame : (p.1.cursorAt false).1 = p.1.gtxt_cursor_on := by rw [cursorAt_false, hoff]
      rw [runOn, gtxt_cursor]
      cases gfx with
      | true => rfl
      | false =>
          dsimp only
          rw [if_neg Bool.false_ne_true, if_pos hsame]
          rfl
  | lit hoff hgfx hshow =>
      subst hgfx
      have hne : ¬ ((q.1.setOn true).cursorAt false).1 = (q.1.setOn true).gtxt_cursor_on := by
        rw [cursorAt_false]
        exact Bool.false_ne_true
      have hcell : ((q.1.setOn true).cursorAt false).2 = (q.1.cursorAt true).2 := cursorAt_cell hshow
      have hpixels : cellDots.map (cellAddress ((q.1.setOn true).cursorAt false).2.1
          ((q.1.setOn true).cursorAt false).2.2) = cursorPixels q.1 := by
        rw [hcell]
        rfl
      rw [runOn, gtxt_cursor]
      dsimp only
      rw [if_neg Bool.false_ne_true, if_neg hne, cursorAt_false]
      have hdrawn : drawn (touch (· ^^^ 0x7FFF) q.2 (cursorPixels q.1))
          [.invert (cellDots.map (cellAddress ((q.1.setOn true).cursorAt false).2.1
            ((q.1.setOn true).cursorAt false).2.2))] = q.2 := by
        rw [hpixels, drawn_singleton, Effect.apply,
          touch_touch invert_invert q.2 (cursorPixels_nodup q.1)]
      exact Prod.ext (setOn_self hoff) hdrawn

theorem CursorFree.off {f : Routine} (hf : CursorFree f) (h : s.gtxt_cursor_on = false) :
    (f s).1.gtxt_cursor_on = false := by
  have hcommutes := hf false s
  rw [setOn_self h] at hcommutes
  rw [hcommutes]
  rfl

theorem Shadow.off_right (h : Shadow gfx p q) : q.1.gtxt_cursor_on = false := by
  cases h <;> assumption

theorem Shadow.rubbed {f : Routine} (hf : CursorFree f) (h : Shadow gfx p q) :
    Shadow gfx (runOn ((gtxt_cursor gfx false).andThen f) p)
      (runOn ((gtxt_cursor gfx false).andThen f) q) := by
  rw [runOn_andThen, runOn_andThen, h.rub, Shadow.rub (.off h.off_right)]
  exact .off (hf.off h.off_right)

/-- A routine neither moves the cursor nor draws. -/
structure Quiet (f : Routine) (s : State) : Prop where
  curx : (f s).1.gtxt_curx = s.gtxt_curx
  cury : (f s).1.gtxt_cury = s.gtxt_cury
  drawn : ∀ vram, drawn vram (f s).2 = vram

theorem cursorAt_congr {s s' : State} (hx : s'.gtxt_curx = s.gtxt_curx) (hy : s'.gtxt_cury = s.gtxt_cury)
    (on : Bool) : s'.cursorAt on = s.cursorAt on := by
  rw [State.cursorAt, State.cursorAt, hx, hy]

/-- A routine that leaves the cursor lit where it is. -/
theorem Shadow.quiet {f : Routine} (hf : CursorFree f) (h : Shadow gfx p q)
    (hquiet : p.1.gtxt_cursor_on = true → Quiet f q.1) : Shadow gfx (runOn f p) (runOn f q) := by
  cases h with
  | off hoff => exact .off (hf.off hoff)
  | lit hoff hgfx hshow =>
      obtain ⟨hx, hy, hdrawn⟩ := hquiet rfl
      have hpixels : cursorPixels (f q.1).1 = cursorPixels q.1 := by
        rw [cursorPixels, cursorPixels, cursorAt_congr hx hy]
      have hlit : runOn f (q.1.setOn true, touch (· ^^^ 0x7FFF) q.2 (cursorPixels q.1)) =
          ((runOn f q).1.setOn true,
            touch (· ^^^ 0x7FFF) (runOn f q).2 (cursorPixels (runOn f q).1)) := by
        simp only [runOn, hf true q.1, hdrawn, hpixels]
      rw [hlit]
      refine .lit (hf.off hoff) hgfx ?_
      rw [Showable, runOn, hx, hy]
      exact hshow

/-! ## One byte -/

theorem Quiet.nothing {f : Routine} (h : (f s).1.gtxt_curx = s.gtxt_curx ∧
    (f s).1.gtxt_cury = s.gtxt_cury ∧ (f s).2 = []) : Quiet f s where
  curx := h.1
  cury := h.2.1
  drawn vram := by rw [h.2.2]; rfl

theorem Quiet.andThen {f g : Routine} (hf : Quiet f s) (hg : Quiet g (f s).1) :
    Quiet (f.andThen g) s where
  curx := hg.curx.trans hf.curx
  cury := hg.cury.trans hf.cury
  drawn vram := by rw [Emit.andThen, drawn_append, hf.drawn, hg.drawn]

theorem Quiet.of_eq {f g : Routine} (heq : g s = f s) (hf : Quiet f s) : Quiet g s where
  curx := by rw [heq, hf.curx]
  cury := by rw [heq, hf.cury]
  drawn vram := by rw [heq, hf.drawn]

theorem Quiet.ite {b : State → Prop} [DecidablePred b] {f g : Routine} (hf : b s → Quiet f s)
    (hg : ¬ b s → Quiet g s) : Quiet (fun s => if b s then f s else g s) s := by
  by_cases h : b s
  · exact .of_eq (if_pos h) (hf h)
  · exact .of_eq (if_neg h) (hg h)

theorem goto_free (estate : Estate) : CursorFree (goto estate) := fun _ _ => rfl

theorem goto_quiet (estate : Estate) (s : State) : Quiet (goto estate) s := .nothing ⟨rfl, rfl, rfl⟩

theorem feedEsc_free (c : UInt8) : CursorFree (feedEsc c) := fun _ =>
  Emit.Commutes.ite (fun _ => Iff.rfl) (fun _ => rfl) (fun _ => rfl)

theorem feedEsc_quiet (c : UInt8) (s : State) : Quiet (feedEsc c) s :=
  .ite (fun _ => .nothing ⟨rfl, rfl, rfl⟩) (fun _ => goto_quiet .TEXT s)

theorem parmDigit_free (c : UInt8) : CursorFree (parmDigit c) := fun _ =>
  Emit.Commutes.ite (fun _ => Iff.rfl) (fun _ => rfl) (fun _ => rfl)

theorem parmDigit_quiet (c : UInt8) (s : State) : Quiet (parmDigit c) s :=
  .ite (fun _ => ⟨rfl, rfl, fun _ => rfl⟩) (fun _ => ⟨rfl, rfl, fun _ => rfl⟩)

theorem parmNext_free : CursorFree parmNext := fun _ =>
  Emit.Commutes.ite (fun _ => Iff.rfl) (fun _ => rfl) (fun _ => rfl)

theorem parmNext_quiet (s : State) : Quiet parmNext s :=
  .ite (fun _ => .nothing ⟨rfl, rfl, rfl⟩) (fun _ => .nothing ⟨rfl, rfl, rfl⟩)

theorem six_digit_quiet (c : UInt8) (s : State) : Quiet (six_digit c) s :=
  .ite (b := fun s : State => (if s.six.np = 0 then 1 else s.six.np) ≤ SIX_NPARM)
    (fun _ => ⟨rfl, rfl, fun _ => rfl⟩) (fun _ => ⟨rfl, rfl, fun _ => rfl⟩)

theorem six_next_quiet (s : State) : Quiet six_next s :=
  .ite (b := fun s : State => (if s.six.np = 0 then 1 else s.six.np) < SIX_NPARM)
    (fun _ => ⟨rfl, rfl, fun _ => rfl⟩) (fun _ => ⟨rfl, rfl, fun _ => rfl⟩)

/-- The raster area of a `'"'` command is cleared when its numbers end. -/
def Clears (s : State) : Prop :=
  s.six.cmd = 34 ∧ ¬ s.six.keep0 ∧ s.six.np ≥ 4 ∧ s.six.parm 2 > 0 ∧ s.six.parm 3 > 0

/-- A byte of sixel data that does not draw, clear or end an image that has been drawn. -/
structure Undisturbing (c : UInt8) (s : State) : Prop where
  draws : ¬ (64 ≤ c ∧ c ≤ 126)
  clears : Clears s → (48 ≤ c ∧ c ≤ 57) ∨ c = 59
  ends : c = 27 → s.six.h = 0

theorem cmd_end_quiet (gfx : Bool) (h : ¬ Clears s) : Quiet (six_cmd_end gfx) s := by
  refine .nothing ?_
  rw [Clears] at h
  rw [six_cmd_end]
  split
  · exact ⟨rfl, rfl, rfl⟩
  · split
    · exact ⟨rfl, rfl, rfl⟩
    · exact ⟨rfl, rfl, rfl⟩

theorem data_quiet {c : UInt8} (h : ¬ (64 ≤ c ∧ c ≤ 126)) (s : State) : Quiet (six_data gfx c) s := by
  refine .nothing ?_
  rw [six_data]
  split
  · rename_i hc
    have hzero : ((c.toNat : Int) - 63) = 0 := by
      have hlow := UInt8.le_iff_toNat_le.mp hc.1
      have hnot : ¬ (64 : UInt8) ≤ c := fun hle => h ⟨hle, hc.2⟩
      rw [UInt8.le_iff_toNat_le] at hnot
      have h63 : (63 : UInt8).toNat = 63 := rfl
      have h64 : (64 : UInt8).toNat = 64 := rfl
      omega
    rw [hzero]
    exact ⟨rfl, rfl, rfl⟩
  · split
    · exact ⟨rfl, rfl, rfl⟩
    · split
      · exact ⟨rfl, rfl, rfl⟩
      · split <;> exact ⟨rfl, rfl, rfl⟩

theorem six_feed_quiet {c : UInt8} (h : Undisturbing c s) : Quiet (six_feed gfx c) s := by
  refine .ite (fun _ => .ite (fun _ => six_digit_quiet c s) fun hdigit => ?_)
    fun _ => data_quiet h.draws s
  refine .ite (fun _ => six_next_quiet s) fun hsemi => ?_
  have hclears : ¬ Clears s := fun hclears => (h.clears hclears).elim hdigit hsemi
  exact (cmd_end_quiet gfx hclears).andThen (data_quiet h.draws _)

theorem cmd_end_h (h : ¬ Clears s) : (six_cmd_end gfx s).1.six.h = s.six.h := by
  rw [Clears] at h
  rw [six_cmd_end]
  split
  · rfl
  · split <;> rfl

theorem end_quiet (hclears : ¬ Clears s) (hh : s.six.h = 0) : Quiet (six_end gfx) s := by
  have hend : ∀ {f : Routine}, Quiet f s → (f s).1.six.h = 0 →
      Quiet (f.andThen (Emit.change State.endImage)) s := by
    intro f hf hzero
    refine hf.andThen (.nothing ?_)
    rw [Emit.change, State.endImage, if_pos hzero]
    exact ⟨rfl, rfl, rfl⟩
  by_cases hpending : s.six.cmd ≠ 0
  · refine .of_eq ?_ (hend (cmd_end_quiet gfx hclears) ((cmd_end_h hclears).trans hh))
    rw [six_end, if_pos hpending]
  · refine .of_eq ?_ (hend (f := Emit.change id) (.nothing ⟨rfl, rfl, rfl⟩) hh)
    rw [six_end, if_neg hpending]

/-- A byte that may be taken with the cursor in its state: sixel data while it is lit must not disturb
what it is on. -/
def CursorAllows (c : UInt8) (s : State) : Prop :=
  s.gtxt_cursor_on = true → s.gtxt_estate = .SIXEL → Undisturbing c s

theorem Shadow.of_eq {f g : Routine} (heq : ∀ s, s.gtxt_estate = q.1.gtxt_estate → g s = f s)
    (h : Shadow gfx p q) (hf : Shadow gfx (runOn f p) (runOn f q)) :
    Shadow gfx (runOn g p) (runOn g q) := by
  have hestate : p.1.gtxt_estate = q.1.gtxt_estate := by cases h <;> rfl
  rw [runOn, runOn] at hf ⊢
  rwa [heq p.1 hestate, heq q.1 rfl]

/-- The bytes of a sequence with numbers. -/
theorem Shadow.feedParm (font : Font) (c : UInt8) (h : Shadow gfx p q) :
    Shadow gfx (runOn (feedParm font gfx c) p) (runOn (feedParm font gfx c) q) := by
  by_cases hdigit : 48 ≤ c ∧ c ≤ 57
  · exact h.of_eq (fun s _ => if_pos hdigit) (h.quiet (parmDigit_free c) fun _ => parmDigit_quiet c _)
  by_cases hsemi : c = 59
  · refine h.of_eq (f := parmNext) (fun s _ => ?_) (h.quiet parmNext_free fun _ => parmNext_quiet _)
    rw [Console.feedParm, if_neg hdigit, if_pos hsemi]
  by_cases hdcs : q.1.gtxt_estate = .DCS
  · have hfeed : ∀ s, s.gtxt_estate = q.1.gtxt_estate → Console.feedParm font gfx c s =
        if c = 113 then ((six_begin gfx).andThen (goto .SIXEL)) s
        else if 64 ≤ c ∧ c ≤ 126 then goto .STR s
        else (s, []) := by
      intro s hs
      rw [Console.feedParm, if_neg hdigit, if_neg hsemi, if_pos (hs.trans hdcs)]
    by_cases hq : c = 113
    · refine h.of_eq (fun s hs => (hfeed s hs).trans ((if_pos hq).trans
        (congrFun (Emit.andThen_assoc ..) s))) (h.rubbed ?_)
      exact (wrapLine_free.andThen (CursorFree.change fun _ _ => rfl)).andThen (goto_free .SIXEL)
    by_cases hfinal : 64 ≤ c ∧ c ≤ 126
    · exact h.of_eq (fun s hs => (hfeed s hs).trans ((if_neg hq).trans (if_pos hfinal)))
        (h.quiet (goto_free .STR) fun _ => goto_quiet .STR _)
    · exact h.of_eq (f := Emit.change id)
        (fun s hs => (hfeed s hs).trans ((if_neg hq).trans (if_neg hfinal)))
        (h.quiet (fun _ _ => rfl) fun _ => .nothing ⟨rfl, rfl, rfl⟩)
  · have hfeed : ∀ s, s.gtxt_estate = q.1.gtxt_estate → Console.feedParm font gfx c s =
        if 64 ≤ c ∧ c ≤ 126 then ((gtxt_csi font gfx c).andThen (goto .TEXT)) s else goto .TEXT s := by
      intro s hs
      rw [Console.feedParm, if_neg hdigit, if_neg hsemi, if_neg fun hs' => hdcs (hs.symm.trans hs')]
    by_cases hfinal : 64 ≤ c ∧ c ≤ 126
    · refine h.of_eq (fun s hs => (hfeed s hs).trans ((if_pos hfinal).trans
        (congrFun (Emit.andThen_assoc ..) s))) (h.rubbed ?_)
      exact (csiAction_free c).andThen (goto_free .TEXT)
    · exact h.of_eq (fun s hs => (hfeed s hs).trans (if_neg hfinal))
        (h.quiet (goto_free .TEXT) fun _ => goto_quiet .TEXT _)

/-- One byte, with the cursor lit or not. -/
theorem Shadow.putc {c : UInt8} (h : Shadow gfx p q) (hallows : CursorAllows c p.1) :
    Shadow gfx (runOn (gtxt_putc font gfx c) p) (runOn (gtxt_putc font gfx c) q) := by
  have hesc : ∀ {f : Routine}, q.1.gtxt_estate ≠ .TEXT →
      (∀ s, s.gtxt_estate = q.1.gtxt_estate → gtxt_esc_feed font gfx c s = f s) →
      Shadow gfx (runOn f p) (runOn f q) →
      Shadow gfx (runOn (gtxt_putc font gfx c) p) (runOn (gtxt_putc font gfx c) q) := by
    intro f htext heq hf
    refine h.of_eq (fun s hs => ?_) hf
    rw [gtxt_putc, if_pos (hs ▸ htext), heq s hs]
  cases hestate : q.1.gtxt_estate with
  | TEXT =>
      by_cases hc : c = 27
      · refine h.of_eq (f := goto .ESC) (fun s hs => ?_)
          (h.quiet (goto_free .ESC) fun _ => goto_quiet .ESC _)
        rw [gtxt_putc, if_neg (not_not.mpr (hs.trans hestate)), if_pos hc]
      · refine h.of_eq (fun s hs => ?_) (h.rubbed (putText_free font gfx c))
        rw [gtxt_putc, if_neg (not_not.mpr (hs.trans hestate)), if_neg hc]
  | ESC =>
      refine hesc (by rw [hestate]; decide) (fun s hs => ?_)
        (h.quiet (feedEsc_free c) fun _ => feedEsc_quiet c _)
      rw [gtxt_esc_feed, hs.trans hestate]
  | CSI =>
      refine hesc (by rw [hestate]; decide) (fun s hs => ?_) (h.feedParm font c)
      rw [gtxt_esc_feed, hs.trans hestate]
  | DCS =>
      refine hesc (by rw [hestate]; decide) (fun s hs => ?_) (h.feedParm font c)
      rw [gtxt_esc_feed, hs.trans hestate]
  | STR =>
      by_cases hc : c = 27
      · refine hesc (f := goto .ST) (by rw [hestate]; decide) (fun s hs => ?_)
          (h.quiet (goto_free .ST) fun _ => goto_quiet .ST _)
        rw [gtxt_esc_feed, hs.trans hestate]
        exact if_pos hc
      · refine hesc (f := Emit.change id) (by rw [hestate]; decide) (fun s hs => ?_)
          (h.quiet (fun _ _ => rfl) fun _ => .nothing ⟨rfl, rfl, rfl⟩)
        rw [gtxt_esc_feed, hs.trans hestate]
        exact if_neg hc
  | ST =>
      refine hesc (f := goto .TEXT) (by rw [hestate]; decide) (fun s hs => ?_)
        (h.quiet (goto_free .TEXT) fun _ => goto_quiet .TEXT _)
      rw [gtxt_esc_feed, hs.trans hestate]
  | SIXEL =>
      have hdata : p.1.gtxt_cursor_on = true → Undisturbing c q.1 := by
        intro hon
        have hsixel : p.1.gtxt_estate = .SIXEL := by
          cases h <;> exact hestate
        have hquiet := hallows hon hsixel
        cases h with
        | off _ => exact hquiet
        | lit _ _ _ => exact ⟨hquiet.1, hquiet.2, hquiet.3⟩
      by_cases hc : c = 27
      · refine hesc (f := (six_end gfx).andThen (goto .ST)) (by rw [hestate]; decide) (fun s hs => ?_)
          (h.quiet (end_free.andThen (goto_free .ST)) fun hon => ?_)
        · rw [gtxt_esc_feed, hs.trans hestate]
          exact if_pos hc
        · have hclears : ¬ Clears q.1 := by
            intro hclears
            have hnumber := (hdata hon).clears hclears
            rw [hc] at hnumber
            exact absurd hnumber (by decide)
          exact (end_quiet hclears ((hdata hon).ends hc)).andThen (goto_quiet .ST _)
      · refine hesc (f := six_feed gfx c) (by rw [hestate]; decide) (fun s hs => ?_)
          (h.quiet (six_feed_free c) fun hon => six_feed_quiet (hdata hon))
        rw [gtxt_esc_feed, hs.trans hestate]
        exact if_neg hc

/-! ## Whole streams -/

/-- A byte is printed, or the cursor is shown or hidden. -/
inductive Event where
  | putc (c : UInt8)
  | cursor (on : Bool)

/-- What an event does. -/
def Event.routine (font : Font) (gfx : Bool) : Event → Routine
  | putc c => gtxt_putc font gfx c
  | cursor on => gtxt_cursor gfx on

/-- The byte that an event prints. -/
def Event.byte : Event → Option UInt8
  | putc c => some c
  | cursor _ => none

/-- An event takes place, a byte only where the cursor allows it. -/
def CursorStep (font : Font) (gfx : Bool) (p : State × (Int → UInt16)) (event : Event)
    (p' : State × (Int → UInt16)) : Prop :=
  (∀ c, event = .putc c → CursorAllows c p.1) ∧ p' = runOn (event.routine font gfx) p

/-- What printing bytes makes of the state and the pixels. -/
def typed (font : Font) (gfx : Bool) (p : State × (Int → UInt16)) (stream : List UInt8) :
    State × (Int → UInt16) :=
  stream.foldl (fun p c => runOn (gtxt_putc font gfx c) p) p

/-- Where the cursor already is as asked, `gtxt_cursor` does nothing. -/
theorem cursor_same (gfx : Bool) {on : Bool} (h : (s.cursorAt on).1 = s.gtxt_cursor_on) (vram : Int → UInt16) :
    runOn (gtxt_cursor gfx on) (s, vram) = (s, vram) := by
  rw [runOn, gtxt_cursor]
  cases gfx with
  | true => rfl
  | false =>
      dsimp only
      rw [if_neg Bool.false_ne_true, if_pos h]
      rfl

/-- Showing or hiding the cursor changes nothing else. -/
theorem Shadow.cursor (on : Bool) (h : Shadow gfx p q) : Shadow gfx (runOn (gtxt_cursor gfx on) p) q := by
  cases on with
  | false =>
      rw [h.rub]
      exact .off h.off_right
  | true =>
      cases gfx with
      | true => exact h
      | false =>
          cases h with
          | lit hoff hgfx hshow =>
              have hsame : ((q.1.setOn true).cursorAt true).1 = true := cursorAt_true hshow
              rw [cursor_same false hsame]
              exact .lit hoff hgfx hshow
          | off hoff =>
              by_cases hshow : Showable p.1
              · have hlit : runOn (gtxt_cursor false true) p =
                    (p.1.setOn true, touch (· ^^^ 0x7FFF) p.2 (cursorPixels p.1)) := by
                  have hne : ¬ (p.1.cursorAt true).1 = p.1.gtxt_cursor_on := by
                    rw [cursorAt_true hshow, hoff]
                    decide
                  rw [runOn, gtxt_cursor]
                  dsimp only
                  rw [if_neg Bool.false_ne_true, if_neg hne, cursorAt_true hshow]
                  rfl
                rw [hlit]
                exact .lit hoff rfl hshow
              · have hhidden : (p.1.cursorAt true).1 = p.1.gtxt_cursor_on := by
                  have hwrap := Decidable.not_not.mp hshow
                  rw [State.cursorAt, if_pos hwrap.1, if_neg (Int.not_lt.mpr hwrap.2), hoff]
                have hnone := cursor_same false hhidden p.2
                rw [hnone]
                exact .off hoff

/-- A run with the cursor shown and hidden, beside the bytes alone. -/
theorem Shadow.run {events : List Event} {p' : State × (Int → UInt16)}
    (hrun : Steps (CursorStep font gfx) p events p') (h : Shadow gfx p q) :
    Shadow gfx p' (typed font gfx q (events.filterMap Event.byte)) := by
  induction hrun generalizing q with
  | refl p => exact h
  | @cons p event p₁ events p' hstep _ ih =>
      obtain ⟨hallows, rfl⟩ := hstep
      cases event with
      | putc c => exact ih (h.putc (hallows c rfl))
      | cursor on => exact ih (h.cursor on)

/-- Showing and hiding the cursor between the bytes of a stream, and hiding it last, leaves the pixels,
the backing store, the cursor's position and the parsers as the stream alone does. -/
theorem cursor_transparent {cells : Int → Nat} {SIX_PAL : Int → UInt16} {fg bg : UInt16}
    {vram : Int → UInt16} {events : List Event} {final : State × (Int → UInt16)}
    (hrun : Steps (CursorStep font gfx) ((console cells SIX_PAL fg bg).1, vram) events final) :
    runOn (gtxt_cursor gfx false) final =
      typed font gfx ((console cells SIX_PAL fg bg).1, vram) (events.filterMap Event.byte) := by
  have hoff : (console cells SIX_PAL fg bg).1.gtxt_cursor_on = false := by
    obtain ⟨cells', pal, hblank⟩ := console_state cells SIX_PAL fg bg
    rw [hblank]
    rfl
  exact (Shadow.run hrun (.off hoff)).rub

/-- The cursor is lit during a sequence that moves it, and put out before a sixel. -/
def litSequences : List Event :=
  [.cursor true, .putc 65, .putc 27, .putc 91, .putc 50, .putc 68, .cursor false, .putc 27, .putc 80,
    .putc 113, .putc 126]

theorem cursor_transparent_letter :
    ∃ final, Steps (CursorStep (fun _ _ => 0) false)
        ((console (fun _ => 0) (fun _ => 0) 0x7FFF 0).1, fun _ => 0) litSequences final ∧
      runOn (gtxt_cursor false false) final =
        typed (fun _ _ => 0) false ((console (fun _ => 0) (fun _ => 0) 0x7FFF 0).1, fun _ => 0)
          (litSequences.filterMap Event.byte) := by
  have hsome : (litSequences.foldlM (fun p event =>
      if ¬ (p.1.gtxt_cursor_on = true ∧ p.1.gtxt_estate = .SIXEL) then
        some (runOn (event.routine (fun _ _ => 0) false) p) else none)
        ((console (fun _ => 0) (fun _ => 0) 0x7FFF 0).1, fun _ => 0)).isSome = true := by
    decide +kernel
  obtain ⟨final, hfinal⟩ := Option.isSome_iff_exists.mp hsome
  have hrun : Steps (CursorStep (fun _ _ => 0) false)
      ((console (fun _ => 0) (fun _ => 0) 0x7FFF 0).1, fun _ => 0) litSequences final := by
    refine (Steps.of_guarded hfinal).mono fun p event p' hstep => ?_
    exact ⟨fun _ _ hon hsixel => absurd ⟨hon, hsixel⟩ hstep.1, (Option.some.inj hstep.2).symm⟩
  exact ⟨final, hrun, cursor_transparent hrun⟩

/-- The events in order, whatever the cursor. -/
def happened (font : Font) (p : State × (Int → UInt16)) (events : List Event) :
    State × (Int → UInt16) :=
  events.foldl (fun p event => runOn (event.routine font false) p) p

/-- The cursor is shown after the start of an image, and the image's first pixel is drawn under it. That
pixel is black without the cursor, and white once the cursor has been shown and hidden. -/
theorem cursor_leaves_trace :
    let start := ((console (fun _ => 0) (fun _ => 0) 0x7FFF 0).1, fun _ => (0 : UInt16))
    let bytes : List UInt8 := [27, 80, 113, 64, 27, 92]
    let events := [.putc 27, .putc 80, .putc 113, .cursor true, .putc 64, .putc 27, .putc 92,
      .cursor false]
    events.filterMap Event.byte = bytes ∧
      (happened (fun _ _ => 0) start events).2 26880 = 0x7FFF ∧
      (typed (fun _ _ => 0) false start bytes).2 26880 = 0 := by
  refine ⟨rfl, ?_, ?_⟩
  · decide +kernel
  · decide +kernel

end DiscoBsd.Console
