import DiscoBsd.Console.Repaint

/-!
# Repainting the console

A stream without sixel data is printed with the graphics panel active for some of its bytes, and the
console is repainted from the backing store once the panel is released. `restore_faithful` says when its
pixels are those of the stream printed with the panel never active.
-/

namespace DiscoBsd.Console

open Lib

variable {font : Font} {colours : List UInt16} {gfx : Bool} {s : State} {p : State × (Int → UInt16)}

/-! ## One byte with the panel inactive -/

/-- A branch of a routine. -/
theorem sound_ite {b : State → Prop} [DecidablePred b] {f g : Routine}
    (hf : b p.1 → Sound font colours (runOn f p)) (hg : ¬ b p.1 → Sound font colours (runOn g p)) :
    Sound font colours (runOn (fun s => if b s then f s else g s) p) := by
  by_cases h : b p.1
  · have heq : (fun s => if b s then f s else g s) p.1 = f p.1 := if_pos h
    rw [runOn_congr heq]
    exact hf h
  · have heq : (fun s => if b s then f s else g s) p.1 = g p.1 := if_neg h
    rw [runOn_congr heq]
    exact hg h

theorem linefeed_sound : Keeps (Sound font colours) (gtxt_linefeed false) := fun p hp =>
  sound_ite (fun _ => ⟨{ hp.good with }, hp.faithful⟩) (fun _ => shift_sound p hp)

theorem wrapLine_sound : Keeps (Sound font colours) (wrapLine false) := fun p hp =>
  sound_ite
    (fun _ => Keeps.andThen (fun _ hq => ⟨{ hq.good with }, hq.faithful⟩) linefeed_sound p hp)
    (fun _ => hp)

theorem runOn_drawGlyph (font : Font) (c : UInt8) (p : State × (Int → UInt16)) :
    runOn (drawGlyph font false c) p =
      runOn (gtxt_draw_cell font false c p.1.gtxt_curx p.1.gtxt_cury
        (if p.1.gtxt_reverse then p.1.gtxt_bg else p.1.gtxt_fg)
        (if p.1.gtxt_reverse then p.1.gtxt_fg else p.1.gtxt_bg)) p :=
  runOn_congr rfl

theorem drawGlyph_sound (c : UInt8) (hp : Sound font colours p) (hroom : Room p.1) :
    Sound font colours (runOn (drawGlyph font false c) p) := by
  have hcell : InConsole p.1.gtxt_cury p.1.gtxt_curx :=
    ⟨⟨hroom.1.cury_nonneg, hroom.1.cury_le⟩, hroom.1.curx_nonneg, hroom.2⟩
  have hcolour : ∀ b : Bool, (if b then p.1.gtxt_bg else p.1.gtxt_fg) ∈ colours ∧
      (if b then p.1.gtxt_fg else p.1.gtxt_bg) ∈ colours := by
    intro b
    cases b
    · exact ⟨hp.good.fg, hp.good.bg⟩
    · exact ⟨hp.good.bg, hp.good.fg⟩
  rw [runOn_drawGlyph]
  exact draw_cell_sound c hp hcell (hcolour p.1.gtxt_reverse).1 (hcolour p.1.gtxt_reverse).2

theorem putGlyph_sound (c : UInt8) (hp : Sound font colours p) (hsafe : Safe p.1) :
    Sound font colours (runOn (putGlyph font false c) p) := by
  have hroom : Room (runOn (wrapLine false) p).1 := (wrapLine_gives p.1 hsafe).1
  rw [putGlyph, runOn_andThen, runOn_andThen]
  have hdraw := drawGlyph_sound c (wrapLine_sound p hp) hroom
  exact ⟨{ hdraw.good with }, hdraw.faithful⟩

theorem putText_sound (c : UInt8) (hp : Sound font colours p) (hsafe : Safe p.1) :
    Sound font colours (runOn (putText font false c) p) := by
  refine sound_ite (fun _ => hp) fun _ => ?_
  refine sound_ite (fun _ => ⟨{ hp.good with }, hp.faithful⟩) fun _ => ?_
  refine sound_ite (fun _ => ?_) fun _ => ?_
  · exact linefeed_sound ({ p.1 with gtxt_curx := 0 }, p.2) ⟨{ hp.good with }, hp.faithful⟩
  refine sound_ite (fun _ => ?_) fun _ => putGlyph_sound c hp hsafe
  refine sound_ite (fun _ => ⟨{ hp.good with }, hp.faithful⟩) fun _ => ?_
  exact sound_ite (fun _ => ⟨{ hp.good with }, hp.faithful⟩) fun _ => hp

/-- Erasing up to a cursor behind the last column falls on background, or on the keyboard. -/
def Covered (font : Font) (s : State) : Prop :=
  s.gtxt_cury < GTXT_BOTTOM → ∀ dot ∈ cellDots, dot.1 = 0 →
    cellPixel font s (s.gtxt_cury + 1) 0 dot = s.gtxt_bg

theorem span_to_cursor {row : Int} (hrow : 0 ≤ row ∧ row ≤ GTXT_BOTTOM) {c : Int} (hc : c ≤ GTXT_COLS)
    (hp : Sound font colours p) (hover : c = GTXT_COLS → Overhung font colours row p) :
    Sound font colours (runOn (gtxt_clear_span font false row 0 c) p) := by
  by_cases hlast : c = GTXT_COLS
  · rw [hlast]
    exact span_overhang hrow (hover hlast)
  · exact span_sound hrow (Int.le_refl 0) (by omega) p hp

theorem clearRow_sound {row : Int} (hrow : 0 ≤ row ∧ row ≤ GTXT_BOTTOM) :
    Keeps (Sound font colours) (clearRow font false row) :=
  span_sound hrow (Int.le_refl 0) (by decide)

theorem clearRows_sound {first last : Int} (hfirst : 0 ≤ first) (hlast : last ≤ GTXT_BOTTOM) :
    Keeps (Sound font colours) (Emit.each (clearRow font false) (interval first last)) := by
  refine Keeps.each fun row hrow => ?_
  rw [mem_interval] at hrow
  exact clearRow_sound ⟨Int.le_trans hfirst hrow.1, Int.le_trans hrow.2 hlast⟩

theorem clearRows_overhung {row : Int} (hbottom : row ≤ GTXT_BOTTOM) :
    Keeps (Overhung font colours row) (Emit.each (clearRow font false) (interval 0 (row - 1))) := by
  refine Keeps.each fun row' hrow => ?_
  rw [mem_interval] at hrow
  rw [clearRow, clear_span_eq]
  refine Keeps.each fun c hc => ?_
  rw [mem_interval] at hc
  exact clearCell_overhung ⟨hrow.1, by omega⟩ hbottom ⟨hc.1, by omega⟩

theorem eraseLine_sound (hp : Sound font colours p) (hsafe : Safe p.1)
    (hcovered : p.1.gtxt_parm 0 = 1 → p.1.gtxt_curx = GTXT_COLS → Covered font p.1) :
    Sound font colours (runOn (eraseLine font false) p) := by
  have hrow := And.intro hsafe.cury_nonneg hsafe.cury_le
  refine sound_ite (fun hone => ?_) fun _ => sound_ite (fun _ => ?_) fun _ => ?_
  · exact span_to_cursor hrow hsafe.curx_le hp fun hlast => ⟨hp, hcovered hone hlast⟩
  · exact clearRow_sound hrow p hp
  · exact span_sound hrow hsafe.curx_nonneg (by decide) p hp

theorem eraseDisplay_sound (hp : Sound font colours p) (hsafe : Safe p.1)
    (hcovered : p.1.gtxt_parm 0 = 1 → p.1.gtxt_curx = GTXT_COLS → Covered font p.1) :
    Sound font colours (runOn (eraseDisplay font false) p) := by
  have hrow := And.intro hsafe.cury_nonneg hsafe.cury_le
  refine sound_ite (fun _ => ?_) fun _ => sound_ite (fun hone => ?_) fun _ => ?_
  · exact clearRows_sound (Int.le_refl 0) (Int.le_refl _) p hp
  · have hrows : Sound font colours
        (runOn (Emit.each (clearRow font false) (interval 0 (p.1.gtxt_cury - 1))) p) :=
      clearRows_sound (Int.le_refl 0) (by omega) p hp
    have hspan := span_to_cursor hrow hsafe.curx_le hrows fun hlast =>
      clearRows_overhung hrow.2 p ⟨hp, hcovered hone hlast⟩
    rw [← runOn_andThen] at hspan
    exact hspan
  · exact ((span_sound hrow hsafe.curx_nonneg (by decide)).andThen
      (clearRows_sound (Int.le_add_one hsafe.cury_nonneg) (Int.le_refl _))) p hp

theorem moved_good (f : UInt8) (h : Good colours s) : Good colours (s.moved f) := by
  unfold State.moved
  split <;> exact { h with }

theorem moved_pixel (f : UInt8) (s : State) (row col : Int) (dot : Int × Int) :
    cellPixel font (s.moved f) row col dot = cellPixel font s row col dot := by
  unfold State.moved
  split <;> rfl

/-- A byte that is printed in step with the backing store: outside sixel data, with a count that does not
carry the cursor away, and with nothing erased behind the last column that shows. -/
structure InStep (font : Font) (c : UInt8) (s : State) : Prop where
  text : s.gtxt_estate ≠ .SIXEL
  count : s.gtxt_estate = .CSI → CsiFits true c s
  erase : s.gtxt_estate = .CSI → c = 74 ∨ c = 75 → s.gtxt_parm 0 = 1 → s.gtxt_curx = GTXT_COLS →
    Covered font s

/-- A byte that neither moves the cursor by a count nor erases is in step. -/
theorem inStep_of_not_mem {c : UInt8} (htext : s.gtxt_estate ≠ .SIXEL)
    (hc : c ∉ [65, 66, 67, 68, 74, 75]) : InStep font c s := by
  have hne : ∀ f ∈ [65, 66, 67, 68, 74, 75], c ≠ f := fun f hf heq => hc (heq ▸ hf)
  have herase : ¬ (c = 74 ∨ c = 75) := by
    rintro (h | h)
    · exact hne 74 (by decide) h
    · exact hne 75 (by decide) h
  exact ⟨htext,
    fun _ => ⟨fun h => absurd h (hne 65 (by decide)), fun h => absurd h (hne 66 (by decide)),
      fun h => absurd h (hne 67 (by decide)), fun h => absurd h (hne 68 (by decide)),
      fun h => absurd h herase⟩,
    fun _ h => absurd h herase⟩

theorem csi_sound {c : UInt8} (hp : Sound font colours p) (hsafe : Safe p.1)
    (hoff : p.1.gtxt_cursor_on = false) (hcovered : c = 74 ∨ c = 75 → p.1.gtxt_parm 0 = 1 →
      p.1.gtxt_curx = GTXT_COLS → Covered font p.1) :
    Sound font colours (runOn (gtxt_csi font false c) p) := by
  have hrub : runOn (gtxt_cursor false false) p = p := Shadow.rub (.off hoff)
  have hcsi : gtxt_csi font false c = (gtxt_cursor false false).andThen (csiAction font false c) := rfl
  rw [hcsi, runOn_andThen, hrub, csiAction]
  by_cases hline : c = 75
  · rw [if_pos hline]
    exact eraseLine_sound hp hsafe (hcovered (.inr hline))
  · rw [if_neg hline]
    by_cases hdisplay : c = 74
    · rw [if_pos hdisplay]
      exact eraseDisplay_sound hp hsafe (hcovered (.inl hdisplay))
    · rw [if_neg hdisplay]
      refine ⟨moved_good c hp.good, fun row col hcell dot hdot => ?_⟩
      exact (hp.faithful row col hcell dot hdot).trans (moved_pixel c p.1 row col dot).symm

theorem goto_sound (estate : Estate) : Keeps (Sound font colours) (goto estate) :=
  fun _ hp => ⟨{ hp.good with }, hp.faithful⟩

theorem rub_off (gfx : Bool) (hoff : p.1.gtxt_cursor_on = false) : runOn (gtxt_cursor gfx false) p = p :=
  Shadow.rub (.off hoff)

theorem six_begin_sound (hp : Sound font colours p) (hoff : p.1.gtxt_cursor_on = false) :
    Sound font colours (runOn (six_begin false) p) := by
  rw [six_begin, runOn_andThen, rub_off false hoff, runOn_andThen]
  have hwrap := wrapLine_sound p hp
  exact ⟨{ hwrap.good with }, hwrap.faithful⟩

theorem feedParm_sound {c : UInt8} (hp : Sound font colours p) (hsafe : Safe p.1)
    (hoff : p.1.gtxt_cursor_on = false) (hcovered : p.1.gtxt_estate ≠ .DCS → c = 74 ∨ c = 75 →
      p.1.gtxt_parm 0 = 1 → p.1.gtxt_curx = GTXT_COLS → Covered font p.1) :
    Sound font colours (runOn (feedParm font false c) p) := by
  refine sound_ite (fun _ => ?_) fun _ => ?_
  · exact sound_ite (fun _ => ⟨{ hp.good with }, hp.faithful⟩) fun _ => hp
  refine sound_ite (fun _ => ?_) fun _ => ?_
  · exact sound_ite (fun _ => ⟨{ hp.good with }, hp.faithful⟩) fun _ => hp
  refine sound_ite (fun _ => ?_) fun hdcs => ?_
  · refine sound_ite (fun _ => ?_) fun _ => sound_ite (fun _ => goto_sound .STR p hp) fun _ => hp
    have hbegin := goto_sound .SIXEL _ (six_begin_sound hp hoff)
    rw [← runOn_andThen] at hbegin
    exact hbegin
  · refine sound_ite (fun _ => ?_) fun _ => goto_sound .TEXT p hp
    have hcsi := goto_sound .TEXT _ (csi_sound hp hsafe hoff (hcovered hdcs))
    rw [← runOn_andThen] at hcsi
    exact hcsi

/-- One byte that is in step, printed with the panel inactive. -/
theorem putc_sound {c : UInt8} (hp : Sound font colours p) (hsafe : Safe p.1)
    (hoff : p.1.gtxt_cursor_on = false) (hstep : InStep font c p.1) :
    Sound font colours (runOn (gtxt_putc font false c) p) := by
  refine sound_ite (fun htext => ?_) fun _ => sound_ite (fun _ => goto_sound .ESC p hp) fun _ => ?_
  · have hfeed : ∀ {f : Routine}, gtxt_esc_feed font false c p.1 = f p.1 →
        Sound font colours (runOn f p) →
        Sound font colours (runOn (gtxt_esc_feed font false c) p) := by
      intro f heq hf
      rw [runOn_congr heq]
      exact hf
    cases hestate : p.1.gtxt_estate with
    | TEXT => exact absurd hestate htext
    | SIXEL => exact absurd hestate hstep.text
    | ESC =>
        refine hfeed (f := feedEsc c) (by rw [gtxt_esc_feed, hestate]) ?_
        exact sound_ite (fun _ => ⟨{ hp.good with }, hp.faithful⟩) fun _ => goto_sound .TEXT p hp
    | CSI =>
        refine hfeed (f := feedParm font false c) (by rw [gtxt_esc_feed, hestate]) ?_
        exact feedParm_sound hp hsafe hoff fun _ => hstep.erase hestate
    | DCS =>
        refine hfeed (f := feedParm font false c) (by rw [gtxt_esc_feed, hestate]) ?_
        exact feedParm_sound hp hsafe hoff fun hne => absurd hestate hne
    | STR =>
        refine hfeed (f := fun s => if c = 27 then goto .ST s else (s, []))
          (by rw [gtxt_esc_feed, hestate]) ?_
        exact sound_ite (fun _ => goto_sound .ST p hp) fun _ => hp
    | ST =>
        exact hfeed (f := goto .TEXT) (by rw [gtxt_esc_feed, hestate]) (goto_sound .TEXT p hp)
  · have htext := putText_sound c hp hsafe
    have hrub : runOn (gtxt_cursor false false) p = p := Shadow.rub (.off hoff)
    rw [← hrub] at htext
    rw [← runOn_andThen] at htext
    exact htext

/-! ## The panel makes no difference to the state -/

/-- Two routines that leave the same state. -/
def SameState (f g : Routine) : Prop := ∀ s, (f s).1 = (g s).1

theorem SameState.refl (f : Routine) : SameState f f := fun _ => rfl

theorem SameState.andThen {f f' g g' : Routine} (hf : SameState f f') (hg : SameState g g') :
    SameState (f.andThen g) (f'.andThen g') := by
  intro s
  simp only [Emit.andThen, hf s, hg (f' s).1]

theorem SameState.each {Index : Type} {f g : Index → Routine} (h : ∀ i, SameState (f i) (g i))
    (is : List Index) : SameState (Emit.each f is) (Emit.each g is) := by
  induction is with
  | nil => exact .refl _
  | cons i is ih => exact (h i).andThen ih

theorem SameState.ite {b : State → Prop} [DecidablePred b] {f f' g g' : Routine} (hf : SameState f f')
    (hg : SameState g g') :
    SameState (fun s => if b s then f s else g s) fun s => if b s then f' s else g' s := by
  intro s
  dsimp only
  split
  · exact hf s
  · exact hg s

theorem shift_same : SameState (gtxt_shift gfx) (gtxt_shift false) := by
  refine SameState.andThen (.refl _) (SameState.andThen (.refl _) fun s => ?_)
  cases gfx <;> rfl

theorem linefeed_same : SameState (gtxt_linefeed gfx) (gtxt_linefeed false) :=
  .ite (.refl _) shift_same

theorem wrapLine_same : SameState (wrapLine gfx) (wrapLine false) :=
  .ite ((SameState.refl _).andThen linefeed_same) (.refl _)

theorem clear_span_same (row c0 c1 : Int) :
    SameState (gtxt_clear_span font gfx row c0 c1) (gtxt_clear_span font false row c0 c1) :=
  .each (f := fun c s => gtxt_draw_cell font gfx 32 c row s.gtxt_bg s.gtxt_bg s)
    (g := fun c s => gtxt_draw_cell font false 32 c row s.gtxt_bg s.gtxt_bg s) (fun _ _ => rfl) _

theorem clearRows_same (rows : List Int) :
    SameState (Emit.each (clearRow font gfx) rows) (Emit.each (clearRow font false) rows) :=
  .each (fun _ => clear_span_same _ _ _) rows

theorem eraseLine_same : SameState (eraseLine font gfx) (eraseLine font false) :=
  .ite (fun s => clear_span_same _ _ _ s)
    (.ite (fun s => clear_span_same _ _ _ s) fun s => clear_span_same _ _ _ s)

theorem eraseDisplay_same : SameState (eraseDisplay font gfx) (eraseDisplay font false) :=
  .ite (clearRows_same _)
    (.ite (fun s => SameState.andThen (clearRows_same _) (clear_span_same _ _ _) s)
      fun s => SameState.andThen (clear_span_same _ _ _) (clearRows_same _) s)

theorem csiAction_same (f : UInt8) : SameState (csiAction font gfx f) (csiAction font false f) := by
  rw [csiAction, csiAction]
  split
  · exact eraseLine_same
  · split
    · exact eraseDisplay_same
    · exact .refl _

theorem putText_same (c : UInt8) : SameState (putText font gfx c) (putText font false c) :=
  .ite (.refl _) (.ite (.refl _) (.ite (fun _ => linefeed_same _) (.ite (.refl _)
    (wrapLine_same.andThen (SameState.andThen (fun _ => rfl) (.refl _))))))

theorem rubbed_same {f g : Routine} (h : SameState f g) (hoff : s.gtxt_cursor_on = false) :
    (((gtxt_cursor gfx false).andThen f) s).1 = (((gtxt_cursor false false).andThen g) s).1 := by
  have hrub : ∀ gfx, (gtxt_cursor gfx false s).1 = s := fun gfx =>
    congrArg Prod.fst (rub_off gfx (p := (s, fun _ => 0)) hoff)
  simp only [Emit.andThen, hrub, h s]

theorem feedParm_same (c : UInt8) (hoff : s.gtxt_cursor_on = false) :
    (feedParm font gfx c s).1 = (feedParm font false c s).1 := by
  have hbegin : (((six_begin gfx).andThen (goto .SIXEL)) s).1 =
      (((six_begin false).andThen (goto .SIXEL)) s).1 := by
    have hassoc : ∀ gfx, (six_begin gfx).andThen (goto .SIXEL) = (gtxt_cursor gfx false).andThen
        ((wrapLine gfx).andThen ((Emit.change State.startImage).andThen (goto .SIXEL))) := fun gfx => by
      rw [six_begin, Emit.andThen_assoc, Emit.andThen_assoc]
    rw [hassoc, hassoc]
    exact rubbed_same (wrapLine_same.andThen (.refl _)) hoff
  have hcsi : (((gtxt_csi font gfx c).andThen (goto .TEXT)) s).1 =
      (((gtxt_csi font false c).andThen (goto .TEXT)) s).1 := by
    have hassoc : ∀ gfx, (gtxt_csi font gfx c).andThen (goto .TEXT) =
        (gtxt_cursor gfx false).andThen ((csiAction font gfx c).andThen (goto .TEXT)) := fun gfx => by
      rw [← Emit.andThen_assoc]
      rfl
    rw [hassoc, hassoc]
    exact rubbed_same ((csiAction_same c).andThen (.refl _)) hoff
  rw [feedParm, feedParm]
  split
  · rfl
  · split
    · rfl
    · split
      · split
        · exact hbegin
        · rfl
      · split
        · exact hcsi
        · rfl

/-- Whether the panel is active does not show in the state, outside sixel data. -/
theorem putc_same (c : UInt8) (hoff : s.gtxt_cursor_on = false) (htext : s.gtxt_estate ≠ .SIXEL) :
    (gtxt_putc font gfx c s).1 = (gtxt_putc font false c s).1 := by
  rw [gtxt_putc, gtxt_putc]
  by_cases hesc : s.gtxt_estate ≠ .TEXT
  · rw [if_pos hesc, if_pos hesc, gtxt_esc_feed, gtxt_esc_feed]
    cases hestate : s.gtxt_estate with
    | SIXEL => exact absurd hestate htext
    | ESC | STR | ST => rfl
    | TEXT | CSI | DCS => exact feedParm_same c hoff
  · rw [if_neg hesc, if_neg hesc]
    split
    · rfl
    · exact rubbed_same (putText_same c) hoff

/-! ## The repaint -/

theorem redraw_state (font : Font) {row col : Int} (hs : Good colours s) (h : OnScreen row col) :
    (redraw font false (row, col) s).1 = s := by
  have hvalid := hs.cells row col h
  have hscreen : (0 ≤ row ∧ row < GTXT_ROWS) ∧ 0 ≤ col ∧ col < GTXT_COLS := h
  rw [redraw, gtxt_draw_cell, if_pos hscreen, State.record]
  dsimp only
  rw [pal_index_getD hs.palette.nodup hvalid.bi_lt]
  dsimp only
  rw [pal_index_getD hs.palette.nodup hvalid.fi_lt, pack_unpack hvalid.word, Function.update_eq_self]

/-- Redrawing cells paints what the backing store has for them, and nothing else. -/
theorem redraw_cells (font : Font) (hs : Good colours s) {places : List (Int × Int)}
    (hplaces : ∀ place ∈ places, OnScreen place.1 place.2) (vram : Int → UInt16) :
    (runOn (Emit.each (redraw font false) places) (s, vram)).1 = s ∧
      ∀ row col, OnScreen row col → ∀ dot ∈ cellDots,
        (runOn (Emit.each (redraw font false) places) (s, vram)).2 (cellAddress row col dot) =
          if (row, col) ∈ places then cellPixel font s row col dot
          else vram (cellAddress row col dot) := by
  induction places generalizing vram with
  | nil => exact ⟨rfl, fun _ _ _ _ _ => rfl⟩
  | cons place places ih =>
      obtain ⟨row₀, col₀⟩ := place
      have hplace : OnScreen row₀ col₀ := hplaces (row₀, col₀) (List.mem_cons_self ..)
      have hrun : runOn (redraw font false (row₀, col₀)) (s, vram) =
          (s, paint vram (cellDots.map fun dot =>
            (cellAddress row₀ col₀ dot, cellPixel font s row₀ col₀ dot))) :=
        Prod.ext (redraw_state font hs hplace) rfl
      have hcons : runOn (Emit.each (redraw font false) ((row₀, col₀) :: places)) (s, vram) =
          runOn (Emit.each (redraw font false) places) (s, paint vram (cellDots.map fun dot =>
            (cellAddress row₀ col₀ dot, cellPixel font s row₀ col₀ dot))) := by
        rw [Emit.each, runOn_andThen, hrun]
      obtain ⟨hstate, hpixels⟩ := ih (fun other hother => hplaces other (List.mem_cons_of_mem _ hother))
        (paint vram (cellDots.map fun dot =>
          (cellAddress row₀ col₀ dot, cellPixel font s row₀ col₀ dot)))
      rw [hcons]
      refine ⟨hstate, fun row col hcell dot hdot => ?_⟩
      rw [hpixels row col hcell dot hdot]
      by_cases hlater : (row, col) ∈ places
      · rw [if_pos hlater, if_pos (List.mem_cons_of_mem _ hlater)]
      rw [if_neg hlater]
      by_cases hsame : row = row₀ ∧ col = col₀
      · obtain ⟨rfl, rfl⟩ := hsame
        have hinj : ∀ k ∈ cellDots, cellAddress row col k = cellAddress row col dot → k = dot :=
          fun k hk heq => (cellAddress_inj hplace hplace hk hdot heq).2.2
        rw [if_pos (List.mem_cons_self ..), paint_map vram hinj hdot]
      · have hnot : (row, col) ∉ (row₀, col₀) :: places := by
          rw [List.mem_cons, not_or]
          exact ⟨fun heq => hsame ⟨congrArg Prod.fst heq, congrArg Prod.snd heq⟩, hlater⟩
        rw [if_neg hnot, paint_of_not_mem]
        rw [List.map_map]
        intro hmem
        obtain ⟨k, hk, heq⟩ := List.mem_map.mp hmem
        obtain ⟨hrow, hcol, -⟩ := cellAddress_inj hplace hcell hk hdot heq
        exact hsame ⟨hrow.symm, hcol.symm⟩

theorem mem_screenCells {row col : Int} : (row, col) ∈ screenCells ↔ OnScreen row col := by
  rw [screenCells, List.mem_product, mem_interval, mem_interval, OnScreen, Int.le_sub_one_iff,
    Int.le_sub_one_iff]

theorem runOn_restore (font : Font) (s : State) (vram : Int → UInt16) :
    runOn (gtxt_restore font false) (s, vram) =
      runOn (Emit.each (redraw font false) screenCells) ({ s with gtxt_cursor_on := false }, vram) := by
  rw [runOn, gtxt_restore, if_neg Bool.false_ne_true]
  exact runOn_andThen _ _ (s, vram)

theorem restore_pixel (font : Font) (hs : Good colours s) (vram : Int → UInt16) {row col : Int}
    {dot : Int × Int} (h : OnScreen row col) (hdot : dot ∈ cellDots) :
    (runOn (gtxt_restore font false) (s, vram)).2 (cellAddress row col dot) =
      cellPixel font s row col dot := by
  have hoff : Good colours { s with gtxt_cursor_on := false } := { hs with }
  rw [runOn_restore, (redraw_cells font hoff (fun _ hplace => mem_screenCells.mp hplace) vram).2 row col h dot hdot,
    if_pos (mem_screenCells.mpr h)]
  rfl

/-! ## Whole streams -/

/-- A byte is printed while the panel is active or not, the colour of kernel messages is switched, the
panel draws, or the console is restored. -/
inductive Print where
  | byte (gfx : Bool) (c : UInt8)
  | color (on : Bool)
  | draw (vram : Int → UInt16)
  | restore (gfx : Bool)

/-- What is done. -/
def Print.done (font : Font) (p : State × (Int → UInt16)) : Print → State × (Int → UInt16)
  | byte gfx c => runOn (gtxt_putc font gfx c) p
  | color on => runOn (gtxt_msgcolor on) p
  | draw vram => (p.1, vram)
  | restore gfx => runOn (gtxt_restore font gfx) p

/-- The same with the panel never active. -/
def Print.plain (font : Font) (p : State × (Int → UInt16)) : Print → State × (Int → UInt16)
  | byte _ c => runOn (gtxt_putc font false c) p
  | color on => runOn (gtxt_msgcolor on) p
  | draw _ => p
  | restore _ => p

/-- Something is done, a byte only printed if it is in step. -/
def PrintStep (font : Font) (p : State × (Int → UInt16)) (print : Print) (p' : State × (Int → UInt16)) :
    Prop :=
  (∀ gfx c, print = .byte gfx c → InStep font c p.1) ∧ p' = print.done font p

theorem PrintStep.byte (gfx : Bool) {c : UInt8} (h : InStep font c p.1) :
    PrintStep font p (.byte gfx c) (runOn (gtxt_putc font gfx c) p) :=
  ⟨fun _ _ hbyte => (Print.byte.inj hbyte).2 ▸ h, rfl⟩

theorem PrintStep.draw (font : Font) (p : State × (Int → UInt16)) (vram : Int → UInt16) :
    PrintStep font p (.draw vram) (p.1, vram) :=
  ⟨fun _ _ hbyte => Print.noConfusion hbyte, rfl⟩

/-- The outcome with the panel never active. -/
def plainly (font : Font) (p : State × (Int → UInt16)) (prints : List Print) :
    State × (Int → UInt16) :=
  prints.foldl (Print.plain font) p

/-- The console and its pixels as `gtxt_init` leaves them. -/
def cleared (cells : Int → Nat) (SIX_PAL : Int → UInt16) (vram : Int → UInt16) (fg bg : UInt16) :
    State × (Int → UInt16) :=
  runOn (gtxt_init false fg bg) (boot cells SIX_PAL, vram)

theorem cleared_sound (font : Font) (cells : Int → Nat) (SIX_PAL : Int → UInt16) (vram : Int → UInt16)
    (fg bg : UInt16) :
    Sound font [fg, GTXT_GREEN, bg] (cleared cells SIX_PAL vram fg bg) ∧
      Safe (cleared cells SIX_PAL vram fg bg).1 ∧
      (cleared cells SIX_PAL vram fg bg).1.gtxt_cursor_on = false := by
  have hempty : Palette [fg, GTXT_GREEN, bg] [] :=
    ⟨Nat.le_of_ble_eq_true rfl, List.nodup_nil, fun _ hmem => absurd hmem List.not_mem_nil⟩
  obtain ⟨cells', pal, heach, hpal, -, hcells⟩ :=
    blanks font { boot cells SIX_PAL with gtxt_fg := fg, gtxt_bg := bg, gtxt_fg_normal := fg }
      (fun _ hplace => mem_screenCells.mp hplace) hempty (by simp)
  have hcleared : cleared cells SIX_PAL vram fg bg =
      (blank fg bg cells' pal SIX_PAL,
        drawn vram [.fill 0 (dmaUnits (GTXT_SCREEN_W * GTXT_SCREEN_H).toNat) bg]) := by
    rw [cleared, runOn, gtxt_init, Emit.andThen, Emit.change, gtxt_cls, Emit.andThen]
    dsimp only
    rw [heach]
    rfl
  have hword : ∀ row col, OnScreen row col → ValidCell pal (cells' (row * GTXT_COLS + col)) ∧
      ∀ dot, wordColor font pal (cells' (row * GTXT_COLS + col)) dot = bg := by
    intro row col hcell
    rcases hcells row col hcell with ⟨-, hblank⟩ | ⟨hnot, -⟩
    · exact hblank
    · exact absurd (mem_screenCells.mpr hcell) hnot
  rw [hcleared]
  refine ⟨⟨⟨hpal, ?_, ?_, ?_, ?_, fun row col hcell => (hword row col hcell).1⟩,
    fun row col hcell dot hdot => ?_⟩, blank_safe .., rfl⟩
  · exact List.mem_cons_self ..
  · exact List.mem_cons_of_mem _ (List.mem_cons_of_mem _ (List.mem_cons_self ..))
  · exact List.mem_cons_self ..
  · exact List.mem_cons_of_mem _ (List.mem_cons_self ..)
  · have hfill : dmaUnits (GTXT_SCREEN_W * GTXT_SCREEN_H).toNat = 38400 := rfl
    have hcols : GTXT_COLS = 40 := rfl
    have hbottom : GTXT_BOTTOM = 14 := rfl
    have hpixels : GTXT_ROW_PIXELS = 1920 := rfl
    refine Eq.trans ?_ ((hword row col hcell.onScreen).2 dot).symm
    rw [hfill]
    refine if_pos ?_
    rw [mem_cellDots] at hdot
    simp only [InConsole, hcols, hbottom] at hcell
    simp only [cellAddress, hpixels, GTXT_CHAR_W, GTXT_SCREEN_W]
    omega

/-- The console with the panel never active, whose cursor is hidden. -/
structure Plain (font : Font) (colours : List UInt16) (q : State × (Int → UInt16)) : Prop where
  sound : Sound font colours q
  safe : Safe q.1
  off : q.1.gtxt_cursor_on = false

theorem Plain.putc {q : State × (Int → UInt16)} {c : UInt8} (hq : Plain font colours q)
    (hstep : InStep font c q.1) : Plain font colours (runOn (gtxt_putc font false c) q) := by
  have hallowed : Allowed true c q.1 := ⟨hstep.count, fun hsixel => absurd hsixel hstep.text⟩
  have hsafe := (putc_gives font c q.1 ⟨hq.safe, hallowed⟩).1
  rw [putc_same c hq.off hstep.text] at hsafe
  have hshadow : Shadow false (runOn (gtxt_putc font false c) q) (runOn (gtxt_putc font false c) q) :=
    Shadow.putc (.off hq.off) fun _ hsixel => absurd hsixel hstep.text
  exact ⟨putc_sound hq.sound hq.safe hq.off hstep, hsafe, hshadow.off_right⟩

theorem Plain.msgcolor {q : State × (Int → UInt16)} (on : Bool) (hq : Plain font colours q) :
    Plain font colours (runOn (gtxt_msgcolor on) q) := by
  refine ⟨⟨{ hq.sound.good with fg := ?_ }, hq.sound.faithful⟩, { hq.safe with }, hq.off⟩
  cases on with
  | false => exact hq.sound.good.normal
  | true => exact hq.sound.good.green

/-- Restoring the console changes pixels only, where the cursor is hidden. -/
theorem restore_state {q : State × (Int → UInt16)} (gfx : Bool) (hq : Plain font colours q)
    (vram : Int → UInt16) : (runOn (gtxt_restore font gfx) (q.1, vram)).1 = q.1 := by
  cases gfx with
  | true => rfl
  | false =>
      have hoff : { q.1 with gtxt_cursor_on := false } = q.1 := by
        rw [← hq.off]
      rw [runOn_restore font q.1 vram, hoff]
      exact (redraw_cells font hq.sound.good (fun _ hplace => mem_screenCells.mp hplace) vram).1

/-- A run beside the one with the panel never active: the states are the same. -/
theorem prints_plain {prints : List Print} {p p' q : State × (Int → UInt16)}
    (hrun : Steps (PrintStep font) p prints p') (hstate : p.1 = q.1) (hq : Plain font colours q) :
    p'.1 = (plainly font q prints).1 ∧ Plain font colours (plainly font q prints) := by
  induction hrun generalizing q with
  | refl p => exact ⟨hstate, hq⟩
  | @cons p print p₁ prints p' hprint _ ih =>
      obtain ⟨hinstep, rfl⟩ := hprint
      cases print with
      | byte gfx c =>
          have hstep : InStep font c q.1 := hstate ▸ hinstep gfx c rfl
          refine ih (q := runOn (gtxt_putc font false c) q) ?_ (hq.putc hstep)
          have hsame : (gtxt_putc font gfx c q.1).1 = (gtxt_putc font false c q.1).1 :=
            putc_same c hq.off hstep.text
          exact (congrArg (fun s => (gtxt_putc font gfx c s).1) hstate).trans hsame
      | color on =>
          exact ih (q := runOn (gtxt_msgcolor on) q)
            (congrArg (fun s => (gtxt_msgcolor on s).1) hstate) (hq.msgcolor on)
      | draw vram => exact ih (q := q) hstate hq
      | restore gfx =>
          refine ih (q := q) ?_ hq
          have hsame := restore_state gfx hq p.2
          rw [← hstate] at hsame
          exact hsame.trans hstate

/-- A pixel of the console is one of a cell. -/
theorem OnConsole.cell {a : Int} (h : OnConsole a) :
    ∃ row col, ∃ dot ∈ cellDots, InConsole row col ∧ a = cellAddress row col dot := by
  have hcols : GTXT_COLS = 40 := rfl
  have hbottom : GTXT_BOTTOM = 14 := rfl
  have hpixels : GTXT_ROW_PIXELS = 1920 := rfl
  have hcons : GTXT_CONS_H * GTXT_SCREEN_W = 28800 := rfl
  simp only [OnConsole, hcons] at h
  refine ⟨a / 1920, a % 240 / 6, (a % 1920 / 240, a % 6), ?_, ?_, ?_⟩
  · rw [mem_cellDots]
    dsimp only
    omega
  · simp only [InConsole, hcols, hbottom]
    omega
  · simp only [cellAddress, hpixels, GTXT_CHAR_W, GTXT_SCREEN_W]
    omega

/-- After `gtxt_restore` the console's pixels are those of the same stream with the panel never active,
on which `gtxt_restore` changes nothing, when every byte was in step. -/
theorem restore_faithful {cells : Int → Nat} {SIX_PAL vram : Int → UInt16} {fg bg : UInt16}
    {prints : List Print} {final : State × (Int → UInt16)}
    (hrun : Steps (PrintStep font) (cleared cells SIX_PAL vram fg bg) prints final) {a : Int}
    (ha : OnConsole a) :
    (runOn (gtxt_restore font false) final).2 a =
        (plainly font (cleared cells SIX_PAL vram fg bg) prints).2 a ∧
      (runOn (gtxt_restore font false) (plainly font (cleared cells SIX_PAL vram fg bg) prints)).2 a =
        (plainly font (cleared cells SIX_PAL vram fg bg) prints).2 a := by
  obtain ⟨hsound, hsafe, hoff⟩ := cleared_sound font cells SIX_PAL vram fg bg
  obtain ⟨hstate, hplain⟩ := prints_plain hrun rfl ⟨hsound, hsafe, hoff⟩
  obtain ⟨row, col, dot, hdot, hcell, rfl⟩ := ha.cell
  have hfaithful := hplain.sound.faithful row col hcell dot hdot
  rw [hfaithful]
  refine ⟨?_, restore_pixel font hplain.sound.good _ hcell.onScreen hdot⟩
  have hpixel := restore_pixel font hplain.sound.good final.2 hcell.onScreen hdot
  rw [← hstate] at hpixel ⊢
  exact hpixel

/-- A letter is printed while the panel is active, and the panel draws. -/
theorem restore_faithful_letter :
    ∃ final, Steps (PrintStep fun _ _ => 255)
        (cleared (fun _ => 0) (fun _ => 0) (fun _ => 0) 0x7FFF 0)
        [.draw fun _ => 31, .byte true 120] final ∧ OnConsole 26880 ∧
      (runOn (gtxt_restore (fun _ _ => 255) false) final).2 26880 =
          (plainly (fun _ _ => 255) (cleared (fun _ => 0) (fun _ => 0) (fun _ => 0) 0x7FFF 0)
            [.draw fun _ => 31, .byte true 120]).2 26880 ∧
        (runOn (gtxt_restore (fun _ _ => 255) false)
            (plainly (fun _ _ => 255) (cleared (fun _ => 0) (fun _ => 0) (fun _ => 0) 0x7FFF 0)
              [.draw fun _ => 31, .byte true 120])).2 26880 =
          (plainly (fun _ _ => 255) (cleared (fun _ => 0) (fun _ => 0) (fun _ => 0) 0x7FFF 0)
            [.draw fun _ => 31, .byte true 120]).2 26880 := by
  have htext : (cleared (fun _ => 0) (fun _ => 0) (fun _ => 0) 0x7FFF 0).1.gtxt_estate = .TEXT := by
    decide +kernel
  have hinstep : InStep (fun _ _ => 255) 120
      (cleared (fun _ => 0) (fun _ => 0) (fun _ => 0) 0x7FFF 0).1 :=
    inStep_of_not_mem (by rw [htext]; decide) (by decide)
  have hprints : ∀ start, InStep (fun _ _ => 255) 120 start.1 → ∃ final,
      Steps (PrintStep fun _ _ => 255) start [.draw fun _ => 31, .byte true 120] final :=
    fun start h => ⟨_, .cons (.draw _ start _)
      (.cons (PrintStep.byte (p := (start.1, fun _ => 31)) true h) (.refl _))⟩
  obtain ⟨final, hrun⟩ := hprints _ hinstep
  have hon : OnConsole 26880 := ⟨by decide, by decide⟩
  exact ⟨final, hrun, hon, restore_faithful hrun hon⟩

/-! ## A letter behind the end of a row -/

/-- The cells of the screen outside a row show what they did. -/
structure RowsKept (font : Font) (colours : List UInt16) (row : Int) (s s' : State) : Prop where
  good : Good colours s'
  pixel : ∀ row' col, OnScreen row' col → row' ≠ row → ∀ dot,
    cellPixel font s' row' col dot = cellPixel font s row' col dot

theorem clear_span_kept (row c0 c1 : Int) (hs : Good colours s) :
    RowsKept font colours row s (gtxt_clear_span font false row c0 c1 s).1 := by
  have hspan : Emit.Gives (RowsKept font colours row s) (gtxt_clear_span font false row c0 c1)
      (RowsKept font colours row s) (fun _ => True) := by
    refine Emit.Gives.each fun c _ s' hs' => ⟨?_, fun _ _ => trivial⟩
    rw [gtxt_draw_cell]
    dsimp only
    split
    · rename_i hcell
      obtain ⟨hgood, -, hother⟩ := record_good font 32 hs'.good hcell hs'.good.bg hs'.good.bg
      refine ⟨hgood, fun row' col hcell' hne dot => ?_⟩
      rw [hother row' col hcell' (fun h => hne h.1), hs'.pixel row' col hcell' hne]
    · exact hs'
  exact (hspan s ⟨hs, fun _ _ _ _ _ => rfl⟩).1

theorem eraseLine_kept (font : Font) (hs : Good colours s) :
    RowsKept font colours s.gtxt_cury s (eraseLine font false s).1 := by
  rw [eraseLine]
  split
  · exact clear_span_kept _ _ _ hs
  · split
    · exact clear_span_kept _ _ _ hs
    · exact clear_span_kept _ _ _ hs

/-- The final byte that erases in the line. -/
theorem putc_eraseLine (font : Font) (hcsi : p.1.gtxt_estate = .CSI) (hoff : p.1.gtxt_cursor_on = false) :
    runOn (gtxt_putc font false 75) p = runOn (goto .TEXT) (runOn (eraseLine font false) p) := by
  have hcsi' : gtxt_putc font false 75 p.1 = ((gtxt_csi font false 75).andThen (goto .TEXT)) p.1 := by
    have htext : p.1.gtxt_estate ≠ .TEXT := by
      rw [hcsi]
      decide
    have hdcs : ¬ p.1.gtxt_estate = .DCS := by
      rw [hcsi]
      decide
    have hfinal : (64 : UInt8) ≤ 75 ∧ (75 : UInt8) ≤ 126 := by decide
    have hdigit : ¬ ((48 : UInt8) ≤ 75 ∧ (75 : UInt8) ≤ 57) := by decide
    have hsemi : ¬ (75 : UInt8) = 59 := by decide
    rw [gtxt_putc, if_pos htext, gtxt_esc_feed, hcsi]
    dsimp only
    rw [feedParm, if_neg hdigit, if_neg hsemi, if_neg hdcs, if_pos hfinal]
  rw [runOn_congr hcsi', runOn_andThen, gtxt_csi, runOn_andThen, rub_off false hoff, if_pos rfl]

/-- Once a row has been erased, even behind its end, `gtxt_restore` shows the others as they were. -/
theorem Plain.restore_erased {q : State × (Int → UInt16)} {row col : Int} {dot : Int × Int}
    (hq : Plain font colours q) (hcsi : q.1.gtxt_estate = .CSI) (h : InConsole row col)
    (hrow : row ≠ q.1.gtxt_cury) (hdot : dot ∈ cellDots) :
    (runOn (gtxt_restore font false) (runOn (gtxt_putc font false 75) q)).2 (cellAddress row col dot) =
      q.2 (cellAddress row col dot) := by
  have hkept := eraseLine_kept font hq.sound.good
  have hgood : Good colours (runOn (goto .TEXT) (runOn (eraseLine font false) q)).1 :=
    { hkept.good with }
  rw [putc_eraseLine font hcsi hq.off, hq.sound.faithful row col h dot hdot,
    ← hkept.pixel row col h.onScreen hrow dot]
  exact restore_pixel font hgood _ h.onScreen hdot

/-- Bytes that are in step wherever they are not sixel data. -/
theorem Plain.bytes {q : State × (Int → UInt16)} {bytes : List UInt8}
    (hbytes : ∀ c ∈ bytes, c ∉ [65, 66, 67, 68, 74, 75])
    (htext : ∀ n < bytes.length,
      (plainly font q ((bytes.take n).map (.byte false))).1.gtxt_estate ≠ .SIXEL)
    (hq : Plain font colours q) : Plain font colours (plainly font q (bytes.map (.byte false))) := by
  induction bytes generalizing q with
  | nil => exact hq
  | cons c bytes ih =>
      have hc := hbytes c (List.mem_cons_self ..)
      have hstep : InStep font c q.1 := inStep_of_not_mem (htext 0 (Nat.succ_pos _)) hc
      exact ih (fun c' hc' => hbytes c' (List.mem_cons_of_mem _ hc'))
        (fun n hn => htext (n + 1) (Nat.succ_lt_succ hn)) (hq.putc hstep)

/-- A letter on the bottom row, and forty on the row above: the cursor waits behind the last column. -/
def fullRow : List UInt8 := [120, 27, 91, 49, 52, 59, 49, 72] ++ List.replicate 40 120 ++ [27, 91, 49]

/-- Erasing that row up to the cursor blanks the first pixels of the row below, whose cell keeps its
letter: with the panel never active, `gtxt_restore` draws them again. -/
theorem restore_changes :
    let p := plainly (fun _ _ => 255) (cleared (fun _ => 0) (fun _ => 0) (fun _ => 0) 0x7FFF 0)
      ((fullRow ++ [75]).map (Print.byte false))
    OnConsole 26880 ∧ p.2 26880 = 0 ∧ (runOn (gtxt_restore (fun _ _ => 255) false) p).2 26880 = 0x7FFF := by
  obtain ⟨hsound, hsafe, hoff⟩ :=
    cleared_sound (fun _ _ => 255) (fun _ => 0) (fun _ => 0) (fun _ => 0) 0x7FFF 0
  let start := cleared (fun _ => 0) (fun _ => 0) (fun _ => 0) 0x7FFF 0
  let full := plainly (fun _ _ => 255) start (fullRow.map (Print.byte false))
  have htext : ∀ n < fullRow.length, (plainly (fun _ _ => 255) start
      ((fullRow.take n).map (.byte false))).1.gtxt_estate ≠ .SIXEL := by decide +kernel
  have hfull : Plain (fun _ _ => 255) [0x7FFF, GTXT_GREEN, 0] full :=
    Plain.bytes (by decide +kernel) htext ⟨hsound, hsafe, hoff⟩
  have hlast : plainly (fun _ _ => 255) start ((fullRow ++ [75]).map (Print.byte false)) =
      runOn (gtxt_putc (fun _ _ => 255) false 75) full := by
    rw [List.map_append, plainly, List.foldl_append]
    rfl
  have hcsi : full.1.gtxt_estate = .CSI := by decide +kernel
  have hcell : InConsole 14 0 := ⟨⟨by decide, by decide⟩, by decide, by decide⟩
  have hrow : (14 : Int) ≠ full.1.gtxt_cury := by decide +kernel
  have hdot : ((0, 0) : Int × Int) ∈ cellDots := by decide
  have haddress : cellAddress 14 0 (0, 0) = 26880 := by decide
  have hpixel := hfull.restore_erased hcsi hcell hrow hdot
  rw [haddress] at hpixel
  refine ⟨⟨by decide, by decide⟩, by decide +kernel, ?_⟩
  rw [hlast, hpixel]
  decide +kernel

end DiscoBsd.Console
