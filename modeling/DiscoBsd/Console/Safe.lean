import DiscoBsd.Console.Putc
import DiscoBsd.Lib.Steps

/-!
# The console stays on its screen

`Safe` says where the cursor and the indices of the parsers are, and `Effect.Inside` that an effect
stays in the console's rows and in the arrays. `console_safe` shows that this holds in every state of a
run all of whose bytes are `Allowed`.
-/

namespace DiscoBsd.Console

open Lib

variable {font : Font} {gfx : Bool} {s : State} {P : State → Prop}

/-- A pixel of the console's rows: it is in column `a % 240` of row `a / 240`. -/
def OnConsole (a : Int) : Prop := 0 ≤ a ∧ a < GTXT_CONS_H * GTXT_SCREEN_W

/-- An effect writes pixels of the console only, or uses an entry of an array. -/
def Effect.Inside : Effect → Prop
  | dots ds => ∀ dot ∈ ds, OnConsole dot.1
  | copy dst _ n => ∀ a, dst ≤ a → a < dst + n → OnConsole a
  | fill dst n _ => ∀ a, dst ≤ a → a < dst + n → OnConsole a
  | invert addresses => ∀ a ∈ addresses, OnConsole a
  | gtxt_parm i => 0 ≤ i ∧ i < GTXT_MAXPARM
  | six_parm i => 0 ≤ i ∧ i < SIX_NPARM

/-- The range of an `int`. -/
def IsInt (n : Int) : Prop := -2147483648 ≤ n ∧ n < 2147483648

structure Safe (s : State) : Prop where
  curx_nonneg : 0 ≤ s.gtxt_curx
  curx_le : s.gtxt_curx ≤ GTXT_COLS
  cury_nonneg : 0 ≤ s.gtxt_cury
  cury_le : s.gtxt_cury ≤ GTXT_BOTTOM
  nparm_nonneg : 0 ≤ s.gtxt_nparm
  nparm_lt : s.gtxt_nparm < GTXT_MAXPARM
  np_nonneg : 0 ≤ s.six.np
  np_le : s.six.np ≤ SIX_NPARM
  x0_nonneg : 0 ≤ s.six.x0
  parm_int : ∀ i, IsInt (s.gtxt_parm i)

/-! ## Numbers -/

theorem isInt_int (n : Int) : IsInt (int n) := by
  rw [IsInt, int]
  omega

theorem int_of_isInt {n : Int} (h : IsInt n) : int n = n := by
  rw [IsInt] at h
  rw [int, Int.emod_eq_of_lt (by omega) (by omega)]
  omega

theorem isInt_update {f : Int → Int} (h : ∀ i, IsInt (f i)) (k : Int) {v : Int} (hv : IsInt v) (i : Int) :
    IsInt (Function.update f k v i) := by
  by_cases hi : i = k
  · rw [hi, Function.update_self]
    exact hv
  · rw [Function.update_of_ne hi]
    exact h i

theorem mem_interval {first last n : Int} : n ∈ interval first last ↔ first ≤ n ∧ n ≤ last := by
  rw [interval, List.mem_map]
  constructor
  · rintro ⟨i, hi, rfl⟩
    rw [List.mem_range] at hi
    omega
  · rintro ⟨hlow, hhigh⟩
    exact ⟨(n - first).toNat, List.mem_range.mpr (by omega), by omega⟩

theorem mem_cellDots {dot : Int × Int} :
    dot ∈ cellDots ↔ (0 ≤ dot.1 ∧ dot.1 ≤ 7) ∧ 0 ≤ dot.2 ∧ dot.2 ≤ 5 := by
  obtain ⟨r, k⟩ := dot
  rw [cellDots, List.mem_product, mem_interval, mem_interval]
  exact Iff.rfl

/-- The pixels of a cell of the console are the console's. The column behind the last one has pixels of
the line below, which only the bottom row does not have. -/
theorem onConsole_cell {row col : Int} {dot : Int × Int} (hdot : dot ∈ cellDots)
    (hrow : 0 ≤ row ∧ row ≤ GTXT_BOTTOM) (hcol : 0 ≤ col ∧ col ≤ GTXT_COLS)
    (hlast : ¬ (col = GTXT_COLS ∧ row = GTXT_BOTTOM)) : OnConsole (cellAddress row col dot) := by
  rw [mem_cellDots] at hdot
  have hbottom : GTXT_BOTTOM = 14 := rfl
  have hcols : GTXT_COLS = 40 := rfl
  have hcons : GTXT_CONS_H * GTXT_SCREEN_W = 28800 := rfl
  have hpixels : GTXT_ROW_PIXELS = 1920 := rfl
  rw [OnConsole, cellAddress, hcons, hpixels]
  simp only [GTXT_CHAR_W, GTXT_SCREEN_W]
  omega

/-! ## Drawing -/

/-- A property that the backing store and the palette have no part in. -/
def Blind (P : State → Prop) : Prop :=
  ∀ s cells pal, P s → P { s with gtxt_cells := cells, gtxt_pal := pal }

theorem Safe.blind : Blind Safe := fun _ _ _ h =>
  ⟨h.1, h.2, h.3, h.4, h.5, h.6, h.7, h.8, h.9, h.10⟩

theorem cell_blank_gives (hP : Blind P) (row col : Int) :
    Emit.Gives P (gtxt_cell_blank row col) P Effect.Inside :=
  Emit.Gives.change fun _ hs => hP _ _ _ hs

theorem shift_gives (hP : Blind P) (gfx : Bool) :
    Emit.Gives P (gtxt_shift gfx) P Effect.Inside := by
  refine Emit.Gives.andThen (Q := P) (Emit.Gives.change fun s hs => hP s _ s.gtxt_pal hs) ?_
  refine Emit.Gives.andThen (Emit.Gives.each fun col _ => cell_blank_gives hP _ col) ?_
  intro s hs
  cases gfx with
  | true => exact ⟨hs, fun _ hmem => absurd hmem List.not_mem_nil⟩
  | false =>
      refine ⟨hs, fun effect hmem => ?_⟩
      have hcopy : (dmaUnits ((GTXT_BOTTOM + 1 - 1) * GTXT_ROW_PIXELS).toNat : Int) = 26880 := rfl
      have hfill : (dmaUnits GTXT_ROW_PIXELS.toNat : Int) = 1920 := rfl
      have hstart : (GTXT_BOTTOM + 1 - 1) * GTXT_ROW_PIXELS = 26880 := rfl
      have hcons : GTXT_CONS_H * GTXT_SCREEN_W = 28800 := rfl
      rcases List.mem_cons.mp hmem with rfl | hmem
      · intro a hlow hhigh
        rw [hcopy] at hhigh
        rw [OnConsole, hcons]
        omega
      · rw [List.mem_singleton.mp hmem]
        intro a hlow hhigh
        rw [hfill, hstart] at hhigh
        rw [hstart] at hlow
        rw [OnConsole, hcons]
        omega

theorem draw_cell_gives (hP : Blind P) {c : UInt8} {row col : Int} {fg bg : UInt16}
    (h : gfx = false → ∀ dot ∈ cellDots, OnConsole (cellAddress row col dot)) :
    Emit.Gives P (gtxt_draw_cell font gfx c col row fg bg) P Effect.Inside := by
  intro s hs
  constructor
  · rw [gtxt_draw_cell]
    dsimp only
    split
    · exact hP s _ _ hs
    · exact hs
  · cases gfx with
    | true => exact fun _ hmem => absurd hmem List.not_mem_nil
    | false =>
        intro effect hmem
        rw [List.mem_singleton.mp hmem]
        intro dot hdot
        obtain ⟨rk, hrk, rfl⟩ := List.mem_map.mp hdot
        exact h rfl rk hrk

theorem clear_span_gives (hP : Blind P) {row c0 c1 : Int}
    (h : gfx = false → ∀ c, c0 ≤ c → c ≤ c1 → ∀ dot ∈ cellDots, OnConsole (cellAddress row c dot)) :
    Emit.Gives P (gtxt_clear_span font gfx row c0 c1) P Effect.Inside := by
  refine Emit.Gives.each fun c hc => ?_
  rw [mem_interval] at hc
  intro s hs
  exact draw_cell_gives hP (fun hgfx => h hgfx c hc.1 hc.2) s hs

theorem cursor_gives (hP : ∀ s on, P s → P { s with gtxt_cursor_on := on }) (hsafe : ∀ s, P s → Safe s)
    (on : Bool) : Emit.Gives P (gtxt_cursor gfx on) P Effect.Inside := by
  intro s hs
  have hcurx := (hsafe s hs).curx_nonneg
  have hcury := (hsafe s hs).cury_nonneg
  have hbottom := (hsafe s hs).cury_le
  rw [gtxt_cursor]
  cases gfx with
  | true => exact ⟨hs, fun _ hmem => absurd hmem List.not_mem_nil⟩
  | false =>
      dsimp only
      rw [if_neg Bool.false_ne_true]
      by_cases hshown : (s.cursorAt on).1 = s.gtxt_cursor_on
      · rw [if_pos hshown]
        exact ⟨hs, fun _ hmem => absurd hmem List.not_mem_nil⟩
      · rw [if_neg hshown]
        refine ⟨hP s _ hs, fun effect hmem => ?_⟩
        rw [List.mem_singleton.mp hmem]
        intro a ha
        obtain ⟨dot, hdot, rfl⟩ := List.mem_map.mp ha
        have hcell : (0 ≤ (s.cursorAt on).2.1 ∧ (s.cursorAt on).2.1 ≤ GTXT_BOTTOM) ∧
            0 ≤ (s.cursorAt on).2.2 ∧ (s.cursorAt on).2.2 < GTXT_COLS := by
          have hcols : GTXT_COLS = 40 := rfl
          rw [State.cursorAt]
          split
          · split
            · dsimp only
              omega
            · dsimp only
              omega
          · dsimp only
            omega
        exact onConsole_cell hdot hcell.1 ⟨hcell.2.1, Int.le_of_lt hcell.2.2⟩
          fun h => absurd h.1 (Int.ne_of_lt hcell.2.2)

/-- Safe, and no wrap is due. -/
def Room (s : State) : Prop := Safe s ∧ s.gtxt_curx < GTXT_COLS

theorem Room.blind : Blind Room := fun s cells pal h => ⟨Safe.blind s cells pal h.1, h.2⟩

theorem Safe.home (h : Safe s) : Room { s with gtxt_curx := 0 } :=
  ⟨{ h with curx_nonneg := Int.le_refl 0, curx_le := (by decide : (0 : Int) ≤ GTXT_COLS) },
    (by decide : (0 : Int) < GTXT_COLS)⟩

theorem linefeed_gives (gfx : Bool) : Emit.Gives Room (gtxt_linefeed gfx) Room Effect.Inside := by
  intro s hs
  rw [gtxt_linefeed]
  by_cases hlast : s.gtxt_cury < GTXT_BOTTOM
  · rw [if_pos hlast]
    exact ⟨⟨{ hs.1 with cury_nonneg := Int.le_add_one hs.1.cury_nonneg, cury_le := hlast }, hs.2⟩,
      fun _ hmem => absurd hmem List.not_mem_nil⟩
  · rw [if_neg hlast]
    exact shift_gives Room.blind gfx s hs

theorem wrapLine_gives : Emit.Gives Safe (wrapLine gfx) Room Effect.Inside := by
  intro s hs
  rw [wrapLine]
  by_cases hcol : s.gtxt_curx ≥ GTXT_COLS
  · rw [if_pos hcol]
    exact linefeed_gives gfx _ hs.home
  · rw [if_neg hcol]
    exact ⟨⟨hs, Int.not_le.mp hcol⟩, fun _ hmem => absurd hmem List.not_mem_nil⟩

theorem drawGlyph_gives (c : UInt8) : Emit.Gives Room (drawGlyph font gfx c) Room Effect.Inside := by
  intro s hs
  refine draw_cell_gives Room.blind (fun _ dot hdot => ?_) s hs
  exact onConsole_cell hdot ⟨hs.1.cury_nonneg, hs.1.cury_le⟩ ⟨hs.1.curx_nonneg, hs.1.curx_le⟩
    fun h => absurd h.1 (Int.ne_of_lt hs.2)

theorem putGlyph_gives (c : UInt8) : Emit.Gives Safe (putGlyph font gfx c) Safe Effect.Inside := by
  refine wrapLine_gives.andThen ((drawGlyph_gives c).andThen (Emit.Gives.change fun t ht => ?_))
  exact { ht.1 with curx_nonneg := Int.le_add_one ht.1.curx_nonneg, curx_le := ht.2 }

theorem putText_gives (c : UInt8) : Emit.Gives Safe (putText font gfx c) Safe Effect.Inside := by
  intro s hs
  have hnone : ∀ effect ∈ ([] : List Effect), effect.Inside :=
    fun _ hmem => absurd hmem List.not_mem_nil
  rw [putText]
  split
  · exact ⟨hs, hnone⟩
  · split
    · exact ⟨hs.home.1, hnone⟩
    · split
      · obtain ⟨hroom, heffects⟩ := linefeed_gives gfx _ hs.home
        exact ⟨hroom.1, heffects⟩
      · split
        · by_cases hcol : s.gtxt_curx > 0
          · rw [if_pos hcol]
            have hle := hs.curx_le
            refine ⟨{ hs with curx_nonneg := ?_, curx_le := ?_ }, hnone⟩
            · exact Int.le_sub_one_of_lt hcol
            · exact (by omega : s.gtxt_curx - 1 ≤ GTXT_COLS)
          · rw [if_neg hcol]
            by_cases hrow : s.gtxt_cury > 0
            · rw [if_pos hrow]
              have hle := hs.cury_le
              refine ⟨{ hs with
                curx_nonneg := (by decide : (0 : Int) ≤ GTXT_COLS - 1)
                curx_le := (by decide : GTXT_COLS - 1 ≤ GTXT_COLS)
                cury_nonneg := Int.le_sub_one_of_lt hrow
                cury_le := ?_ }, hnone⟩
              exact (by omega : s.gtxt_cury - 1 ≤ GTXT_BOTTOM)
            · rw [if_neg hrow]
              exact ⟨hs, hnone⟩
        · exact putGlyph_gives c s hs

/-! ## CSI sequences -/

/-- A final byte keeps the cursor in the console: the count does not carry it beyond the end that the
byte does not clamp, and nothing is erased up to a column behind the last one of the bottom row. -/
structure CsiFits (gfx : Bool) (f : UInt8) (s : State) : Prop where
  up : f = 65 → s.gtxt_cury - s.count ≤ GTXT_BOTTOM ∨ s.gtxt_cury - s.count > 2147483647
  down : f = 66 → 0 ≤ s.gtxt_cury + s.count ∧ s.gtxt_cury + s.count ≤ 2147483647
  right : f = 67 → 0 ≤ s.gtxt_curx + s.count ∧ s.gtxt_curx + s.count ≤ 2147483647
  left : f = 68 → s.gtxt_curx - s.count ≤ GTXT_COLS ∨ s.gtxt_curx - s.count > 2147483647
  erase : f = 74 ∨ f = 75 → gfx = false → s.gtxt_parm 0 = 1 →
    ¬ (s.gtxt_curx = GTXT_COLS ∧ s.gtxt_cury = GTXT_BOTTOM)

theorem Safe.count_int (h : Safe s) : IsInt s.count := by
  rw [State.count]
  split
  · exact h.parm_int 0
  · exact ⟨by decide, by decide⟩

theorem moved_safe {f : UInt8} (hs : Safe s) (hfits : CsiFits gfx f s) : Safe (s.moved f) := by
  obtain ⟨hlow, hhigh⟩ := hs.count_int
  have hx := hs.curx_nonneg
  have hx' := hs.curx_le
  have hy := hs.cury_nonneg
  have hy' := hs.cury_le
  have hbottom : GTXT_BOTTOM = 14 := rfl
  have hcols : GTXT_COLS = 40 := rfl
  rw [hbottom] at hy'
  rw [hcols] at hx'
  unfold State.moved
  split
  · exact { hs with
      curx_nonneg := by dsimp only; omega
      curx_le := by dsimp only; omega
      cury_nonneg := by dsimp only; omega
      cury_le := by dsimp only; omega }
  · exact { hs with
      curx_nonneg := by dsimp only; omega
      curx_le := by dsimp only; omega
      cury_nonneg := by dsimp only; omega
      cury_le := by dsimp only; omega }
  · have hup := hfits.up rfl
    rw [hbottom] at hup
    exact { hs with
      cury_nonneg := by dsimp only; omega
      cury_le := by dsimp only [int]; omega }
  · have hdown := hfits.down rfl
    exact { hs with
      cury_nonneg := by dsimp only [int]; omega
      cury_le := by dsimp only; omega }
  · have hright := hfits.right rfl
    exact { hs with
      curx_nonneg := by dsimp only [int]; omega
      curx_le := by dsimp only; omega }
  · have hleft := hfits.left rfl
    rw [hcols] at hleft
    exact { hs with
      curx_nonneg := by dsimp only; omega
      curx_le := by dsimp only [int]; omega }
  · exact { hs with }
  · exact hs

theorem span_gives {row c0 c1 : Int} (hrow : 0 ≤ row ∧ row ≤ GTXT_BOTTOM) (hc0 : 0 ≤ c0)
    (hc1 : c1 ≤ GTXT_COLS) (hlast : gfx = false → ¬ (c1 = GTXT_COLS ∧ row = GTXT_BOTTOM)) :
    Emit.Gives Safe (gtxt_clear_span font gfx row c0 c1) Safe Effect.Inside := by
  refine clear_span_gives Safe.blind fun hgfx c hlow hhigh dot hdot => ?_
  refine onConsole_cell hdot hrow ⟨Int.le_trans hc0 hlow, Int.le_trans hhigh hc1⟩ fun h => ?_
  have hc : c1 = GTXT_COLS := by omega
  exact hlast hgfx ⟨hc, h.2⟩

theorem clearRow_gives {row : Int} (hrow : 0 ≤ row ∧ row ≤ GTXT_BOTTOM) :
    Emit.Gives Safe (clearRow font gfx row) Safe Effect.Inside :=
  span_gives hrow (Int.le_refl 0) (by decide) fun _ h => absurd h.1 (by decide)

theorem clearRows_gives {first last : Int} (hfirst : 0 ≤ first) (hlast : last ≤ GTXT_BOTTOM) :
    Emit.Gives Safe (Emit.each (clearRow font gfx) (interval first last)) Safe Effect.Inside := by
  refine Emit.Gives.each fun row hrow => ?_
  rw [mem_interval] at hrow
  exact clearRow_gives ⟨Int.le_trans hfirst hrow.1, Int.le_trans hrow.2 hlast⟩

theorem eraseLine_gives (hs : Safe s) (hfits : CsiFits gfx 75 s) :
    Safe (eraseLine font gfx s).1 ∧ ∀ effect ∈ (eraseLine font gfx s).2, effect.Inside := by
  have hrow := And.intro hs.cury_nonneg hs.cury_le
  rw [eraseLine]
  by_cases hone : s.gtxt_parm 0 = 1
  · rw [if_pos hone]
    exact span_gives hrow (Int.le_refl 0) hs.curx_le (fun hgfx => hfits.erase (.inr rfl) hgfx hone) s hs
  · rw [if_neg hone]
    by_cases htwo : s.gtxt_parm 0 = 2
    · rw [if_pos htwo]
      exact clearRow_gives hrow s hs
    · rw [if_neg htwo]
      exact span_gives hrow hs.curx_nonneg (by decide) (fun _ h => absurd h.1 (by decide)) s hs

theorem eraseDisplay_gives (hs : Safe s) (hfits : CsiFits gfx 74 s) :
    Safe (eraseDisplay font gfx s).1 ∧ ∀ effect ∈ (eraseDisplay font gfx s).2, effect.Inside := by
  have hrow := And.intro hs.cury_nonneg hs.cury_le
  rw [eraseDisplay]
  by_cases htwo : s.gtxt_parm 0 = 2
  · rw [if_pos htwo]
    exact clearRows_gives (Int.le_refl 0) (Int.le_refl _) s hs
  · rw [if_neg htwo]
    by_cases hone : s.gtxt_parm 0 = 1
    · rw [if_pos hone]
      refine (clearRows_gives (Int.le_refl 0) ?_).andThen
        (span_gives hrow (Int.le_refl 0) hs.curx_le fun hgfx => hfits.erase (.inl rfl) hgfx hone) s hs
      exact Int.le_trans (Int.sub_le_self _ (by decide)) hs.cury_le
    · rw [if_neg hone]
      exact (span_gives hrow hs.curx_nonneg (by decide) fun _ h => absurd h.1 (by decide)).andThen
        (clearRows_gives (Int.le_add_one hs.cury_nonneg) (Int.le_refl _)) s hs

theorem csi_gives (f : UInt8) :
    Emit.Gives (fun s => Safe s ∧ CsiFits gfx f s) (gtxt_csi font gfx f) Safe Effect.Inside := by
  refine Emit.Gives.andThen
    (cursor_gives (fun s on h => ⟨{ h.1 with }, { h.2 with }⟩) (fun s h => h.1) false) ?_
  by_cases hline : f = 75
  · subst hline
    rw [if_pos rfl]
    exact fun s hs => eraseLine_gives hs.1 hs.2
  · rw [if_neg hline]
    by_cases hdisplay : f = 74
    · subst hdisplay
      rw [if_pos rfl]
      exact fun s hs => eraseDisplay_gives hs.1 hs.2
    · rw [if_neg hdisplay]
      exact Emit.Gives.change fun s hs => moved_safe hs.1 hs.2

/-! ## Sixel images -/

/-- The count of the next sixel, once a pending command is acted on. -/
def Sixel.pending (six : Sixel) : Int :=
  if six.cmd = 33 then if six.parm 0 ≠ 0 then six.parm 0 else 1 else six.rep

/-- Where `n` columns of sixels may be drawn: not left of the screen, and at a row whose band does not
overflow. -/
structure Placed (gfx : Bool) (n : Int) (s : State) : Prop where
  safe : Safe s
  column : gfx = false → 0 < n → 0 ≤ int (s.six.x0 + s.six.x)
  row : gfx = false → int (s.six.y0 + s.six.y) ≤ 2147483641

theorem Safe.of_six (h : Safe s) {six : Sixel} (hnp : 0 ≤ six.np ∧ six.np ≤ SIX_NPARM)
    (hx0 : 0 ≤ six.x0) : Safe { s with six := six } :=
  { h with np_nonneg := hnp.1, np_le := hnp.2, x0_nonneg := hx0 }

theorem fit_rounds_gives (n y : Int) (fuel : Nat) :
    Emit.Gives
      (fun s => Placed gfx n s ∧ s.six.y = y ∧ int (s.six.y0 + y + 6) - GTXT_CONS_H ≤ fuel)
      (six_fit_rounds gfx y fuel)
      (fun s => Placed gfx n s ∧ (gfx = false → int (s.six.y0 + s.six.y) ≤ 114)) Effect.Inside := by
  have hcons : GTXT_CONS_H = 120 := rfl
  -- A band that does not overflow and ends in the console starts at row 114 or above.
  have hfits : ∀ s : State, s.six.y = y → Placed gfx n s → int (s.six.y0 + y + 6) ≤ GTXT_CONS_H →
      gfx = false → int (s.six.y0 + s.six.y) ≤ 114 := by
    intro s hy hs hle hgfx
    have hrow := hs.row hgfx
    rw [hy] at hrow ⊢
    rw [hcons] at hle
    simp only [int] at *
    omega
  induction fuel with
  | zero =>
      refine Emit.Gives.change fun s hs => ⟨hs.1, hfits s hs.2.1 hs.1 ?_⟩
      have hle := hs.2.2
      omega
  | succ fuel ih =>
      intro s hs
      rw [six_fit_rounds]
      dsimp only
      by_cases hbelow : int (s.six.y0 + y + 6) > GTXT_CONS_H
      · rw [if_pos hbelow]
        refine Emit.Gives.andThen
          (P := fun s => Placed gfx n s ∧ s.six.y = y ∧ int (s.six.y0 + y + 6) - GTXT_CONS_H ≤ fuel + 1 ∧
            int (s.six.y0 + y + 6) > GTXT_CONS_H)
          (shift_gives (fun s cells pal h =>
            ⟨⟨Safe.blind s cells pal h.1.1, h.1.2, h.1.3⟩, h.2⟩) gfx)
          (Emit.Gives.andThen (Emit.Gives.change ?_) ih) s
          ⟨hs.1, hs.2.1, by exact_mod_cast hs.2.2, hbelow⟩
        rintro t ⟨hplaced, hy, hfuel, hrow⟩
        refine ⟨⟨hplaced.safe.of_six ⟨hplaced.safe.np_nonneg, hplaced.safe.np_le⟩
          hplaced.safe.x0_nonneg, hplaced.column, fun hgfx => ?_⟩, hy, ?_⟩
        · have hold := hplaced.row hgfx
          rw [hcons] at hrow
          rw [hy] at hold ⊢
          simp only [int, GTXT_CHAR_H] at *
          omega
        · rw [hcons] at *
          simp only [int, GTXT_CHAR_H] at *
          omega
      · rw [if_neg hbelow]
        exact ⟨⟨hs.1, hfits s hs.2.1 hs.1 (Int.not_lt.mp hbelow)⟩,
          fun _ hmem => absurd hmem List.not_mem_nil⟩

theorem fit_gives (n y : Int) :
    Emit.Gives (fun s => Placed gfx n s ∧ s.six.y = y) (six_fit gfx y)
      (fun s => Placed gfx n s ∧ (gfx = false → int (s.six.y0 + s.six.y) ≤ 114)) Effect.Inside :=
  fun s hs => fit_rounds_gives n y _ s ⟨hs.1, hs.2, Int.self_le_toNat _⟩

theorem columnDots_inside {v px : Int} (hrow : int (s.six.y0 + s.six.y) ≤ 114)
    (hpx : 0 ≤ px ∧ px < GTXT_SCREEN_W) : ∀ dot ∈ s.columnDots v px, OnConsole dot.1 := by
  intro dot hdot
  obtain ⟨b, hb, rfl⟩ := List.mem_map.mp hdot
  rw [List.mem_filter, mem_interval, decide_eq_true_eq] at hb
  obtain ⟨hbits, -, hnonneg⟩ := hb
  have hint := isInt_int (s.six.y0 + s.six.y)
  have hwidth : GTXT_SCREEN_W = 240 := rfl
  have hcons : GTXT_CONS_H * GTXT_SCREEN_W = 28800 := rfl
  rw [OnConsole, hcons]
  rw [hwidth] at hpx ⊢
  generalize int (s.six.y0 + s.six.y) = row at *
  simp only [int, IsInt] at hnonneg hint
  dsimp only
  omega

/-- Drawing the columns moves on in the image only. -/
theorem put_rounds_state (v : Int) (fuel : Nat) (n : Int) (s : State) :
    ∃ x, (six_put_rounds v fuel n s).2.1 = { s with six := { s.six with x := x } } := by
  induction fuel generalizing n s with
  | zero => exact ⟨s.six.x, rfl⟩
  | succ fuel ih =>
      rw [six_put_rounds]
      split
      · exact ih _ _
      · exact ⟨s.six.x, rfl⟩

theorem put_rounds_inside {v : Int} {fuel : Nat} {n : Int} {s : State} (hx0 : 0 ≤ s.six.x0)
    (hrow : int (s.six.y0 + s.six.y) ≤ 114) (hcol : 0 < n → 0 ≤ int (s.six.x0 + s.six.x)) :
    ∀ effect ∈ (six_put_rounds v fuel n s).2.2, effect.Inside := by
  induction fuel generalizing n s with
  | zero => exact fun _ hmem => absurd hmem List.not_mem_nil
  | succ fuel ih =>
      rw [six_put_rounds]
      by_cases hmore : n > 0 ∧ int (s.six.x0 + s.six.x) < GTXT_SCREEN_W
      · rw [if_pos hmore]
        intro effect hmem
        rcases List.mem_cons.mp hmem with rfl | hmem
        · exact columnDots_inside hrow ⟨hcol hmore.1, hmore.2⟩
        · refine ih (s := { s with six.x := int (s.six.x + 1) }) hx0 hrow (fun _ => ?_) effect hmem
          have hlow := hcol hmore.1
          have hhigh := hmore.2
          simp only [int, GTXT_SCREEN_W] at *
          omega
      · rw [if_neg hmore]
        exact fun _ hmem => absurd hmem List.not_mem_nil

theorem put_gives (v n : Int) :
    Emit.Gives (fun s => Safe s ∧ (v ≠ 0 → Placed gfx n s)) (six_put gfx v n) Safe Effect.Inside := by
  intro s hs
  rw [six_put]
  by_cases hv : v = 0
  · rw [if_pos hv]
    exact ⟨hs.1.of_six ⟨hs.1.np_nonneg, hs.1.np_le⟩ hs.1.x0_nonneg,
      fun _ hmem => absurd hmem List.not_mem_nil⟩
  · rw [if_neg hv]
    refine (fit_gives n s.six.y).andThen (fun t ht => ?_) s ⟨hs.2 hv, rfl⟩
    obtain ⟨hplaced, hrow⟩ := ht
    have hsafe := hplaced.safe
    rw [putColumns]
    have hextend : ∀ six : Sixel, six.extend = { six with h := six.extend.h } := by
      intro six
      rw [Sixel.extend]
      split <;> rfl
    cases gfx with
    | true =>
        rw [if_pos rfl, hextend]
        exact ⟨hsafe.of_six ⟨hsafe.np_nonneg, hsafe.np_le⟩ hsafe.x0_nonneg,
          fun _ hmem => absurd hmem List.not_mem_nil⟩
    | false =>
        rw [if_neg Bool.false_ne_true, hextend]
        dsimp only
        constructor
        · obtain ⟨x, hx⟩ := put_rounds_state v n.toNat n
            { t with six := { t.six with h := t.six.extend.h } }
          rw [hx]
          exact hsafe.of_six ⟨hsafe.np_nonneg, hsafe.np_le⟩ hsafe.x0_nonneg
        · exact put_rounds_inside (s := { t with six := { t.six with h := t.six.extend.h } })
            hsafe.x0_nonneg (hrow rfl) (hplaced.column rfl)

theorem clear_gives {w h : Int} (hP : ∀ s, P s → 0 ≤ s.six.x0) :
    Emit.Gives P (six_clear gfx w h) P Effect.Inside := by
  intro s hs
  refine ⟨hs, ?_⟩
  have hx0 := hP s hs
  rw [six_clear]
  cases gfx with
  | true => exact fun _ hmem => absurd hmem List.not_mem_nil
  | false =>
      intro effect hmem
      rw [List.mem_singleton.mp hmem]
      intro dot hdot
      obtain ⟨y, -, hrow⟩ := List.mem_flatMap.mp hdot
      rw [State.clearDots] at hrow
      split at hrow
      · exact absurd hrow List.not_mem_nil
      · rename_i hpy
        obtain ⟨px, hpx, rfl⟩ := List.mem_map.mp hrow
        rw [mem_interval] at hpx
        have hwidth : GTXT_SCREEN_W = 240 := rfl
        have hcons : GTXT_CONS_H = 120 := rfl
        rw [hcons] at hpy
        rw [hwidth] at hpx
        rw [OnConsole, hcons, hwidth]
        dsimp only
        omega

/-- Acting on a command makes the pending count the count. -/
theorem cmd_end_gives (gfx : Bool) (Draws : Prop) :
    Emit.Gives (fun s => Safe s ∧ (Draws → Placed gfx s.six.pending s)) (six_cmd_end gfx)
      (fun s => Safe s ∧ (Draws → Placed gfx s.six.rep s)) Effect.Inside := by
  intro s hs
  obtain ⟨hsafe, hplaced⟩ := hs
  have hnone : ∀ effect ∈ ([] : List Effect), effect.Inside :=
    fun _ hmem => absurd hmem List.not_mem_nil
  rw [six_cmd_end]
  rw [Sixel.pending] at hplaced
  by_cases hcolor : s.six.cmd = 35
  · rw [if_pos hcolor]
    rw [if_neg (by rw [hcolor]; decide)] at hplaced
    exact ⟨⟨{ hsafe with }, fun h => ⟨{ hsafe with }, (hplaced h).2, (hplaced h).3⟩⟩, hnone⟩
  · rw [if_neg hcolor]
    by_cases hrepeat : s.six.cmd = 33
    · rw [if_pos hrepeat]
      rw [if_pos hrepeat] at hplaced
      exact ⟨⟨{ hsafe with }, fun h => ⟨{ hsafe with }, (hplaced h).2, (hplaced h).3⟩⟩, hnone⟩
    · rw [if_neg hrepeat]
      rw [if_neg hrepeat] at hplaced
      split
      · refine Emit.Gives.andThen (P := fun s => Safe s ∧ (Draws → Placed gfx s.six.rep s))
          (R := fun s => Safe s ∧ (Draws → Placed gfx s.six.rep s))
          (clear_gives fun t ht => ht.1.x0_nonneg) (Emit.Gives.change fun t ht => ?_) s ⟨hsafe, hplaced⟩
        exact ⟨{ ht.1 with }, fun h => ⟨{ ht.1 with }, (ht.2 h).2, (ht.2 h).3⟩⟩
      · exact ⟨⟨{ hsafe with }, fun h => ⟨{ hsafe with }, (hplaced h).2, (hplaced h).3⟩⟩, hnone⟩

/-- A byte of sixel data draws at a place where it may. -/
def SixFits (gfx : Bool) (c : UInt8) (s : State) : Prop :=
  64 ≤ c ∧ c ≤ 126 → gfx = false →
    (0 < s.six.pending → 0 ≤ int (s.six.x0 + s.six.x)) ∧ int (s.six.y0 + s.six.y) ≤ 2147483641

theorem SixFits.placed {c : UInt8} (h : SixFits gfx c s) (hs : Safe s) (hc : 64 ≤ c ∧ c ≤ 126) :
    Placed gfx s.six.pending s :=
  ⟨hs, fun hgfx => (h hc hgfx).1, fun hgfx => (h hc hgfx).2⟩

theorem data_gives (c : UInt8) :
    Emit.Gives (fun s => Safe s ∧ (64 ≤ c ∧ c ≤ 126 → Placed gfx s.six.rep s)) (six_data gfx c) Safe
      Effect.Inside := by
  intro s hs
  have hnone : ∀ effect ∈ ([] : List Effect), effect.Inside :=
    fun _ hmem => absurd hmem List.not_mem_nil
  obtain ⟨hsafe, hplaced⟩ := hs
  rw [six_data]
  split
  · rename_i hc
    refine (put_gives (c.toNat - 63) s.six.rep).andThen (Emit.Gives.change fun t ht => ?_) s
      ⟨hsafe, fun hv => ?_⟩
    · exact { ht with }
    · have hlow := UInt8.le_iff_toNat_le.mp hc.1
      have hlow' : (63 : UInt8).toNat = 63 := rfl
      have hne : (64 : UInt8).toNat = 64 := rfl
      exact hplaced ⟨UInt8.le_iff_toNat_le.mpr (by omega), hc.2⟩
  · split
    · exact ⟨{ hsafe with np_nonneg := Int.le_refl 0, np_le := (by decide : (0 : Int) ≤ SIX_NPARM) },
        hnone⟩
    · split
      · exact ⟨{ hsafe with }, hnone⟩
      · split
        · exact ⟨{ hsafe with }, hnone⟩
        · exact ⟨hsafe, hnone⟩

theorem six_digit_gives (c : UInt8) : Emit.Gives Safe (six_digit c) Safe Effect.Inside := by
  intro s hs
  have hnp : 1 ≤ (if s.six.np = 0 then 1 else s.six.np) := by
    have hlow := hs.np_nonneg
    split <;> omega
  have hle : (if s.six.np = 0 then 1 else s.six.np) ≤ SIX_NPARM := by
    have hhigh := hs.np_le
    split
    · decide
    · exact hhigh
  rw [six_digit]
  dsimp only
  rw [if_pos hle]
  refine ⟨{ hs with np_nonneg := Int.le_trans (by decide) hnp, np_le := hle }, fun effect hmem => ?_⟩
  rw [List.mem_singleton.mp hmem]
  exact ⟨by omega, by omega⟩

theorem six_next_gives : Emit.Gives Safe six_next Safe Effect.Inside := by
  intro s hs
  have hnp : 1 ≤ (if s.six.np = 0 then 1 else s.six.np) := by
    have hlow := hs.np_nonneg
    split <;> omega
  have hle : (if s.six.np = 0 then 1 else s.six.np) ≤ SIX_NPARM := by
    have hhigh := hs.np_le
    split
    · decide
    · exact hhigh
  rw [six_next]
  dsimp only
  generalize (if s.six.np = 0 then 1 else s.six.np) = np at *
  by_cases hlt : np < SIX_NPARM
  · rw [if_pos hlt]
    refine ⟨{ hs with np_nonneg := (by omega : 0 ≤ np + 1), np_le := hlt }, fun effect hmem => ?_⟩
    rw [List.mem_singleton.mp hmem]
    exact ⟨by omega, hlt⟩
  · rw [if_neg hlt]
    refine ⟨{ hs with np_nonneg := (by omega : 0 ≤ np), np_le := ?_ },
      fun _ hmem => absurd hmem List.not_mem_nil⟩
    exact hle

theorem six_feed_gives (c : UInt8) :
    Emit.Gives (fun s => Safe s ∧ SixFits gfx c s) (six_feed gfx c) Safe Effect.Inside := by
  intro s hs
  obtain ⟨hsafe, hfits⟩ := hs
  rw [six_feed]
  by_cases hcmd : s.six.cmd = 0
  · rw [if_neg (not_not.mpr hcmd)]
    have hpending : s.six.pending = s.six.rep := by
      rw [Sixel.pending, if_neg (by rw [hcmd]; decide)]
    exact data_gives c s ⟨hsafe, fun hc => hpending ▸ hfits.placed hsafe hc⟩
  · rw [if_pos hcmd]
    split
    · exact six_digit_gives c s hsafe
    · split
      · exact six_next_gives s hsafe
      · exact (cmd_end_gives gfx _).andThen (data_gives c) s ⟨hsafe, hfits.placed hsafe⟩

theorem begin_gives : Emit.Gives Safe (six_begin gfx) Safe Effect.Inside := by
  refine Emit.Gives.andThen (cursor_gives (fun s on h => { h with }) (fun _ h => h) false) ?_
  refine wrapLine_gives.andThen (Emit.Gives.change fun s hs => ?_)
  have hlow := hs.1.curx_nonneg
  have hhigh := hs.1.curx_le
  have hcols : GTXT_COLS = 40 := rfl
  rw [hcols] at hhigh
  have hint : int (s.gtxt_curx * GTXT_CHAR_W) = s.gtxt_curx * GTXT_CHAR_W := by
    refine int_of_isInt ?_
    simp only [IsInt, GTXT_CHAR_W]
    omega
  refine { hs.1 with x0_nonneg := ?_ }
  rw [State.startImage]
  dsimp only
  rw [hint, GTXT_CHAR_W]
  omega

theorem end_gives : Emit.Gives Safe (six_end gfx) Safe Effect.Inside := by
  intro s hs
  rw [six_end]
  refine Emit.Gives.andThen (P := Safe) (Q := Safe) (R := Safe) ?_ (Emit.Gives.change fun t ht => ?_) s hs
  · split
    · exact (cmd_end_gives gfx False).mono (fun t ht => ⟨ht, False.elim⟩) fun t ht => ht.1
    · exact Emit.Gives.change fun _ ht => ht
  · rw [State.endImage]
    split
    · exact ht
    · refine { ht.home.1 with cury_nonneg := ?_, cury_le := ?_ }
      · have hbottom : (0 : Int) ≤ GTXT_BOTTOM := by decide
        dsimp only
        split <;> split <;> omega
      · dsimp only
        split <;> omega

/-! ## Whole streams -/

/-- A byte that the console's state lets it take. -/
structure Allowed (gfx : Bool) (c : UInt8) (s : State) : Prop where
  csi : s.gtxt_estate = .CSI → CsiFits gfx c s
  six : s.gtxt_estate = .SIXEL → SixFits gfx c s

theorem goto_gives (estate : Estate) : Emit.Gives Safe (goto estate) Safe Effect.Inside :=
  Emit.Gives.change fun _ hs => { hs with }

theorem feedParm_gives (c : UInt8) :
    Emit.Gives (fun s => Safe s ∧ (s.gtxt_estate ≠ .DCS → CsiFits gfx c s)) (feedParm font gfx c) Safe
      Effect.Inside := by
  intro s hs
  obtain ⟨hsafe, hfits⟩ := hs
  have hnone : ∀ effect ∈ ([] : List Effect), effect.Inside :=
    fun _ hmem => absurd hmem List.not_mem_nil
  rw [feedParm]
  split
  · rw [parmDigit, if_pos hsafe.nparm_lt]
    refine ⟨{ hsafe with parm_int := isInt_update hsafe.parm_int _ (isInt_int _) },
      fun effect hmem => ?_⟩
    rw [List.mem_singleton.mp hmem]
    exact ⟨hsafe.nparm_nonneg, hsafe.nparm_lt⟩
  · split
    · rw [parmNext]
      split
      · rename_i hroom
        exact ⟨{ hsafe with
          nparm_nonneg := Int.le_add_one hsafe.nparm_nonneg
          nparm_lt := Int.add_lt_of_lt_sub_right hroom }, hnone⟩
      · exact ⟨hsafe, hnone⟩
    · by_cases hdcs : s.gtxt_estate = .DCS
      · rw [if_pos hdcs]
        split
        · exact begin_gives.andThen (goto_gives .SIXEL) s hsafe
        · split
          · exact goto_gives .STR s hsafe
          · exact ⟨hsafe, hnone⟩
      · rw [if_neg hdcs]
        split
        · exact (csi_gives c).andThen (goto_gives .TEXT) s ⟨hsafe, hfits hdcs⟩
        · exact goto_gives .TEXT s hsafe

theorem feedEsc_gives (c : UInt8) : Emit.Gives Safe (feedEsc c) Safe Effect.Inside := by
  intro s hs
  rw [feedEsc]
  split
  · exact ⟨{ hs with
      nparm_nonneg := Int.le_refl 0
      nparm_lt := (by decide : (0 : Int) < GTXT_MAXPARM)
      parm_int := fun _ => (⟨by decide, by decide⟩ : IsInt 0) },
      fun _ hmem => absurd hmem List.not_mem_nil⟩
  · exact goto_gives .TEXT s hs

/-- One byte keeps the console on its screen. -/
theorem putc_gives (font : Font) (c : UInt8) :
    Emit.Gives (fun s => Safe s ∧ Allowed gfx c s) (gtxt_putc font gfx c) Safe Effect.Inside := by
  intro s hs
  obtain ⟨hsafe, hallowed⟩ := hs
  rw [gtxt_putc]
  by_cases htext : s.gtxt_estate = .TEXT
  · rw [if_neg (not_not.mpr htext)]
    split
    · exact goto_gives .ESC s hsafe
    · exact Emit.Gives.andThen (cursor_gives (fun s on h => { h with }) (fun _ h => h) false)
        (putText_gives c) s hsafe
  · rw [if_pos htext, gtxt_esc_feed]
    have hnone : ∀ effect ∈ ([] : List Effect), effect.Inside :=
      fun _ hmem => absurd hmem List.not_mem_nil
    cases hestate : s.gtxt_estate with
    | TEXT => exact absurd hestate htext
    | ESC => exact feedEsc_gives c s hsafe
    | CSI => exact feedParm_gives c s ⟨hsafe, fun _ => hallowed.csi hestate⟩
    | DCS => exact feedParm_gives c s ⟨hsafe, fun hne => absurd hestate hne⟩
    | SIXEL =>
        dsimp only
        split
        · exact end_gives.andThen (goto_gives .ST) s hsafe
        · exact six_feed_gives c s ⟨hsafe, hallowed.six hestate⟩
    | STR =>
        dsimp only
        split
        · exact goto_gives .ST s hsafe
        · exact ⟨hsafe, hnone⟩
    | ST => exact goto_gives .TEXT s hsafe

/-- The console before `gtxt_init`, with what is in the memory of the cells and of the palette. -/
def boot (cells : Int → Nat) (SIX_PAL : Int → UInt16) : State where
  gtxt_fg := 0
  gtxt_bg := 0
  gtxt_fg_normal := 0
  gtxt_estate := .TEXT
  gtxt_parm _ := 0
  gtxt_nparm := 0
  gtxt_reverse := false
  gtxt_curx := 0
  gtxt_cury := 0
  gtxt_cursor_on := false
  gtxt_cells := cells
  gtxt_pal := []
  six := ⟨0, 0, 0, 0, 0, 0, 0, 0, 0, 0, fun _ => 0, false⟩
  SIX_PAL := SIX_PAL

/-- Clearing the screen changes the backing store, the palette and the cursor. -/
theorem cls_state (gfx : Bool) (s : State) :
    ∃ cells pal, (gtxt_cls gfx s).1 =
      { s with
        gtxt_cells := cells
        gtxt_pal := pal
        gtxt_curx := 0
        gtxt_cury := GTXT_BOTTOM
        gtxt_cursor_on := false } := by
  have hcells : ∀ (places : List (Int × Int)) (s : State), ∃ cells pal,
      (Emit.each (fun cell => gtxt_cell_blank cell.1 cell.2) places s).1 =
        { s with gtxt_cells := cells, gtxt_pal := pal } := by
    intro places
    induction places with
    | nil => exact fun s => ⟨s.gtxt_cells, s.gtxt_pal, rfl⟩
    | cons place places ih => exact fun s => ih _
  obtain ⟨cells, pal, hblank⟩ := hcells screenCells s
  refine ⟨cells, pal, ?_⟩
  rw [gtxt_cls, Emit.andThen, hblank]

/-- The console as `gtxt_init` leaves it, and nothing drawn yet. -/
def console (cells : Int → Nat) (SIX_PAL : Int → UInt16) (fg bg : UInt16) : State × List Effect :=
  ((gtxt_init false fg bg (boot cells SIX_PAL)).1, [])

/-- The console as `gtxt_init` leaves it but for cells and palette. -/
def blank (fg bg : UInt16) (cells : Int → Nat) (pal : List UInt16) (SIX_PAL : Int → UInt16) : State :=
  { boot cells SIX_PAL with
    gtxt_fg := fg
    gtxt_bg := bg
    gtxt_fg_normal := fg
    gtxt_pal := pal
    gtxt_cury := GTXT_BOTTOM }

theorem console_state (cells : Int → Nat) (SIX_PAL : Int → UInt16) (fg bg : UInt16) :
    ∃ cells' pal, (console cells SIX_PAL fg bg).1 = blank fg bg cells' pal SIX_PAL := by
  obtain ⟨cells', pal, hcls⟩ := cls_state false
    { boot cells SIX_PAL with gtxt_fg := fg, gtxt_bg := bg, gtxt_fg_normal := fg }
  refine ⟨cells', pal, ?_⟩
  rw [console]
  dsimp only [gtxt_init, Emit.andThen, Emit.change]
  rw [hcls]
  rfl

theorem blank_safe (fg bg : UInt16) (cells : Int → Nat) (pal : List UInt16) (SIX_PAL : Int → UInt16) :
    Safe (blank fg bg cells pal SIX_PAL) where
  curx_nonneg := Int.le_refl 0
  curx_le := (by decide : (0 : Int) ≤ GTXT_COLS)
  cury_nonneg := (by decide : (0 : Int) ≤ GTXT_BOTTOM)
  cury_le := Int.le_refl _
  nparm_nonneg := Int.le_refl 0
  nparm_lt := (by decide : (0 : Int) < GTXT_MAXPARM)
  np_nonneg := Int.le_refl 0
  np_le := (by decide : (0 : Int) ≤ SIX_NPARM)
  x0_nonneg := Int.le_refl 0
  parm_int _ := (⟨by decide, by decide⟩ : IsInt 0)

/-- A byte is given to `gtxt_putc` while the panel is active or not. -/
def Putc (font : Font) (s : State × List Effect) (event : Bool × UInt8) (s' : State × List Effect) :
    Prop :=
  s' =
    ((gtxt_putc font event.1 event.2 s.1).1, s.2 ++ (gtxt_putc font event.1 event.2 s.1).2)

/-- A byte that the console's state lets it take is given to `gtxt_putc`. -/
def AllowedPutc (font : Font) (s : State × List Effect) (event : Bool × UInt8)
    (s' : State × List Effect) : Prop :=
  Allowed event.1 event.2 s.1 ∧ Putc font s event s'

/-- Whatever is printed with the console's state allowing each byte, the cursor stays in the console,
and all that is drawn and all array indices stay inside. -/
theorem console_safe {cells : Int → Nat} {SIX_PAL : Int → UInt16} {fg bg : UInt16}
    {events : List (Bool × UInt8)} {final : State × List Effect}
    (hrun : Steps (AllowedPutc font) (console cells SIX_PAL fg bg) events final) :
    Safe final.1 ∧ ∀ effect ∈ final.2, effect.Inside := by
  refine Steps.invariant (fun s => Safe s.1 ∧ ∀ effect ∈ s.2, effect.Inside) ?_ hrun ?_
  · rintro s ⟨gfx, c⟩ s' ⟨hsafe, hinside⟩ ⟨hallowed, hputc⟩
    obtain ⟨hsafe', hinside'⟩ := putc_gives font c s.1 ⟨hsafe, hallowed⟩
    rw [hputc]
    refine ⟨hsafe', fun effect hmem => ?_⟩
    rcases List.mem_append.mp hmem with hmem | hmem
    · exact hinside effect hmem
    · exact hinside' effect hmem
  · obtain ⟨cells', pal, hblank⟩ := console_state cells SIX_PAL fg bg
    have hsafe : Safe (console cells SIX_PAL fg bg).1 := by
      rw [hblank]
      exact blank_safe fg bg cells' pal SIX_PAL
    exact ⟨hsafe, fun _ hmem => absurd hmem List.not_mem_nil⟩

theorem allowed_iff : Allowed gfx c s ↔
    (s.gtxt_estate = .CSI →
      (c = 65 → s.gtxt_cury - s.count ≤ GTXT_BOTTOM ∨ s.gtxt_cury - s.count > 2147483647) ∧
      (c = 66 → 0 ≤ s.gtxt_cury + s.count ∧ s.gtxt_cury + s.count ≤ 2147483647) ∧
      (c = 67 → 0 ≤ s.gtxt_curx + s.count ∧ s.gtxt_curx + s.count ≤ 2147483647) ∧
      (c = 68 → s.gtxt_curx - s.count ≤ GTXT_COLS ∨ s.gtxt_curx - s.count > 2147483647) ∧
      (c = 74 ∨ c = 75 → gfx = false → s.gtxt_parm 0 = 1 →
        ¬ (s.gtxt_curx = GTXT_COLS ∧ s.gtxt_cury = GTXT_BOTTOM))) ∧
    (s.gtxt_estate = .SIXEL → SixFits gfx c s) := by
  constructor
  · intro h
    exact ⟨fun hcsi => ⟨(h.csi hcsi).up, (h.csi hcsi).down, (h.csi hcsi).right, (h.csi hcsi).left,
      (h.csi hcsi).erase⟩, h.six⟩
  · intro h
    refine ⟨fun hcsi => ?_, h.2⟩
    obtain ⟨hup, hdown, hright, hleft, herase⟩ := h.1 hcsi
    exact ⟨hup, hdown, hright, hleft, herase⟩

instance decidableSixFits : Decidable (SixFits gfx c s) :=
  inferInstanceAs (Decidable (64 ≤ c ∧ c ≤ 126 → gfx = false →
    (0 < s.six.pending → 0 ≤ int (s.six.x0 + s.six.x)) ∧ int (s.six.y0 + s.six.y) ≤ 2147483641))

instance decidableAllowed : Decidable (Allowed gfx c s) := decidable_of_iff' _ allowed_iff

/-- The cursor goes to the right of row 2, and a sixel is drawn. -/
def sequences : List (Bool × UInt8) :=
  [27, 91, 50, 59, 51, 72, 27, 91, 50, 67, 27, 80, 113, 35, 126].map fun c => (false, c)

theorem console_safe_letter :
    ∃ final, Steps (AllowedPutc fun _ _ => 0) (console (fun _ => 0) (fun _ => 0) 0x7FFF 0)
        sequences final ∧
      Safe final.1 ∧ ∀ effect ∈ final.2, effect.Inside := by
  have hsome : (sequences.foldlM (fun s e => if Allowed e.1 e.2 s.1 then
        some ((gtxt_putc (fun _ _ => 0) e.1 e.2 s.1).1, s.2 ++ (gtxt_putc (fun _ _ => 0) e.1 e.2 s.1).2)
        else none) (console (fun _ => 0) (fun _ => 0) 0x7FFF 0)).isSome = true := by decide +kernel
  obtain ⟨final, hfinal⟩ := Option.isSome_iff_exists.mp hsome
  have hrun : Steps (AllowedPutc fun _ _ => 0) (console (fun _ => 0) (fun _ => 0) 0x7FFF 0)
      sequences final := by
    exact (Steps.of_guarded hfinal).mono fun _ _ _ hstep => ⟨hstep.1, (Option.some.inj hstep.2).symm⟩
  exact ⟨final, hrun, console_safe hrun⟩

/-- What is left after a stream of bytes, with the panel inactive. -/
def printed (font : Font) (stream : List UInt8) (s : State) : State × List Effect :=
  Emit.each (gtxt_putc font false) stream s

/-- Some pixel drawn is not the console's. -/
def Effect.Stray : Effect → Prop
  | dots ds => ∃ dot ∈ ds, ¬ OnConsole dot.1
  | _ => False

instance (a : Int) : Decidable (OnConsole a) := inferInstanceAs (Decidable (_ ∧ _))

instance : DecidablePred Effect.Stray
  | .dots ds => inferInstanceAs (Decidable (∃ dot ∈ ds, ¬ OnConsole dot.1))
  | .copy .. | .fill .. | .invert _ | .gtxt_parm _ | .six_parm _ => inferInstanceAs (Decidable False)

theorem Effect.Stray.not_inside {effect : Effect} (h : effect.Stray) : ¬ effect.Inside := by
  cases effect with
  | dots ds =>
      obtain ⟨dot, hdot, hout⟩ := h
      exact fun hinside => hout (hinside dot hdot)
  | copy | fill | invert | gtxt_parm | six_parm => exact h.elim

/-- Cursor up by 4294967295 goes down to row 15. After 40 letters on the bottom row, erasing up to the
cursor draws below the console. A repeat count of 4294967295 in an image at the top left moves left of
the screen, and the next sixel is drawn there. -/
theorem console_escapes :
    let start := (console (fun _ => 0) (fun _ => 0) 0x7FFF 0).1
    (printed (fun _ _ => 0) [27, 91, 52, 50, 57, 52, 57, 54, 55, 50, 57, 53, 65] start).1.gtxt_cury = 15 ∧
      (∃ effect ∈ (printed (fun _ _ => 0) (List.replicate 40 120 ++ [27, 91, 49, 75]) start).2,
        ¬ effect.Inside) ∧
      ∃ effect ∈ (printed (fun _ _ => 0) ([27, 91, 72, 27, 80, 113] ++
          [33, 52, 50, 57, 52, 57, 54, 55, 50, 57, 53, 63, 126]) start).2, ¬ effect.Inside := by
  refine ⟨by decide +kernel, ?_, ?_⟩
  · have hstray : ∃ effect ∈ (printed (fun _ _ => 0) (List.replicate 40 120 ++ [27, 91, 49, 75])
        (console (fun _ => 0) (fun _ => 0) 0x7FFF 0).1).2, effect.Stray := by decide +kernel
    obtain ⟨effect, hmem, hout⟩ := hstray
    exact ⟨effect, hmem, hout.not_inside⟩
  · have hstray : ∃ effect ∈ (printed (fun _ _ => 0) ([27, 91, 72, 27, 80, 113] ++
        [33, 52, 50, 57, 52, 57, 54, 55, 50, 57, 53, 63, 126])
        (console (fun _ => 0) (fun _ => 0) 0x7FFF 0).1).2, effect.Stray := by decide +kernel
    obtain ⟨effect, hmem, hout⟩ := hstray
    exact ⟨effect, hmem, hout.not_inside⟩

end DiscoBsd.Console
