import DiscoBsd.Mml.Commands

/-!
# The two passes

What the first pass has counted is what the second one writes. The second pass starts with the macros
and waves that the first one has left behind, which matters to none of its commands: what a command
finds defined in the first pass it finds as well in the second, and with the same text.
-/

namespace DiscoBsd.Mml

open Lib

/-- The operations of no channel are more than `M`. -/
def State.Within (M : Channel → Nat) (s : State) : Prop := ∀ c, (s.ch c).nops ≤ M c

/-- The first pass in `s` and the second one in `t`, at the same place of the text. -/
structure Behind (s t : State) : Prop where
  text : s.text = t.text
  macroText : ∀ {n x}, s.macroText n = some x → t.macroText n = some x
  wavedef : ∀ {n}, s.wavedef n = true → t.wavedef n = true
  counting : s.counting = true

/-- The two passes when the first is to count `M` operations. -/
structure InStep (M : Channel → Nat) (s t : State) : Prop extends Behind s t where
  filling : t.counting = false
  nops : ∀ c, (t.ch c).nops = (s.ch c).nops
  length : ∀ c, (t.ch c).ops.length = (s.ch c).nops
  maxops : ∀ c, (t.ch c).maxops = M c
  room : ∀ c, (t.ch c).room = M c * OP_SIZE
  fits : ∀ c, M c * OP_SIZE < 2 ^ 32

variable {M : Channel → Nat}

/-- The operation that is counted in the first pass has its place in the second. -/
theorem InStep.addop {s t : State} {c : Channel} (h : InStep M s t)
    (hup : (s.count c).Within M) :
    int32 (t.ch c).nops ≠ (t.ch c).maxops ∧ (t.ch c).Inside := by
  have hle := hup c
  have hfits := h.fits c
  simp only [nops_count, if_true, OP_SIZE] at hle hfits
  have hval : int32 ((t.ch c).nops : Int) = (s.ch c).nops := by
    rw [h.nops c]
    exact int32_eq (by omega) (by omega)
  have hmax := h.maxops c
  have hroom := h.room c
  unfold Chan.Inside OP_SIZE at *
  constructor <;> omega

theorem tracks_addop (c : Channel) (code : Code) (a : Int) (b : Nat) :
    Tracks (State.Within M) (InStep M) (fun _ => False) (addop c code a b) where
  back := by
    intro s s' u hrun hup d
    have hle := hup d
    obtain ⟨hb, ⟨-, rfl⟩ | ⟨-, -, -, rfl⟩⟩ := addop_eq_ok.mp hrun
    · rw [nops_count] at hle
      omega
    · rw [nops_write] at hle
      omega
  follow := by
    intro s t s' u hR hrun hup
    obtain ⟨hb, ⟨-, rfl⟩ | ⟨hfill, -, -, -⟩⟩ := addop_eq_ok.mp hrun
    · obtain ⟨hne, hin⟩ := hR.addop hup
      refine .inl ⟨t.write c ⟨code, short a, b⟩,
        addop_eq_ok.mpr ⟨hb, .inr ⟨hR.filling, hne, hin, rfl⟩⟩, ?_⟩
      exact
        { hR with
          nops := fun d => by rw [nops_write, nops_count, hR.nops d]
          length := fun d => by rw [length_write, nops_count, hR.length d]
          maxops := fun d => by rw [maxops_write, hR.maxops d]
          room := fun d => by rw [room_write, hR.room d] }
    · rw [hR.counting] at hfill
      cases hfill

theorem Behind.setwave {s t : State} (h : Behind s t) (n : Nat) (w : List Nat) :
    Behind
      { s with wave := Function.update s.wave n w, wavedef := Function.update s.wavedef n true }
      { t with wave := Function.update t.wave n w, wavedef := Function.update t.wavedef n true } := by
  refine { h with wavedef := fun {m} hm => ?_ }
  by_cases hmn : m = n
  · subst hmn
    exact Function.update_self ..
  · simp only [Function.update_of_ne hmn] at hm ⊢
    exact h.wavedef hm

theorem Behind.setmacro {s t : State} (h : Behind s t) (n : Nat) (x : List Char) :
    Behind { s with macroText := Function.update s.macroText n (some x) }
      { t with macroText := Function.update t.macroText n (some x) } := by
  refine { h with macroText := fun {m y} hm => ?_ }
  by_cases hmn : m = n
  · subst hmn
    simpa using hm
  · simp only [Function.update_of_ne hmn] at hm ⊢
    exact h.macroText hm

/-- The two passes go along side by side. -/
theorem lockstep_passes : Lockstep (State.Within M) (InStep M) (fun _ => False) where
  back := by
    intro s s' hch hup c
    rw [← hch]
    exact hup c
  text h := h.text
  macroText h := h.macroText
  wavedef h := h.wavedef
  settext u h := { h with text := rfl }
  setwave n w h := { h with toBehind := h.toBehind.setwave n w }
  setmacro n x h := { h with toBehind := h.toBehind.setmacro n x }
  addop := tracks_addop

/-- What `addop` does to the lists is all that the commands do to them. -/
theorem steps_lists {G : State → State → Prop} [Std.Refl G] [IsTrans State G]
    (hsame : ∀ s s', s'.ch = s.ch → s'.counting = s.counting → G s s')
    (haddop : ∀ c code a b, Moves G (fun _ => True) (addop c code a b)) :
    Steps G (fun _ => True) := by
  have hlift {α : Type} (p : Reader α) : Moves G (fun _ => True) (liftM p : Parser α) := by
    intro s
    rw [run_lift]
    cases p.run s.text with
    | error e => trivial
    | ok r => exact hsame _ _ rfl rfl
  exact
    { lift := fun _ => hlift _
      setcp := fun _ => hlift _
      noteadd := fun _ _ _ c => (hlift _).bind fun o _ => haddop c o.1 o.2.1 o.2.2
      restadd := fun _ code c _ => (hlift _).bind fun u _ => haddop c code 0 u
      tempo := fun c n _ => haddop c .tempo n 0
      addop := fun c code a b _ => haddop c code a b
      openrep := fun _ => Moves.forM fun c _ => (hlift _).bind fun _ _ => haddop c .rep 0 0
      closerep := fun _ => (hlift _).bind fun _ _ => (hlift _).bind fun n _ =>
        Moves.forM fun c _ => haddop c .endrep n 0
      wavechecked := fun n s => by
        rw [wavechecked_run]
        split
        · exact refl_of G s
        · trivial
      macrotext := fun n s => by
        rw [macrotext_run]
        split
        · trivial
        · exact refl_of G s
      setwave := fun _ _ _ => hsame _ _ rfl rfl
      setmacro := fun _ _ _ => hsame _ _ rfl rfl }

/-- The second pass writes what it counts, within the lists. -/
structure State.Filling (s : State) : Prop where
  filling : s.counting = false
  length : ∀ c, (s.ch c).ops.length = (s.ch c).nops
  inside : ∀ c, (s.ch c).nops * OP_SIZE ≤ (s.ch c).room
  room : ∀ c, (s.ch c).room < 2 ^ 32

theorem State.Filling.write {s : State} {c : Channel} {o : Op} (h : s.Filling)
    (hin : (s.ch c).Inside) : (s.write c o).Filling where
  filling := h.filling
  length d := by rw [length_write, nops_write, h.length d]
  inside d := by
    have hle := h.inside d
    have hroom := h.room d
    rw [nops_write, room_write]
    by_cases hd : d = c
    · subst hd
      unfold Chan.Inside OP_SIZE at *
      have hval : int32 ((s.ch d).nops : Int) = (s.ch d).nops := int32_eq (by omega) (by omega)
      rw [hval] at hin
      simp only [if_true]
      omega
    · simpa [hd] using hle
  room d := by
    rw [room_write]
    exact h.room d

instance : Std.Refl (fun s s' : State => s.Filling → s'.Filling) := ⟨fun _ h => h⟩

instance : IsTrans State (fun s s' : State => s.Filling → s'.Filling) :=
  ⟨fun _ _ _ h k hs => k (h hs)⟩

theorem filling_parse (n mask : Nat) (x : List Char) :
    Moves (fun s s' : State => s.Filling → s'.Filling) (fun _ => True) (parse n mask x) := by
  refine (steps_lists (fun s s' hch hcount h => ?_) fun c code a b s => ?_).parse trivial n mask x
  · exact
      { filling := hcount ▸ h.filling
        length := hch ▸ h.length
        inside := hch ▸ h.inside
        room := hch ▸ h.room }
  · cases hrun : (addop c code a b).run s with
    | error e => trivial
    | ok r =>
        intro hs
        obtain ⟨-, ⟨hcount, -⟩ | ⟨-, -, hin, hr⟩⟩ := addop_eq_ok.mp hrun
        · rw [hs.filling] at hcount
          cases hcount
        · rw [hr]
          exact hs.write hin

theorem closed_eq_ok {xs : List Channel} {t t' : Text} {u : Unit}
    (h : (xs.forM fun c => do require ((← get).depth c = 0) "[ without ]" : Reader Unit).run t =
      .ok (u, t')) :
    t' = t ∧ ∀ c ∈ xs, t.depth c = 0 := by
  induction xs with
  | nil =>
      cases h
      exact ⟨rfl, by simp⟩
  | cons c xs ih =>
      obtain ⟨v, m, hc, hxs⟩ := run_bind_eq_ok.mp h
      have hrun : (require (t.depth c = 0) "[ without ]").run t = .ok (v, m) := hc
      rw [require_run] at hrun
      split_ifs at hrun with hdepth
      · cases hrun
        obtain ⟨rfl, hrest⟩ := ih hxs
        exact ⟨rfl, by simpa [hdepth] using hrest⟩

/-- A song is parsed to its end with no bracket left open. -/
theorem parse_closed {n : Nat} {x : List Char} {s s' : State} {u : Unit}
    (h : (parse n 0 x).run s = .ok (u, s')) (c : Channel) : s'.text.depth c = 0 := by
  cases n with
  | zero => cases h
  | succ n =>
      obtain ⟨_, s₁, _, hrest⟩ := run_bind_eq_ok.mp h
      obtain ⟨_, s₂, _, hlast⟩ := run_bind_eq_ok.mp hrest
      obtain ⟨t, hreads, rfl⟩ := run_lift_eq_ok.mp hlast
      obtain ⟨rfl, hdepth⟩ := closed_eq_ok hreads
      have hmem : ∀ c : Channel, c ∈ channels := by decide
      exact hdepth c (hmem c)

theorem parse_setcp {n mask : Nat} {x y : List Char} {s : State} :
    (parse n mask x).run { s with text := { s.text with cp := y } } = (parse n mask x).run s := by
  cases n with
  | zero => rfl
  | succ n => rfl

theorem map_snd_eq_ok {r : Except Stop (Unit × State)} {s : State} :
    r.map Prod.snd = .ok s ↔ r = .ok ((), s) := by
  cases r with
  | error e => simp [Except.map]
  | ok q =>
      obtain ⟨⟨⟩, t⟩ := q
      simp [Except.map]

theorem int32_nops {p : Chan} (h : p.nops * OP_SIZE < 2 ^ 32) : int32 (p.nops : Int) = p.nops := by
  unfold OP_SIZE at h
  exact int32_eq (by omega) (by omega)

theorem maxops_alloc {p : Chan} (h : p.nops * OP_SIZE < 2 ^ 32) : p.alloc.maxops = p.nops := by
  simp only [Chan.alloc, int32_nops h]

theorem room_alloc {p : Chan} (h : p.nops * OP_SIZE < 2 ^ 32) :
    p.alloc.room = p.nops * OP_SIZE := by
  unfold Chan.alloc
  simp only [int32_nops h, Int.toNat_natCast, Nat.mod_eq_of_lt h]
  split_ifs with hpos
  · rfl
  · have hzero : p.nops = 0 := by omega
    simp [hzero]

theorem room_alloc_lt (p : Chan) : p.alloc.room < 2 ^ 32 := by
  unfold Chan.alloc
  simp only
  split_ifs
  · exact Nat.mod_lt _ (Nat.two_pow_pos 32)
  · exact Nat.two_pow_pos 32

theorem nops_alloc (p : Chan) : p.alloc.nops = 0 := rfl

theorem ops_alloc (p : Chan) : p.alloc.ops = [] := rfl

theorem between_ch (s : State) (c : Channel) : s.between.ch c = (s.ch c).alloc := rfl

theorem behind_between {s : State} (hclosed : ∀ c, s.text.depth c = 0) :
    Behind State.init { s.between with text := { s.between.text with cp := [] } } where
  text := by
    have hdepth : s.text.depth = fun _ => 0 := funext hclosed
    simp [State.init, State.between, hdepth]
  macroText := by simp [State.init]
  wavedef := by simp [State.init]
  counting := rfl

/-- The passes start in step if every list has a size of 32 bits. -/
theorem inStep_between {s : State} (hclosed : ∀ c, s.text.depth c = 0)
    (hM : ∀ c, (s.ch c).nops = M c) (hfits : ∀ c, M c * OP_SIZE < 2 ^ 32) :
    InStep M State.init { s.between with text := { s.between.text with cp := [] } } where
  toBehind := behind_between hclosed
  filling := rfl
  nops c := by
    simp only [between_ch, nops_alloc]
    rfl
  length c := by
    simp only [between_ch, ops_alloc]
    rfl
  maxops c := by
    simp only [between_ch]
    rw [maxops_alloc (by rw [hM c]; exact hfits c), hM c]
  room c := by
    simp only [between_ch]
    rw [room_alloc (by rw [hM c]; exact hfits c), hM c]
  fits := hfits

theorem filling_between (s : State) : s.between.Filling where
  filling := rfl
  length c := by rw [between_ch, ops_alloc, nops_alloc, List.length_nil]
  inside c := by simp [between_ch, nops_alloc]
  room c := by
    rw [between_ch]
    exact room_alloc_lt (s.ch c)

/-- Where the sizes of the lists have 32 bits, the second pass writes what the first one counted. -/
theorem fill_of_fits {n : Nat} {x : List Char} {s : State} (h : count n x = .ok s)
    (hfits : ∀ c, (s.ch c).nops * OP_SIZE < 2 ^ 32) :
    ∃ t, fill n x s = .ok t ∧ ∀ c, (t.ch c).ops.length = (s.ch c).nops := by
  have hrun := map_snd_eq_ok.mp h
  have hstart := inStep_between (fun c => parse_closed hrun c) (fun c => rfl) hfits
  obtain ⟨t, hfill, hstep⟩ | ⟨_, -, hfalse⟩ :=
    (lockstep_passes.parse n 0 x).follow hstart hrun fun c => le_rfl
  · rw [parse_setcp] at hfill
    exact ⟨t, map_snd_eq_ok.mpr hfill, hstep.length⟩
  · exact hfalse.elim

theorem fits_of_fill {n : Nat} {x : List Char} {s t : State} (h : fill n x s = .ok t) (c : Channel) :
    (t.ch c).ops.length * OP_SIZE < 2 ^ 32 := by
  have hfilling := (filling_parse n 0 x).of_ok (map_snd_eq_ok.mp h) (filling_between s)
  have hinside := hfilling.inside c
  have hroom := hfilling.room c
  rw [hfilling.length c]
  omega

/-- The first pass where channel A alone has operations, `n` of them. -/
def counted (T : Nat → Option (List Char)) (line : Nat) (x : List Char) (n : Nat) : State :=
  { State.init with
    text := { State.init.text with cp := x, lineno := line }
    macroText := T
    ch := fun c => if c = 0 then ⟨n, 0, 0, []⟩ else ⟨0, 0, 0, []⟩ }

/-- Calls of macro `d`, and then rests. -/
def tune (a : Nat) (d : Char) (b : Nat) : List Char :=
  (List.replicate a ['@', '@', d]).flatten ++ List.replicate b 'r'

section

variable {T : Nat → Option (List Char)} {l n N : Nat} {x y : List Char}
  {call : List Char → Parser Unit}

theorem counted_count : (counted T l x n).count 0 = counted T l x (n + 1) := by
  unfold State.count counted
  congr 1
  funext c
  by_cases hc : c = 0
  · subst hc
    rfl
  · simp [hc]

theorem skipblank_run {t : Text} {c : Char} (hcp : t.cp = c :: x) (hc : isBlank c = false) :
    skipblank.run t = .ok ((), t) := by
  have hdrop : t.cp.dropWhile isBlank = t.cp := by rw [hcp, List.dropWhile_cons_of_neg (by simp [hc])]
  show Except.ok ((), { t with cp := t.cp.dropWhile isBlank }) = _
  rw [hdrop]

theorem peek_run {t : Text} {c : Char} (hcp : t.cp = c :: x) : peek.run t = .ok (c, t) := by
  show Except.ok (t.cp.headD _, t) = _
  rw [hcp, List.headD_cons]

theorem run_after {α β : Type} {p : Reader α} {f : α → Parser β} {s : State} {b : α} {t : Text}
    (h : p.run s.text = .ok (b, t)) :
    ((liftM p : Parser α) >>= f).run s = (f b).run { s with text := t } := by
  rw [StateT.run_bind, run_lift, h]
  rfl

theorem commandTurn_run {mask : Nat} {c : Char} (hblank : isBlank c = false)
    (hend : ¬(c = '\x00' ∨ c = '\n' ∨ c = ';')) :
    (commandTurn call mask).run (counted T l (c :: x) n) =
      (command call mask c >>= fun _ => pure true).run (counted T l x n) := by
  unfold commandTurn
  rw [run_after (skipblank_run rfl hblank), run_after (peek_run rfl), if_neg hend]
  rfl

theorem getlen_run (h : x = [] ∨ ∃ x', x = 'r' :: x') :
    getlen.run (counted T l x n).text = .ok ((false, ⟨0, 0⟩), (counted T l x n).text) := by
  obtain rfl | ⟨x', rfl⟩ := h
  · rfl
  · rfl

theorem addop_run_counted (code : Code) (a : Int) {b : Nat} (hb : b ≤ 65535) :
    (addop 0 code a b).run (counted T l x n) = .ok ((), counted T l x (n + 1)) := by
  rw [addop_run, if_pos hb, ← counted_count]
  rfl

theorem rest_turn (hx : x = [] ∨ ∃ x', x = 'r' :: x') :
    (commandTurn call 1).run (counted T l ('r' :: x) n) =
      .ok (true, counted T l x (n + 1)) := by
  rw [commandTurn_run (by decide) (by decide)]
  show StateT.run (rest 1 .rest >>= fun _ => pure true) _ = _
  have hrest : (rest 1 .rest).run (counted T l x n) = .ok ((), counted T l x (n + 1)) := by
    unfold rest
    rw [run_after (getlen_run hx)]
    show (StateT.run (addop 0 .rest 0 96) (counted T l x n) >>= _) = _
    rw [addop_run_counted _ _ (by decide)]
    rfl
  rw [StateT.run_bind, hrest]
  rfl

/-- The numbers of the macros of `flood`. -/
def Digit (d : Char) (k : Int) : Prop := (d = '0' ∧ k = 0) ∨ (d = '1' ∧ k = 1)

theorem needint_run {d : Char} {k : Int} (hd : Digit d k)
    (hx : x = [] ∨ ∃ x', x = 'r' :: x' ∨ x = '@' :: x') :
    (needint "@@").run (counted T l (d :: x) n).text = .ok (k, (counted T l x n).text) := by
  obtain ⟨rfl, rfl⟩ | ⟨rfl, rfl⟩ := hd
  · obtain rfl | ⟨x', rfl | rfl⟩ := hx
    · rfl
    · rfl
    · rfl
  · obtain rfl | ⟨x', rfl | rfl⟩ := hx
    · rfl
    · rfl
    · rfl

theorem call_turn {d : Char} {k : Int} (hd : Digit d k) (hT : T k.toNat = some y)
    (hx : x = [] ∨ ∃ x', x = 'r' :: x' ∨ x = '@' :: x')
    (hcall : (call y).run (counted T l x n) = .ok ((), counted T l [] (n + N))) :
    (commandTurn call 1).run (counted T l ('@' :: '@' :: d :: x) n) =
      .ok (true, counted T l x (n + N)) := by
  have htext : (macrotext k).run (counted T l x n) = .ok (y, counted T l x n) := by
    refine macrotext_eq_ok.mpr ⟨?_, hT, rfl⟩
    obtain ⟨-, rfl⟩ | ⟨-, rfl⟩ := hd
    · decide
    · decide
  have hmacro : (macrocmd call).run (counted T l (d :: x) n) = .ok ((), counted T l x (n + N)) := by
    unfold macrocmd
    rw [run_after (needint_run hd hx)]
    show StateT.run (macrotext k >>= _) (counted T l x n) = _
    rw [StateT.run_bind, htext]
    show (StateT.run (call y) (counted T l x n) >>= _) = _
    rw [hcall]
    rfl
  rw [commandTurn_run (by decide) (by decide)]
  show StateT.run (atcmd call 1 >>= fun _ => pure true) _ = _
  have hat : (atcmd call 1).run (counted T l ('@' :: d :: x) n) = .ok ((), counted T l x (n + N)) := by
    unfold atcmd
    rw [run_after (peek_run rfl), if_pos rfl]
    exact hmacro
  rw [StateT.run_bind, hat]
  rfl

theorem rests_run {b fuel : Nat} (hb : b < fuel) :
    (repeatM .spent (commandTurn call 1) fuel).run (counted T l (List.replicate b 'r') n) =
      .ok ((), counted T l [] (n + b)) := by
  obtain ⟨f, rfl⟩ := Nat.exists_eq_add_of_lt hb
  induction b generalizing n with
  | zero => exact repeatM_last rfl
  | succ b ih =>
      have hx : List.replicate b 'r' = [] ∨ ∃ x', List.replicate b 'r' = 'r' :: x' := by
        cases b with
        | zero => exact .inl rfl
        | succ b => exact .inr ⟨_, rfl⟩
      rw [List.replicate_succ, repeatM_next (rest_turn hx)]
      rw [show b + 1 + f = b + f + 1 by omega, ih (by omega)]
      congr 3
      omega

theorem tune_head {a b : Nat} {d : Char} :
    tune a d b = [] ∨ ∃ x', tune a d b = 'r' :: x' ∨ tune a d b = '@' :: x' := by
  cases a with
  | zero =>
      cases b with
      | zero => exact .inl rfl
      | succ b => exact .inr ⟨_, .inl rfl⟩
  | succ a => exact .inr ⟨_, .inr rfl⟩

/-- A macro that adds `N` operations, called `a` times, and then `b` rests. -/
theorem tune_run {a b fuel : Nat} {d : Char} {k : Int} (hd : Digit d k) (hT : T k.toNat = some y)
    (hcall : ∀ x n, (call y).run (counted T l x n) = .ok ((), counted T l [] (n + N)))
    (hfuel : a + b < fuel) :
    (repeatM .spent (commandTurn call 1) fuel).run (counted T l (tune a d b) n) =
      .ok ((), counted T l [] (n + a * N + b)) := by
  induction a generalizing n fuel with
  | zero =>
      simp only [tune, List.replicate_zero, List.flatten_nil, List.nil_append, Nat.zero_mul,
        Nat.add_zero]
      exact rests_run (by omega)
  | succ a ih =>
      obtain ⟨f, rfl⟩ : ∃ f, fuel = f + 1 := ⟨fuel - 1, by omega⟩
      have htune : tune (a + 1) d b = '@' :: '@' :: d :: tune a d b := rfl
      rw [htune, repeatM_next (call_turn hd hT tune_head (hcall _ _)), ih (by omega)]
      congr 3
      rw [Nat.succ_mul]
      omega

/-- What the commands of a macro's text add, the macro adds. -/
theorem macro_run {c : Char} {k : Nat} (hc : c = 'r' ∨ c = '@')
    (h : ∀ n, (repeatM .spent (commandTurn (parse k 1) 1) ((c :: x).length + 1)).run
      (counted T l (c :: x) n) = .ok ((), counted T l [] (n + N))) (y : List Char) (n : Nat) :
    (parse (k + 1) 1 (c :: x)).run (counted T l y n) = .ok ((), counted T l [] (n + N)) := by
  have hcommands : (commands (parse k 1) 1).run (counted T l (c :: x) n) =
      .ok ((), counted T l [] (n + N)) := h n
  have hturn : (line (parse k) 1).run (counted T l (c :: x) n) =
      .ok (true, counted T l [] (n + N)) := by
    have hblank : isBlank c = false := by
      obtain rfl | rfl := hc
      · decide
      · decide
    unfold line
    rw [run_after (skipblank_run rfl hblank), run_after (peek_run rfl)]
    rw [if_neg (by rintro rfl; simp at hc), if_neg (by rintro rfl; simp at hc),
      if_neg (by rintro rfl; simp at hc), if_pos (by decide)]
    show (StateT.run (commands (parse k 1) 1) (counted T l (c :: x) n) >>= _) = _
    rw [hcommands]
    rfl
  show StateT.run (repeatM .spent (line (parse k) 1) _ >>= fun _ => pure ()) (counted T l (c :: x) n) = _
  rw [StateT.run_bind, List.length_cons, repeatM_next hturn, repeatM_last rfl]
  rfl

theorem reader_after {α β : Type} {p : Reader α} {f : α → Reader β} {t t' : Text} {b : α}
    (h : p.run t = .ok (b, t')) : (p >>= f).run t = (f b).run t' := by
  rw [StateT.run_bind, h]
  rfl

theorem require_ok {q : Prop} [Decidable q] {msg : String} {t : Text} (h : q) :
    (require q msg).run t = .ok ((), t) := by
  rw [require_run, if_pos h]

theorem advance_run {t : Text} {c : Char} (hcp : t.cp = c :: x) :
    (advance 1).run t = .ok ((), { t with cp := x }) := by
  show Except.ok ((), { t with cp := t.cp.drop 1 }) = _
  rw [hcp]
  rfl

theorem span_run {q : Char → Bool} {t : Text} {body : List Char} {c : Char}
    (hcp : t.cp = body ++ c :: x) (hbody : ∀ d ∈ body, q d = true) (hc : q c = false) :
    (span q).run t = .ok (body, { t with cp := c :: x }) := by
  show Except.ok (t.cp.takeWhile q, { t with cp := t.cp.dropWhile q }) = _
  rw [hcp, List.takeWhile_append_of_pos hbody, List.dropWhile_append_of_pos hbody]
  simp [hc]

/-- The text in braces. -/
theorem braces_run {body : List Char} (hbody : ∀ c ∈ body, c = 'r' ∨ c = '@' ∨ c = '0') :
    braces.run (counted T l ('=' :: '\x7b' :: (body ++ '\x7d' :: x)) n).text =
      .ok (body, (counted T l x n).text) := by
  have hq : ∀ c ∈ body, (c != '\x7d' && c != '\x00') = true := by
    intro c hc
    obtain rfl | rfl | rfl := hbody c hc
    · decide
    · decide
    · decide
  have hlines : body.count '\n' = 0 := by
    refine List.count_eq_zero.mpr fun hmem => ?_
    have hnl := hbody '\n' hmem
    simp at hnl
  unfold braces
  rw [reader_after (skipblank_run rfl (by decide)), reader_after (peek_run rfl),
    reader_after (require_ok rfl), reader_after (advance_run rfl),
    reader_after (skipblank_run rfl (by decide)), reader_after (peek_run rfl),
    reader_after (require_ok rfl), reader_after (advance_run rfl),
    reader_after (span_run rfl hq (by decide)), hlines]
  rfl

theorem macrodefine_run {d : Char} {k : Int} {body : List Char} (hd : Digit d k)
    (hbody : ∀ c ∈ body, c = 'r' ∨ c = '@' ∨ c = '0') :
    macrodefine.run (counted T l (d :: '=' :: '\x7b' :: (body ++ '\x7d' :: x)) n) =
      .ok ((), counted (Function.update T k.toNat (some body)) l x n) := by
  have hneed : (needint "@@").run
      (counted T l (d :: '=' :: '\x7b' :: (body ++ '\x7d' :: x)) n).text =
        .ok (k, (counted T l ('=' :: '\x7b' :: (body ++ '\x7d' :: x)) n).text) := by
    obtain ⟨rfl, rfl⟩ | ⟨rfl, rfl⟩ := hd
    · rfl
    · rfl
  have hrange : 0 ≤ k ∧ k < NMACRO := by
    obtain ⟨-, rfl⟩ | ⟨-, rfl⟩ := hd
    · decide
    · decide
  have hmacro : macrobody.run
      (counted T l (d :: '=' :: '\x7b' :: (body ++ '\x7d' :: x)) n).text =
        .ok ((k.toNat, body), (counted T l x n).text) := by
    unfold macrobody
    rw [reader_after hneed]
    rw [reader_after (by rw [require_run, if_pos hrange]), reader_after (braces_run hbody)]
    rfl
  unfold macrodefine
  rw [run_after hmacro]
  rfl

/-- A line that defines a macro. -/
theorem define_turn {d : Char} {k : Int} {body : List Char}
    {call : Nat → List Char → Parser Unit} (hd : Digit d k)
    (hbody : ∀ c ∈ body, c = 'r' ∨ c = '@' ∨ c = '0') :
    (line call 0).run
        (counted T l ('@' :: '@' :: d :: '=' :: '\x7b' :: (body ++ '\x7d' :: x)) n) =
      .ok (true, counted (Function.update T k.toNat (some body)) l x n) := by
  unfold line
  rw [run_after (skipblank_run rfl (by decide)), run_after (peek_run rfl)]
  rw [if_neg (by decide), if_neg (by decide), if_neg (by decide), if_neg (by decide)]
  have hdefined := macrodefine_run (T := T) (l := l) (n := n) (x := x) hd hbody
  show (StateT.run macrodefine
    (counted T l (d :: '=' :: '\x7b' :: (body ++ '\x7d' :: x)) n) >>= _) = _
  rw [hdefined]
  rfl

theorem newline_turn {call : Nat → List Char → Parser Unit} :
    (line call 0).run (counted T l ('\n' :: x) n) = .ok (true, counted T (l + 1) x n) := by
  unfold line
  rw [run_after (skipblank_run rfl (by decide)), run_after (peek_run rfl)]
  rfl

theorem names_run (hx : x = [] ∨ ∃ x', x = 'r' :: x' ∨ x = '@' :: x') :
    names.run (counted T l ('A' :: x) n).text = .ok (1, (counted T l x n).text) := by
  obtain rfl | ⟨x', rfl | rfl⟩ := hx
  · rfl
  · rfl
  · rfl

/-- A line for channel A. -/
theorem song_turn {call : Nat → List Char → Parser Unit}
    (hx : x = [] ∨ ∃ x', x = 'r' :: x' ∨ x = '@' :: x')
    (hcommands : (commands (call 1) 1).run (counted T l x n) = .ok ((), counted T l [] N)) :
    (line call 0).run (counted T l ('A' :: x) n) = .ok (true, counted T l [] N) := by
  have hsong : (songline call).run (counted T l ('A' :: x) n) = .ok ((), counted T l [] N) := by
    unfold songline
    rw [run_after (names_run hx), run_after (require_ok (by decide))]
    exact hcommands
  unfold line
  rw [run_after (skipblank_run rfl (by decide)), run_after (peek_run rfl)]
  rw [if_neg (by decide), if_neg (by decide), if_neg (by decide), if_neg (by decide)]
  show (StateT.run (songline call) (counted T l ('A' :: x) n) >>= _) = _
  rw [hsong]
  rfl

end

/-- Macro 0 has `a₀` rests; macro 1 calls it `a₁` times, and has `b₁` rests more; channel A calls that
one `a₂` times, and has `b₂` rests more. -/
def flood (a₀ a₁ b₁ a₂ b₂ : Nat) : List Char :=
  '@' :: '@' :: '0' :: '=' :: '\x7b' :: (List.replicate a₀ 'r' ++ '\x7d' :: '\n' ::
    '@' :: '@' :: '1' :: '=' :: '\x7b' :: (tune a₁ '0' b₁ ++ '\x7d' :: '\n' ::
      'A' :: tune a₂ '1' b₂))

theorem tune_mem {a b : Nat} {c : Char} (h : c ∈ tune a '0' b) : c = 'r' ∨ c = '@' ∨ c = '0' := by
  simp only [tune, List.mem_append, List.mem_flatten, List.mem_replicate] at h
  obtain ⟨x, ⟨-, rfl⟩, hc⟩ | ⟨-, rfl⟩ := h
  · simp only [List.mem_cons, List.not_mem_nil, or_false, or_self_left] at hc
    tauto
  · exact .inl rfl

theorem length_tune (a : Nat) (d : Char) (b : Nat) : (tune a d b).length = 3 * a + b := by
  induction a with
  | zero => simp [tune]
  | succ a ih =>
      have htune : tune (a + 1) d b = '@' :: '@' :: d :: tune a d b := rfl
      simp only [htune, List.length_cons, ih]
      omega

theorem init_counted : State.init = counted (fun _ => none) 1 [] 0 := by
  unfold counted State.init
  congr 1
  funext c
  split <;> rfl

/-- What is counted of a `flood`. -/
theorem count_flood (a₀ a₁ b₁ a₂ b₂ : Nat) :
    ∃ s, count 4 (flood (a₀ + 1) (a₁ + 1) b₁ a₂ b₂) = .ok s ∧
      (s.ch 0).nops = a₂ * ((a₁ + 1) * (a₀ + 1) + b₁) + b₂ := by
  let T₁ := Function.update (fun _ : Nat => none) 0 (some (List.replicate (a₀ + 1) 'r'))
  let T₂ := Function.update T₁ 1 (some (tune (a₁ + 1) '0' b₁))
  let N := a₂ * ((a₁ + 1) * (a₀ + 1) + b₁) + b₂
  have hrests (k : Nat) (y : List Char) (n : Nat) :
      (parse (k + 1) 1 (List.replicate (a₀ + 1) 'r')).run (counted T₂ 3 y n) =
        .ok ((), counted T₂ 3 [] (n + (a₀ + 1))) := by
    refine macro_run (x := List.replicate a₀ 'r') (.inl rfl) (fun m => ?_) y n
    exact rests_run (b := a₀ + 1) (by simp)
  have hcalls (k : Nat) (y : List Char) (n : Nat) :
      (parse (k + 2) 1 (tune (a₁ + 1) '0' b₁)).run (counted T₂ 3 y n) =
        .ok ((), counted T₂ 3 [] (n + ((a₁ + 1) * (a₀ + 1) + b₁))) := by
    refine macro_run (x := '@' :: '0' :: tune a₁ '0' b₁) (.inr rfl) (fun m => ?_) y n
    rw [← Nat.add_assoc]
    refine tune_run (a := a₁ + 1) (.inl ⟨rfl, rfl⟩) rfl (fun x n => hrests k x n) ?_
    simp only [List.length_cons, length_tune]
    omega
  have hsong : (commands (parse 3 1) 1).run (counted T₂ 3 (tune a₂ '1' b₂) 0) =
      .ok ((), counted T₂ 3 [] N) := by
    have hfuel : a₂ + b₂ < (tune a₂ '1' b₂).length + 1 := by
      rw [length_tune]
      omega
    have hrun := tune_run (T := T₂) (l := 3) (n := 0) (.inr ⟨rfl, rfl⟩) rfl
      (fun x n => hcalls 1 x n) hfuel
    rw [Nat.zero_add] at hrun
    exact hrun
  refine ⟨counted T₂ 3 [] N, map_snd_eq_ok.mpr ?_, rfl⟩
  rw [init_counted]
  obtain ⟨fuel, hfuel⟩ : ∃ fuel, (flood (a₀ + 1) (a₁ + 1) b₁ a₂ b₂).length + 1 = fuel + 6 :=
    ⟨(flood (a₀ + 1) (a₁ + 1) b₁ a₂ b₂).length - 5, by simp only [flood, List.length_cons]; omega⟩
  have hlines : (repeatM .spent (line (parse 3) 0) (fuel + 6)).run
      (counted (fun _ => none) 1 (flood (a₀ + 1) (a₁ + 1) b₁ a₂ b₂) 0) =
        .ok ((), counted T₂ 3 [] N) := by
    have hmem : ∀ c ∈ List.replicate (a₀ + 1) 'r', c = 'r' ∨ c = '@' ∨ c = '0' :=
      fun c hc => .inl (List.eq_of_mem_replicate hc)
    rw [flood, repeatM_next (define_turn (.inl ⟨rfl, rfl⟩) hmem), repeatM_next newline_turn,
      repeatM_next (define_turn (.inr ⟨rfl, rfl⟩) fun c hc => tune_mem hc),
      repeatM_next newline_turn]
    show (repeatM .spent (line (parse 3) 0) (fuel + 2)).run
      (counted T₂ 3 ('A' :: tune a₂ '1' b₂) 0) = _
    rw [repeatM_next (song_turn tune_head hsong)]
    exact repeatM_last rfl
  show StateT.run (repeatM .spent (line (parse 3) 0) _ >>= fun _ => liftM closed)
    (counted (fun _ => none) 1 (flood (a₀ + 1) (a₁ + 1) b₁ a₂ b₂) 0) = _
  rw [hfuel, StateT.run_bind, hlines]
  rfl

end DiscoBsd.Mml
