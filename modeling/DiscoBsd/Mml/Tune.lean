import DiscoBsd.Mml.Agree

/-!
# The brackets of a song

A tune is a list of operations with its brackets matched, and what it says is its list with every body as
often as its count. Each channel of a song that has been parsed is a tune, of no more than `MAXDEPTH`
brackets within each other: while it is parsed it is one tune for each bracket that is open.
-/

namespace DiscoBsd.Mml

open Lib

/-- Operations, and bodies with their counts. -/
inductive Tune where
  | nil
  | op (o : Op) (rest : Tune)
  | rep (body : Tune) (count : Int) (rest : Tune)

namespace Tune

/-- The list of operations. -/
def flat : Tune → List Op
  | nil => []
  | op o t => o :: t.flat
  | rep b n t => ⟨.rep, 0, 0⟩ :: b.flat ++ ⟨.endrep, n, 0⟩ :: t.flat

/-- What is played: each body as often as its count says. -/
def unroll : Tune → List Op
  | nil => []
  | op o t => o :: t.unroll
  | rep b n t => (List.replicate n.toNat b.unroll).flatten ++ t.unroll

def append : Tune → Tune → Tune
  | nil, u => u
  | op o t, u => op o (t.append u)
  | rep b n t, u => rep b n (t.append u)

@[simp] theorem flat_append (t u : Tune) : (t.append u).flat = t.flat ++ u.flat := by
  induction t with
  | nil => rfl
  | op o t ih => simp [append, flat, ih]
  | rep b n t _ ih => simp [append, flat, ih]

end Tune

/-- The operations that take time. -/
def Code.Timed (code : Code) : Prop := code ∈ [.note, .slur, .rest, .wait]

instance (code : Code) : Decidable code.Timed := inferInstanceAs (Decidable (_ ∈ _))

/-- An operation that is no bracket, takes some time if it takes time, and has a tempo that is one. -/
structure Op.Good (o : Op) : Prop where
  rep : o.code ≠ .rep
  endrep : o.code ≠ .endrep
  time : o.code.Timed → 1 ≤ o.b
  tempo : o.code = .tempo → 1 ≤ o.a ∧ o.a ≤ 1000

/-- The operations are good, and with `d` brackets around them no more than `MAXDEPTH` are open. -/
def Tune.Good : Nat → Tune → Prop
  | _, .nil => True
  | d, .op o t => o.Good ∧ t.Good d
  | d, .rep b n t => d < 8 ∧ (1 ≤ n ∧ n ≤ 255) ∧ b.Good (d + 1) ∧ t.Good d

theorem Tune.Good.append {d : Nat} {t u : Tune} (ht : t.Good d) (hu : u.Good d) :
    (t.append u).Good d := by
  induction t with
  | nil => exact hu
  | op o t ih => exact ⟨ht.1, ih ht.2⟩
  | rep b n t _ ih => exact ⟨ht.1, ht.2.1, ht.2.2.1, ih ht.2.2.2⟩

/-- The operations so far, with the brackets of `ts` open around those of `t`. -/
def opened (t : Tune) : List Tune → List Op
  | [] => t.flat
  | u :: us => opened u us ++ ⟨.rep, 0, 0⟩ :: t.flat

/-- As many tunes as there are brackets open, each good where it stands. -/
def Levels (t : Tune) : List Tune → Prop
  | [] => t.Good 0
  | u :: us => us.length < 8 ∧ t.Good (us.length + 1) ∧ Levels u us

theorem Levels.good {t : Tune} {ts : List Tune} (h : Levels t ts) : t.Good ts.length := by
  cases ts with
  | nil => exact h
  | cons u us => exact h.2.1

theorem Levels.replace {t t' : Tune} {ts : List Tune} (h : Levels t ts) (ht : t'.Good ts.length) :
    Levels t' ts := by
  cases ts with
  | nil => exact ht
  | cons u us => exact ⟨h.1, ht, h.2.2⟩

theorem opened_append (t u : Tune) (ts : List Tune) :
    opened (t.append u) ts = opened t ts ++ u.flat := by
  cases ts with
  | nil => simp [opened]
  | cons v vs => simp [opened]

/-- The operations of a list leave `d` brackets open. -/
def Open (ops : List Op) (d : Int) : Prop :=
  ∃ t ts, ops = opened t ts ∧ (ts.length : Int) = d ∧ Levels t ts

theorem open_nil : Open [] 0 := ⟨.nil, [], rfl, rfl, trivial⟩

theorem Open.add {ops : List Op} {d : Int} {o : Op} (h : Open ops d) (ho : o.Good) :
    Open (ops ++ [o]) d := by
  obtain ⟨t, ts, rfl, hd, hlevels⟩ := h
  refine ⟨t.append (.op o .nil), ts, by rw [opened_append]; rfl, hd, ?_⟩
  exact hlevels.replace (hlevels.good.append ⟨ho, trivial⟩)

theorem Open.enter {ops : List Op} {d : Int} (h : Open ops d) (hd : d + 1 ≤ MAXDEPTH) :
    Open (ops ++ [⟨.rep, 0, 0⟩]) (d + 1) := by
  obtain ⟨t, ts, rfl, hlen, hlevels⟩ := h
  unfold MAXDEPTH at hd
  refine ⟨.nil, t :: ts, rfl, by simp [hlen], by omega, trivial, hlevels⟩

theorem Open.leave {ops : List Op} {d n : Int} (h : Open ops (d + 1)) (hd : 0 ≤ d)
    (hn : 1 ≤ n ∧ n ≤ 255) : Open (ops ++ [⟨.endrep, n, 0⟩]) d := by
  obtain ⟨t, ts, rfl, hlen, hlevels⟩ := h
  cases ts with
  | nil => simp at hlen; omega
  | cons u us =>
      refine ⟨u.append (.rep t n .nil), us, ?_, by simp at hlen; omega, ?_⟩
      · rw [opened_append]
        simp [opened, Tune.flat]
      · exact hlevels.2.2.replace
          (hlevels.2.2.good.append ⟨hlevels.1, hn, hlevels.2.1, trivial⟩)

theorem Open.tune {ops : List Op} (h : Open ops 0) : ∃ t : Tune, t.flat = ops ∧ t.Good 0 := by
  obtain ⟨t, ts, rfl, hlen, hlevels⟩ := h
  obtain rfl : ts = [] := List.length_eq_zero_iff.mp (by omega)
  exact ⟨t, rfl, hlevels⟩

/-- The second pass over a song, when `S` are the channels whose brackets are closed already but for
the operation. -/
structure Pending (S : Channel → Prop) (s : State) : Prop where
  filling : s.counting = false
  ranged : Ranged s.text
  isOpen : ∀ c, ¬S c → Open (s.ch c).ops (s.text.depth c)
  closing : ∀ c, S c → 0 ≤ s.text.depth c ∧ Open (s.ch c).ops (s.text.depth c + 1)

theorem Pending.lift {S : Channel → Prop} {α : Type} {p : Reader α} (hp : Plain true p) {s s' : State}
    {a : α} (h : Pending S s) (hrun : (liftM p : Parser α).run s = .ok (a, s')) : Pending S s' := by
  obtain ⟨t, hread, rfl⟩ := run_lift_eq_ok.mp hrun
  have hleads : Leads true s.text t := hp.of_ok hread
  have hdepth := hleads.depth
  exact
    { filling := h.filling
      ranged := hleads.ranged h.ranged
      isOpen := fun c hc => by
        show Open (s.ch c).ops (t.depth c)
        rw [hdepth]
        exact h.isOpen c hc
      closing := fun c hc => by
        show 0 ≤ t.depth c ∧ Open (s.ch c).ops (t.depth c + 1)
        rw [hdepth]
        exact h.closing c hc }

theorem ops_write {s : State} {c d : Channel} {o : Op} :
    ((s.write c o).ch d).ops = if d = c then (s.ch d).ops ++ [o] else (s.ch d).ops := by
  by_cases h : d = c
  · subst h
    simp [State.write]
  · simp [State.write, h]

theorem addop_filling {c : Channel} {code : Code} {a : Int} {b : Nat} {s s' : State} {u : Unit}
    (hs : s.counting = false) (hrun : (addop c code a b).run s = .ok (u, s')) :
    s' = s.write c ⟨code, short a, b⟩ := by
  obtain ⟨-, ⟨hcount, -⟩ | ⟨-, -, -, rfl⟩⟩ := addop_eq_ok.mp hrun
  · rw [hs] at hcount
    cases hcount
  · rfl

theorem Pending.write {s : State} {c : Channel} {o : Op} (h : Pending (fun _ => False) s)
    (ho : o.Good) : Pending (fun _ => False) (s.write c o) where
  filling := h.filling
  ranged := h.ranged
  isOpen d hd := by
    rw [ops_write]
    split_ifs
    · exact (h.isOpen d hd).add ho
    · exact h.isOpen d hd
  closing d hd := hd.elim

theorem short_eq {a : Int} (hlo : -2 ^ 15 ≤ a) (hhi : a < 2 ^ 15) : short a = a := by
  unfold short
  exact Int.bmod_eq_of_le (by omega) (by omega)

theorem Pending.addop {c : Channel} {code : Code} {a : Int} {b : Nat} {s s' : State} {u : Unit}
    (h : Pending (fun _ => False) s) (ho : Op.Good ⟨code, short a, b⟩)
    (hrun : (addop c code a b).run s = .ok (u, s')) : Pending (fun _ => False) s' := by
  rw [addop_filling h.filling hrun]
  exact h.write ho

theorem plain_good {code : Code} {a : Int} {b : Nat} (hcode : code.Plain) :
    Op.Good ⟨code, a, b⟩ := by
  simp only [Code.Plain, List.mem_cons, not_or] at hcode
  obtain ⟨hnote, hslur, hrest, hwait, htempo, hrep, hendrep, -⟩ := hcode
  exact
    { rep := hrep
      endrep := hendrep
      time := fun h => by simp [Code.Timed, hnote, hslur, hrest, hwait] at h
      tempo := fun h => absurd h htempo }

theorem tempo_good {n : Int} (hn : 0 < n ∧ n ≤ 1000) : Op.Good ⟨.tempo, short n, 0⟩ where
  rep := nofun
  endrep := nofun
  time h := by simp [Code.Timed] at h
  tempo _ := by
    show 1 ≤ short n ∧ short n ≤ 1000
    rw [short_eq (by omega) (by omega)]
    omega

theorem timed_good {code : Code} {a : Int} {b : Nat} (hcode : code.Timed) (hb : 1 ≤ b) :
    Op.Good ⟨code, a, b⟩ := by
  simp only [Code.Timed, List.mem_cons, List.not_mem_nil, or_false] at hcode
  constructor
  · rintro rfl
    simp at hcode
  · rintro rfl
    simp at hcode
  · exact fun _ => hb
  · rintro rfl
    simp at hcode

theorem le_ties (ls : List Len) (d u : Nat) : u ≤ ls.foldl (fun u l => u + l.total d) u := by
  induction ls generalizing u with
  | nil => exact le_rfl
  | cons l ls ih => exact le_trans (Nat.le_add_right u _) (ih (u + l.total d))

theorem Pending.noteadd {n : Int} {l : Len} {ls : List Len} {c : Channel} {s s' : State} {u : Unit}
    (h : Pending (fun _ => False) s) (hrun : (noteadd n l ls c).run s = .ok (u, s')) :
    Pending (fun _ => False) s' := by
  obtain ⟨o, m, hnote, hadd⟩ := run_bind_eq_ok.mp hrun
  have hm := h.lift (plain_get.bind fun _ => Moves.pure _) hnote
  obtain ⟨t, hread, rfl⟩ := run_lift_eq_ok.mp hnote
  cases hread
  refine hm.addop (timed_good ?_ ?_) hadd
  · show Code.Timed (if s.text.slurnext then .slur else .note)
    split <;> decide
  · exact le_trans (total_pos l (h.ranged.deflen c).1) (le_ties ls _ _)

theorem Pending.restadd {l : Len} {code : Code} {c : Channel} {s s' : State} {u : Unit}
    (hcode : code = .rest ∨ code = .wait) (h : Pending (fun _ => False) s)
    (hrun : (restadd l code c).run s = .ok (u, s')) : Pending (fun _ => False) s' := by
  obtain ⟨b, m, hunits, hadd⟩ := run_bind_eq_ok.mp hrun
  have hm := h.lift (plain_units l c) hunits
  obtain ⟨t, hread, rfl⟩ := run_lift_eq_ok.mp hunits
  cases hread
  refine hm.addop (timed_good ?_ (total_pos l (h.ranged.deflen c).1)) hadd
  obtain rfl | rfl := hcode <;> decide

/-- The state with one bracket more, or one less, on channel `c`. -/
def State.deepen (s : State) (c : Channel) (d : Int) : State :=
  { s with text := { s.text with depth := Function.update s.text.depth c (s.text.depth c + d) } }

@[simp] theorem depth_deepen (s : State) (c e : Channel) (d : Int) :
    (s.deepen c d).text.depth e = s.text.depth e + if e = c then d else 0 := by
  by_cases h : e = c
  · subst h
    simp [State.deepen]
  · simp [State.deepen, h]

theorem enter_eq_ok {c : Channel} {s s' : State} {u : Unit}
    (h : (liftM (enter c) : Parser Unit).run s = .ok (u, s')) :
    s.text.depth c + 1 ≤ MAXDEPTH ∧ s' = s.deepen c 1 := by
  obtain ⟨t, hrun, rfl⟩ := run_lift_eq_ok.mp h
  obtain ⟨_, m, hdeepen, hreq⟩ := run_bind_eq_ok.mp hrun
  cases hdeepen
  replace hreq : (require (Function.update s.text.depth c (s.text.depth c + 1) c ≤ MAXDEPTH)
    "[ ] nested too deep").run (s.deepen c 1).text = .ok (u, t) := hreq
  rw [require_run] at hreq
  split_ifs at hreq with hle
  · cases hreq
    rw [Function.update_self] at hle
    exact ⟨hle, rfl⟩

theorem leave_eq_ok {c : Channel} {s s' : State} {u : Unit}
    (h : (liftM (leave c) : Parser Unit).run s = .ok (u, s')) :
    0 ≤ s.text.depth c + -1 ∧ s' = s.deepen c (-1) := by
  obtain ⟨t, hrun, rfl⟩ := run_lift_eq_ok.mp h
  obtain ⟨_, m, hdeepen, hreq⟩ := run_bind_eq_ok.mp hrun
  cases hdeepen
  replace hreq : (require (0 ≤ Function.update s.text.depth c (s.text.depth c + -1) c)
    "] without [").run (s.deepen c (-1)).text = .ok (u, t) := hreq
  rw [require_run] at hreq
  split_ifs at hreq with hle
  · cases hreq
    rw [Function.update_self] at hle
    exact ⟨hle, rfl⟩

/-- `[` on one channel. -/
theorem Pending.enter {c : Channel} {s s' : State} {u : Unit} (h : Pending (fun _ => False) s)
    (hrun : (do liftM (enter c); Mml.addop c .rep 0 0 : Parser Unit).run s = .ok (u, s')) :
    Pending (fun _ => False) s' := by
  obtain ⟨_, m, henter, hadd⟩ := run_bind_eq_ok.mp hrun
  obtain ⟨hdepth, rfl⟩ := enter_eq_ok henter
  obtain rfl := addop_filling (s := s.deepen c 1) h.filling hadd
  refine ⟨h.filling, ⟨h.ranged.octave, h.ranged.deflen⟩, fun d hd => ?_, fun d hd => hd.elim⟩
  have hopen := h.isOpen d hd
  rw [ops_write]
  show Open (if d = c then (s.ch d).ops ++ _ else (s.ch d).ops) ((s.deepen c 1).text.depth d)
  rw [depth_deepen]
  split_ifs with hdc
  · subst hdc
    exact hopen.enter hdepth
  · simpa using hopen

/-- `]` on one channel: the bracket is closed, and its operation is still to come. -/
theorem Pending.leave {S : Channel → Prop} {c : Channel} {s s' : State} {u : Unit}
    (h : Pending S s) (hc : ¬S c) (hrun : (liftM (leave c) : Parser Unit).run s = .ok (u, s')) :
    Pending (fun d => d = c ∨ S d) s' := by
  obtain ⟨hdepth, rfl⟩ := leave_eq_ok hrun
  refine ⟨h.filling, ⟨h.ranged.octave, h.ranged.deflen⟩, fun d hd => ?_, fun d hd => ?_⟩
  · rw [not_or] at hd
    rw [depth_deepen, if_neg hd.1, Int.add_zero]
    exact h.isOpen d hd.2
  · rw [depth_deepen]
    show 0 ≤ _ ∧ Open (s.ch d).ops _
    by_cases hdc : d = c
    · subst hdc
      have hopen := h.isOpen d hc
      rw [if_pos rfl]
      exact ⟨hdepth, by rwa [Int.neg_add_cancel_right]⟩
    · have hclosing := h.closing d (hd.resolve_left hdc)
      rw [if_neg hdc]
      simpa using hclosing

/-- The operation of a `]` whose bracket is closed. -/
theorem Pending.close {S : Channel → Prop} {c : Channel} {n : Int} {s s' : State} {u : Unit}
    (h : Pending (fun d => d = c ∨ S d) s) (hc : ¬S c) (hn : 1 ≤ n ∧ n ≤ 255)
    (hrun : (Mml.addop c .endrep n 0).run s = .ok (u, s')) : Pending S s' := by
  rw [addop_filling h.filling hrun, short_eq (by omega) (by omega)]
  refine ⟨h.filling, h.ranged, fun d hd => ?_, fun d hd => ?_⟩
  · rw [ops_write]
    show Open _ (s.text.depth d)
    split_ifs with hdc
    · obtain ⟨hdepth, hopen⟩ := h.closing d (.inl hdc)
      exact hopen.leave hdepth hn
    · exact h.isOpen d (by simp [hdc, hd])
  · have hdc : d ≠ c := by
      rintro rfl
      exact hc hd
    rw [ops_write, if_neg hdc]
    exact h.closing d (.inr hd)

/-- The channels of the list have their brackets closed, one after the other. -/
theorem Pending.leaves {xs : List Channel} {S : Channel → Prop} {s s' : State} {u : Unit}
    (h : Pending S s) (hxs : xs.Nodup) (hS : ∀ c ∈ xs, ¬S c)
    (hrun : (liftM (xs.forM Mml.leave : Reader Unit) : Parser Unit).run s = .ok (u, s')) :
    Pending (fun d => d ∈ xs ∨ S d) s' := by
  induction xs generalizing S s with
  | nil =>
      obtain ⟨t, hread, rfl⟩ := run_lift_eq_ok.mp hrun
      cases hread
      simpa using h
  | cons c xs ih =>
      obtain ⟨t, hread, rfl⟩ := run_lift_eq_ok.mp hrun
      obtain ⟨_, m, hleave, hrest⟩ := run_bind_eq_ok.mp hread
      have hfirst := h.leave (hS c (by simp)) (run_lift_eq_ok.mpr ⟨m, hleave, rfl⟩)
      have hnext := ih hfirst (List.nodup_cons.mp hxs).2 (fun d hd => ?_)
        (run_lift_eq_ok.mpr ⟨t, hrest, rfl⟩)
      · have hset : (fun d => d ∈ c :: xs ∨ S d) = fun d => d ∈ xs ∨ d = c ∨ S d := by
          funext d
          simp only [List.mem_cons]
          exact propext (by tauto)
        rw [hset]
        exact hnext
      · rintro (rfl | hSd)
        · exact (List.nodup_cons.mp hxs).1 hd
        · exact hS d (by simp [hd]) hSd

theorem Pending.closes {xs : List Channel} {n : Int} {s s' : State} {u : Unit}
    (h : Pending (· ∈ xs) s) (hxs : xs.Nodup) (hn : 1 ≤ n ∧ n ≤ 255)
    (hrun : (xs.forM fun c => Mml.addop c .endrep n 0).run s = .ok (u, s')) :
    Pending (fun _ => False) s' := by
  induction xs generalizing s with
  | nil =>
      cases hrun
      simpa using h
  | cons c xs ih =>
      obtain ⟨_, m, hadd, hrest⟩ := run_bind_eq_ok.mp hrun
      have hclose : Pending (· ∈ xs) m := by
        refine Pending.close (c := c) ?_ (List.nodup_cons.mp hxs).1 hn hadd
        simpa only [List.mem_cons] using h
      exact ih hclose (List.nodup_cons.mp hxs).2 hrest

theorem repcount_range : Yields (fun n => 1 ≤ n ∧ n ≤ 255) repcount :=
  Yields.bind fun _ _ => Yields.bind fun _ hn => Yields.pure (require_holds hn)

theorem nodup_masked (mask : Nat) : (masked mask).Nodup :=
  List.Pairwise.filter _ (by decide : channels.Nodup)

/-- `]` -/
theorem Pending.closerep {mask : Nat} {s s' : State} {u : Unit} (h : Pending (fun _ => False) s)
    (hrun : (Mml.closerep mask).run s = .ok (u, s')) : Pending (fun _ => False) s' := by
  obtain ⟨_, m, hleave, hrest⟩ := run_bind_eq_ok.mp hrun
  obtain ⟨n, k, hcount, hadd⟩ := run_bind_eq_ok.mp hrest
  have hm := h.leaves (nodup_masked mask) (fun _ _ => id) hleave
  have hk : Pending (· ∈ masked mask) k := by
    simpa using hm.lift plain_repcount hcount
  have hn : 1 ≤ n ∧ n ≤ 255 := yields_lift repcount_range ⟨m, k, hcount⟩
  exact hk.closes (nodup_masked mask) hn hadd

instance : Std.Refl (fun s s' : State => Pending (fun _ => False) s → Pending (fun _ => False) s') :=
  ⟨fun _ h => h⟩

instance : IsTrans State
    (fun s s' : State => Pending (fun _ => False) s → Pending (fun _ => False) s') :=
  ⟨fun _ _ _ h k hs => k (h hs)⟩

theorem moves_of_ok {α : Type} {I : State → Prop} {p : Parser α}
    (h : ∀ {s a s'}, I s → p.run s = .ok (a, s') → I s') :
    Moves (fun s s' => I s → I s') (fun _ => True) p := by
  intro s
  cases hrun : p.run s with
  | error e => trivial
  | ok r => exact fun hs => h hs hrun

theorem steps_pending :
    Steps (fun s s' => Pending (fun _ => False) s → Pending (fun _ => False) s')
      (fun _ => True) where
  lift hp := moves_of_ok fun hs hrun => hs.lift hp hrun
  setcp x := moves_of_ok fun {s _ _} hs hrun => by
    obtain ⟨t, hread, rfl⟩ := run_lift_eq_ok.mp hrun
    cases hread
    exact ⟨hs.filling, ⟨hs.ranged.octave, hs.ranged.deflen⟩, hs.isOpen, hs.closing⟩
  noteadd n l ls c := moves_of_ok fun hs hrun => hs.noteadd hrun
  restadd l code c hcode := moves_of_ok fun hs hrun => hs.restadd hcode hrun
  tempo c n hn := moves_of_ok fun hs hrun => hs.addop (tempo_good hn) hrun
  addop c code a b hcode := moves_of_ok fun hs hrun => hs.addop (plain_good hcode) hrun
  openrep mask := Moves.forM fun c _ => moves_of_ok fun hs hrun => hs.enter hrun
  closerep mask := moves_of_ok fun hs hrun => hs.closerep hrun
  wavechecked n := moves_of_ok fun hs hrun => by
    obtain ⟨-, rfl⟩ := wavechecked_eq_ok.mp hrun
    exact hs
  macrotext n := moves_of_ok fun hs hrun => by
    obtain ⟨-, -, rfl⟩ := macrotext_eq_ok.mp hrun
    exact hs
  setwave n w := moves_of_ok fun hs hrun => by
    cases hrun
    exact ⟨hs.filling, hs.ranged, hs.isOpen, hs.closing⟩
  setmacro n x := moves_of_ok fun hs hrun => by
    cases hrun
    exact ⟨hs.filling, hs.ranged, hs.isOpen, hs.closing⟩

theorem pending_between {s : State} (hclosed : ∀ c, s.text.depth c = 0) :
    Pending (fun _ => False) s.between where
  filling := rfl
  ranged := ⟨fun _ => by show (1 : Int) ≤ 4 ∧ (4 : Int) ≤ 8; decide, fun _ => by
    show 1 ≤ WHOLE / 4 ∧ WHOLE / 4 ≤ 4 * WHOLE
    decide⟩
  isOpen c _ := by
    rw [between_ch, ops_alloc]
    show Open [] (s.text.depth c)
    rw [hclosed c]
    exact open_nil
  closing c hc := hc.elim

/-- The channels of a song that has been parsed are tunes. -/
theorem load_tune {n : Nat} {x : List Char} {s : State} (h : load n x = .ok s) (c : Channel) :
    ∃ t : Tune, t.flat = (s.ch c).ops ∧ t.Good 0 := by
  obtain ⟨m, hcount, hfill⟩ := bind_eq_ok.mp h
  have hfirst := map_snd_eq_ok.mp hcount
  have hsecond := map_snd_eq_ok.mp hfill
  have hpending := (steps_pending.parse trivial n 0 x).of_ok hsecond
    (pending_between fun c => parse_closed hfirst c)
  have hopen := hpending.isOpen c id
  rw [parse_closed hsecond c] at hopen
  exact hopen.tune

end DiscoBsd.Mml
