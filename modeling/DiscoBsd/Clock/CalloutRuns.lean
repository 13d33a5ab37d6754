import Mathlib.Data.List.FinRange
import Mathlib.Data.List.Range
import DiscoBsd.Clock.Callouts
import DiscoBsd.Lib.Steps

/-!
# When callouts run

Runs of `timeout`, `untimeout`, `hardclock` and `softclock` in any order. `softclock` is taken apart
into its beginning, its calls and its end, so that ticks may come in between and the functions that
it calls may set and remove callouts. `callouts_run` says that every call of `timeout` is pending,
removed or run, each of them once, and that what runs does so in the first `softclock` that ends at
or after its deadline, but not before the deadline.
-/

namespace DiscoBsd.Clock

open DiscoBsd.Lib

variable {n : Nat} {Func Arg : Type*}

/-- A call of `timeout`, with the ticks so far. -/
structure Entry (Func Arg : Type*) where
  func : Func
  arg : Arg
  t : Int
  setAt : Nat

/-- When the function is to be called: after `max t 1` more ticks. -/
def Entry.due (e : Entry Func Arg) : Int := e.setAt + max e.t 1

/-- A call that `softclock` makes: of which entry, when, and when the last `softclock` before it ended. -/
structure Ran (Func Arg : Type*) where
  id : Nat
  func : Option Func
  arg : Option Arg
  now : Nat
  swept : Nat

/-- The callout table with its history. `now` counts the ticks, the calls of `timeout` are numbered, and
`owner` is the one that a callout was last used for. `soft` says whether `softclock` is at work;
`swept` is when it ended last. -/
structure World (n : Nat) (Func Arg : Type*) where
  k : Callouts n Func Arg
  now : Nat
  calls : List (Entry Func Arg)
  owner : Fin n → Nat
  ran : List (Ran Func Arg)
  removed : List Nat
  soft : Bool
  swept : Nat

inductive Action (Func Arg : Type*) where
  | hardclock
  | timeout (func : Func) (arg : Arg) (t : Int)
  | untimeout (func : Func) (arg : Arg)
  | enter
  | call
  | leave

namespace World

/-- The deadline of an entry. -/
def due (w : World n Func Arg) (id : Nat) : Int := (w.calls[id]?.map Entry.due).getD 0

/-- The table after `coutinit`. -/
def boot (n : Nat) : World n Func Arg where
  k := .coutinit n
  now := 0
  calls := []
  owner := fun _ => 0
  ran := []
  removed := []
  soft := false
  swept := 0

variable [DecidableEq Func] [DecidableEq Arg]

/-- What an action does; `none` where it is not possible. -/
def step (w : World n Func Arg) : Action Func Arg → Option (World n Func Arg)
  | .hardclock => w.k.hardclock.map fun k => { w with k := k, now := w.now + 1 }
  | .timeout func arg t => (w.k.timeout func arg t).map fun r =>
      { w with
        k := r.2
        owner := Function.update w.owner r.1 w.calls.length
        calls := w.calls ++ [⟨func, arg, t, w.now⟩] }
  | .untimeout func arg => (w.k.untimeout func arg).map fun r =>
      { w with
        k := r.2
        removed := w.removed ++ (r.1.map w.owner).toList }
  | .enter => if w.soft then none else some { w with soft := true }
  | .call =>
      if w.soft then w.k.front.map fun p =>
        { w with
          k := w.k.takeFront p
          ran := w.ran ++ [⟨w.owner p, w.k.c_func p, w.k.c_arg p, w.now, w.swept⟩] }
      else none
  | .leave =>
      if w.soft && w.k.front.isNone then some { w with soft := false, swept := w.now } else none

omit [DecidableEq Func] [DecidableEq Arg] in
/-- `t` is an `int`, and no tick finds an entry that has been overdue for `2 ^ 31` ticks. -/
def Timely (w : World n Func Arg) : Action Func Arg → Prop
  | .hardclock => ∀ id < w.calls.length, id ∉ w.ran.map Ran.id → id ∉ w.removed →
      w.now < w.due id + 2 ^ 31
  | .timeout _ _ t => t < 2 ^ 31
  | _ => True

def Step (w : World n Func Arg) (a : Action Func Arg) (w' : World n Func Arg) : Prop :=
  w.Timely a ∧ w.step a = some w'

end World

/-! ## The invariant -/

/-- What is known of the callouts that are pending. -/
structure Pending (w : World n Func Arg) (todo free : List (Fin n)) : Prop where
  holds : Holds w.k todo free
  deltas : Deltas w.k.c_time (fun p => w.due (w.owner p)) w.now w.now todo
  early : ∀ p ∈ todo, w.due (w.owner p) - w.now < 2 ^ 31
  late : ∀ p ∈ todo, w.swept < w.due (w.owner p)
  entry : ∀ p ∈ todo, ∃ e, w.calls[w.owner p]? = some e ∧ w.k.c_func p = some e.func ∧
    w.k.c_arg p = some e.arg

/-- What is known of the calls that were made. -/
structure Ran.Fine (w : World n Func Arg) (r : Ran Func Arg) : Prop where
  first : r.swept < w.due r.id
  due : w.due r.id ≤ r.now
  past : r.now ≤ w.now
  entry : ∃ e, w.calls[r.id]? = some e ∧ r.func = some e.func ∧ r.arg = some e.arg

/-- The invariant: every entry is pending, run or removed, and only one of these. -/
def Sound (w : World n Func Arg) : Prop :=
  ∃ todo free, Pending w todo free ∧ (∀ r ∈ w.ran, r.Fine w) ∧ w.swept ≤ w.now ∧
    (todo.map w.owner ++ w.ran.map Ran.id ++ w.removed).Perm (List.range w.calls.length)

/-- After `coutinit` the free callouts are chained in the order of the table. -/
theorem coutinit_spare (n i : Nat) :
    Chain (Callouts.coutinit n : Callouts n Func Arg).c_next
      (if h : i < n then some ⟨i, h⟩ else none) ((List.finRange n).drop i) := by
  induction hleft : n - i generalizing i with
  | zero =>
      have hge : n ≤ i := by omega
      rw [dif_neg (by omega), List.drop_eq_nil_of_le (by simpa using hge)]
      rfl
  | succ left ih =>
      have hlt : i < n := by omega
      rw [dif_pos hlt, List.drop_eq_getElem_cons (by simpa using hlt)]
      refine ⟨by simp, ?_⟩
      simpa [Callouts.coutinit] using ih (i + 1) (by omega)

theorem sound_boot (n : Nat) : Sound (World.boot n : World n Func Arg) := by
  refine ⟨[], List.finRange n, ⟨⟨rfl, ?_, List.nodup_finRange n, List.mem_finRange⟩, trivial, nofun,
    nofun, nofun⟩, nofun, le_refl 0, .refl _⟩
  exact coutinit_spare n 0

variable {w w' : World n Func Arg} {todo free : List (Fin n)}

theorem World.due_append {id : Nat} (hcalls : ∃ more, w'.calls = w.calls ++ more)
    (hid : id < w.calls.length) : w'.due id = w.due id := by
  obtain ⟨more, hmore⟩ := hcalls
  unfold World.due
  rw [hmore, List.getElem?_append_left hid]

theorem Ran.Fine.mono {r : Ran Func Arg} (h : r.Fine w) (hnow : w.now ≤ w'.now)
    (hcalls : ∃ more, w'.calls = w.calls ++ more) : r.Fine w' := by
  obtain ⟨e, he, hfunc, harg⟩ := h.entry
  have hid := (List.getElem?_eq_some_iff.mp he).1
  have hdue := World.due_append hcalls hid
  obtain ⟨more, hmore⟩ := hcalls
  refine ⟨hdue ▸ h.first, hdue ▸ h.due, h.past.trans hnow, e, ?_, hfunc, harg⟩
  rw [hmore, List.getElem?_append_left hid]
  exact he

/-- A pending entry has been set, and was neither called nor removed. -/
theorem pending_only
    (hperm : (todo.map w.owner ++ w.ran.map Ran.id ++ w.removed).Perm (List.range w.calls.length))
    {p : Fin n} (hp : p ∈ todo) :
    w.owner p < w.calls.length ∧ w.owner p ∉ w.ran.map Ran.id ∧ w.owner p ∉ w.removed := by
  have howner : w.owner p ∈ todo.map w.owner := List.mem_map_of_mem hp
  have hnodup := hperm.nodup_iff.mpr List.nodup_range
  obtain ⟨hnodup, -, hremoved⟩ := List.nodup_append.mp hnodup
  obtain ⟨-, -, hran⟩ := List.nodup_append.mp hnodup
  refine ⟨?_, fun hmem => hran _ howner _ hmem rfl, fun hmem =>
    hremoved _ (List.mem_append_left _ howner) _ hmem rfl⟩
  exact List.mem_range.mp (hperm.mem_iff.mp
    (List.mem_append_left _ (List.mem_append_left _ howner)))

section Steps

variable [DecidableEq Func] [DecidableEq Arg]

theorem sound_hardclock (h : Sound w) (htimely : w.Timely .hardclock) :
    ∃ w', w.step .hardclock = some w' ∧ Sound w' := by
  obtain ⟨todo, free, hpending, hran, hswept, hperm⟩ := h
  have hlate : ∀ p ∈ todo, (w.now : Int) < w.due (w.owner p) + 2 ^ 31 := by
    intro p hp
    obtain ⟨hset, hnot, hkept⟩ := pending_only hperm hp
    exact htimely _ hset hnot hkept
  obtain ⟨times, hrun, htimes⟩ :=
    hardclock_spec hpending.holds hpending.deltas hlate hpending.early
  refine ⟨{ w with k := { w.k with c_time := times }, now := w.now + 1 }, ?_, todo, free, ?_, ?_,
    Nat.le_succ_of_le hswept, hperm⟩
  · dsimp only [World.step]
    rw [hrun]
    rfl
  · refine ⟨hpending.holds.congr rfl rfl, ?_, ?_, hpending.late, hpending.entry⟩
    · have hsucc : ((w.now + 1 : Nat) : Int) = w.now + 1 := by push_cast; rfl
      show Deltas times _ ((w.now + 1 : Nat) : Int) ((w.now + 1 : Nat) : Int) todo
      rw [hsucc]
      exact htimes
    · intro p hp
      have hearly := hpending.early p hp
      show w.due (w.owner p) - ((w.now + 1 : Nat) : Int) < 2 ^ 31
      omega
  · exact fun r hr => (hran r hr).mono (Nat.le_succ _) ⟨[], (List.append_nil _).symm⟩

theorem sound_timeout (h : Sound w) (func : Func) (arg : Arg) {t : Int} (ht : t < 2 ^ 31)
    (hfree : w.k.callfree ≠ none) : ∃ w', w.step (.timeout func arg t) = some w' ∧ Sound w' := by
  obtain ⟨todo, free, hpending, hran, hswept, hperm⟩ := h
  cases free with
  | nil => exact absurd hpending.holds.spare.ptr_eq hfree
  | cons pnew free =>
      obtain ⟨k', pre, suf, rfl, hrun, hholds, hdeltas, harg, hfunc⟩ :=
        timeout_spec hpending.holds hpending.deltas hpending.early ht func arg
      let w' : World n Func Arg := { w with
        k := k'
        owner := Function.update w.owner pnew w.calls.length
        calls := w.calls ++ [⟨func, arg, t, w.now⟩] }
      have hnew : pnew ∉ pre ++ suf := fun hmem =>
        (List.nodup_append.mp hpending.holds.nodup).2.2 pnew hmem pnew List.mem_cons_self rfl
      have hmore : ∃ more, w'.calls = w.calls ++ more := ⟨_, rfl⟩
      have hmem : ∀ p ∈ pre ++ pnew :: suf, p = pnew ∨ p ≠ pnew ∧ p ∈ pre ++ suf := by
        intro p hp
        by_cases heq : p = pnew
        · exact Or.inl heq
        · exact Or.inr ⟨heq, (List.mem_cons.mp (List.perm_middle.mem_iff.mp hp)).resolve_left heq⟩
      have howner : w'.owner pnew = w.calls.length := Function.update_self ..
      have howners : ∀ p, p ≠ pnew → w'.owner p = w.owner p := fun p hp =>
        Function.update_of_ne hp ..
      have hdue : w'.due (w'.owner pnew) = w.now + max t 1 := by
        unfold World.due
        rw [howner]
        simp [w', Entry.due]
      have hdues : ∀ p ∈ pre ++ suf, p ≠ pnew → w'.due (w'.owner p) = w.due (w.owner p) := by
        intro p hp hne
        rw [howners p hne]
        exact World.due_append hmore (pending_only hperm hp).1
      refine ⟨w', ?_, pre ++ pnew :: suf, free, ⟨hholds, ?_, ?_, ?_, ?_⟩, ?_, hswept, ?_⟩
      · dsimp only [World.step]
        rw [hrun]
        rfl
      · refine hdeltas.congr (fun _ _ => rfl) fun p hp => ?_
        rcases hmem p hp with rfl | ⟨hne, hp⟩
        · rw [Function.update_self]
          exact hdue
        · rw [Function.update_of_ne hne]
          exact hdues p hp hne
      · intro p hp
        show w'.due (w'.owner p) - w.now < 2 ^ 31
        rcases hmem p hp with rfl | ⟨hne, hp⟩
        · rw [hdue]
          omega
        · rw [hdues p hp hne]
          exact hpending.early p hp
      · intro p hp
        show (w.swept : Int) < w'.due (w'.owner p)
        rcases hmem p hp with rfl | ⟨hne, hp⟩
        · rw [hdue]
          omega
        · rw [hdues p hp hne]
          exact hpending.late p hp
      · intro p hp
        show ∃ e, (w.calls ++ [_])[w'.owner p]? = some e ∧ k'.c_func p = _ ∧ k'.c_arg p = _
        rcases hmem p hp with rfl | ⟨hne, hp⟩
        · refine ⟨⟨func, arg, t, w.now⟩, ?_, ?_, ?_⟩
          · rw [howner]
            exact List.getElem?_concat_length
          · rw [hfunc, Function.update_self]
          · rw [harg, Function.update_self]
        · obtain ⟨e, he, hefunc, hearg⟩ := hpending.entry p hp
          refine ⟨e, ?_, ?_, ?_⟩
          · rw [howners p hne, List.getElem?_append_left (pending_only hperm hp).1]
            exact he
          · rw [hfunc, Function.update_of_ne hne]
            exact hefunc
          · rw [harg, Function.update_of_ne hne]
            exact hearg
      · exact fun r hr => (hran r hr).mono (le_refl _) hmore
      · have hkept : (pre ++ suf).map w'.owner = (pre ++ suf).map w.owner := by
          refine List.map_congr_left fun p hp => howners p ?_
          rintro rfl
          exact hnew hp
        have hhead : ((pre ++ pnew :: suf).map w'.owner).Perm
            (w.calls.length :: (pre ++ suf).map w.owner) := by
          rw [← hkept, ← howner, ← List.map_cons]
          exact List.perm_middle.map _
        have hlength : w'.calls.length = w.calls.length + 1 := by simp [w']
        rw [hlength, List.range_succ]
        calc List.Perm _
              (w.calls.length :: (pre ++ suf).map w.owner ++ w.ran.map Ran.id ++ w.removed) :=
              (hhead.append_right _).append_right _
          List.Perm _ (w.calls.length :: List.range w.calls.length) := hperm.cons _
          List.Perm _ (List.range w.calls.length ++ [w.calls.length]) :=
              (List.perm_append_singleton _ _).symm

/-- `untimeout` removes an entry for the function and argument, if one is pending. -/
def World.Removes (w : World n Func Arg) (func : Func) (arg : Arg) (removed : List Nat) : Prop :=
  (removed = w.removed ∧ ∀ id, id ∉ w.ran.map Ran.id → id ∉ w.removed →
      ∀ e, w.calls[id]? = some e → ¬ (e.func = func ∧ e.arg = arg)) ∨
    ∃ id e, removed = w.removed ++ [id] ∧ id ∉ w.ran.map Ran.id ∧ id ∉ w.removed ∧
      w.calls[id]? = some e ∧ e.func = func ∧ e.arg = arg

theorem sound_untimeout (h : Sound w) (func : Func) (arg : Arg) :
    ∃ w', w.step (.untimeout func arg) = some w' ∧ Sound w' ∧ w.Removes func arg w'.removed := by
  obtain ⟨todo, free, hpending, hran, hswept, hperm⟩ := h
  rcases remove_spec hpending.holds.pending (Nat.lt_succ_of_le hpending.holds.length_le) func arg
    with ⟨hnone, hother⟩ | ⟨pre, p, suf, rfl, hfor, hsome⟩
  · refine ⟨w, ?_, ⟨todo, free, hpending, hran, hswept, hperm⟩, Or.inl ⟨rfl, ?_⟩⟩
    · dsimp only [World.step, Callouts.untimeout]
      rw [hnone]
      simp
    · intro id hnot hkept e he
      have hid := List.mem_range.mpr (List.getElem?_eq_some_iff.mp he).1
      rcases List.mem_append.mp (hperm.mem_iff.mpr hid) with hmem | hmem
      · obtain ⟨p, hp, rfl⟩ :=
          List.mem_map.mp ((List.mem_append.mp hmem).resolve_right hnot)
        obtain ⟨e', he', hfunc, harg⟩ := hpending.entry p hp
        cases Option.some.inj (he.symm.trans he')
        rintro ⟨rfl, rfl⟩
        exact hother p hp ⟨hfunc, harg⟩
      · exact absurd hmem hkept
  · obtain ⟨hholds, hdeltas, harg, hfunc⟩ :=
      unlink_spec hpending.holds hpending.deltas hpending.early
    have hmem : ∀ q ∈ pre ++ suf, q ∈ pre ++ p :: suf := fun q hq =>
      List.perm_middle.mem_iff.mpr (List.mem_cons_of_mem p hq)
    have hp : p ∈ pre ++ p :: suf := List.mem_append_right pre List.mem_cons_self
    obtain ⟨e, he, hefunc, hearg⟩ := hpending.entry p hp
    obtain ⟨-, hnot, hkept⟩ := pending_only hperm hp
    refine ⟨{ w with k := w.k.unlink (place none pre) p, removed := w.removed ++ [w.owner p] }, ?_,
      ⟨pre ++ suf, p :: free, ⟨hholds, hdeltas, fun q hq => hpending.early q (hmem q hq),
        fun q hq => hpending.late q (hmem q hq), ?_⟩, ?_, hswept, ?_⟩,
      Or.inr ⟨w.owner p, e, rfl, hnot, hkept, he, ?_, ?_⟩⟩
    · dsimp only [World.step, Callouts.untimeout]
      rw [hsome]
      rfl
    · intro q hq
      show ∃ e, _ ∧ (w.k.unlink _ p).c_func q = _ ∧ (w.k.unlink _ p).c_arg q = _
      rw [harg, hfunc]
      exact hpending.entry q (hmem q hq)
    · exact fun r hr => (hran r hr).mono (le_refl _) ⟨[], (List.append_nil _).symm⟩
    · have hout : ((pre ++ p :: suf).map w.owner).Perm (w.owner p :: (pre ++ suf).map w.owner) :=
        List.perm_middle.map _
      have hone := (hout.append_right (w.ran.map Ran.id)).append_right w.removed
      refine List.Perm.trans ?_ (hone.symm.trans hperm)
      rw [← List.append_assoc]
      exact List.perm_append_singleton _ _
    · exact Option.some.inj (hefunc.symm.trans hfor.1)
    · exact Option.some.inj (hearg.symm.trans hfor.2)

/-- The next turn of the loop of `softclock`. -/
theorem sound_softclock (h : Sound w) (hsoft : w.soft = true) :
    (∃ w', w.step .call = some w' ∧ Sound w') ∨ ∃ w', w.step .leave = some w' ∧ Sound w' := by
  obtain ⟨todo, free, hpending, hran, hswept, hperm⟩ := h
  rcases front_spec hpending.holds hpending.deltas with
    ⟨p, suf, rfl, hfront, hdue⟩ | ⟨hfront, hlater⟩
  · left
    obtain ⟨hholds, hdeltas, harg, hfunc⟩ :=
      unlink_spec (by exact hpending.holds : Holds w.k ([] ++ p :: suf) free) hpending.deltas
        hpending.early
    obtain ⟨e, he, hefunc, hearg⟩ := hpending.entry p List.mem_cons_self
    let w' : World n Func Arg := { w with
      k := w.k.takeFront p
      ran := w.ran ++ [⟨w.owner p, w.k.c_func p, w.k.c_arg p, w.now, w.swept⟩] }
    have hk : w'.k = w.k.unlink none p := takeFront_eq hfront
    have hmem : ∀ q ∈ suf, q ∈ p :: suf := fun q hq => List.mem_cons_of_mem p hq
    refine ⟨w', ?_, suf, p :: free, ⟨?_, ?_, fun q hq => hpending.early q (hmem q hq),
      fun q hq => hpending.late q (hmem q hq), ?_⟩, ?_, hswept, ?_⟩
    · dsimp only [World.step]
      rw [if_pos hsoft, hfront]
      rfl
    · rw [hk]
      exact hholds
    · rw [hk]
      exact hdeltas
    · intro q hq
      rw [hk]
      show ∃ e, _ ∧ (w.k.unlink none p).c_func q = _ ∧ (w.k.unlink none p).c_arg q = _
      have hargs : (w.k.unlink none p).c_arg = w.k.c_arg := harg
      have hfuncs : (w.k.unlink none p).c_func = w.k.c_func := hfunc
      rw [hargs, hfuncs]
      exact hpending.entry q (hmem q hq)
    · intro r hr
      rcases List.mem_append.mp hr with hr | hr
      · exact (hran r hr).mono (le_refl _) ⟨[], (List.append_nil _).symm⟩
      · cases List.mem_singleton.mp hr
        exact ⟨hpending.late p List.mem_cons_self, hdue, le_refl _, e, he, hefunc, hearg⟩
    · refine List.Perm.trans ?_ hperm
      show List.Perm (suf.map w.owner ++ (w.ran ++ [_]).map Ran.id ++ w.removed)
        ((p :: suf).map w.owner ++ w.ran.map Ran.id ++ w.removed)
      refine List.Perm.append_right w.removed ?_
      rw [List.map_append, ← List.append_assoc]
      exact List.perm_append_singleton _ _
  · right
    refine ⟨{ w with soft := false, swept := w.now }, ?_, todo, free, ⟨hpending.holds,
      hpending.deltas, hpending.early, hlater, hpending.entry⟩, ?_, le_refl _, hperm⟩
    · dsimp only [World.step]
      rw [hsoft, hfront]
      rfl
    · exact fun r hr => (hran r hr).mono (le_refl _) ⟨[], (List.append_nil _).symm⟩

theorem call_or_leave {w₁ w₂ : World n Func Arg} (hcall : w.step .call = some w₁) :
    w.step .leave ≠ some w₂ := by
  dsimp only [World.step] at *
  split at hcall
  · cases hfront : w.k.front with
    | none => simp [hfront] at hcall
    | some p => simp
  · cases hcall

/-- Every action keeps the invariant. -/
theorem sound_step {a : Action Func Arg} (h : Sound w) (hstep : w.Step a w') : Sound w' := by
  obtain ⟨htimely, hstep⟩ := hstep
  cases a with
  | hardclock =>
      obtain ⟨w₁, hrun, hsound⟩ := sound_hardclock h htimely
      rwa [← Option.some.inj (hrun.symm.trans hstep)]
  | timeout func arg t =>
      by_cases hfree : w.k.callfree = none
      · dsimp only [World.step, Callouts.timeout] at hstep
        rw [hfree] at hstep
        cases hstep
      · obtain ⟨w₁, hrun, hsound⟩ := sound_timeout h func arg htimely hfree
        rwa [← Option.some.inj (hrun.symm.trans hstep)]
  | untimeout func arg =>
      obtain ⟨w₁, hrun, hsound, -⟩ := sound_untimeout h func arg
      rwa [← Option.some.inj (hrun.symm.trans hstep)]
  | enter =>
      dsimp only [World.step] at hstep
      split at hstep
      · cases hstep
      · cases hstep
        obtain ⟨todo, free, hpending, hran, hswept, hperm⟩ := h
        exact ⟨todo, free, ⟨hpending.holds, hpending.deltas, hpending.early, hpending.late,
          hpending.entry⟩, fun r hr => (hran r hr).mono (le_refl _)
            ⟨[], (List.append_nil _).symm⟩, hswept, hperm⟩
  | call =>
      have hsoft : w.soft = true := by
        by_contra hnot
        dsimp only [World.step] at hstep
        rw [if_neg hnot] at hstep
        cases hstep
      rcases sound_softclock h hsoft with ⟨w₁, hrun, hsound⟩ | ⟨w₁, hrun, -⟩
      · rwa [← Option.some.inj (hrun.symm.trans hstep)]
      · exact absurd hrun (call_or_leave hstep)
  | leave =>
      have hsoft : w.soft = true := by
        by_contra hnot
        dsimp only [World.step] at hstep
        rw [if_neg (by simp [hnot])] at hstep
        cases hstep
      rcases sound_softclock h hsoft with ⟨w₁, hrun, -⟩ | ⟨w₁, hrun, hsound⟩
      · exact absurd hstep (call_or_leave hrun)
      · rwa [← Option.some.inj (hrun.symm.trans hstep)]

/-! ## Without a tick -/

/-- A step other than a tick. -/
def World.Quiet (w : World n Func Arg) (a : Action Func Arg) (w' : World n Func Arg) : Prop :=
  a ≠ .hardclock ∧ w.Step a w'

theorem quiet_step {a : Action Func Arg} (h : w.Quiet a w') :
    w'.now = w.now ∧ ∃ more, w'.calls = w.calls ++ more ∧ ∀ e ∈ more, e.setAt = w.now := by
  obtain ⟨hquiet, -, hstep⟩ := h
  cases a <;> dsimp only [World.step] at hstep
  case hardclock => exact absurd rfl hquiet
  case timeout func arg t =>
      obtain ⟨r, -, rfl⟩ := Option.map_eq_some_iff.mp hstep
      refine ⟨rfl, _, rfl, fun e he => ?_⟩
      cases List.mem_singleton.mp he
      rfl
  case untimeout func arg =>
      obtain ⟨r, -, rfl⟩ := Option.map_eq_some_iff.mp hstep
      exact ⟨rfl, [], (List.append_nil _).symm, nofun⟩
  case enter =>
      split at hstep
      · cases hstep
      · cases hstep
        exact ⟨rfl, [], (List.append_nil _).symm, nofun⟩
  case call =>
      split at hstep
      · obtain ⟨r, -, rfl⟩ := Option.map_eq_some_iff.mp hstep
        exact ⟨rfl, [], (List.append_nil _).symm, nofun⟩
      · cases hstep
  case leave =>
      split at hstep
      · cases hstep
        exact ⟨rfl, [], (List.append_nil _).symm, nofun⟩
      · cases hstep

/-- What is set without a tick is not due without one: only entries that are there run. -/
theorem quiet_bounded {actions : List (Action Func Arg)} (h : Sound w)
    (hrun : Steps World.Quiet w actions w') : w'.ran.length ≤ w.calls.length := by
  obtain ⟨hsound, hnow, more, hmore, hset⟩ := hrun.invariant
    (fun w' => Sound w' ∧ w'.now = w.now ∧
      ∃ more, w'.calls = w.calls ++ more ∧ ∀ e ∈ more, e.setAt = w.now)
    (by
      rintro w₁ a w₂ ⟨hsound, hnow, more, hmore, hset⟩ hquiet
      obtain ⟨hnow', more', hmore', hset'⟩ := quiet_step hquiet
      refine ⟨sound_step hsound hquiet.2, hnow'.trans hnow, more ++ more', ?_, fun e he => ?_⟩
      · rw [hmore', hmore, List.append_assoc]
      · rcases List.mem_append.mp he with he | he
        · exact hset e he
        · exact (hset' e he).trans hnow)
    ⟨h, rfl, [], (List.append_nil _).symm, nofun⟩
  obtain ⟨todo, free, -, hran, -, hperm⟩ := hsound
  have hnodup : (w'.ran.map Ran.id).Nodup :=
    (hperm.nodup_iff.mpr List.nodup_range).of_append_left.of_append_right
  have hold : w'.ran.map Ran.id ⊆ List.range w.calls.length := by
    intro id hid
    obtain ⟨r, hr, rfl⟩ := List.mem_map.mp hid
    obtain ⟨-, hdue, hpast, e, he, -, -⟩ := hran r hr
    by_contra hnot
    have hge : w.calls.length ≤ r.id := by simpa using hnot
    have hsetAt : e.setAt = w.now := by
      rw [hmore, List.getElem?_append_right hge] at he
      exact hset e (List.mem_of_getElem? he)
    have hlater : w'.due r.id = e.due := by
      unfold World.due
      rw [he]
      rfl
    rw [hlater, Entry.due, hsetAt] at hdue
    omega
  calc w'.ran.length = (w'.ran.map Ran.id).length := (List.length_map _).symm
    _ ≤ (List.range w.calls.length).length := (hnodup.subperm hold).length_le
    _ = w.calls.length := List.length_range

/-! ## Runs -/

/-- What holds after a run. -/
structure World.Correct (w : World n Func Arg) : Prop where
  /-- Every callout is on one of the lists; every entry is pending, run or removed, only one of these,
  and what is pending was not due at the end of the last `softclock`. -/
  lists : ∃ todo free, Holds w.k todo free ∧ (∀ p ∈ todo, (w.swept : Int) < w.due (w.owner p)) ∧
    (todo.map w.owner ++ w.ran.map Ran.id ++ w.removed).Perm (List.range w.calls.length)
  /-- What ran did so with its function and argument, not before its deadline, and when no `softclock`
  had ended since then. -/
  ran : ∀ r ∈ w.ran, r.Fine w
  hardclock : w.Timely .hardclock → ∃ w', w.step .hardclock = some w'
  timeout : ∀ func arg t, t < 2 ^ 31 → w.k.callfree ≠ none →
    ∃ w', w.step (.timeout func arg t) = some w'
  untimeout : ∀ func arg, ∃ w', w.step (.untimeout func arg) = some w' ∧
    w.Removes func arg w'.removed
  /-- `softclock` goes on until nothing is due, and it comes to an end. -/
  softclock : w.soft = true → (∃ w', w.step .call = some w') ∨ ∃ w', w.step .leave = some w'
  ends : ∀ actions w', Steps World.Quiet w actions w' → w'.ran.length ≤ w.calls.length

/-- Every entry runs exactly once, in the first `softclock` after its ticks, or is removed. -/
theorem callouts_run {actions : List (Action Func Arg)}
    (hrun : Steps World.Step (World.boot n) actions w) : w.Correct := by
  have hsound : Sound w := hrun.invariant Sound (fun _ _ _ => sound_step) (sound_boot n)
  have hlists := hsound
  obtain ⟨todo, free, hpending, hran, -, hperm⟩ := hlists
  refine ⟨⟨todo, free, hpending.holds, hpending.late, hperm⟩, hran, fun htimely => ?_,
    fun func arg t ht hfree => ?_, fun func arg => ?_, fun hsoft => ?_,
    fun _ _ hquiet => quiet_bounded hsound hquiet⟩
  · obtain ⟨w', hstep, -⟩ := sound_hardclock hsound htimely
    exact ⟨w', hstep⟩
  · obtain ⟨w', hstep, -⟩ := sound_timeout hsound func arg ht hfree
    exact ⟨w', hstep⟩
  · obtain ⟨w', hstep, -, hremoves⟩ := sound_untimeout hsound func arg
    exact ⟨w', hstep, hremoves⟩
  · rcases sound_softclock hsound hsoft with ⟨w', hstep, -⟩ | ⟨w', hstep, -⟩
    · exact Or.inl ⟨w', hstep⟩
    · exact Or.inr ⟨w', hstep⟩

end Steps

local instance oneNeZero : NeZero 1 := ⟨by decide⟩

/-- An entry that waits for `softclock`, after so many ticks. -/
def waiting (ticks : Nat) : World 1 Unit Unit where
  k := {
    c_time := fun _ => int32 (1 - ticks)
    c_arg := fun _ => some ()
    c_func := fun _ => some ()
    c_next := fun node => match node with
      | none => some 0
      | some _ => none
    callfree := none }
  now := ticks
  calls := [⟨(), (), 1, 0⟩]
  owner := fun _ => 0
  ran := []
  removed := []
  soft := false
  swept := 0

theorem waiting_set : (World.boot 1 : World 1 Unit Unit).step (.timeout () () 1) =
    some (waiting 0) := by
  dsimp only [World.step, waiting, Callouts.timeout, World.boot, Callouts.coutinit,
    Callouts.search, Callouts.link]
  rw [dif_pos Nat.zero_lt_one]
  simp only [Option.map_some, Option.some.injEq, World.mk.injEq, Callouts.mk.injEq]
  refine ⟨⟨funext fun p => ?_, funext fun p => ?_, funext fun p => ?_, funext fun node => ?_, ?_⟩,
    trivial, rfl, funext fun p => ?_, trivial, trivial, trivial, trivial⟩
  · rw [Subsingleton.elim p 0]
    decide
  · rw [Subsingleton.elim p 0]
    decide
  · rw [Subsingleton.elim p 0]
    decide
  · cases node with
    | none => decide
    | some p =>
        rw [Subsingleton.elim p 0]
        decide
  · decide
  · rw [Subsingleton.elim p 0]
    decide

theorem waiting_tick (ticks : Nat) :
    (waiting ticks).step .hardclock = some (waiting (ticks + 1)) := by
  have htime : Function.update (fun _ => int32 (1 - ticks)) (0 : Fin 1)
      (int32 (int32 (1 - ticks) - 1)) = fun _ => int32 (1 - (ticks + 1 : Nat)) := by
    funext p
    rw [Subsingleton.elim p 0, Function.update_self]
    rw [int32_sub]
    congr 1
    omega
  dsimp only [World.step, waiting, Callouts.hardclock, Callouts.countdown]
  rw [htime]
  split
  · rfl
  · split <;> rfl

theorem waiting_ticks (ticks : Nat) {actions : List (Action Unit Unit)} {w : World 1 Unit Unit}
    (hrun : Steps (Steps.Of World.step) (waiting ticks) actions w) :
    Steps (Steps.Of World.step) (waiting 0) (List.replicate ticks .hardclock ++ actions) w := by
  induction ticks generalizing actions with
  | zero => exact hrun
  | succ ticks ih =>
      rw [List.replicate_succ', List.append_assoc]
      exact ih (.cons (waiting_tick ticks) hrun)

instance decidableTimely (w : World n Func Arg) : ∀ a, Decidable (w.Timely a)
  | .hardclock => inferInstanceAs (Decidable (∀ id < w.calls.length, id ∉ w.ran.map Ran.id →
      id ∉ w.removed → (w.now : Int) < w.due id + 2 ^ 31))
  | .timeout _ _ t => inferInstanceAs (Decidable (t < 2 ^ 31))
  | .untimeout _ _ | .enter | .call | .leave => inferInstanceAs (Decidable True)

/-- Two entries; the second one is due first. -/
def twoEntries : List (Action Bool Unit) :=
  [.timeout false () 2, .timeout true () 1, .hardclock, .enter, .call, .leave, .untimeout false ()]

/-- The second entry is run after its tick, and the first one is removed. -/
theorem callouts_run_one : ∃ w : World 2 Bool Unit,
    Steps World.Step (World.boot 2) twoEntries w ∧
      w.ran.map Ran.id = [1] ∧ w.removed = [0] ∧ w.Correct := by
  have hvalues : (twoEntries.foldlM (fun (w : World 2 Bool Unit) a => if w.Timely a then w.step a else none)
      (World.boot 2)).map (fun w => (w.ran.map Ran.id, w.removed)) =
        some ([1], [0]) := by decide +kernel
  obtain ⟨w, hw, hvalues⟩ := Option.map_eq_some_iff.mp hvalues
  obtain ⟨hran, hremoved⟩ := Prod.mk.inj hvalues
  have hrun : Steps World.Step (World.boot 2) twoEntries w := Steps.of_guarded hw
  exact ⟨w, hrun, hran, hremoved, callouts_run hrun⟩

/-- An entry that has been overdue for more than `2 ^ 31` ticks is missed. -/
theorem callouts_overdue : ∃ (actions : List (Action Unit Unit)) (w : World 1 Unit Unit),
    Steps (Steps.Of World.step) (World.boot 1) (.timeout () () 1 :: actions) w ∧
      w.calls = [⟨(), (), 1, 0⟩] ∧ w.due 0 ≤ w.swept ∧ w.ran = [] ∧ w.removed = [] := by
  let late : World 1 Unit Unit := waiting (2 ^ 31 + 2)
  have hfront : late.k.front = none := by
    dsimp only [late, waiting, Callouts.front]
    rw [if_pos (by decide +kernel)]
  have henter : late.step .enter = some { late with soft := true } := rfl
  have hleave : ({ late with soft := true } : World 1 Unit Unit).step .leave =
      some { late with swept := 2 ^ 31 + 2 } := by
    dsimp only [World.step]
    rw [hfront]
    rfl
  refine ⟨_, { late with swept := 2 ^ 31 + 2 }, .cons waiting_set (waiting_ticks (2 ^ 31 + 2)
    (.cons henter (.cons hleave (.refl _)))), rfl, ?_, rfl, rfl⟩
  show (1 : Int) ≤ ((2 ^ 31 + 2 : Nat) : Int)
  omega

end DiscoBsd.Clock
