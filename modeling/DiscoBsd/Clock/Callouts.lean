import Mathlib.Data.Fintype.Basic
import Mathlib.Data.Fintype.Card
import DiscoBsd.Lib.Int32
import DiscoBsd.Lib.NullList

/-!
# Callouts

`timeout`, `untimeout` and the parts of `hardclock` and `softclock` that work on the callout table. The
pending callouts are chained in the order of their deadlines, and `c_time` holds the ticks from one
to the next. `Deltas` ties these differences to the deadlines; each operation has one lemma about
both chains and the differences.
-/

namespace DiscoBsd.Clock

open DiscoBsd.Lib

/-- The callout table. `c_next none` is the `c_next` of `calltodo`. -/
structure Callouts (n : Nat) (Func Arg : Type*) where
  c_time : Fin n → Int
  c_arg : Fin n → Option Arg
  c_func : Fin n → Option Func
  c_next : Option (Fin n) → Option (Fin n)
  callfree : Option (Fin n)

namespace Callouts

variable {n : Nat} {Func Arg : Type*}

/-- `coutinit`. -/
def coutinit (n : Nat) : Callouts n Func Arg where
  c_time := fun _ => 0
  c_arg := fun _ => none
  c_func := fun _ => none
  c_next := fun node => match node with
    | none => none
    | some p => if h : p.val + 1 < n then some ⟨p.val + 1, h⟩ else none
  callfree := if h : 0 < n then some ⟨0, h⟩ else none

/-- The loop of `hardclock` over the queue. -/
def countdown : Nat → Option (Fin n) → Callouts n Func Arg → Option (Callouts n Func Arg)
  | _, none, k => some k
  | 0, some _, _ => none
  | fuel + 1, some p1, k =>
      let k := { k with c_time := Function.update k.c_time p1 (int32 (k.c_time p1 - 1)) }
      if 0 < k.c_time p1 then some k
      else if k.c_time p1 = 0 then some k
      else countdown fuel (k.c_next (some p1)) k

/-- `hardclock`: update the timeout queue. -/
def hardclock (k : Callouts n Func Arg) : Option (Callouts n Func Arg) :=
  k.countdown n (k.c_next none)

/-- The loop of `timeout`: the node to insert behind, and the ticks from there. -/
def search (k : Callouts n Func Arg) : Nat → Option (Fin n) → Int → Option (Option (Fin n) × Int)
  | 0, _, _ => none
  | fuel + 1, p1, t =>
      match k.c_next p1 with
      | none => some (p1, t)
      | some p2 =>
          if k.c_time p2 < t then
            k.search fuel (some p2) (if 0 < k.c_time p2 then int32 (t - k.c_time p2) else t)
          else some (p1, t)

/-- Put `pnew` behind `p1`, `t` ticks later. -/
def link (k : Callouts n Func Arg) (p1 : Option (Fin n)) (pnew : Fin n) (t : Int) :
    Callouts n Func Arg :=
  let p2 := k.c_next p1
  let k := { k with
    c_next := setNext (setNext k.c_next p1 (some pnew)) (some pnew) p2
    c_time := Function.update k.c_time pnew t }
  match p2 with
  | some p2 => { k with c_time := Function.update k.c_time p2 (int32 (k.c_time p2 - t)) }
  | none => k

/-- `timeout`: the callout that is used. Without a free one there is a panic. -/
def timeout (k : Callouts n Func Arg) (func : Func) (arg : Arg) (t : Int) :
    Option (Fin n × Callouts n Func Arg) :=
  let t := if t ≤ 0 then 1 else t
  match k.callfree with
  | none => none
  | some pnew =>
      let k := { k with
        callfree := k.c_next (some pnew)
        c_arg := Function.update k.c_arg pnew (some arg)
        c_func := Function.update k.c_func pnew (some func) }
      match k.search (n + 1) none t with
      | none => none
      | some (p1, t) => some (pnew, k.link p1 pnew t)

/-- Take `p2` off behind `p1`; the next one makes up for its ticks. -/
def unlink (k : Callouts n Func Arg) (p1 : Option (Fin n)) (p2 : Fin n) : Callouts n Func Arg :=
  let k := match k.c_next (some p2) with
    | some p3 =>
        if 0 < k.c_time p2 then
          { k with c_time := Function.update k.c_time p3 (int32 (k.c_time p3 + k.c_time p2)) }
        else k
    | none => k
  { k with
    c_next := setNext (setNext k.c_next p1 (k.c_next (some p2))) (some p2) k.callfree
    callfree := some p2 }

variable [DecidableEq Func] [DecidableEq Arg]

/-- The loop of `untimeout`. -/
def remove (k : Callouts n Func Arg) (func : Func) (arg : Arg) :
    Nat → Option (Fin n) → Option (Option (Fin n) × Callouts n Func Arg)
  | 0, _ => none
  | fuel + 1, p1 =>
      match k.c_next p1 with
      | none => some (none, k)
      | some p2 =>
          if k.c_func p2 = some func ∧ k.c_arg p2 = some arg then some (some p2, k.unlink p1 p2)
          else k.remove func arg fuel (some p2)

/-- `untimeout`: the callout that is removed, if there is one. -/
def untimeout (k : Callouts n Func Arg) (func : Func) (arg : Arg) :
    Option (Option (Fin n) × Callouts n Func Arg) :=
  k.remove func arg (n + 1) none

omit [DecidableEq Func] [DecidableEq Arg] in
/-- The test of the loop of `softclock`: the callout that is due. -/
def front (k : Callouts n Func Arg) : Option (Fin n) :=
  match k.c_next none with
  | none => none
  | some p1 => if 0 < k.c_time p1 then none else some p1

/-- `softclock` takes the callout off before it calls the function. -/
def takeFront (k : Callouts n Func Arg) (p1 : Fin n) : Callouts n Func Arg :=
  { k with
    c_next := setNext (setNext k.c_next none (k.c_next (some p1))) (some p1) k.callfree
    callfree := some p1 }

end Callouts

/-! ## Differences and deadlines -/

variable {n : Nat} {time time' due due' : Fin n → Int} {now base : Int} {ps pre suf : List (Fin n)}

/-- The times are the ticks from one deadline to the next. What is overdue counts from `now`, and `base`
is the later of `now` and the deadline in front. -/
def Deltas (time due : Fin n → Int) (now : Int) : Int → List (Fin n) → Prop
  | _, [] => True
  | base, p :: ps =>
      time p = due p - base ∧ (base = now ∨ base ≤ due p) ∧ Deltas time due now (max base (due p)) ps

/-- The latest deadline of some callouts. -/
def reach (due : Fin n → Int) : Int → List (Fin n) → Int
  | base, [] => base
  | base, p :: ps => reach due (max base (due p)) ps

theorem le_reach (due : Fin n → Int) (base : Int) (ps : List (Fin n)) :
    base ≤ reach due base ps := by
  induction ps generalizing base with
  | nil => exact le_refl base
  | cons p ps ih => exact (le_max_left base (due p)).trans (ih _)

theorem deltas_append : Deltas time due now base (pre ++ suf) ↔
    Deltas time due now base pre ∧ Deltas time due now (reach due base pre) suf := by
  induction pre generalizing base with
  | nil => exact ⟨fun h => ⟨trivial, h⟩, fun h => h.2⟩
  | cons p pre ih =>
      simp only [List.cons_append, Deltas, reach, ih, and_assoc]

theorem Deltas.congr (h : Deltas time due now base ps) (htime : ∀ p ∈ ps, time' p = time p)
    (hdue : ∀ p ∈ ps, due' p = due p) : Deltas time' due' now base ps := by
  induction ps generalizing base with
  | nil => exact trivial
  | cons p ps ih =>
      obtain ⟨hhead, hbase, hrest⟩ := h
      have hp := hdue p List.mem_cons_self
      refine ⟨?_, ?_, ?_⟩
      · rw [htime p List.mem_cons_self, hp, hhead]
      · rwa [hp]
      · rw [hp]
        exact ih hrest (fun q hq => htime q (List.mem_cons_of_mem p hq))
          fun q hq => hdue q (List.mem_cons_of_mem p hq)

theorem reach_congr (hdue : ∀ p ∈ ps, due' p = due p) : reach due' base ps = reach due base ps := by
  induction ps generalizing base with
  | nil => rfl
  | cons p ps ih =>
      unfold reach
      rw [hdue p List.mem_cons_self]
      exact ih fun q hq => hdue q (List.mem_cons_of_mem p hq)

theorem Deltas.later (h : Deltas time due now base ps) (hbase : now + 1 ≤ base) :
    Deltas time due (now + 1) base ps := by
  induction ps generalizing base with
  | nil => exact trivial
  | cons p ps ih =>
      obtain ⟨hhead, hle, hrest⟩ := h
      have hle : base ≤ due p := hle.resolve_left (by omega)
      exact ⟨hhead, Or.inr hle, ih hrest (hbase.trans (le_max_left _ _))⟩

/-! ## The chains -/

variable {Func Arg : Type*} {k : Callouts n Func Arg} {todo free : List (Fin n)} {p : Fin n}

/-- Every callout is on exactly one of the two chains. -/
structure Holds (k : Callouts n Func Arg) (todo free : List (Fin n)) : Prop where
  pending : Chain k.c_next (k.c_next none) todo
  spare : Chain k.c_next k.callfree free
  nodup : (todo ++ free).Nodup
  all : ∀ p, p ∈ todo ++ free

theorem Holds.length_le (h : Holds k todo free) : todo.length ≤ n := by
  have hnodup : todo.Nodup := h.nodup.of_append_left
  calc todo.length ≤ Fintype.card (Fin n) := hnodup.length_le_card
    _ = n := Fintype.card_fin n

theorem Holds.congr {k' : Callouts n Func Arg} (h : Holds k todo free)
    (hnext : k'.c_next = k.c_next) (hfree : k'.callfree = k.callfree) : Holds k' todo free := by
  refine ⟨?_, ?_, h.nodup, h.all⟩
  · rw [hnext]
    exact h.pending
  · rw [hnext, hfree]
    exact h.spare

/-! ## `hardclock` -/

/-- The loop goes over what is overdue and the first callout behind it. -/
theorem countdown_spec {fuel : Nat} {ptr : Option (Fin n)} (hchain : Chain k.c_next ptr ps)
    (hfuel : ps.length ≤ fuel) (hnodup : ps.Nodup) (hdeltas : Deltas k.c_time due now now ps)
    (hlate : ∀ p ∈ ps, now < due p + 2 ^ 31) (hearly : ∀ p ∈ ps, due p - now < 2 ^ 31) :
    ∃ times, k.countdown fuel ptr = some { k with c_time := times } ∧
      Deltas times due (now + 1) (now + 1) ps ∧ ∀ q, q ∉ ps → times q = k.c_time q := by
  induction ps generalizing fuel ptr k with
  | nil =>
      have hptr : ptr = none := hchain
      subst hptr
      refine ⟨k.c_time, ?_, trivial, fun _ _ => rfl⟩
      cases fuel <;> rfl
  | cons p ps ih =>
      obtain ⟨rfl, hrest⟩ := hchain
      obtain ⟨hp, hps⟩ := List.nodup_cons.mp hnodup
      obtain ⟨htime, -, hdeltas⟩ := hdeltas
      have hlow := hlate p List.mem_cons_self
      have hhigh := hearly p List.mem_cons_self
      have hdec : int32 (k.c_time p - 1) = due p - (now + 1) := by
        rw [htime, int32_eq (by omega) (by omega)]
        omega
      have hsame : ∀ q, q ≠ p → Function.update k.c_time p (due p - (now + 1)) q = k.c_time q :=
        fun q hq => Function.update_of_ne hq ..
      have hne : ∀ q ∈ ps, q ≠ p := by
        rintro q hq rfl
        exact hp hq
      cases fuel with
      | zero => simp at hfuel
      | succ fuel =>
          unfold Callouts.countdown
          dsimp only
          rw [hdec]
          simp only [Function.update_self]
          by_cases hstop : now < due p
          · -- the first one that is not overdue stops the loop
            refine ⟨Function.update k.c_time p (due p - (now + 1)), ?_, ?_, ?_⟩
            · split
              · rfl
              · rw [if_pos (by omega)]
            · refine ⟨Function.update_self .., Or.inr (by omega), ?_⟩
              rw [max_eq_right (by omega)] at hdeltas ⊢
              exact (hdeltas.later (by omega)).congr (fun q hq => hsame q (hne q hq)) fun _ _ => rfl
            · exact fun q hq => hsame q fun heq => hq (heq ▸ List.mem_cons_self)
          · rw [if_neg (by omega), if_neg (by omega)]
            rw [max_eq_left (by omega)] at hdeltas
            obtain ⟨times, hrun, htimes, hout⟩ := ih (k := { k with
              c_time := Function.update k.c_time p (due p - (now + 1)) }) hrest
              (Nat.le_of_succ_le_succ hfuel) hps
              (hdeltas.congr (fun q hq => hsame q (hne q hq)) fun _ _ => rfl)
              (fun q hq => hlate q (List.mem_cons_of_mem p hq))
              fun q hq => hearly q (List.mem_cons_of_mem p hq)
            refine ⟨times, hrun, ⟨?_, Or.inl rfl, ?_⟩, ?_⟩
            · rw [hout p hp]
              exact Function.update_self ..
            · rwa [max_eq_left (by omega)]
            · intro q hq
              rw [hout q fun hmem => hq (List.mem_cons_of_mem p hmem)]
              exact hsame q fun heq => hq (heq ▸ List.mem_cons_self)

theorem hardclock_spec (h : Holds k todo free) (hdeltas : Deltas k.c_time due now now todo)
    (hlate : ∀ p ∈ todo, now < due p + 2 ^ 31) (hearly : ∀ p ∈ todo, due p - now < 2 ^ 31) :
    ∃ times, k.hardclock = some { k with c_time := times } ∧
      Deltas times due (now + 1) (now + 1) todo := by
  obtain ⟨times, hrun, htimes, -⟩ :=
    countdown_spec h.pending h.length_le h.nodup.of_append_left hdeltas hlate hearly
  exact ⟨times, hrun, htimes⟩

/-! ## `timeout` -/

/-- The search passes the callouts with an earlier deadline. -/
theorem search_spec {fuel : Nat} {node : Option (Fin n)} {t : Int}
    (hchain : Chain k.c_next (k.c_next node) ps) (hfuel : ps.length < fuel)
    (hdeltas : Deltas k.c_time due now base ps) (hnow : now ≤ base) (hpos : 0 < t)
    (hmax : t < 2 ^ 31) :
    ∃ pre suf, ps = pre ++ suf ∧
      k.search fuel node t = some (place node pre, base + t - reach due base pre) ∧
      reach due base pre < base + t ∧ ∀ q ∈ suf.head?, base + t ≤ due q := by
  induction ps generalizing fuel node base t with
  | nil =>
      cases fuel with
      | zero => simp at hfuel
      | succ fuel =>
          refine ⟨[], [], rfl, ?_, ?_, nofun⟩
          · unfold Callouts.search
            rw [show k.c_next node = none from hchain]
            have hcancel : base + t - base = t := by omega
            rw [place, reach, hcancel]
          · show base < base + t
            omega
  | cons p ps ih =>
      obtain ⟨hnext, hrest⟩ := hchain
      obtain ⟨htime, hbase, hdeltas⟩ := hdeltas
      cases fuel with
      | zero => simp at hfuel
      | succ fuel =>
          unfold Callouts.search
          rw [hnext]
          dsimp only
          split
          next hlt =>
            have hstep : (if 0 < k.c_time p then int32 (t - k.c_time p) else t) =
                base + t - max base (due p) := by
              split
              · rw [int32_eq (by omega) (by omega)]
                omega
              · omega
            obtain ⟨pre, suf, rfl, hsearch, hreach, hsuf⟩ := ih hrest
              (t := base + t - max base (due p)) (Nat.lt_of_succ_lt_succ hfuel) hdeltas
              (hnow.trans (le_max_left _ _)) (by omega) (by omega)
            have hsum : max base (due p) + (base + t - max base (due p)) = base + t := by omega
            rw [hsum] at hsearch hreach hsuf
            refine ⟨p :: pre, suf, rfl, ?_, hreach, hsuf⟩
            rw [hstep]
            exact hsearch
          next hge =>
            refine ⟨[], p :: ps, rfl, ?_, ?_, ?_⟩
            · have hcancel : base + t - base = t := by omega
              rw [place, reach, hcancel]
            · show base < base + t
              omega
            · intro q hq
              have hp : p = q := Option.some.inj hq
              subst hp
              omega

/-- The differences around a new callout. -/
theorem Deltas.link {pnew : Fin n} {d : Int} (h : Deltas time due now base (pre ++ suf))
    (hnew : pnew ∉ pre ++ suf) (hnodup : (pre ++ suf).Nodup) (hreach : reach due base pre < d)
    (hsuf : ∀ q ∈ suf.head?, d ≤ due q) (hnow : now ≤ base)
    (hrange : ∀ q ∈ suf, due q - now < 2 ^ 31) :
    Deltas (match suf.head? with
      | some q => Function.update (Function.update time pnew (d - reach due base pre)) q
          (int32 (Function.update time pnew (d - reach due base pre) q - (d - reach due base pre)))
      | none => Function.update time pnew (d - reach due base pre))
      (Function.update due pnew d) now base (pre ++ pnew :: suf) := by
  obtain ⟨hpre, hsufd⟩ := deltas_append.mp h
  have hnewpre : ∀ q ∈ pre, q ≠ pnew := by
    rintro q hq rfl
    exact hnew (List.mem_append_left _ hq)
  have hnewsuf : ∀ q ∈ suf, q ≠ pnew := by
    rintro q hq rfl
    exact hnew (List.mem_append_right _ hq)
  have hdue : ∀ q, q ≠ pnew → Function.update due pnew d q = due q := fun q hq =>
    Function.update_of_ne hq ..
  have hle := le_reach due base pre
  refine deltas_append.mpr ⟨hpre.congr ?_ fun q hq => hdue q (hnewpre q hq), ?_⟩
  · intro q hq
    cases suf with
    | nil => exact Function.update_of_ne (hnewpre q hq) ..
    | cons r suf =>
        have hqr : q ≠ r := by
          rintro rfl
          exact (List.nodup_append.mp hnodup).2.2 q hq q List.mem_cons_self rfl
        simp only [List.head?_cons]
        rw [Function.update_of_ne hqr, Function.update_of_ne (hnewpre q hq)]
  · rw [reach_congr fun q hq => hdue q (hnewpre q hq)]
    cases suf with
    | nil =>
        refine ⟨?_, Or.inr ?_, trivial⟩
        · simp
        · rw [Function.update_self]
          exact le_of_lt hreach
    | cons r suf =>
        have hr : r ≠ pnew := hnewsuf r List.mem_cons_self
        obtain ⟨htime, hbase, hrest⟩ := hsufd
        have hdr := hsuf r rfl
        have hmax := hrange r List.mem_cons_self
        simp only [List.head?_cons]
        refine ⟨?_, Or.inr ?_, ?_, Or.inr ?_, ?_⟩
        · rw [Function.update_of_ne hr.symm, Function.update_self, Function.update_self]
        · rw [Function.update_self]
          exact le_of_lt hreach
        · rw [Function.update_self, Function.update_of_ne hr, Function.update_self, hdue r hr,
            max_eq_right (le_of_lt hreach), htime, int32_eq (by omega) (by omega)]
          omega
        · rw [Function.update_self, hdue r hr, max_eq_right (le_of_lt hreach)]
          exact hdr
        · rw [Function.update_self, hdue r hr, max_eq_right (le_of_lt hreach), max_eq_right hdr]
          rw [max_eq_right (by omega)] at hrest
          have hrsuf : r ∉ suf := by
            have hcons := (List.nodup_append.mp hnodup).2.1
            exact (List.nodup_cons.mp hcons).1
          refine hrest.congr (fun q hq => ?_) fun q hq =>
            hdue q (hnewsuf q (List.mem_cons_of_mem r hq))
          have hqr : q ≠ r := by
            rintro rfl
            exact hrsuf hq
          rw [Function.update_of_ne hqr,
            Function.update_of_ne (hnewsuf q (List.mem_cons_of_mem r hq))]

/-- `timeout`: the first free callout goes in front of those with the same deadline or a later one. -/
theorem timeout_spec {pnew : Fin n} (h : Holds k todo (pnew :: free))
    (hdeltas : Deltas k.c_time due now now todo) (hearly : ∀ p ∈ todo, due p - now < 2 ^ 31)
    {t : Int} (ht : t < 2 ^ 31) (func : Func) (arg : Arg) :
    ∃ k' pre suf, todo = pre ++ suf ∧ k.timeout func arg t = some (pnew, k') ∧
      Holds k' (pre ++ pnew :: suf) free ∧
      Deltas k'.c_time (Function.update due pnew (now + max t 1)) now now (pre ++ pnew :: suf) ∧
      k'.c_arg = Function.update k.c_arg pnew (some arg) ∧
      k'.c_func = Function.update k.c_func pnew (some func) := by
  have hnew : pnew ∉ todo := fun hmem =>
    (List.nodup_append.mp h.nodup).2.2 pnew hmem pnew List.mem_cons_self rfl
  have hnodup : todo.Nodup := h.nodup.of_append_left
  have hone : (if t ≤ 0 then 1 else t) = max t 1 := by
    split <;> omega
  obtain ⟨hfree, hspare⟩ := h.spare
  let k₁ : Callouts n Func Arg := { k with
    callfree := k.c_next (some pnew)
    c_arg := Function.update k.c_arg pnew (some arg)
    c_func := Function.update k.c_func pnew (some func) }
  have hpending : Chain k₁.c_next (k₁.c_next none) todo := h.pending
  obtain ⟨pre, suf, rfl, hsearch, hreach, hsuf⟩ := search_spec (k := k₁) (t := max t 1) hpending
    (Nat.lt_succ_of_le h.length_le) hdeltas (le_refl now) (by omega) (by omega)
  refine ⟨k₁.link (place none pre) pnew (now + max t 1 - reach due now pre), pre, suf, rfl, ?_, ?_,
    ?_, ?_, ?_⟩
  · unfold Callouts.timeout
    dsimp only
    rw [hfree, hone]
    dsimp only
    rw [hsearch]
  · have hnext : (k₁.link (place none pre) pnew (now + max t 1 - reach due now pre)).c_next =
        setNext (setNext k.c_next (place none pre) (some pnew)) (some pnew)
          (k.c_next (place none pre)) := by
      unfold Callouts.link
      dsimp only
      split <;> rfl
    have hcallfree : (k₁.link (place none pre) pnew (now + max t 1 - reach due now pre)).callfree =
        k.c_next (some pnew) := by
      unfold Callouts.link
      dsimp only
      split <;> rfl
    have hperm : (pre ++ pnew :: suf ++ free).Perm (pre ++ suf ++ pnew :: free) := by
      rw [List.append_assoc, List.append_assoc]
      refine List.Perm.append_left pre ?_
      exact List.perm_middle.symm
    refine ⟨?_, ?_, hperm.nodup_iff.mpr h.nodup, fun p => hperm.mem_iff.mpr (h.all p)⟩
    · rw [hnext]
      exact h.pending.insert hnodup nofun hnew nofun
    · rw [hnext, hcallfree]
      refine hspare.congr fun q hq => ?_
      have hqnew : q ≠ pnew := by
        rintro rfl
        exact (List.nodup_cons.mp (List.nodup_append.mp h.nodup).2.1).1 hq
      rw [setNext_ne (fun heq => hqnew (Option.some.inj heq)), setNext_ne]
      rcases place_mem none pre with heq | ⟨other, hmem, heq⟩
      · rw [heq]
        exact nofun
      · rw [heq]
        rintro ⟨⟩
        exact (List.nodup_append.mp h.nodup).2.2 _ (List.mem_append_left suf hmem) _
          (List.mem_cons_of_mem pnew hq) rfl
  · have htime : (k₁.link (place none pre) pnew (now + max t 1 - reach due now pre)).c_time =
        match suf.head? with
        | some q => Function.update (Function.update k.c_time pnew
            (now + max t 1 - reach due now pre)) q (int32 (Function.update k.c_time pnew
              (now + max t 1 - reach due now pre) q - (now + max t 1 - reach due now pre)))
        | none => Function.update k.c_time pnew (now + max t 1 - reach due now pre) := by
      rw [← h.pending.at_place.ptr_eq]
      unfold Callouts.link
      dsimp only
      show _ = match k₁.c_next (place none pre) with | some q => _ | none => _
      split <;> rfl
    rw [htime]
    exact hdeltas.link hnew hnodup hreach hsuf (le_refl now)
      fun q hq => hearly q (List.mem_append_right pre hq)
  · unfold Callouts.link
    dsimp only
    split <;> rfl
  · unfold Callouts.link
    dsimp only
    split <;> rfl

/-! ## `untimeout` and `softclock` -/

/-- The differences around a callout that goes. -/
theorem Deltas.unlink (h : Deltas time due now base (pre ++ p :: suf))
    (hnodup : (pre ++ p :: suf).Nodup) (hnow : now ≤ base)
    (hrange : ∀ q ∈ suf, due q - now < 2 ^ 31) :
    Deltas (match suf.head? with
      | some q => if 0 < time p then Function.update time q (int32 (time q + time p)) else time
      | none => time) due now base (pre ++ suf) := by
  obtain ⟨hpre, htime, hbase, hsuf⟩ := deltas_append.mp h
  have hle := le_reach due base pre
  have hpos : ∀ q, q ∈ pre → q ∉ suf := fun q hq hmem =>
    (List.nodup_append.mp hnodup).2.2 q hq q (List.mem_cons_of_mem p hmem) rfl
  cases suf with
  | nil => exact deltas_append.mpr ⟨hpre, trivial⟩
  | cons r suf =>
      obtain ⟨hr, hrbase, hrest⟩ := hsuf
      have hmax := hrange r List.mem_cons_self
      simp only [List.head?_cons]
      split
      next hlate =>
        -- the next one counts from where this one counted
        have hrsuf : r ∉ suf := by
          have hcons := (List.nodup_append.mp hnodup).2.1
          exact (List.nodup_cons.mp (List.nodup_cons.mp hcons).2).1
        have hne : ∀ q, q ≠ r →
            Function.update time r (int32 (time r + time p)) q = time q :=
          fun q hq => Function.update_of_ne hq ..
        have hlatest : max (reach due base pre) (due p) = due p := by omega
        rw [hlatest] at hr hrbase hrest
        have hrdue : due p ≤ due r := hrbase.resolve_left (by omega)
        refine deltas_append.mpr ⟨hpre.congr ?_ fun _ _ => rfl, ?_, Or.inr (by omega), ?_⟩
        · intro q hq
          refine hne q ?_
          rintro rfl
          exact hpos q hq List.mem_cons_self
        · rw [Function.update_self, hr, htime, int32_eq (by omega) (by omega)]
          omega
        · rw [max_eq_right (by omega)] at hrest ⊢
          refine Deltas.congr hrest (fun q hq => hne q ?_) fun _ _ => rfl
          rintro rfl
          exact hrsuf hq
      next hearly =>
        have hlatest : max (reach due base pre) (due p) = reach due base pre := by omega
        rw [hlatest] at hr hrbase hrest
        exact deltas_append.mpr ⟨hpre, hr, hrbase, hrest⟩

/-- A callout goes from the pending ones to the free ones. -/
theorem unlink_spec (h : Holds k (pre ++ p :: suf) free)
    (hdeltas : Deltas k.c_time due now now (pre ++ p :: suf))
    (hearly : ∀ q ∈ pre ++ p :: suf, due q - now < 2 ^ 31) :
    Holds (k.unlink (place none pre) p) (pre ++ suf) (p :: free) ∧
      Deltas (k.unlink (place none pre) p).c_time due now now (pre ++ suf) ∧
      (k.unlink (place none pre) p).c_arg = k.c_arg ∧
      (k.unlink (place none pre) p).c_func = k.c_func := by
  have hnodup : (pre ++ p :: suf).Nodup := h.nodup.of_append_left
  have hp : p ∉ pre ++ suf := (List.nodup_middle.mp hnodup |> List.nodup_cons.mp).1
  have hnext : (k.unlink (place none pre) p).c_next =
      setNext (setNext k.c_next (place none pre) (k.c_next (some p))) (some p) k.callfree := by
    unfold Callouts.unlink
    dsimp only
    split
    · split <;> rfl
    · rfl
  have hcallfree : (k.unlink (place none pre) p).callfree = some p := rfl
  have hsuf : k.c_next (some p) = suf.head? := h.pending.at_place.2.ptr_eq
  have hperm : (pre ++ suf ++ p :: free).Perm (pre ++ p :: suf ++ free) := by
    rw [List.append_assoc, List.append_assoc]
    exact List.Perm.append_left pre List.perm_middle
  refine ⟨⟨?_, ?_, hperm.nodup_iff.mpr h.nodup, fun q => hperm.mem_iff.mpr (h.all q)⟩, ?_, ?_, ?_⟩
  · rw [hnext, setNext_ne (by exact nofun : (none : Option (Fin n)) ≠ some p)]
    refine (h.pending.remove hnodup nofun).congr fun q hq => setNext_ne ?_
    rintro ⟨⟩
    exact hp hq
  · rw [hnext, hcallfree]
    refine ⟨rfl, ?_⟩
    rw [setNext_self]
    refine h.spare.congr fun q hq => ?_
    have hout : ∀ other ∈ pre ++ p :: suf, q ≠ other := fun other hmem =>
      ((List.nodup_append.mp h.nodup).2.2 other hmem q hq).symm
    rw [setNext_ne, setNext_ne]
    · rcases place_mem none pre with heq | ⟨other, hmem, heq⟩
      · rw [heq]
        exact nofun
      · rw [heq]
        exact fun hq => hout other (List.mem_append_left _ hmem) (Option.some.inj hq)
    · exact fun heq => hout p (List.mem_append_right _ List.mem_cons_self) (Option.some.inj heq)
  · have htime : (k.unlink (place none pre) p).c_time = match suf.head? with
        | some q => if 0 < k.c_time p then
            Function.update k.c_time q (int32 (k.c_time q + k.c_time p)) else k.c_time
        | none => k.c_time := by
      rw [← hsuf]
      unfold Callouts.unlink
      dsimp only
      split
      · split <;> rfl
      · rfl
    rw [htime]
    exact hdeltas.unlink hnodup (le_refl now)
      fun q hq => hearly q (List.mem_append_right pre (List.mem_cons_of_mem p hq))
  · unfold Callouts.unlink
    dsimp only
    split
    · split <;> rfl
    · rfl
  · unfold Callouts.unlink
    dsimp only
    split
    · split <;> rfl
    · rfl

/-- What is due at the front is taken off like any other. -/
theorem takeFront_eq (hfront : k.front = some p) : k.takeFront p = k.unlink none p := by
  have htime : ¬ 0 < k.c_time p := by
    unfold Callouts.front at hfront
    split at hfront
    · cases hfront
    · split at hfront
      · cases hfront
      · cases hfront
        assumption
  unfold Callouts.takeFront Callouts.unlink
  dsimp only
  split
  · rw [if_neg htime]
  · rfl

/-- The callout at the front is due, if there is one that is. -/
theorem front_spec (h : Holds k todo free) (hdeltas : Deltas k.c_time due now now todo) :
    (∃ p suf, todo = p :: suf ∧ k.front = some p ∧ due p ≤ now) ∨
      (k.front = none ∧ ∀ p ∈ todo, now < due p) := by
  have hlate : ∀ (ps : List (Fin n)) (base : Int), now < base →
      Deltas k.c_time due now base ps → ∀ p ∈ ps, now < due p := by
    intro ps
    induction ps with
    | nil => exact fun _ _ _ => nofun
    | cons p ps ih =>
        intro base hbase hps q hq
        obtain ⟨-, hle, hrest⟩ := hps
        rcases List.mem_cons.mp hq with rfl | hq
        · exact lt_of_lt_of_le hbase (hle.resolve_left (by omega))
        · exact ih _ (lt_of_lt_of_le hbase (le_max_left _ _)) hrest q hq
  have hptr := h.pending.ptr_eq
  unfold Callouts.front
  cases todo with
  | nil =>
      rw [show k.c_next none = none from hptr]
      exact Or.inr ⟨rfl, nofun⟩
  | cons p suf =>
      rw [show k.c_next none = some p from hptr]
      obtain ⟨htime, -, hrest⟩ := hdeltas
      dsimp only
      split
      next hpos =>
        refine Or.inr ⟨rfl, fun q hq => ?_⟩
        rcases List.mem_cons.mp hq with rfl | hq
        · omega
        · exact hlate suf _ (by omega) hrest q hq
      next hneg => exact Or.inl ⟨p, suf, rfl, rfl, by omega⟩

variable [DecidableEq Func] [DecidableEq Arg]

/-- The callout is for this function and argument. -/
def Callouts.IsFor (k : Callouts n Func Arg) (func : Func) (arg : Arg) (p : Fin n) : Prop :=
  k.c_func p = some func ∧ k.c_arg p = some arg

/-- `untimeout` removes the first callout for the function and argument. -/
theorem remove_spec {fuel : Nat} {node : Option (Fin n)}
    (hchain : Chain k.c_next (k.c_next node) ps) (hfuel : ps.length < fuel) (func : Func)
    (arg : Arg) :
    (k.remove func arg fuel node = some (none, k) ∧ ∀ p ∈ ps, ¬ k.IsFor func arg p) ∨
      ∃ pre p suf, ps = pre ++ p :: suf ∧ k.IsFor func arg p ∧
        k.remove func arg fuel node = some (some p, k.unlink (place node pre) p) := by
  induction ps generalizing fuel node with
  | nil =>
      cases fuel with
      | zero => simp at hfuel
      | succ fuel =>
          unfold Callouts.remove
          rw [show k.c_next node = none from hchain]
          exact Or.inl ⟨rfl, nofun⟩
  | cons p ps ih =>
      obtain ⟨hnext, hrest⟩ := hchain
      cases fuel with
      | zero => simp at hfuel
      | succ fuel =>
          unfold Callouts.remove
          rw [hnext]
          dsimp only
          split
          next hfor => exact Or.inr ⟨[], p, ps, rfl, hfor, rfl⟩
          next hfor =>
            rcases ih hrest (Nat.lt_of_succ_lt_succ hfuel) with
              ⟨hnone, hall⟩ | ⟨pre, q, suf, rfl, hq, hsome⟩
            · refine Or.inl ⟨hnone, fun q hq => ?_⟩
              rcases List.mem_cons.mp hq with rfl | hq
              · exact hfor
              · exact hall q hq
            · exact Or.inr ⟨p :: pre, q, suf, rfl, hq, hsome⟩

end DiscoBsd.Clock
