import DiscoBsd.Mml.Play
import DiscoBsd.Mml.Tune

/-!
# The repeats as they are played

The repeat stack of a channel is the brackets around its place in the list, the innermost last, each
with the turns it has had. From that follows what each operation does: the stack stays within its
bounds, and each body is played as often as its count says. The one exception is a last `L` within
brackets, to which a channel goes back with an empty stack.
-/

namespace DiscoBsd.Mml

open Lib

/-- A bracket around the place where a channel is: where its body starts, the turns that are over, and
what comes behind it. -/
structure Frame where
  start : Nat
  body : Tune
  count : Int
  turn : Int
  rest : Tune

/-- The operations behind the innermost tune. -/
def behind : List Frame → List Op
  | [] => []
  | f :: fs => ⟨.endrep, f.count, 0⟩ :: f.rest.flat ++ behind fs

/-- What is played after the innermost tune. -/
def later : List Frame → List Op
  | [] => []
  | f :: fs =>
    (List.replicate (f.count - f.turn - 1).toNat f.body.unroll).flatten ++ f.rest.unroll ++ later fs

/-- The repeat stack of `p` is that of the brackets. -/
def Framed (ops : List Op) (p : Cursor) : List Frame → Prop
  | [] => True
  | f :: fs =>
    (ops.drop f.start = f.body.flat ++ behind (f :: fs) ∧ f.start ≤ ops.length) ∧
      (0 ≤ f.turn ∧ f.turn < f.count ∧ f.count ≤ 255) ∧ fs.length < 8 ∧ f.body.Good (fs.length + 1) ∧
      f.rest.Good fs.length ∧ (p.rpc fs.length = f.start ∧ p.rcnt fs.length = f.turn) ∧
      Framed ops p fs

/-- A channel is before `t`, with the brackets `fs` around it. -/
structure At (ops : List Op) (p : Cursor) (t : Tune) (fs : List Frame) : Prop where
  here : ops.drop p.pc = t.flat ++ behind fs
  le : p.pc ≤ ops.length
  sp : p.sp = fs.length
  good : t.Good fs.length
  framed : Framed ops p fs

variable {ops : List Op} {p p' : Cursor} {t : Tune} {fs : List Frame}

theorem Framed.congr (h : Framed ops p fs) (hrpc : ∀ i < fs.length, p'.rpc i = p.rpc i)
    (hrcnt : ∀ i < fs.length, p'.rcnt i = p.rcnt i) : Framed ops p' fs := by
  induction fs with
  | nil => trivial
  | cons f fs ih =>
      obtain ⟨hstart, hturn, hlen, hbody, hrest, hstack, hframed⟩ := h
      refine ⟨hstart, hturn, hlen, hbody, hrest, ?_, ?_⟩
      · rw [hrpc _ (by simp), hrcnt _ (by simp)]
        exact hstack
      · exact ih hframed (fun i hi => hrpc i (by simp; omega)) fun i hi => hrcnt i (by simp; omega)

theorem Framed.length_le (h : Framed ops p fs) : fs.length ≤ 8 := by
  cases fs with
  | nil => simp
  | cons f fs =>
      have hlen := h.2.2.1
      simp only [List.length_cons]
      omega

/-- The operations that are no brackets. -/
def Op.solid (o : Op) : Bool := o.code != .rep && o.code != .endrep

theorem Op.Good.solid {o : Op} (h : o.Good) : o.solid = true := by
  simp [Op.solid, h.rep, h.endrep]

theorem At.next (h : At ops p t fs) {o : Op} {os : List Op} (ho : t.flat ++ behind fs = o :: os) :
    ops[p.pc]? = some o ∧ ops.drop (p.pc + 1) = os ∧ p.pc + 1 ≤ ops.length := by
  have hdrop : ops.drop p.pc = o :: os := h.here.trans ho
  have hlt : p.pc < ops.length := by
    by_contra hge
    rw [List.drop_eq_nil_of_le (by omega)] at hdrop
    cases hdrop
  rw [List.drop_eq_getElem_cons hlt] at hdrop
  obtain ⟨hhead, htail⟩ := List.cons.inj hdrop
  exact ⟨by rw [List.getElem?_eq_getElem hlt, hhead], htail, hlt⟩

/-- What a channel plays from `t` on, with the operations of brackets left out. -/
def expect (t : Tune) (fs : List Frame) : List Op := t.unroll ++ later fs

/-- The number of operations until the end of the list. -/
def Tune.cost : Tune → Nat
  | .nil => 0
  | .op _ t => t.cost + 1
  | .rep b n t => n.toNat * (b.cost + 1) + t.cost + 1

def laterCost : List Frame → Nat
  | [] => 0
  | f :: fs => (f.count - f.turn - 1).toNat * (f.body.cost + 1) + f.rest.cost + laterCost fs + 1

/-- A turn has played `o`. -/
structure Played (ops : List Op) (p : Cursor) (t : Tune) (fs : List Frame) (o : Op) (p' : Cursor)
    (t' : Tune) (fs' : List Frame) : Prop where
  at_ : At ops p' t' fs'
  expect : expect t fs = [o].filter Op.solid ++ expect t' fs'
  cost : t'.cost + laterCost fs' < t.cost + laterCost fs
  get : ops[p.pc]? = some o
  nloop : p'.nloop = p.nloop
  looppc : p'.looppc = if o.code = .loop then (p.pc + 1 : Int) else p.looppc
  ahead : (∀ q ∈ ops.drop p'.pc, q.code ≠ .loop) → o.code ≠ .loop →
    ∀ q ∈ ops.drop p.pc, q.code ≠ .loop
  next : o.code = .loop → p'.pc = p.pc + 1

theorem ahead_of_next {o : Op} (hget : ops[p.pc]? = some o)
    (h : ∀ q ∈ ops.drop (p.pc + 1), q.code ≠ .loop) (ho : o.code ≠ .loop) :
    ∀ q ∈ ops.drop p.pc, q.code ≠ .loop := by
  obtain ⟨hlt, rfl⟩ := List.getElem?_eq_some_iff.mp hget
  rw [List.drop_eq_getElem_cons hlt]
  exact List.forall_mem_cons.mpr ⟨ho, h⟩

/-- An operation that is no bracket. -/
theorem At.op {o : Op} (h : At ops p (.op o t) fs) (loops : Int) :
    ∃ p', p.turn ops loops = .play o p' ∧ Played ops p (.op o t) fs o p' t fs := by
  have hflat : (Tune.op o t).flat ++ behind fs = o :: (t.flat ++ behind fs) := rfl
  obtain ⟨hget, hdrop, hle⟩ := h.next hflat
  have ho := h.good.1
  refine ⟨{ p with pc := p.pc + 1, looppc := if o.code = .loop then (p.pc + 1 : Int) else p.looppc }, ?_, ?_⟩
  · have hrep := ho.rep
    have hendrep := ho.endrep
    unfold Cursor.turn
    rw [hget]
    cases hcode : o.code <;> simp_all
  · exact
      { at_ :=
          { here := hdrop
            le := hle
            sp := h.sp
            good := h.good.2
            framed := h.framed.congr (fun _ _ => rfl) fun _ _ => rfl }
        expect := by simp [Mml.expect, Tune.unroll, ho.solid]
        cost := by simp only [Tune.cost]; omega
        get := hget
        nloop := rfl
        looppc := rfl
        ahead := ahead_of_next hget
        next := fun _ => rfl }

/-- A bracket opens: there is room for it on the stack. -/
theorem At.enter {b : Tune} {n : Int} (h : At ops p (.rep b n t) fs) (loops : Int) :
    ∃ p', p.turn ops loops = .play ⟨.rep, 0, 0⟩ p' ∧
      Played ops p (.rep b n t) fs ⟨.rep, 0, 0⟩ p' b (⟨p.pc + 1, b, n, 0, t⟩ :: fs) := by
  obtain ⟨hlen, hn, hb, ht⟩ := h.good
  have hflat : (Tune.rep b n t).flat ++ behind fs =
      ⟨.rep, 0, 0⟩ :: (b.flat ++ behind (⟨p.pc + 1, b, n, 0, t⟩ :: fs)) := by
    simp [Tune.flat, behind]
  obtain ⟨hget, hdrop, hle⟩ := h.next hflat
  have hsp := h.sp
  refine ⟨{ p with
    pc := p.pc + 1
    rpc := Function.update p.rpc p.sp (p.pc + 1)
    rcnt := Function.update p.rcnt p.sp 0
    sp := p.sp + 1 }, ?_, ?_⟩
  · have hlt : (p.sp : Int) < MAXDEPTH := by
      unfold MAXDEPTH
      omega
    unfold Cursor.turn
    rw [hget]
    show (if (p.sp : Int) = MAXDEPTH then _ else if (p.sp : Int) < MAXDEPTH then _ else _) = _
    rw [if_neg (ne_of_lt hlt), if_pos hlt]
  · have hrest : Framed ops
        { p with
          pc := p.pc + 1
          rpc := Function.update p.rpc p.sp (p.pc + 1)
          rcnt := Function.update p.rcnt p.sp 0
          sp := p.sp + 1 } fs := by
      refine h.framed.congr (fun i hi => ?_) fun i hi => ?_
      · exact Function.update_of_ne (by omega) _ _
      · exact Function.update_of_ne (by omega) _ _
    refine
      { at_ :=
          { here := hdrop
            le := hle
            sp := by simp [hsp]
            good := hb
            framed := ⟨⟨hdrop, hle⟩, ⟨le_rfl, by show (0 : Int) < n; omega, hn.2⟩, hlen, hb, ht,
              ?_, hrest⟩ }
        expect := ?_
        cost := ?_
        get := hget
        nloop := rfl
        looppc := rfl
        ahead := ahead_of_next hget
        next := fun _ => rfl }
    · simp [hsp]
    · obtain ⟨k, hk⟩ : ∃ k, n.toNat = k + 1 := ⟨n.toNat - 1, by omega⟩
      have hk' : (n - 0 - 1).toNat = k := by omega
      simp only [Mml.expect, Tune.unroll, later, hk, hk', List.replicate_succ, List.flatten_cons]
      simp [Op.solid]
    · obtain ⟨k, hk⟩ : ∃ k, n.toNat = k + 1 := ⟨n.toNat - 1, by omega⟩
      have hk' : (n - 0 - 1).toNat = k := by omega
      simp only [Tune.cost, laterCost, hk, hk', Nat.succ_mul]
      omega

/-- A bracket closes: its body has another turn, or it was the last. -/
theorem At.leave {f : Frame} (h : At ops p .nil (f :: fs)) (loops : Int) :
    ∃ p' t' fs', p.turn ops loops = .play ⟨.endrep, f.count, 0⟩ p' ∧
      Played ops p .nil (f :: fs) ⟨.endrep, f.count, 0⟩ p' t' fs' := by
  obtain ⟨⟨hbody, hstart⟩, ⟨hlo, hhi, hmax⟩, hlen, hgood, hrest, ⟨hrpc, hrcnt⟩, hframed⟩ := h.framed
  have hflat : Tune.nil.flat ++ behind (f :: fs) =
      ⟨.endrep, f.count, 0⟩ :: (f.rest.flat ++ behind fs) := rfl
  obtain ⟨hget, hdrop, hle⟩ := h.next hflat
  have hsp : p.sp = fs.length + 1 := h.sp
  have htop : p.sp - 1 = fs.length := by omega
  have hin : 0 ≤ (p.sp : Int) - 1 ∧ (p.sp : Int) - 1 < MAXDEPTH := by
    unfold MAXDEPTH
    omega
  by_cases hmore : f.turn + 1 < f.count
  · refine ⟨{ p with
      rcnt := Function.update p.rcnt fs.length (f.turn + 1)
      pc := f.start }, f.body, { f with turn := f.turn + 1 } :: fs, ?_, ?_⟩
    · unfold Cursor.turn
      rw [hget]
      show (if 0 ≤ (p.sp : Int) - 1 ∧ (p.sp : Int) - 1 < MAXDEPTH then _ else _) = _
      rw [if_pos hin]
      simp only [htop, hrcnt, hrpc, if_pos hmore]
    · refine
        { at_ :=
            { here := hbody
              le := hstart
              sp := hsp
              good := hgood
              framed := ⟨⟨hbody, hstart⟩, ⟨by show 0 ≤ f.turn + 1; omega, hmore, hmax⟩, hlen, hgood,
                hrest, ⟨hrpc, by simp⟩, ?_⟩ }
          expect := ?_
          cost := ?_
          get := hget
          nloop := rfl
          looppc := rfl
          ahead := ?_
          next := fun hloop => Code.noConfusion hloop }
      · refine hframed.congr (fun _ _ => rfl) fun i hi => ?_
        exact Function.update_of_ne (by omega) _ _
      · obtain ⟨k, hk⟩ : ∃ k, (f.count - f.turn - 1).toNat = k + 1 :=
          ⟨(f.count - f.turn - 1).toNat - 1, by omega⟩
        have hk' : (f.count - (f.turn + 1) - 1).toNat = k := by omega
        simp only [Mml.expect, Tune.unroll, later, hk, hk', List.replicate_succ, List.flatten_cons]
        simp [Op.solid]
      · obtain ⟨k, hk⟩ : ∃ k, (f.count - f.turn - 1).toNat = k + 1 :=
          ⟨(f.count - f.turn - 1).toNat - 1, by omega⟩
        have hk' : (f.count - (f.turn + 1) - 1).toNat = k := by omega
        simp only [Tune.cost, laterCost, hk, hk', Nat.succ_mul]
        omega
      · intro hloops _ q hq
        have hhere : ops.drop p.pc = behind (f :: fs) := h.here
        rw [hhere] at hq
        exact hloops q (by rw [hbody]; exact List.mem_append_right _ hq)
  · refine ⟨{ p with
      pc := p.pc + 1
      rcnt := Function.update p.rcnt fs.length (f.turn + 1)
      sp := fs.length }, f.rest, fs, ?_, ?_⟩
    · unfold Cursor.turn
      rw [hget]
      show (if 0 ≤ (p.sp : Int) - 1 ∧ (p.sp : Int) - 1 < MAXDEPTH then _ else _) = _
      rw [if_pos hin]
      simp only [htop, hrcnt, if_neg hmore]
    · refine
        { at_ :=
            { here := hdrop
              le := hle
              sp := rfl
              good := hrest
              framed := ?_ }
          expect := ?_
          cost := ?_
          get := hget
          nloop := rfl
          looppc := rfl
          ahead := ahead_of_next hget
          next := fun hloop => Code.noConfusion hloop }
      · refine hframed.congr (fun _ _ => rfl) fun i hi => ?_
        exact Function.update_of_ne (by omega) _ _
      · have hzero : (f.count - f.turn - 1).toNat = 0 := by omega
        simp [Mml.expect, Tune.unroll, later, hzero, Op.solid]
      · simp only [Tune.cost, laterCost]
        omega

/-- A channel is at the end of its list, or plays an operation. -/
theorem At.turn (h : At ops p t fs) (loops : Int) :
    (t = .nil ∧ fs = []) ∨ ∃ o p' t' fs', p.turn ops loops = .play o p' ∧
      Played ops p t fs o p' t' fs' := by
  cases t with
  | nil =>
      cases fs with
      | nil => exact .inl ⟨rfl, rfl⟩
      | cons f fs =>
          obtain ⟨p', t', fs', hturn, hplayed⟩ := h.leave loops
          exact .inr ⟨_, p', t', fs', hturn, hplayed⟩
  | op o t =>
      obtain ⟨p', hturn, hplayed⟩ := h.op loops
      exact .inr ⟨o, p', t, fs, hturn, hplayed⟩
  | rep b n t =>
      obtain ⟨p', hturn, hplayed⟩ := h.enter loops
      exact .inr ⟨_, p', _, _, hturn, hplayed⟩

/-! ## The loop point -/

/-- How many more brackets are open after an operation. -/
def Op.delta (o : Op) : Int := if o.code = .rep then 1 else if o.code = .endrep then -1 else 0

/-- Where the last `L` of a list stands that begins within `d` brackets: the brackets around it, and
what comes behind it. -/
def lastLoop (d : Int) : List Op → Option (Int × List Op)
  | [] => none
  | o :: os =>
    match lastLoop (d + o.delta) os with
    | some r => some r
    | none => if o.code = .loop then some (d, os) else none

/-- Where a channel goes back to, once it has played its last `L`. -/
def loopPoint (ops : List Op) : Int :=
  match lastLoop 0 ops with
  | some r => (ops.length : Int) - r.2.length
  | none => -1

theorem lastLoop_eq_none {d : Int} {os : List Op} :
    lastLoop d os = none ↔ ∀ o ∈ os, o.code ≠ .loop := by
  induction os generalizing d with
  | nil => simp [lastLoop]
  | cons o os ih =>
      rw [lastLoop]
      cases hrest : lastLoop (d + o.delta) os with
      | some r =>
          have hsome : ¬∀ o ∈ os, o.code ≠ .loop := by
            rw [← ih (d := d + o.delta), hrest]
            exact Option.some_ne_none r
          simp only [reduceCtorEq, List.mem_cons, forall_eq_or_imp, false_iff, not_and]
          exact fun _ => hsome
      | none =>
          have hnone := ih.mp hrest
          simp only [List.mem_cons, forall_eq_or_imp, ite_eq_right_iff, reduceCtorEq, imp_false]
          exact ⟨fun h => ⟨h, hnone⟩, fun h => h.1⟩

/-- The last `L` is one behind which there is none. -/
theorem lastLoop_split {d : Int} {xs ys : List Op} {o : Op} (ho : o.code = .loop)
    (hys : ∀ q ∈ ys, q.code ≠ .loop) : ∃ e, lastLoop d (xs ++ o :: ys) = some (e, ys) := by
  induction xs generalizing d with
  | nil =>
      refine ⟨d, ?_⟩
      rw [List.nil_append, lastLoop, lastLoop_eq_none.mpr hys]
      simp [ho]
  | cons x xs ih =>
      obtain ⟨e, he⟩ := ih (d := d + x.delta)
      exact ⟨e, by rw [List.cons_append, lastLoop, he]⟩

/-- How many more brackets are open after a list. -/
def net (os : List Op) : Int := (os.map Op.delta).sum

theorem lastLoop_append {d : Int} {xs ys : List Op} :
    lastLoop d (xs ++ ys) =
      match lastLoop (d + net xs) ys with
      | some r => some r
      | none => (lastLoop d xs).map fun r => (r.1, r.2 ++ ys) := by
  induction xs generalizing d with
  | nil =>
      simp only [List.nil_append, net, List.map_nil, List.sum_nil, Int.add_zero, lastLoop,
        Option.map_none]
      split
      · next h => exact h
      · next h => exact h
  | cons x xs ih =>
      have hnet : d + net (x :: xs) = d + x.delta + net xs := by
        simp only [net, List.map_cons, List.sum_cons]
        omega
      rw [List.cons_append, lastLoop, ih, hnet, lastLoop]
      cases lastLoop (d + x.delta + net xs) ys with
      | some r => rfl
      | none =>
          cases lastLoop (d + x.delta) xs with
          | some r => rfl
          | none =>
              by_cases hx : x.code = .loop
              · simp [hx]
              · simp [hx]

theorem Op.Good.delta {o : Op} (h : o.Good) : o.delta = 0 := by
  simp [Op.delta, h.rep, h.endrep]

theorem net_flat {k : Nat} {u : Tune} (h : u.Good k) : net u.flat = 0 := by
  induction u generalizing k with
  | nil => rfl
  | op o u ih =>
      have hrest := ih h.2
      simp only [net, Tune.flat, List.map_cons, List.sum_cons, h.1.delta] at hrest ⊢
      omega
  | rep b n u ihb ihu =>
      have hbody := ihb h.2.2.1
      have hrest := ihu h.2.2.2
      simp only [net, Tune.flat, List.map_cons, List.map_append, List.sum_cons, List.sum_append,
        List.cons_append, Op.delta] at hbody hrest ⊢
      simp
      omega

/-- The last `L` of a tune is in what follows a body, or in the body. -/
theorem lastLoop_rep {k : Nat} {d n : Int} {b u : Tune} (hb : b.Good k) :
    lastLoop d (Tune.rep b n u).flat =
      match lastLoop d u.flat with
      | some r => some r
      | none =>
        (lastLoop (d + 1) b.flat).map fun r => (r.1, r.2 ++ ⟨.endrep, n, 0⟩ :: u.flat) := by
  have hfirst : (⟨.rep, 0, 0⟩ : Op).delta = 1 := rfl
  have hlast : (⟨.endrep, n, 0⟩ : Op).delta = -1 := rfl
  have hd : d + 1 + -1 = d := by omega
  rw [Tune.flat, List.cons_append, lastLoop, lastLoop_append, net_flat hb, Int.add_zero, lastLoop,
    hfirst, hlast, hd]
  cases lastLoop d u.flat with
  | some r => rfl
  | none =>
      cases lastLoop (d + 1) b.flat with
      | some r => rfl
      | none => rfl

/-- No `L` of a tune has fewer brackets around it than the tune. -/
theorem le_lastLoop {k : Nat} {d e : Int} {u : Tune} {os : List Op} (hu : u.Good k)
    (h : lastLoop d u.flat = some (e, os)) : d ≤ e := by
  induction u generalizing k d os with
  | nil => cases h
  | op o u ih =>
      rw [Tune.flat, lastLoop, hu.1.delta, Int.add_zero] at h
      cases hrest : lastLoop d u.flat with
      | some r =>
          rw [hrest] at h
          exact ih hu.2 (hrest.trans h)
      | none =>
          rw [hrest] at h
          by_cases ho : o.code = .loop
          · simp only [ho, if_true, Option.some.injEq, Prod.mk.injEq] at h
            exact h.1.le
          · simp [ho] at h
  | rep b n u ihb ihu =>
      rw [lastLoop_rep hu.2.2.1] at h
      cases hrest : lastLoop d u.flat with
      | some r =>
          rw [hrest] at h
          exact ihu hu.2.2.2 (hrest.trans h)
      | none =>
          rw [hrest] at h
          cases hbody : lastLoop (d + 1) b.flat with
          | some r =>
              rw [hbody] at h
              simp only [Option.map_some, Option.some.injEq, Prod.mk.injEq] at h
              have hlast : lastLoop (d + 1) b.flat = some (e, r.2) := by rw [hbody, ← h.1]
              have hle := ihb hu.2.2.1 hlast
              omega
          | none =>
              rw [hbody] at h
              cases h

/-- What comes behind an `L` that is in no bracket of a tune is a tune again. -/
theorem exists_lap {k : Nat} {d : Int} {u : Tune} {os : List Op} (hu : u.Good k)
    (h : lastLoop d u.flat = some (d, os)) : ∃ lap : Tune, lap.flat = os ∧ lap.Good k := by
  induction u generalizing k with
  | nil => cases h
  | op o u ih =>
      rw [Tune.flat, lastLoop, hu.1.delta, Int.add_zero] at h
      cases hrest : lastLoop d u.flat with
      | some r =>
          rw [hrest] at h
          exact ih hu.2 (hrest.trans h)
      | none =>
          rw [hrest] at h
          by_cases ho : o.code = .loop
          · simp only [ho, if_true, Option.some.injEq, Prod.mk.injEq] at h
            exact ⟨u, h.2, hu.2⟩
          · simp [ho] at h
  | rep b n u ihb ihu =>
      rw [lastLoop_rep hu.2.2.1] at h
      cases hrest : lastLoop d u.flat with
      | some r =>
          rw [hrest] at h
          exact ihu hu.2.2.2 (hrest.trans h)
      | none =>
          rw [hrest] at h
          cases hbody : lastLoop (d + 1) b.flat with
          | some r =>
              rw [hbody] at h
              simp only [Option.map_some, Option.some.injEq, Prod.mk.injEq] at h
              have hlast : lastLoop (d + 1) b.flat = some (d, r.2) := by rw [hbody, ← h.1]
              have hle := le_lastLoop hu.2.2.1 hlast
              omega
          | none =>
              rw [hbody] at h
              cases h

theorem exists_split_lastLoop {d e : Int} {xs os : List Op} (h : lastLoop d xs = some (e, os)) :
    ∃ ys o, xs = ys ++ o :: os ∧ o.code = .loop := by
  induction xs generalizing d with
  | nil => cases h
  | cons x xs ih =>
      rw [lastLoop] at h
      cases hrest : lastLoop (d + x.delta) xs with
      | some r =>
          rw [hrest] at h
          obtain ⟨ys, o, rfl, ho⟩ := ih (hrest.trans h)
          exact ⟨x :: ys, o, rfl, ho⟩
      | none =>
          rw [hrest] at h
          by_cases hx : x.code = .loop
          · simp only [hx, if_true, Option.some.injEq, Prod.mk.injEq] at h
            obtain ⟨-, rfl⟩ := h
            exact ⟨[], x, rfl, hx⟩
          · simp [hx] at h

theorem drop_loopPoint {d : Int} {os : List Op} (h : lastLoop 0 ops = some (d, os)) :
    0 ≤ loopPoint ops ∧ ops.drop (loopPoint ops).toNat = os := by
  obtain ⟨ys, o, hops, -⟩ := exists_split_lastLoop h
  have hpoint : loopPoint ops = (ys.length + 1 : Nat) := by
    unfold loopPoint
    rw [h, hops]
    simp only [List.length_append, List.length_cons]
    omega
  rw [hpoint]
  refine ⟨by omega, ?_⟩
  rw [Int.toNat_natCast, hops]
  simp

/-- The loop that has just been played is the one that a channel goes back to, if it is the last. -/
theorem loopPoint_of_last {i : Nat} {o : Op} (hget : ops[i]? = some o) (ho : o.code = .loop)
    (hlast : ∀ q ∈ ops.drop (i + 1), q.code ≠ .loop) : loopPoint ops = (i + 1 : Int) := by
  obtain ⟨hlt, rfl⟩ := List.getElem?_eq_some_iff.mp hget
  have hsplit : ops = ops.take i ++ ops[i] :: ops.drop (i + 1) := by
    rw [← List.drop_eq_getElem_cons hlt, List.take_append_drop]
  obtain ⟨e, he⟩ : ∃ e, lastLoop 0 (ops.take i ++ ops[i] :: ops.drop (i + 1)) =
      some (e, ops.drop (i + 1)) := lastLoop_split ho hlast
  rw [← hsplit] at he
  unfold loopPoint
  rw [he]
  simp only [List.length_drop]
  omega

/-! ## A channel as it is played -/

/-- A channel is at `p`, and has played `log`: with what is still to come, that is the whole list once,
and then the part behind the loop as often as the channel has gone back. -/
structure Playable (ops : List Op) (loops : Int) (whole lap : Tune) (p : Cursor) (log : List Op)
    (t : Tune) (fs : List Frame) : Prop where
  at_ : At ops p t fs
  looppc : loops ≠ 0 → (∀ q ∈ ops.drop p.pc, q.code ≠ .loop) → p.looppc = loopPoint ops
  log : log.filter Op.solid ++ expect t fs =
    whole.unroll ++ (List.replicate p.nloop lap.unroll).flatten

/-- The part behind the loop, when there is one and a channel goes back to it. -/
def Lap (ops : List Op) (loops : Int) (lap : Tune) : Prop :=
  loops ≠ 0 → ∀ d os, lastLoop 0 ops = some (d, os) → lap.flat = os ∧ lap.Good 0

section

variable {loops : Int} {whole lap : Tune} {log : List Op}

theorem playable_start (hwhole : whole.flat = ops) (hgood : whole.Good 0) {p : Cursor}
    (hp : p.pc = 0 ∧ p.looppc = -1 ∧ p.nloop = 0 ∧ p.sp = 0) :
    Playable ops loops whole lap p [] whole [] where
  at_ :=
    { here := by simp [hp.1, hwhole, behind]
      le := by simp [hp.1]
      sp := hp.2.2.2
      good := hgood
      framed := trivial }
  looppc := by
    intro _ hnone
    rw [hp.1, List.drop_zero] at hnone
    unfold loopPoint
    rw [lastLoop_eq_none.mpr hnone, hp.2.1]
  log := by simp [expect, later, hp.2.2.1]

theorem Playable.play {o : Op} {p' : Cursor} {t' : Tune} {fs' : List Frame}
    (h : Playable ops loops whole lap p log t fs) (hplayed : Played ops p t fs o p' t' fs') :
    Playable ops loops whole lap p' (log ++ [o]) t' fs' where
  at_ := hplayed.at_
  looppc := by
    intro hloops hnone
    rw [hplayed.looppc]
    split_ifs with ho
    · rw [hplayed.next ho] at hnone
      exact (loopPoint_of_last hplayed.get ho hnone).symm
    · exact h.looppc hloops (hplayed.ahead hnone ho)
  log := by
    rw [hplayed.nloop, ← h.log, hplayed.expect, List.filter_append, List.append_assoc]

/-- A channel that goes back to its loop has the part behind it before it again. -/
theorem Playable.back {p' : Cursor} (h : Playable ops loops whole lap p log .nil [])
    (hlap : Lap ops loops lap) (hback : p.turn ops loops = .back p') :
    Playable ops loops whole lap p' log lap [] ∧ p'.nloop = p.nloop + 1 ∧
      (0 ≤ loops → (p.nloop : Int) < loops) ∧
      ∃ d, lastLoop 0 ops = some (d, lap.flat) ∧ lap.flat ≠ [] := by
  have hend : ops.drop p.pc = [] := h.at_.here
  have hnone : ops[p.pc]? = none := by
    rw [List.getElem?_eq_none_iff]
    exact List.drop_eq_nil_iff.mp hend
  unfold Cursor.turn at hback
  rw [hnone] at hback
  simp only at hback
  split_ifs at hback with hcond
  rw [not_or, not_or] at hcond
  obtain ⟨hneg, hlen, hmore⟩ := hcond
  cases hback
  have hloops : loops ≠ 0 := by
    rintro rfl
    exact hmore ⟨le_rfl, by omega⟩
  have hpoint : p.looppc = loopPoint ops := h.looppc hloops (by simp [hend])
  cases hlast : lastLoop 0 ops with
  | none =>
      unfold loopPoint at hpoint
      rw [hlast] at hpoint
      simp only at hpoint
      omega
  | some r =>
      obtain ⟨hflat, hgood⟩ := hlap hloops r.1 r.2 hlast
      obtain ⟨-, hdrop⟩ := drop_loopPoint hlast
      refine ⟨?_, rfl, fun hpos => by by_contra hge; exact hmore ⟨hpos, by omega⟩, r.1,
        by rw [hflat], fun hnil => ?_⟩
      swap
      · have hdropped := (hdrop.trans hflat.symm).trans hnil
        rw [List.drop_eq_nil_iff] at hdropped
        omega
      exact
        { at_ :=
            { here := by
                show ops.drop p.looppc.toNat = _
                rw [hpoint, hdrop, ← hflat]
                simp [behind]
              le := by
                show p.looppc.toNat ≤ ops.length
                omega
              sp := rfl
              good := hgood
              framed := trivial }
          looppc := fun _ _ => hpoint
          log := by
            have hlog := h.log
            simp only [expect, Tune.unroll, later, List.append_nil] at hlog
            simp only [expect, later, List.append_nil, hlog, List.replicate_succ', List.flatten_append,
              List.flatten_cons, List.flatten_nil, List.append_assoc] }

/-- A channel at the end of its list stays there, or goes back to its loop. -/
theorem At.turn_nil (h : At ops p .nil []) (loops : Int) :
    p.turn ops loops = .ended ∨ ∃ p', p.turn ops loops = .back p' := by
  have hend : ops.drop p.pc = [] := h.here
  have hnone : ops[p.pc]? = none := by
    rw [List.getElem?_eq_none_iff]
    exact List.drop_eq_nil_iff.mp hend
  unfold Cursor.turn
  rw [hnone]
  simp only
  split_ifs
  · exact .inl rfl
  · exact .inr ⟨_, rfl⟩

/-- What is known of channel `c` after a call of `step`, when it had played `log` before. -/
structure Safe (song : Song) (c : Channel) (whole lap : Tune) (log : List Op) (m : Music)
    (r : Stepped) : Prop where
  outside : r.outcome ≠ .outside
  internal : r.outcome ≠ .internal
  playable : ∃ t fs, Playable (song.ops c) song.loops whole lap (r.music.pl c).cur
    (log ++ r.played) t fs ∧ (r.outcome = .ended → t = .nil ∧ fs = [])
  others : ∀ d, d ≠ c → (r.music.pl d).cur = (m.pl d).cur

theorem goto_cur (m : Music) (c : Channel) (p : Cursor) : ((m.goto c p).pl c).cur = p := by
  show ((m.set c _).pl c).cur = p
  rw [set_pl_self]

theorem goto_of_ne (m : Music) {c d : Channel} (p : Cursor) (h : d ≠ c) :
    ((m.goto c p).pl d).cur = (m.pl d).cur := by
  show ((m.set c _).pl d).cur = _
  rw [set_pl_of_ne _ _ h]

theorem stepLoop_safe {song : Song} {c : Channel} {n : Nat} {m : Music} {log : List Op} {t : Tune}
    {fs : List Frame} (hlap : Lap (song.ops c) song.loops lap)
    (h : Playable (song.ops c) song.loops whole lap (m.pl c).cur log t fs) :
    Safe song c whole lap log m (stepLoop song c n m) := by
  induction n generalizing m log t fs with
  | zero =>
      exact
        { outside := nofun
          internal := nofun
          playable := ⟨t, fs, by simpa [stepLoop] using h, nofun⟩
          others := fun _ _ => rfl }
  | succ n ih =>
      rw [stepLoop]
      obtain ⟨rfl, rfl⟩ | ⟨o, p', t', fs', hturn, hplayed⟩ := h.at_.turn song.loops
      · obtain hended | ⟨p', hback⟩ := h.at_.turn_nil song.loops
        · rw [hended]
          refine
            { outside := nofun
              internal := nofun
              playable := ⟨.nil, [], ?_, fun _ => ⟨rfl, rfl⟩⟩
              others := fun d _ => (calm_mute m c).stays d }
          show Playable _ _ _ _ ((m.mute c).pl c).cur _ _ _
          rw [(calm_mute m c).stays c, List.append_nil]
          exact h
        · rw [hback]
          obtain ⟨hnext, -, -⟩ := h.back hlap hback
          have hsafe := ih (m := m.goto c p') (by rw [goto_cur]; exact hnext)
          exact { hsafe with others := fun d hd => (hsafe.others d hd).trans (goto_of_ne m p' hd) }
      · rw [hturn]
        have hcur : (((m.goto c p').carryout song c o).pl c).cur = p' := by
          rw [stays_carryout song _ c o c, goto_cur]
        have hothers : ∀ d, d ≠ c →
            (((m.goto c p').carryout song c o).pl d).cur = (m.pl d).cur := fun d hd => by
          rw [stays_carryout song _ c o d, goto_of_ne m p' hd]
        have hnext := h.play hplayed
        simp only
        split_ifs
        · refine
            { outside := nofun
              internal := nofun
              playable := ⟨t', fs', ?_, nofun⟩
              others := hothers }
          show Playable _ _ _ _ (((m.goto c p').carryout song c o).pl c).cur _ _ _
          rw [hcur]
          exact hnext
        · have hthere : Playable (song.ops c) song.loops whole lap
              (((m.goto c p').carryout song c o).pl c).cur (log ++ [o]) t' fs' := by
            rw [hcur]
            exact hnext
          have hsafe := ih hthere
          refine
            { outside := hsafe.outside
              internal := hsafe.internal
              playable := ?_
              others := fun d hd => (hsafe.others d hd).trans (hothers d hd) }
          simpa using hsafe.playable

theorem step_safe {song : Song} {c : Channel} {n : Nat} {m : Music} {log : List Op} {t : Tune}
    {fs : List Frame} (hlap : Lap (song.ops c) song.loops lap)
    (h : Playable (song.ops c) song.loops whole lap (m.pl c).cur log t fs) :
    Safe song c whole lap log m (step song c n m) := by
  have huntil := (calm_until m ((m.pl c).us / 1000)).stays
  have hsafe := stepLoop_safe (n := n) (m := m.until ((m.pl c).us / 1000)) hlap
    (by rw [huntil c]; exact h)
  exact { hsafe with others := fun d hd => (hsafe.others d hd).trans (huntil d) }

end

/-- Each channel of `s` is at a place that its list has been played to. -/
def Keeping (song : Song) (whole lap : Channel → Tune) (s : Playing) : Prop :=
  ∀ c, ∃ t fs, Playable (song.ops c) song.loops (whole c) (lap c) (s.music.pl c).cur (s.played c)
    t fs

theorem Keeping.of_safe {song : Song} {whole lap : Channel → Tune} {s : Playing} {c : Channel}
    {r : Stepped} {m : Music} (h : Keeping song whole lap s)
    (hsafe : Safe song c (whole c) (lap c) (s.played c) s.music r) (hm : r.music.Stays m) :
    Keeping song whole lap ⟨m, Function.update s.played c (s.played c ++ r.played)⟩ := by
  intro d
  by_cases hd : d = c
  · subst hd
    obtain ⟨t, fs, hplayable, -⟩ := hsafe.playable
    refine ⟨t, fs, ?_⟩
    simp only [Function.update_self]
    rw [hm d]
    exact hplayable
  · obtain ⟨t, fs, hplayable⟩ := h d
    refine ⟨t, fs, ?_⟩
    simp only [Function.update_of_ne hd]
    rw [hm d, hsafe.others d hd]
    exact hplayable

theorem Keeping.turn {song : Song} {whole lap : Channel → Tune} {s s' : Playing}
    (hlap : ∀ c, Lap (song.ops c) song.loops (lap c)) (h : Keeping song whole lap s)
    (hturn : PlayTurn song s s') : Keeping song whole lap s' := by
  cases hturn with
  | @update c t hbest =>
      intro d
      obtain ⟨t, fs, hplayable⟩ := h d
      refine ⟨t, fs, ?_⟩
      show Playable _ _ _ _ (((s.music.modtick c).rebase c).pl d).cur _ _ _
      rw [stays_rebase _ c d, (calm_modtick _ c).stays d]
      exact hplayable
  | @timed c t n hbest hstep =>
      obtain ⟨t, fs, hplayable⟩ := h c
      exact h.of_safe (step_safe (hlap c) hplayable) (stays_rebase _ c)
  | @ended c t n hbest hstep =>
      obtain ⟨t, fs, hplayable⟩ := h c
      exact h.of_safe (step_safe (hlap c) hplayable)
        (Music.Stays.trans (stays_set _ (by rfl)) (stays_rebase _ c))

theorem start_cur (song : Song) (c : Channel) :
    ((Music.start song).pl c).cur = (Player.init song c).cur := by
  have hfold : ∀ (xs : List Channel) (m : Music), m.Stays (xs.foldl Music.mute m) := by
    intro xs
    induction xs with
    | nil => exact fun _ _ => rfl
    | cons x xs ih => exact fun m => (calm_mute m x).stays.trans (ih _)
  unfold Music.start
  simp only
  rw [(calm_loadwave _ _).stays c, hfold _ _ c]
  rfl

theorem Reached.keeping {song : Song} {whole lap : Channel → Tune}
    (hwhole : ∀ c, (whole c).flat = song.ops c ∧ (whole c).Good 0)
    (hlap : ∀ c, Lap (song.ops c) song.loops (lap c)) {s : Playing} (h : Reached song s) :
    Keeping song whole lap s := by
  induction h with
  | start =>
      intro c
      refine ⟨whole c, [], ?_⟩
      show Playable _ _ _ _ ((Music.start song).pl c).cur _ _ _
      rw [start_cur]
      exact playable_start (hwhole c).1 (hwhole c).2 ⟨rfl, rfl, rfl, rfl⟩
  | turn _ hturn ih => exact ih.turn hlap hturn

/-- The last `L` of a channel, if there is one and the song goes back to it, is in no bracket. -/
def Song.LoopsOutside (song : Song) : Prop :=
  song.loops = 0 ∨ ∀ c d os, lastLoop 0 (song.ops c) = some (d, os) → d = 0

theorem Song.LoopsOutside.exists_lap {song : Song} (h : song.LoopsOutside) {c : Channel}
    {whole : Tune} (hwhole : whole.flat = song.ops c) (hgood : whole.Good 0) :
    ∃ lap : Tune, Lap (song.ops c) song.loops lap := by
  cases hlast : lastLoop 0 (song.ops c) with
  | none => exact ⟨.nil, fun _ d os hsome => by rw [hlast] at hsome; cases hsome⟩
  | some r =>
      obtain hzero | hout := h
      · exact ⟨.nil, fun hne => absurd hzero hne⟩
      · obtain ⟨e, ys⟩ := r
        obtain rfl : e = 0 := hout c e ys hlast
        obtain ⟨lap, hflat, hlapgood⟩ := DiscoBsd.Mml.exists_lap hgood (by rw [hwhole]; exact hlast)
        refine ⟨lap, fun _ d os hsome => ?_⟩
        rw [hlast] at hsome
        cases hsome
        exact ⟨hflat, hlapgood⟩

/-- What a song plays on a channel when its brackets are played as often as their counts say: the whole
list, and then what comes behind the loop as often as the channel has gone back. -/
def Plays (song : Song) (c : Channel) (nloop : Nat) (xs : List Op) : Prop :=
  ∃ whole lap : Tune, (whole.flat = song.ops c ∧ whole.Good 0) ∧
    (song.loops ≠ 0 → ∀ d os, lastLoop 0 (song.ops c) = some (d, os) →
      lap.flat = os ∧ lap.Good 0) ∧
    xs = whole.unroll ++ (List.replicate nloop lap.unroll).flatten

/-- In every call of `step` that a song comes to, the repeat stack stays within its bounds, and what the
channel has played is what its brackets say, as far as it has come. -/
theorem repeats_exact {n : Nat} {x : List Char} {s : State} (h : load n x = .ok s) (loops : Int)
    (hloops : (s.song loops).LoopsOutside) {q : Playing} (hq : Reached (s.song loops) q)
    (c : Channel) (k : Nat) :
    let r := step (s.song loops) c k q.music
    (r.outcome ≠ .outside ∧ r.outcome ≠ .internal ∧ (r.music.pl c).cur.sp ≤ 8) ∧
      ∃ rest, Plays (s.song loops) c (r.music.pl c).cur.nloop
          ((q.played c ++ r.played).filter Op.solid ++ rest) ∧
        (r.outcome = .ended → rest = []) := by
  choose whole hwhole hgood using load_tune h
  choose lap hlap using fun c => hloops.exists_lap (hwhole c) (hgood c)
  obtain ⟨t, fs, hplayable⟩ := hq.keeping (fun c => ⟨hwhole c, hgood c⟩) hlap c
  have hsafe := step_safe (n := k) (hlap c) hplayable
  obtain ⟨t', fs', hafter, hended⟩ := hsafe.playable
  refine ⟨⟨hsafe.outside, hsafe.internal, ?_⟩, expect t' fs',
    ⟨whole c, lap c, ⟨hwhole c, hgood c⟩, hlap c, hafter.log⟩, ?_⟩
  · rw [hafter.at_.sp]
    exact hafter.at_.framed.length_le
  · intro hend
    obtain ⟨rfl, rfl⟩ := hended hend
    rfl

/-- A turn of `play`, with 20 turns for its call of `step`. -/
def Playing.next (song : Song) (s : Playing) : Option Playing :=
  s.music.best.bind fun best =>
    let c := best.1
    let r := step song c 20 s.music
    let played := Function.update s.played c (s.played c ++ r.played)
    if best.2.2 then some ⟨(s.music.modtick c).rebase c, s.played⟩
    else if r.outcome = .timed then some ⟨r.music.rebase c, played⟩
    else if r.outcome = .ended then
      some ⟨(r.music.set c { r.music.pl c with done := true }).rebase c, played⟩
    else none

/-- The state after some turns of `play`. -/
def Playing.after (song : Song) : Nat → Option Playing
  | 0 => some ⟨Music.start song, fun _ => []⟩
  | k + 1 => (Playing.after song k).bind (Playing.next song)

theorem Playing.next_turn {song : Song} {s s' : Playing} (h : s.next song = some s') :
    PlayTurn song s s' := by
  obtain ⟨⟨c, t, mod⟩, hbest, h⟩ := Option.bind_eq_some_iff.mp h
  dsimp only at h
  cases mod with
  | true =>
      cases h
      exact .update hbest
  | false =>
      rw [if_neg (by decide)] at h
      split at h
      · next htimed =>
          cases h
          exact .timed hbest htimed
      · split at h
        · next hended =>
            cases h
            exact .ended hbest hended
        · cases h

theorem reached_after {song : Song} {k : Nat} {q : Playing} (h : Playing.after song k = some q) :
    Reached song q := by
  induction k generalizing q with
  | zero =>
      cases h
      exact .start
  | succ k ih =>
      obtain ⟨s, hs, hnext⟩ := Option.bind_eq_some_iff.mp h
      exact (ih hs).turn (Playing.next_turn hnext)

/-- A song whose loops are outside of brackets, and take time, comes to a state in which the first channel
went back to its `L`. -/
theorem exists_gone_back (n k : Nat) (x : List Char) (loops : Int)
    (h : ((load n x).toOption.map fun s => decide ((∀ c, ∀ r ∈ lastLoop 0 (s.ch c).ops,
      r.1 = 0 ∧ ∃ o ∈ r.2, o.code.Timed) ∧
        (Playing.after (s.song loops) k).any fun q => decide ((q.music.pl 0).cur.nloop = 1))) =
      some true) :
    ∃ s q, load n x = .ok s ∧ (∀ c, ∀ r ∈ lastLoop 0 (s.ch c).ops, r.1 = 0 ∧
      ∃ o ∈ r.2, o.code.Timed) ∧ Reached (s.song loops) q ∧ (q.music.pl 0).cur.nloop = 1 := by
  cases hload : load n x with
  | error e =>
      rw [hload] at h
      cases h
  | ok s =>
      rw [hload] at h
      obtain ⟨hall, hafter⟩ := of_decide_eq_true (Option.some.inj h)
      obtain ⟨q, hq, hback⟩ := (Option.any_eq_true _ _).mp hafter
      exact ⟨s, q, rfl, hall, reached_after hq, of_decide_eq_true hback⟩

theorem repeats_exact_song :
    ∃ s q, load 3 "A[c]2 L e".toList = .ok s ∧ Reached (s.song 1) q ∧
      (q.music.pl 0).cur.nloop = 1 ∧
      let r := step (s.song 1) 0 7 q.music
      (r.outcome ≠ .outside ∧ r.outcome ≠ .internal ∧ (r.music.pl 0).cur.sp ≤ 8) ∧
        ∃ rest, Plays (s.song 1) 0 (r.music.pl 0).cur.nloop
            ((q.played 0 ++ r.played).filter Op.solid ++ rest) ∧
          (r.outcome = .ended → rest = []) := by
  obtain ⟨s, q, hload, hloops, hq, hback⟩ :=
    exists_gone_back 3 4 "A[c]2 L e".toList 1 (by decide +kernel)
  exact ⟨s, q, hload, hq, hback,
    repeats_exact hload 1 (.inr fun c d os hlast => (hloops c _ hlast).1) hq 0 7⟩

/-- The song of a text comes to a call of `step` that touches the stack outside its bounds. -/
theorem outside_of_load {n k : Nat} {x : List Char} {loops : Int} {c : Channel}
    (h : ((load n x).toOption.map fun s =>
      (step (s.song loops) c k (Music.start (s.song loops))).outcome) = some .outside) :
    ∃ s, load n x = .ok s ∧ Reached (s.song loops) ⟨Music.start (s.song loops), fun _ => []⟩ ∧
      (step (s.song loops) c k (Music.start (s.song loops))).outcome = .outside := by
  cases hload : load n x with
  | error e =>
      rw [hload] at h
      cases h
  | ok s =>
      rw [hload] at h
      exact ⟨s, rfl, .start, Option.some.inj h⟩

theorem repeats_outside :
    ∃ s, load 3 "A[L]".toList = .ok s ∧
      Reached (s.song (-1)) ⟨Music.start (s.song (-1)), fun _ => []⟩ ∧
      (step (s.song (-1)) 0 9 (Music.start (s.song (-1)))).outcome = .outside :=
  outside_of_load (by decide +kernel)

end DiscoBsd.Mml
