import DiscoBsd.Clists.Sound
import Mathlib.Data.List.TakeWhile

/-!
# Taking characters from a list

`getc` removes the first byte of the queue. `q_to_b` and `ndflush` work block by block, and do what
as many calls of `getc` do.
-/

namespace DiscoBsd.Clists

open DiscoBsd.Lib

variable {Q : Type} [DecidableEq Q] {pool : List Nat} {k k' : Pool Q} {s : Store Q} {p : Q}

theorem Queue.drop_cons_nil (c : UInt8) (skip n : Nat) :
    Queue.drop (n + 1) ⟨[c], skip⟩ = .empty := by
  rw [Queue.drop, if_pos]
  simp

theorem Queue.drop_one (c : UInt8) {rest : List UInt8} (skip : Nat) (h : rest ≠ []) :
    Queue.drop 1 ⟨c :: rest, skip⟩ = ⟨rest, (skip + 1) % 28⟩ := by
  rw [Queue.drop, if_neg]
  · rfl
  · have := List.length_pos_iff.mpr h
    rw [List.length_cons]
    omega

theorem SoundBut.set {owner : Nat → Option Q} {free : List Nat} {queue : Q → Queue}
    (h : SoundBut (fun other => other = p) pool k queue owner free) (l : Clist) :
    SoundBut (fun other => other = p) pool (k.set p l) queue owner free :=
  h.write (fun _ hne => Function.update_of_ne hne ..) rfl rfl (fun _ _ _ => rfl)
    fun _ _ _ _ _ _ => rfl

theorem Sound.getc (h : Sound pool k s) (p : Q) :
    Sound pool (k.getc p).2 (s.set p ((s.queue p).drop 1)) ∧
      (k.getc p).1 = match (s.queue p).content with
        | [] => (-1 : Int)
        | c :: _ => c.toNat := by
  obtain ⟨owner, free, hsound, hfree⟩ := h
  obtain ⟨hbut, blocks, hmemory, hnodup, howned⟩ := hsound.open p
  generalize hl : k.list p = l at hmemory
  generalize hq : s.queue p = q at hmemory
  have hlist : ∀ l, (k.set p l).list p = l := fun l => Function.update_self ..
  have hsum := hmemory.blocks_eq
  rw [← hq] at hsum
  unfold Pool.getc
  rw [hl]
  cases hmemory with
  | empty =>
      refine ⟨(hbut.set ⟨0, 0, 0⟩).close ⟨?_, hnodup, howned⟩ (by rw [hsum, hfree]), rfl⟩
      rw [hlist]
      exact .empty
  | @chain cf cl skip _ content hchars hskip =>
      obtain ⟨c, rest, rfl⟩ := List.exists_cons_of_ne_nil hchars.content_ne_nil
      obtain ⟨rfl, hrest⟩ := hchars.advance
      dsimp only
      have hpos : ¬ (((k.c_info cf :: rest).length : Int) ≤ 0) := by simp
      have hcc : ((k.c_info cf :: rest).length : Int) - 1 = rest.length := by simp
      rw [if_neg hpos, hcc]
      cases hrest with
      | empty hnil hblocks _ =>
          subst hnil hblocks
          have hlast : block (cf + 1 - 1) = block cf := rfl
          rw [if_pos (by simp), hlast]
          have hin := (howned (block cf)).mp (List.mem_singleton.mpr rfl)
          refine ⟨?_, rfl⟩
          refine ((hbut.set ⟨([] : List UInt8).length, 0, 0⟩).release hin.1 hin.2).close
            ⟨?_, List.nodup_nil, SoundBut.owned_release hnodup howned⟩ ?_
          · rw [Queue.drop_cons_nil]
            exact hlist _ ▸ .empty
          · rw [hsum, hfree, List.length_singleton, List.length_cons, List.length_nil]
      | next bs hend hblocks hchars' hnext =>
          subst hblocks
          rw [if_neg (by have := hchars'.content_ne_nil; simpa using this), if_pos hend]
          have hin := (howned (cf + 1 - 32)).mp List.mem_cons_self
          obtain ⟨hnotin, hnodup'⟩ := List.nodup_cons.mp hnodup
          refine ⟨?_, rfl⟩
          refine ((hbut.set ⟨rest.length, k.c_next (cf + 1 - 32) + 4, cl⟩).release hin.1
            hin.2).close ⟨?_, hnodup', SoundBut.owned_release hnodup howned⟩ ?_
          · have hskip' : (k.c_next (cf + 1 - 32) + 4) % 32 = (skip + 1) % 28 + 4 := by omega
            rw [Queue.drop_one _ _ hchars'.content_ne_nil]
            refine hlist _ ▸ .chain (hchars'.congr (fun b hmem => ?_) fun _ _ _ _ _ => rfl) hskip'
            refine Function.update_of_ne ?_ ..
            rintro rfl
            exact hnotin hmem
          · rw [hsum, hfree, List.length_cons, List.length_cons]
            omega
      | same hend hchars' =>
          rw [if_neg (by have := hchars'.content_ne_nil; simpa using this), if_neg hend]
          refine ⟨(hbut.set ⟨rest.length, cf + 1, cl⟩).close ⟨?_, hnodup, howned⟩ ?_, rfl⟩
          · have hskip' : (cf + 1) % 32 = (skip + 1) % 28 + 4 := by omega
            rw [Queue.drop_one _ _ hchars'.content_ne_nil]
            exact hlist _ ▸ .chain hchars' hskip'
          · rw [hsum, hfree]

/-! ## Repeated `getc` -/

/-- `n` calls of `getc`, or as many as there are characters. -/
def Pool.getcs (p : Q) : Nat → Pool Q → List UInt8 × Pool Q
  | 0, k => ([], k)
  | n + 1, k =>
      if (k.getc p).1 < 0 then ([], (k.getc p).2)
      else
        let rest := getcs p n (k.getc p).2
        (UInt8.ofInt (k.getc p).1 :: rest.1, rest.2)

theorem ofInt_toNat (c : UInt8) : UInt8.ofInt c.toNat = c := by
  have hlt := c.toNat_lt
  have hmod : ((c.toNat : Int) % 2 ^ 8).toNat = c.toNat := by omega
  rw [UInt8.ofInt, hmod, UInt8.ofNat_toNat]

theorem Queue.drop_drop (q : Queue) (n m : Nat) : (q.drop n).drop m = q.drop (n + m) := by
  obtain ⟨content, skip⟩ := q
  by_cases hn : content.length ≤ n
  · have hnm : content.length ≤ n + m := by omega
    simp [drop, hn, hnm, empty]
  · by_cases hm : content.length ≤ n + m
    · have hm' : content.length - n ≤ m := by omega
      simp [drop, hn, hm, hm']
    · have hm' : ¬ content.length - n ≤ m := by omega
      simp [drop, hn, hm, hm', Nat.add_assoc]

theorem Queue.drop_empty (n : Nat) : Queue.empty.drop n = .empty := by
  simp [drop, empty]

theorem Queue.blocks_drop_le (q : Queue) (n : Nat) : (q.drop n).blocks ≤ q.blocks := by
  obtain ⟨content, skip⟩ := q
  simp only [drop, blocks]
  split
  · exact Nat.zero_le _
  · simp only [List.length_drop, CBSIZE, CBLOCK, LINK]
    omega

theorem Store.set_set (s : Store Q) (p : Q) {q q' : Queue}
    (h : q.blocks ≤ s.free + (s.queue p).blocks) : (s.set p q).set p q' = s.set p q' := by
  simp only [set, Function.update_self, Function.update_idem, Store.mk.injEq, true_and]
  omega

theorem Queue.drop_content (q : Queue) (n : Nat) : (q.drop n).content = q.content.drop n := by
  simp only [drop]
  split
  · rename_i hle
    exact (List.drop_eq_nil_of_le hle).symm
  · rfl

omit [DecidableEq Q] in
theorem Sound.drop_zero (h : Sound pool k s) (p : Q) : (s.queue p).drop 0 = s.queue p := by
  obtain ⟨owner, free, hsound, -⟩ := h
  obtain ⟨blocks, hmemory, -, -⟩ := hsound.holds p id
  generalize k.list p = l at hmemory
  generalize s.queue p = q at hmemory
  cases hmemory with
  | empty => exact Queue.drop_empty 0
  | @chain cf cl skip _ content hchars hskip =>
      have hpos := List.length_pos_iff.mpr hchars.content_ne_nil
      have hskip' : (skip + 0) % 28 = skip := by omega
      rw [Queue.drop, if_neg (by dsimp only; omega)]
      simp only [List.drop_zero, Queue.mk.injEq, true_and]
      exact hskip'

theorem Sound.getcs (n : Nat) (h : Sound pool k s) :
    Sound pool (k.getcs p n).2 (s.set p ((s.queue p).drop n)) ∧
      (k.getcs p n).1 = (s.queue p).content.take n := by
  induction n generalizing k s with
  | zero =>
      rw [h.drop_zero, Store.set_self]
      exact ⟨h, rfl⟩
  | succ n ih =>
      obtain ⟨hnext, hc⟩ := h.getc p
      obtain ⟨hrest, hcs⟩ := ih hnext
      have hle := Queue.blocks_drop_le (s.queue p) 1
      rw [Store.set_set s p (by omega), Store.set_queue, Queue.drop_drop, Nat.add_comm 1 n] at hrest
      rw [Store.set_queue] at hcs
      unfold Pool.getcs
      cases hcontent : (s.queue p).content with
      | nil =>
          have hdrop : ∀ m, (s.queue p).drop m = .empty := by
            intro m
            rw [Queue.drop, if_pos]
            rw [hcontent]
            exact Nat.zero_le m
          rw [hcontent] at hc
          rw [if_pos (by rw [hc]; decide), hdrop]
          rw [hdrop] at hnext
          exact ⟨hnext, rfl⟩
      | cons c rest =>
          rw [hcontent] at hc
          dsimp only at hc
          have hnonneg := Int.natCast_nonneg c.toNat
          rw [if_neg (by omega), hc, ofInt_toNat]
          refine ⟨hrest, ?_⟩
          rw [Queue.drop_content, hcontent, List.drop_one, List.tail_cons] at hcs
          dsimp only
          rw [hcs, List.take_succ_cons]

/-! ## Whole blocks -/

/-- A list whose first `nc` characters, of one block, are gone. -/
def Pool.advance (k : Pool Q) (p : Q) (nc : Nat) : Pool Q :=
  let l := k.list p
  let c_cf := l.c_cf + nc
  let c_cc := l.c_cc - nc
  if c_cc ≤ 0 then (k.set p ⟨c_cc, 0, 0⟩).release (block (c_cf - 1))
  else if c_cf % CBLOCK = 0 then
    (k.set p ⟨c_cc, k.c_next (c_cf - CBLOCK) + LINK, l.c_cl⟩).release (c_cf - CBLOCK)
  else k.set p ⟨c_cc, c_cf, l.c_cl⟩

theorem Pool.getc_eq (k : Pool Q) (h : 0 < (k.list p).c_cc) :
    k.getc p = (((k.c_info (k.list p).c_cf).toNat : Int), k.advance p 1) := by
  unfold getc advance
  simp only [Int.natCast_one]
  rw [if_neg (by omega)]
  split
  · rfl
  · split
    · rfl
    · rfl

theorem Pool.set_set (k : Pool Q) (p : Q) (l l' : Clist) : (k.set p l).set p l' = k.set p l' := by
  simp [set]

theorem Pool.list_set (k : Pool Q) (p : Q) (l : Clist) : (k.set p l).list p = l :=
  Function.update_self ..

/-- Copying a run of one block is calling `getc` for each of its characters. -/
theorem Pool.getcs_advance (k : Pool Q) (m : Nat) {nc : Nat} (hpos : 0 < nc)
    (hcc : (nc : Int) ≤ (k.list p).c_cc) (hroom : nc ≤ CBLOCK - (k.list p).c_cf % CBLOCK) :
    getcs p (nc + m) k = (bytes k.c_info (k.list p).c_cf nc ++ (getcs p m (k.advance p nc)).1,
      (getcs p m (k.advance p nc)).2) := by
  induction nc generalizing k with
  | zero => exact absurd hpos (Nat.lt_irrefl 0)
  | succ nc ih =>
      have hgetc := k.getc_eq (p := p) (by omega)
      have hnonneg := Int.natCast_nonneg (k.c_info (k.list p).c_cf).toNat
      rw [Nat.add_right_comm, getcs, hgetc]
      dsimp only
      rw [if_neg (by omega), ofInt_toNat, bytes, List.cons_append]
      cases nc with
      | zero =>
          rw [Nat.zero_add]
          rfl
      | succ nc =>
          -- the first character is not the last one of the block
          have hone : k.advance p 1 =
              k.set p ⟨(k.list p).c_cc - 1, (k.list p).c_cf + 1, (k.list p).c_cl⟩ := by
            unfold advance
            dsimp only
            rw [if_neg (by omega), if_neg]
            · rfl
            · simp only [CBLOCK] at hroom ⊢
              omega
          have hsame : (k.advance p 1).advance p (nc + 1) = k.advance p (nc + 1 + 1) := by
            have hcc' : (k.list p).c_cc - 1 - ((nc + 1 : Nat) : Int) =
                (k.list p).c_cc - ((nc + 1 + 1 : Nat) : Int) := by omega
            have hcf' : (k.list p).c_cf + 1 + (nc + 1) = (k.list p).c_cf + (nc + 1 + 1) := by omega
            rw [hone]
            unfold advance
            simp only [list_set, set_set, hcc', hcf']
            rfl
          have hrec := ih (k.advance p 1) (Nat.succ_pos nc)
            (by rw [hone, list_set]; dsimp only; omega)
            (by rw [hone, list_set]; simp only [CBLOCK] at hroom ⊢; omega)
          have hinfo : bytes (k.advance p 1).c_info ((k.advance p 1).list p).c_cf (nc + 1) =
              bytes k.c_info ((k.list p).c_cf + 1) (nc + 1) := by
            rw [hone, list_set]
            rfl
          rw [hrec, hsame, hinfo]

/-- With nothing left, `getc` takes nothing. -/
theorem Pool.getcs_nil {n : Nat} (hlist : k.list p = ⟨0, 0, 0⟩) : getcs p n k = ([], k) := by
  cases n with
  | zero => rfl
  | succ n =>
      have hgetc : k.getc p = (-1, k) := by
        unfold getc
        dsimp only
        rw [hlist, if_pos (by decide), ← hlist, set, Function.update_eq_self]
      rw [getcs, hgetc]
      rfl

theorem Pool.advance_list (k : Pool Q) (p : Q) (nc : Nat) :
    ((k.advance p nc).list p).c_cc = (k.list p).c_cc - nc := by
  unfold advance
  dsimp only
  split
  · show ((k.set p _).list p).c_cc = _
    rw [list_set]
  · split
    · show ((k.set p _).list p).c_cc = _
      rw [list_set]
    · rw [list_set]

theorem Pool.qToBLoop_eq {fuel cc : Nat} (hfuel : cc ≤ fuel) (hpos : 0 < (k.list p).c_cc) :
    qToBLoop p fuel cc k = some (getcs p cc k) := by
  induction fuel generalizing cc k with
  | zero =>
      obtain rfl : cc = 0 := Nat.le_zero.mp hfuel
      rfl
  | succ fuel ih =>
      cases cc with
      | zero => rfl
      | succ cc =>
          rw [qToBLoop]
          dsimp only
          generalize hnc : min (min (CBLOCK - (k.list p).c_cf % CBLOCK) (cc + 1))
            (k.list p).c_cc.toNat = nc
          have hroom : nc ≤ CBLOCK - (k.list p).c_cf % CBLOCK := by
            rw [← hnc]
            exact Nat.le_trans (Nat.min_le_left _ _) (Nat.min_le_left _ _)
          have hbounds : 0 < nc ∧ nc ≤ cc + 1 ∧ (nc : Int) ≤ (k.list p).c_cc := by
            simp only [CBLOCK] at hnc
            omega
          obtain ⟨hnc0, hncc, hcc⟩ := hbounds
          have hchunk := k.getcs_advance (cc + 1 - nc) hnc0 hcc hroom
          rw [Nat.add_sub_cancel' hncc] at hchunk
          rw [hchunk]
          by_cases hend : (k.list p).c_cc - nc ≤ 0
          · have hadvance : k.advance p nc = (k.set p ⟨(k.list p).c_cc - nc, 0, 0⟩).release
                (block ((k.list p).c_cf + nc - 1)) := by
              unfold advance
              dsimp only
              rw [if_pos hend]
            have hlist : (k.advance p nc).list p = ⟨0, 0, 0⟩ := by
              have hzero : (k.list p).c_cc - nc = 0 := by omega
              rw [hadvance, hzero]
              exact list_set ..
            rw [if_pos hend, getcs_nil hlist, List.append_nil, hadvance]
          · have hadvance : k.advance p nc = if ((k.list p).c_cf + nc) % CBLOCK = 0 then
                (k.set p ⟨(k.list p).c_cc - nc,
                  k.c_next ((k.list p).c_cf + nc - CBLOCK) + LINK, (k.list p).c_cl⟩).release
                    ((k.list p).c_cf + nc - CBLOCK)
                else k.set p ⟨(k.list p).c_cc - nc, (k.list p).c_cf + nc, (k.list p).c_cl⟩ := by
              unfold advance
              dsimp only
              rw [if_neg hend]
            have hpos' : 0 < ((k.advance p nc).list p).c_cc := by
              rw [advance_list]
              omega
            rw [if_neg hend, ← hadvance, ih (by omega) hpos']
            rfl

/-- `q_to_b` does what as many calls of `getc` do. -/
theorem Pool.q_to_b_eq (k : Pool Q) (q : Q) (cc : Int) :
    k.q_to_b q cc = some (k.getcs q cc.toNat) := by
  unfold q_to_b
  split
  · rename_i hcc
    rw [Int.toNat_of_nonpos hcc]
    rfl
  · split
    · rename_i hcc hempty
      obtain ⟨n, hn⟩ : ∃ n, cc.toNat = n + 1 := ⟨cc.toNat - 1, by omega⟩
      have hgetc : k.getc q = (-1, k.set q ⟨0, 0, 0⟩) := by
        unfold getc
        dsimp only
        rw [if_pos hempty]
      rw [hn, getcs, hgetc]
      rfl
    · rename_i hempty
      exact qToBLoop_eq (Nat.le_refl _) (by omega)

/-! ## `ndflush`, `ndqb` and `nextc` -/

omit [DecidableEq Q] in
/-- A list is empty, or a chain of blocks. -/
theorem Sound.list_cases (h : Sound pool k s) (p : Q) :
    (k.list p = ⟨0, 0, 0⟩ ∧ s.queue p = .empty) ∨
    ∃ cf cl skip blocks content, k.list p = ⟨(content.length : Nat), cf, cl⟩ ∧
      s.queue p = ⟨content, skip⟩ ∧ blocks.Nodup ∧ Chars k.c_next k.c_info cl cf blocks content ∧
      cf % 32 = skip + 4 := by
  obtain ⟨owner, free, hsound, -⟩ := h
  obtain ⟨blocks, hmemory, hnodup, -⟩ := hsound.holds p id
  generalize k.list p = l at hmemory
  generalize s.queue p = q at hmemory
  cases hmemory with
  | empty => exact Or.inl ⟨rfl, rfl⟩
  | @chain cf cl skip _ content hchars hskip =>
      exact Or.inr ⟨cf, cl, skip, blocks, content, rfl, rfl, hnodup, hchars, hskip⟩

theorem Pool.set_self {l : Clist} (hlist : k.list p = l) : k.set p l = k := by
  rw [← hlist, set, Function.update_eq_self]

/-- The end of `ndflush`. -/
def Pool.flushed (k : Pool Q) (p : Q) : Pool Q :=
  if (k.list p).c_cc ≤ 0 then k.set p ⟨0, 0, 0⟩ else k

theorem Sound.flushed (h : Sound pool k s) (p : Q) : k.flushed p = k := by
  rcases h.list_cases p with ⟨hlist, -⟩ | ⟨cf, cl, skip, blocks, content, hlist, -, -, hchars, -⟩
  · rw [Pool.flushed, hlist, if_pos (by decide), Pool.set_self hlist]
  · have hpos := List.length_pos_iff.mpr hchars.content_ne_nil
    rw [Pool.flushed, hlist, if_neg]
    dsimp only
    omega

theorem Pool.ndflushLoop_eq {fuel cc : Nat} (h : Sound pool k s) (hfuel : cc ≤ fuel) :
    (ndflushLoop p fuel cc k).map (·.flushed p) = some (getcs p cc k).2 := by
  induction fuel generalizing cc k s with
  | zero =>
      obtain rfl : cc = 0 := Nat.le_zero.mp hfuel
      exact congrArg some (h.flushed p)
  | succ fuel ih =>
      cases cc with
      | zero => exact congrArg some (h.flushed p)
      | succ cc =>
          rcases h.list_cases p with ⟨hlist, -⟩ | ⟨cf, cl, skip, blocks, content, hlist, -, hnodup, hchars, hskip⟩
          · rw [ndflushLoop, hlist, getcs_nil hlist]
            dsimp only
            rw [if_pos rfl, Option.map_some, h.flushed]
          · have hpos := List.length_pos_iff.mpr hchars.content_ne_nil
            have hrem := hchars.rest_of_block hnodup
            obtain ⟨b, bs, -, hb, hle, hlt⟩ := hchars.exists_first
            have hblock := block_eq hb (by omega) hlt
            rw [ndflushLoop, hlist]
            dsimp only
            rw [if_neg (by omega)]
            generalize hr : min (32 - cf % 32) content.length = rem at hrem
            have hrem0 : 0 < rem := by omega
            have hremlen : rem ≤ content.length := by omega
            have hremblock : rem ≤ 32 - cf % 32 := by omega
            have hrem' : (if block cf = block (cl - 1) then cl else block cf + CBLOCK) - cf = rem :=
              hrem
            rw [hrem']
            have hcc : (rem : Int) ≤ (k.list p).c_cc := by
              rw [hlist]
              exact Int.ofNat_le.mpr hremlen
            have hroom : rem ≤ CBLOCK - (k.list p).c_cf % CBLOCK := by
              rw [hlist]
              exact hremblock
            split
            · rename_i hremcc
              have hchunk := k.getcs_advance (cc + 1 - rem) hrem0 hcc hroom
              rw [Nat.add_sub_cancel' hremcc] at hchunk
              rw [hchunk]
              dsimp only
              have hadvance : k.advance p rem = if (content.length : Int) - rem ≤ 0 then
                  (k.set p ⟨(content.length : Int) - rem, 0, 0⟩).release (block (cf + rem - 1))
                  else if (cf + rem) % CBLOCK = 0 then
                    (k.set p ⟨(content.length : Int) - rem, k.c_next (cf + rem - CBLOCK) + LINK,
                      cl⟩).release (cf + rem - CBLOCK)
                  else k.set p ⟨(content.length : Int) - rem, cf + rem, cl⟩ := by
                unfold advance
                rw [hlist]
              by_cases hend : content.length = rem
              · -- the block was the last one
                have hzero : (content.length : Int) - rem = 0 := by omega
                have hlast : block (cf + rem - 1) = b := block_eq hb (by omega) (by omega)
                rw [hzero, if_pos (Int.le_refl 0), hlast] at hadvance
                rw [hzero, hblock, hadvance]
                have hlist' : ∀ l, ((k.set p l).release b).list p = l := fun l => list_set ..
                rw [getcs_nil (hlist' _)]
                have hloop : ∀ n fuel, ndflushLoop p fuel n
                    ((k.set p ⟨0, k.c_next b + LINK, cl⟩).release b) =
                      some ((k.set p ⟨0, k.c_next b + LINK, cl⟩).release b) := by
                  intro n fuel
                  cases n with
                  | zero =>
                      cases fuel with
                      | zero => rfl
                      | succ fuel => rfl
                  | succ n =>
                      cases fuel with
                      | zero => rw [ndflushLoop, hlist', if_pos rfl]
                      | succ fuel =>
                          rw [ndflushLoop]
                          dsimp only
                          rw [hlist', if_pos rfl]
                rw [hloop, Option.map_some, flushed, hlist', if_pos (Int.le_refl 0)]
                have hset : ((k.set p ⟨0, k.c_next b + LINK, cl⟩).release b).set p ⟨0, 0, 0⟩ =
                    (k.set p ⟨0, 0, 0⟩).release b := by
                  simp [Pool.set, Pool.release, Pool.free]
                rw [hset]
              · have hboundary : (cf + rem) % 32 = 0 := by omega
                have hb' : cf + rem - 32 = b := by omega
                have hboundary' : (cf + rem) % CBLOCK = 0 := hboundary
                have hb'' : cf + rem - CBLOCK = b := hb'
                rw [if_neg (by omega), if_pos hboundary', hb''] at hadvance
                rw [hblock, ← hadvance]
                have hsound := (h.getcs (p := p) rem).1
                have hone := k.getcs_advance 0 hrem0 hcc hroom
                rw [Nat.add_zero] at hone
                rw [hone] at hsound
                exact ih hsound (by omega)
            · rename_i hremcc
              have hchunk := k.getcs_advance (p := p) 0 (Nat.succ_pos cc)
                (by rw [hlist]; dsimp only; omega)
                (by rw [hlist]; simp only [CBLOCK]; omega)
              have hadvance : k.advance p (cc + 1) =
                  k.set p ⟨(content.length : Int) - (cc + 1 : Nat), cf + (cc + 1), cl⟩ := by
                unfold advance
                rw [hlist]
                dsimp only
                rw [if_neg (by omega), if_neg]
                simp only [CBLOCK]
                omega
              rw [Nat.add_zero] at hchunk
              rw [hchunk, hadvance, list_set]
              dsimp only
              rw [if_neg (by omega), Option.map_some, flushed, list_set]
              dsimp only
              rw [if_neg (by omega)]
              rfl

/-- `ndflush` does what as many calls of `getc` do. -/
theorem Pool.ndflush_eq (h : Sound pool k s) (q : Q) (cc : Int) :
    k.ndflush q cc = some (k.getcs q cc.toNat).2 := by
  unfold ndflush
  split
  · rename_i hempty
    rcases h.list_cases q with ⟨hlist, -⟩ | ⟨cf, cl, skip, blocks, content, hlist, -, -, hchars, -⟩
    · rw [getcs_nil hlist]
    · have hpos := List.length_pos_iff.mpr hchars.content_ne_nil
      rw [hlist] at hempty
      dsimp only at hempty
      omega
  · exact ndflushLoop_eq h (Nat.le_refl _)

omit [DecidableEq Q] in
/-- `ndqb` counts the characters that are contiguous, up to one that has a bit of `flag`. -/
theorem Sound.ndqb (h : Sound pool k s) (char_signed : Bool) (q : Q) (flag : BitVec 32) :
    k.ndqb char_signed q flag =
      (((s.queue q).content.take (CBSIZE - (s.queue q).skip)).takeWhile fun c =>
        decide (charValue char_signed c &&& flag = 0)).length := by
  unfold Pool.ndqb
  dsimp only
  rcases h.list_cases q with
    ⟨hlist, hqueue⟩ | ⟨cf, cl, skip, blocks, content, hlist, hqueue, -, hchars, hskip⟩
  · rw [hlist, hqueue]
    rfl
  · have hpos := List.length_pos_iff.mpr hchars.content_ne_nil
    obtain ⟨b, bs, -, hb, hle, hlt⟩ := hchars.exists_first
    have hcontiguous : Pool.contiguous ⟨(content.length : Nat), cf, cl⟩ =
        min (28 - skip) content.length := by
      have hblock : block (cf + 28) = b + 32 := block_eq (by omega) (by omega) (by omega)
      have hcf : block (cf + CBSIZE) - cf = 28 - skip := by
        show block (cf + 28) - cf = _
        omega
      rw [Pool.contiguous]
      dsimp only
      rw [hcf]
      split
      · omega
      · omega
    have hnear := hchars.near (n := min (28 - skip) content.length) (by omega) (by omega)
    have htake : content.take (min (28 - skip) content.length) = content.take (28 - skip) :=
      List.take_eq_take_min.symm
    rw [hlist, hqueue, if_neg (by dsimp only; omega), hcontiguous]
    dsimp only
    rw [hnear, htake]
    split
    · rename_i hflag
      subst hflag
      have hall : (content.take (28 - skip)).takeWhile
          (fun c => decide (charValue char_signed c &&& 0#32 = 0)) = content.take (28 - skip) := by
        rw [List.takeWhile_eq_self_iff]
        intro c _
        simp
      show ((min (28 - skip) content.length : Nat) : Int) = _
      rw [← List.length_take]
      exact congrArg _ (congrArg _ hall.symm)
    · rfl

omit [DecidableEq Q] in
/-- A walk with `nextc` sees the characters in order. -/
theorem Chars.walk {c_cl cf : Nat} {blocks : List Nat} {content : List UInt8}
    (h : Chars k.c_next k.c_info c_cl cf blocks content) (hnodup : blocks.Nodup)
    (hcl : (k.list p).c_cl = c_cl) (hcc : (k.list p).c_cc ≠ 0) {fuel : Nat}
    (hfuel : content.length ≤ fuel) : k.walk p fuel cf = some content := by
  induction content generalizing cf blocks fuel with
  | nil => exact absurd rfl h.content_ne_nil
  | cons c rest ih =>
      obtain ⟨b, bs, -, hb, hle, hlt⟩ := h.exists_first
      obtain ⟨cp, rfl⟩ : ∃ cp, cf = cp + 1 := ⟨cf - 1, by omega⟩
      obtain ⟨fuel, rfl⟩ : ∃ n, fuel = n + 1 := ⟨fuel - 1, by
        simp only [List.length_cons] at hfuel
        omega⟩
      simp only [List.length_cons] at hfuel
      obtain ⟨rfl, hrest⟩ := h.advance
      have hstep : ∀ next, k.nextc p (cp + 1) = next → k.walk p fuel next = some rest →
          k.walk p (fuel + 1) (cp + 1) = some (k.c_info (cp + 1) :: rest) := by
        intro next hnext hwalk
        rw [Pool.walk, hnext, hwalk]
        rfl
      cases hrest with
      | empty hnil _ hend =>
          subst hnil
          refine hstep 0 ?_ ?_
          · rw [Pool.nextc]
            rw [if_neg]
            rintro ⟨-, hne⟩
            exact hne (hend.symm.trans hcl.symm)
          · cases fuel with
            | zero => rfl
            | succ fuel => rfl
      | next bs hboundary hblocks hchars hnext =>
          subst hblocks
          obtain ⟨hnotin, hnodup'⟩ := List.nodup_cons.mp hnodup
          have hne := hchars.boundary_ne_end (b := cp + 1 + 1 - 32) (by omega) hnotin
          refine hstep _ ?_ (ih hchars hnodup' (by omega))
          rw [Pool.nextc]
          rw [if_pos ⟨hcc, by rw [hcl]; omega⟩, if_pos hboundary]
      | same hboundary hchars =>
          have hne := hchars.first_ne_end hnodup
          refine hstep _ ?_ (ih hchars hnodup (by omega))
          rw [Pool.nextc]
          rw [if_pos ⟨hcc, by rw [hcl]; exact hne⟩, if_neg hboundary]

omit [DecidableEq Q] in
theorem Sound.walk (h : Sound pool k s) (p : Q) :
    k.walk p (k.list p).c_cc.toNat (k.list p).c_cf = some (s.queue p).content := by
  rcases h.list_cases p with
    ⟨hlist, hqueue⟩ | ⟨cf, cl, skip, blocks, content, hlist, hqueue, hnodup, hchars, -⟩
  · rw [hlist, hqueue]
    rfl
  · have hpos := List.length_pos_iff.mpr hchars.content_ne_nil
    have hcc : (k.list p).c_cc ≠ 0 := by
      rw [hlist]
      dsimp only
      omega
    have hwalk := hchars.walk hnodup (by rw [hlist]) hcc (Nat.le_refl content.length)
    rw [hlist, hqueue]
    exact hwalk

end DiscoBsd.Clists
