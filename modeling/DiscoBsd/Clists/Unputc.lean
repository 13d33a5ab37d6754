import DiscoBsd.Clists.Putc

/-!
# Taking a character back, and joining lists

`unputc` removes the last byte of a queue. `catq` moves the bytes of one queue to the end of another
through a buffer, and loses none: the blocks that a full buffer leaves behind have room for it.
-/

namespace DiscoBsd.Clists

variable {Q : Type} [DecidableEq Q] {pool : List Nat} {k k' : Pool Q} {s : Store Q}

theorem Queue.dropLast_eq {content : List UInt8} (skip : Nat) (h : content.dropLast ≠ []) :
    Queue.dropLast ⟨content, skip⟩ = ⟨content.dropLast, skip⟩ := by
  have hpos := List.length_pos_iff.mpr h
  rw [List.length_dropLast] at hpos
  rw [Queue.dropLast, if_neg]
  dsimp only
  omega

/-- `unputc` removes the last character and returns it. -/
theorem Sound.unputc (h : Sound pool k s) (char_signed : Bool) (p : Q) :
    ((s.queue p).content = [] → k.unputc char_signed p = some (-1, k)) ∧
    ∀ c, (s.queue p).content.getLast? = some c →
      ∃ k', k.unputc char_signed p = some (charValue char_signed c, k') ∧
        Sound pool k' (s.set p (s.queue p).dropLast) := by
  obtain ⟨owner, free, hsound, hfree⟩ := h
  obtain ⟨hbut, blocks, hmemory, hnodup, howned⟩ := hsound.open p
  generalize hl : k.list p = l at hmemory
  generalize hq : s.queue p = q at hmemory
  have hsum := hmemory.blocks_eq
  rw [← hq] at hsum
  unfold Pool.unputc
  rw [hl]
  cases hmemory with
  | empty => exact ⟨fun _ => rfl, fun _ hlast => nomatch hlast⟩
  | @chain cf cl skip _ content hchars hskip =>
      have hne := hchars.content_ne_nil
      refine ⟨fun hnil => absurd hnil hne, fun c hlast => ?_⟩
      obtain ⟨hc, hinit⟩ := hchars.retreat
      rw [hlast] at hc
      cases hc
      have hpos := List.length_pos_iff.mpr hne
      have hlen : content.dropLast.length = content.length - 1 := List.length_dropLast
      have hcc : ((content.length : Nat) : Int) - 1 = (content.dropLast.length : Nat) := by omega
      dsimp only
      rw [if_neg (by omega), hcc]
      cases hinit with
      | empty hnil hblocks =>
          subst hblocks
          have hin := (howned (block (cl - 1))).mp (List.mem_singleton.mpr rfl)
          rw [hnil, if_pos (show (([] : List UInt8).length : Int) ≤ 0 by decide)]
          refine ⟨_, rfl, ?_⟩
          refine ((hbut.set ⟨([] : List UInt8).length, 0, 0⟩).freed hin.1 hin.2).close
            ⟨?_, List.nodup_nil, SoundBut.owned_release hnodup howned⟩ ?_
          · have hempty : Queue.dropLast ⟨content, skip⟩ = .empty := by
              rw [hnil, List.length_nil] at hlen
              rw [Queue.dropLast, if_pos]
              dsimp only
              omega
            rw [hempty]
            have hlist : ((k.set p ⟨([] : List UInt8).length, 0, 0⟩).free (block (cl - 1))).list p =
                ⟨0, 0, 0⟩ := Pool.list_set ..
            rw [hlist]
            exact .empty
          · rw [hsum, hfree, List.length_singleton, List.length_cons, List.length_nil]
      | previous bs b hinit' hoffset hblocks hlink hchars' =>
          have hpos' := List.length_pos_iff.mpr hinit'
          have hgeometry := hchars.geometry
          obtain ⟨before, b₁, heq, hb₁, hlt₁, hle₁, -⟩ := hchars.exists_last
          have hfuel : blocks.length ≤ content.length := by
            have hlen' := congrArg List.length hblocks
            simp only [List.length_append, List.length_cons, List.length_nil] at hlen'
            omega
          have hfind := hchars.findPrevious_eq hnodup hblocks hfuel
          have hblock : block (cl - 1) = cl - 5 := by
            simp only [block, CBLOCK]
            omega
          have hoffset' : (cl - 1) % CBLOCK = LINK := hoffset
          rw [if_neg (by omega), if_pos hoffset', hblock, Int.toNat_natCast, hfind, Option.map_some,
            hlink]
          have hnodup' : ((cl - 5) :: (bs ++ [b])).Nodup := by
            rw [hblocks] at hnodup
            have hperm : (bs ++ [b, cl - 5]).Perm ((cl - 5) :: (bs ++ [b])) := by
              have happend : bs ++ [b, cl - 5] = (bs ++ [b]) ++ [cl - 5] := by simp
              rw [happend]
              exact List.perm_append_singleton ..
            exact hperm.nodup_iff.mp hnodup
          have howned' : ∀ b', b' ∈ (cl - 5) :: (bs ++ [b]) ↔ b' ∈ pool ∧ owner b' = some p := by
            intro b'
            rw [← howned b', hblocks]
            simp only [List.mem_cons, List.mem_append, List.not_mem_nil, or_false]
            tauto
          have hin := (howned' (cl - 5)).mp List.mem_cons_self
          have hinb := (howned' b).mp (by simp)
          obtain ⟨hnotin, hnodup''⟩ := List.nodup_cons.mp hnodup'
          have hneb : b ≠ cl - 5 := by
            rintro rfl
            exact hnotin (by simp)
          refine ⟨_, rfl, ?_⟩
          have hfreed := (hbut.set ⟨(content.dropLast.length : Nat), cf, b + 32⟩).freed hin.1 hin.2
          have howner : Function.update owner (cl - 5) none b = some p := by
            rw [Function.update_of_ne hneb]
            exact hinb.2
          refine (hfreed.relink _ fun b' _ howner' => Function.update_of_ne ?_ ..).close
            ⟨?_, hnodup'', SoundBut.owned_release hnodup' howned'⟩ ?_
          · rintro rfl
            exact howner' howner
          · rw [Queue.dropLast_eq skip hinit']
            have hmem : ∀ b' ∈ bs, b' ≠ b ∧ b' ≠ cl - 5 := by
              intro b' hmem
              constructor
              · rintro rfl
                rw [List.nodup_append] at hnodup''
                exact hnodup''.2.2 b' hmem b' (List.mem_singleton.mpr rfl) rfl
              · rintro rfl
                exact hnotin (List.mem_append_left _ hmem)
            have hnew := hchars' (Function.update (Function.update k.c_next (cl - 5) k.cfreelist) b 0)
              (fun b' hmem' => by
                rw [Function.update_of_ne (hmem b' hmem').1, Function.update_of_ne (hmem b' hmem').2])
              (Function.update_self ..)
            have hlist : ((k.set p ⟨(content.dropLast.length : Nat), cf, b + 32⟩).free
                (cl - 5)).list p = ⟨(content.dropLast.length : Nat), cf, b + 32⟩ := Pool.list_set ..
            rw [hlist]
            exact .chain hnew hskip
          · rw [hsum, hfree, hblocks]
            simp only [List.length_append, List.length_cons, List.length_nil]
            omega
      | same hoffset hchars' =>
          have hpos' := List.length_pos_iff.mpr hchars'.content_ne_nil
          have hoffset' : ¬ (cl - 1) % CBLOCK = LINK := hoffset
          rw [if_neg (by omega), if_neg hoffset']
          refine ⟨_, rfl, ?_⟩
          refine (hbut.set ⟨(content.dropLast.length : Nat), cf, cl - 1⟩).close
            ⟨?_, hnodup, howned⟩ ?_
          · rw [Queue.dropLast_eq skip hchars'.content_ne_nil, Pool.list_set]
            exact .chain hchars' hskip
          · rw [hsum, hfree]

/-! ## `catq` -/

omit [DecidableEq Q] in
theorem Sound.queue_eq_empty (h : Sound pool k s) {p : Q} (hnil : (s.queue p).content = []) :
    k.list p = ⟨0, 0, 0⟩ ∧ s.queue p = .empty := by
  rcases h.list_cases p with hempty | ⟨cf, cl, skip, blocks, content, -, hqueue, -, hchars, -⟩
  · exact hempty
  · rw [hqueue] at hnil
    exact absurd hnil hchars.content_ne_nil

/-- The record of one list is given to another one, which was empty. -/
theorem Sound.move (h : Sound pool k s) {source target : Q} (hne : source ≠ target)
    (hnil : (s.queue target).content = []) :
    Sound pool ((k.set target (k.list source)).set source ⟨0, 0, 0⟩)
      ((s.set source .empty).set target (s.queue source)) := by
  have htarget := h.queue_eq_empty hnil
  obtain ⟨owner, free, hsound, hfree⟩ := h
  have hnone : ∀ b ∈ pool, owner b ≠ some target := by
    intro b hpool howner
    obtain ⟨blocks, hmemory, -, howned⟩ := hsound.holds target id
    rw [htarget.1, htarget.2] at hmemory
    have hlen := hmemory.blocks_eq
    have hmem := (howned b).mpr ⟨hpool, howner⟩
    have hpos := List.length_pos_of_mem hmem
    have hzero : Queue.empty.blocks = 0 := rfl
    omega
  let owner' : Nat → Option Q := fun b => if owner b = some source then some target else owner b
  have howner' : ∀ b ∈ pool, ∀ p, p ≠ source → p ≠ target →
      (owner' b = some p ↔ owner b = some p) := by
    intro b _ p hsource htarget
    by_cases hb : owner b = some source
    · simp only [owner', hb, if_true, Option.some.injEq]
      exact ⟨fun heq => absurd heq.symm htarget, fun heq => absurd heq.symm hsource⟩
    · simp only [owner', hb, if_false]
  refine ⟨owner', free, ⟨hsound.aligned, hsound.chain, hsound.count, hsound.nodup, ?_, ?_⟩, ?_⟩
  · intro b
    rw [hsound.owned]
    by_cases hb : owner b = some source
    · simp only [owner', hb, if_true]
      simp
    · simp only [owner', hb, if_false]
  · intro p _
    by_cases hsource : p = source
    · subst hsource
      refine ⟨[], ?_, List.nodup_nil, fun b => ?_⟩
      · rw [Pool.list_set, Store.set_queue_ne hne, Store.set_queue]
        exact .empty
      · refine ⟨fun hmem => absurd hmem List.not_mem_nil, fun hand => ?_⟩
        by_cases hb : owner b = some p
        · simp only [owner', hb, if_true, Option.some.injEq] at hand
          exact absurd hand.2.symm hne
        · simp only [owner', hb, if_false, and_false] at hand
    · obtain ⟨blocks, hmemory, hnodup, howned⟩ := hsound.holds p id
      have hlist : ((k.set target (k.list source)).set source ⟨0, 0, 0⟩).list p =
          (k.set target (k.list source)).list p := Function.update_of_ne hsource ..
      by_cases htarget' : p = target
      · subst htarget'
        obtain ⟨blocks, hmemory, hnodup, howned⟩ := hsound.holds source id
        refine ⟨blocks, ?_, hnodup, fun b => ?_⟩
        · rw [hlist, Pool.list_set, Store.set_queue]
          exact hmemory
        · rw [howned]
          refine and_congr_right fun hpool => ?_
          by_cases hb : owner b = some source
          · simp only [owner', hb, if_true]
          · simp only [owner', hb, if_false, hnone b hpool]
      · refine ⟨blocks, ?_, hnodup, fun b => ?_⟩
        · have hlist' : (k.set target (k.list source)).list p = k.list p :=
            Function.update_of_ne htarget' ..
          rw [hlist, hlist', Store.set_queue_ne htarget', Store.set_queue_ne hsource]
          exact hmemory
        · rw [howned]
          exact and_congr_right fun hpool => (howner' b hpool p hsource htarget').symm
  · have hzero : Queue.empty.blocks = 0 := rfl
    have hqueue : (s.set source .empty).queue target = .empty :=
      (Store.set_queue_ne hne.symm ..).trans htarget.2
    have hfree' : ((s.set source .empty).set target (s.queue source)).free =
        s.free + (s.queue source).blocks - Queue.empty.blocks +
          ((s.set source .empty).queue target).blocks - (s.queue source).blocks := rfl
    rw [hfree', hqueue, hzero, ← hfree]
    omega

/-- A run of whole blocks leaves as many blocks behind. -/
theorem Queue.length_take_le (q : Queue) (m : Nat) :
    (q.content.take (28 * m)).length ≤ 28 * (q.blocks - (q.drop (28 * m)).blocks) := by
  obtain ⟨content, skip⟩ := q
  rw [List.length_take]
  by_cases hlen : content.length ≤ 28 * m
  · have hdrop : Queue.drop (28 * m) ⟨content, skip⟩ = .empty := if_pos hlen
    have hzero : Queue.empty.blocks = 0 := rfl
    rw [hdrop, hzero]
    simp only [blocks, CBSIZE, CBLOCK, LINK]
    omega
  · have hdrop : Queue.drop (28 * m) ⟨content, skip⟩ =
        ⟨content.drop (28 * m), (skip + 28 * m) % 28⟩ := if_neg hlen
    rw [hdrop]
    simp only [blocks, CBSIZE, CBLOCK, LINK, List.length_drop]
    omega

/-- What a full buffer moves, and the rest after it, is what is moved at once. -/
theorem Store.catq_step (s : Store Q) {source target : Q} (hne : source ≠ target) {n : Nat}
    {cs rest : List UInt8} (hcs : cs ++ rest = (s.queue source).content)
    (hle : ((s.queue target).append cs).blocks ≤
      (s.set source ((s.queue source).drop n)).free + (s.queue target).blocks) :
    (((s.set source ((s.queue source).drop n)).set target ((s.queue target).append cs)).set source
      .empty).set target (((s.queue target).append cs).append rest) =
      (s.set source .empty).set target ((s.queue target).append (s.queue source).content) := by
  have hdrop := Queue.blocks_drop_le (s.queue source) n
  have hzero : Queue.empty.blocks = 0 := rfl
  rw [Queue.append_append, hcs]
  generalize (s.queue source).drop n = q at hle hdrop
  generalize (s.queue target).append cs = q₁ at hle
  generalize (s.queue target).append (s.queue source).content = q₂
  simp only [set, Store.mk.injEq, Function.update_self, Function.update_of_ne hne,
    Function.update_of_ne hne.symm, hzero] at hle ⊢
  refine ⟨?_, by omega⟩
  funext p
  by_cases htarget : p = target
  · subst htarget
    simp only [Function.update_self]
  · by_cases hsource : p = source
    · subst hsource
      simp only [Function.update_of_ne hne, Function.update_self]
    · simp only [Function.update_of_ne htarget, Function.update_of_ne hsource]

theorem Sound.catqLoop {source target : Q} (h : Sound pool k s) (hne : source ≠ target) {fuel : Nat}
    (hfuel : (s.queue source).content.length ≤ fuel) :
    ∃ k', Pool.catqLoop source target fuel k = some k' ∧
      Sound pool k' ((s.set source .empty).set target
        ((s.queue target).append (s.queue source).content)) := by
  have hdone : ∀ {fuel} {k : Pool Q} {s : Store Q}, Sound pool k s → (s.queue source).content = [] →
      ∃ k', Pool.catqLoop source target fuel k = some k' ∧
        Sound pool k' ((s.set source .empty).set target
          ((s.queue target).append (s.queue source).content)) := by
    intro fuel k s h hnil
    obtain ⟨hlist, hqueue⟩ := h.queue_eq_empty hnil
    have hset : s.set source .empty = s := by
      rw [← hqueue]
      exact s.set_self source
    have happend : (s.queue target).append [] = s.queue target := by
      simp [Queue.append]
    rw [hnil, hset, happend, Store.set_self]
    refine ⟨k, ?_, h⟩
    cases fuel with
    | zero => rw [Pool.catqLoop, hlist, if_neg (by decide)]
    | succ fuel => rw [Pool.catqLoop, hlist, if_neg (by decide)]
  induction fuel generalizing k s with
  | zero => exact hdone h (List.length_eq_zero_iff.mp (Nat.le_zero.mp hfuel))
  | succ fuel ih =>
      rcases h.list_cases source with
        ⟨hlist, hqueue⟩ | ⟨cf, cl, skip, blocks, content, hlist, hqueue, -, hchars, -⟩
      · exact hdone h (by rw [hqueue]; rfl)
      · have hpos := List.length_pos_iff.mpr hchars.content_ne_nil
        have hcc : 0 < (k.list source).c_cc := by
          rw [hlist]
          exact Int.natCast_pos.mpr hpos
        rw [Pool.catqLoop, if_pos hcc, k.q_to_b_eq]
        have hbuffer : ((CBSIZE : Int) * 4).toNat = 28 * 4 := rfl
        obtain ⟨hsound, hbbuf⟩ := h.getcs (p := source) (28 * 4)
        have hfit := Queue.length_take_le (s.queue source) 4
        have hroom : ((s.queue source).content.take (28 * 4)).length ≤
            (s.set source ((s.queue source).drop (28 * 4))).room target := by
          have hdrop := Queue.blocks_drop_le (s.queue source) (28 * 4)
          simp only [Store.room, Store.set, CBSIZE, CBLOCK, LINK] at hfit ⊢
          omega
        have htarget : (s.set source ((s.queue source).drop (28 * 4))).queue target =
            s.queue target := Store.set_queue_ne hne.symm ..
        have hle := Store.blocks_append_le _ _ hroom
        obtain ⟨-, hput⟩ := hsound.putcs (p := target) ((s.queue source).content.take (28 * 4))
        rw [List.take_of_length_le hroom] at hput
        rw [htarget] at hput hle
        have hsource' : ((s.set source ((s.queue source).drop (28 * 4))).set target
            ((s.queue target).append ((s.queue source).content.take (28 * 4)))).queue source =
              (s.queue source).drop (28 * 4) := by
          rw [Store.set_queue_ne hne, Store.set_queue]
        have hfuel' : ((s.queue source).drop (28 * 4)).content.length ≤ fuel := by
          rw [hqueue] at hfuel ⊢
          rw [Queue.drop_content, List.length_drop]
          dsimp only at hfuel ⊢
          omega
        obtain ⟨k', hloop, hfinal⟩ := ih hput (by rw [hsource']; exact hfuel')
        rw [hsource', Store.set_queue, Queue.drop_content,
          s.catq_step hne (List.take_append_drop ..) hle] at hfinal
        refine ⟨k', ?_, hfinal⟩
        rw [hbuffer]
        show ((k.getcs source (28 * 4)).2.b_to_q (k.getcs source (28 * 4)).1 target).bind
          (fun left => Pool.catqLoop source target fuel left.2) = some k'
        rw [hbbuf, hsound.b_to_q_eq]
        exact hloop

/-- `catq` moves all bytes of one list to the end of the other. -/
theorem Sound.catq {source target : Q} (h : Sound pool k s) (hne : source ≠ target) :
    ∃ k', k.catq source target = some k' ∧
      Sound pool k' (if (s.queue target).content = [] then
        (s.set source .empty).set target (s.queue source)
      else (s.set source .empty).set target ((s.queue target).append (s.queue source).content)) := by
  unfold Pool.catq
  rcases h.list_cases target with
    ⟨hlist, hqueue⟩ | ⟨cf, cl, skip, blocks, content, hlist, hqueue, -, hchars, -⟩
  · have hnil : (s.queue target).content = [] := by
      rw [hqueue]
      rfl
    rw [hlist, if_pos rfl, if_pos hnil]
    exact ⟨_, rfl, h.move hne hnil⟩
  · have hpos := List.length_pos_iff.mpr hchars.content_ne_nil
    have hnil : (s.queue target).content ≠ [] := by
      rw [hqueue]
      exact hchars.content_ne_nil
    have hcc : ¬ (k.list target).c_cc = 0 := by
      rw [hlist]
      dsimp only
      omega
    rw [if_neg hcc, if_neg hnil]
    refine h.catqLoop hne ?_
    rcases h.list_cases source with
      ⟨hlist', hqueue'⟩ | ⟨cf', cl', skip', blocks', content', hlist', hqueue', -⟩
    · rw [hlist', hqueue']
      exact Nat.le_refl _
    · rw [hlist', hqueue']
      exact Nat.le_refl _

/-- A list that is joined to itself: a full buffer goes behind the rest of the same list, so that the
loop never has less before it. -/
theorem Sound.catqLoop_self {p : Q} (h : Sound pool k s) (hne : (s.queue p).content ≠ [])
    (fuel : Nat) : Pool.catqLoop p p fuel k = none := by
  have hcc : ∀ {k : Pool Q} {s : Store Q}, Sound pool k s → (s.queue p).content ≠ [] →
      0 < (k.list p).c_cc := by
    intro k s h hne
    rcases h.list_cases p with ⟨-, hqueue⟩ | ⟨cf, cl, skip, blocks, content, hlist, hqueue, -⟩
    · exact absurd (by rw [hqueue]; rfl) hne
    · rw [hqueue] at hne
      rw [hlist]
      exact Int.natCast_pos.mpr (List.length_pos_iff.mpr hne)
  induction fuel generalizing k s with
  | zero => rw [Pool.catqLoop, if_pos (hcc h hne)]
  | succ fuel ih =>
      obtain ⟨hsound, hbbuf⟩ := h.getcs (p := p) (28 * 4)
      obtain ⟨-, hput⟩ := hsound.putcs (p := p) ((s.queue p).content.take (28 * 4))
      have hroom : ((s.queue p).content.take (28 * 4)).length ≤
          (s.set p ((s.queue p).drop (28 * 4))).room p := by
        have hfit := Queue.length_take_le (s.queue p) 4
        have hdrop := Queue.blocks_drop_le (s.queue p) (28 * 4)
        simp only [Store.room, Store.set, CBSIZE, CBLOCK, LINK] at hfit ⊢
        omega
      rw [List.take_of_length_le hroom, Store.set_queue] at hput
      have hrest := ih hput (by
        rw [Store.set_queue, Queue.append, Queue.drop_content]
        intro hnil
        obtain ⟨hdrop, htake⟩ := List.append_eq_nil_iff.mp hnil
        exact hne (by rw [← List.take_append_drop (28 * 4) (s.queue p).content, hdrop, htake]; rfl))
      rw [Pool.catqLoop, if_pos (hcc h hne), k.q_to_b_eq]
      show ((k.getcs p (28 * 4)).2.b_to_q (k.getcs p (28 * 4)).1 p).bind
        (fun left => Pool.catqLoop p p fuel left.2) = none
      rw [hbbuf, hsound.b_to_q_eq]
      exact hrest

/-- `catq` of a list onto itself does not end, unless the list is empty and nothing happens. -/
theorem Sound.catq_self (h : Sound pool k s) (p : Q) :
    k.catq p p = if (s.queue p).content = [] then some k else none := by
  obtain ⟨hlist, hqueue⟩ | ⟨cf, cl, skip, blocks, content, hlist, hqueue, -, hchars, -⟩ :=
    h.list_cases p
  · have hnil : (s.queue p).content = [] := by
      rw [hqueue]
      rfl
    rw [if_pos hnil, Pool.catq, hlist, if_pos rfl, Pool.set_self hlist, Pool.set_self hlist]
  · have hnil : (s.queue p).content ≠ [] := by
      rw [hqueue]
      exact hchars.content_ne_nil
    have hpos := List.length_pos_iff.mpr hchars.content_ne_nil
    have hcc : (k.list p).c_cc ≠ 0 := by
      rw [hlist]
      dsimp only
      omega
    rw [if_neg hnil, Pool.catq, if_neg hcc, h.catqLoop_self hnil]

end DiscoBsd.Clists
