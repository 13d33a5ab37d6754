import DiscoBsd.Clists.Unputc

/-!
# Character lists are byte queues

From the pool that `cinit` builds, every sequence of calls on any number of lists ends, and gives the
results that the calls give on byte queues. The main result is `clists_refine`.
-/

namespace DiscoBsd.Clists

variable {Q : Type} [DecidableEq Q] {pool : List Nat} {k : Pool Q} {s : Store Q}

/-! ## The pool -/

/-- The blocks of a table of `n` blocks at `cfree`; one is lost when the table is not aligned. -/
def cblocks (cfree n : Nat) : List Nat :=
  (List.range (if cfree % CBLOCK = 0 then n else n - 1)).map fun i =>
    block (cfree + (CBLOCK - 1)) + CBLOCK * i

/-- The queues at the start. -/
def Store.initial (free : Nat) : Store Q := ⟨fun _ => .empty, free⟩

/-- The free list while `cinit` builds it. -/
structure Building (k : Pool Q) (free : List Nat) (cp : Nat) : Prop where
  list : ∀ p, k.list p = ⟨0, 0, 0⟩
  chain : Linked k.c_next k.cfreelist free
  count : k.cfreecount = (28 : Nat) * (free.length : Nat)
  nodup : free.Nodup
  below : ∀ b ∈ free, b < cp

omit [DecidableEq Q] in
theorem Building.free {free : List Nat} {cp : Nat} (h : Building k free cp) :
    Building (k.free cp) (cp :: free) (cp + 32) where
  list := h.list
  chain := by
    refine ⟨rfl, ?_⟩
    have hself : (k.free cp).c_next cp = k.cfreelist := Function.update_self ..
    rw [hself]
    refine h.chain.congr fun b hmem => Function.update_of_ne ?_ ..
    have := h.below b hmem
    omega
  count := by
    have hcount := h.count
    show k.cfreecount + (28 : Nat) = (28 : Nat) * (free.length + 1 : Nat)
    omega
  nodup := by
    refine List.nodup_cons.mpr ⟨fun hmem => ?_, h.nodup⟩
    have := h.below cp hmem
    omega
  below b hmem := by
    rcases List.mem_cons.mp hmem with rfl | hmem
    · omega
    · have := h.below b hmem
      omega

omit [DecidableEq Q] in
/-- The loop of `cinit` frees the `m` blocks from `cp` on. -/
theorem Building.cinitLoop {cp : Nat} {free : List Nat} (h : Building k free cp)
    (cfree n fuel m : Nat) (hcount : m ≤ fuel) (hlast : ∀ i < m, cp + 32 * i ≤ cfree + 32 * (n - 1))
    (hend : cfree + 32 * (n - 1) < cp + 32 * m ∨ m = fuel) :
    Building (Pool.cinitLoop cfree n fuel cp k)
      (((List.range m).map fun i => cp + 32 * i).reverse ++ free) (cp + 32 * m) := by
  induction fuel generalizing k cp m free with
  | zero =>
      obtain rfl : m = 0 := Nat.le_zero.mp hcount
      exact h
  | succ fuel ih =>
      cases m with
      | zero =>
          have hstop : ¬ cp ≤ cfree + CBLOCK * (n - 1) := by
            simp only [CBLOCK]
            omega
          rw [Pool.cinitLoop, if_neg hstop]
          exact h
      | succ m =>
          have hgo : cp ≤ cfree + CBLOCK * (n - 1) := by
            have := hlast 0 (Nat.succ_pos m)
            simpa using this
          rw [Pool.cinitLoop, if_pos hgo]
          have hrest := ih h.free m (by omega)
            (fun i hi => by
              have := hlast (i + 1) (by omega)
              omega) (by omega)
          have hlist : ((List.range m).map fun i => cp + 32 + 32 * i).reverse ++ cp :: free =
              ((List.range (m + 1)).map fun i => cp + 32 * i).reverse ++ free := by
            have hfun : (fun i => cp + 32 + 32 * i) = (fun i => cp + 32 * i) ∘ Nat.succ := by
              funext i
              simp only [Function.comp_apply]
              omega
            rw [List.range_succ_eq_map, List.map_cons, List.map_map, List.reverse_cons, hfun]
            simp
          have hcp : cp + 32 + 32 * m = cp + 32 * (m + 1) := by omega
          rw [hlist, hcp] at hrest
          exact hrest

omit [DecidableEq Q] in
/-- `cinit` builds a pool of free blocks. -/
theorem sound_cinit {cfree n : Nat} (hcfree : 0 < cfree) :
    Sound (cblocks cfree n) (Pool.cinit cfree n (Pool.zeroed : Pool Q))
      (.initial (cblocks cfree n).length) := by
  have hzeroed : Building (Pool.zeroed : Pool Q) [] (block (cfree + 31)) :=
    ⟨fun _ => rfl, rfl, rfl, List.nodup_nil, fun _ hmem => absurd hmem List.not_mem_nil⟩
  have hbuilt := hzeroed.cinitLoop cfree n n (if cfree % 32 = 0 then n else n - 1)
    (by split <;> omega)
    (fun i hi => by
      simp only [block, CBLOCK]
      split at hi <;> omega)
    (by
      simp only [block, CBLOCK]
      split <;> omega)
  rw [List.append_nil] at hbuilt
  have hblocks : (((List.range (if cfree % 32 = 0 then n else n - 1)).map fun i =>
      block (cfree + 31) + 32 * i).reverse) = (cblocks cfree n).reverse := rfl
  rw [hblocks] at hbuilt
  refine ⟨fun _ => none, (cblocks cfree n).reverse, ⟨?_, hbuilt.chain, hbuilt.count, hbuilt.nodup,
    ?_, ?_⟩, (List.length_reverse ..).symm⟩
  · intro b hmem
    obtain ⟨i, -, rfl⟩ := List.mem_map.mp hmem
    simp only [block, CBLOCK]
    omega
  · intro b
    simp
  · intro p _
    refine ⟨[], ?_, List.nodup_nil, fun b => ?_⟩
    · have hlist : (Pool.cinit cfree n (Pool.zeroed : Pool Q)).list p = ⟨0, 0, 0⟩ := hbuilt.list p
      rw [hlist]
      exact .empty
    · simp

/-! ## Calls -/

/-- A call gives the result that it gives on queues. -/
theorem Sound.call (h : Sound pool k s) (char_signed : Bool) {c : Call Q}
    (hc : ∀ p, c ≠ .catq p p) :
    ∃ k', k.call char_signed c = some ((s.call char_signed c).1, k') ∧
      Sound pool k' (s.call char_signed c).2 := by
  cases c with
  | getc p =>
      obtain ⟨hsound, hresult⟩ := h.getc p
      refine ⟨(k.getc p).2, ?_, ?_⟩
      · rw [Pool.call, Store.call, hresult]
        cases (s.queue p).content with
        | nil => rfl
        | cons c rest => rfl
      · rw [Store.call]
        cases hcontent : (s.queue p).content with
        | nil =>
            have hqueue := (h.queue_eq_empty hcontent).2
            rw [hqueue, Queue.drop_empty, ← hqueue, Store.set_self] at hsound
            exact hsound
        | cons c rest => exact hsound
  | putc c p =>
      obtain ⟨hfail, hadd⟩ := h.putc c p
      refine ⟨(k.putc c p).2, ?_, ?_⟩
      · rw [Pool.call, Store.call]
        by_cases hroom : s.room p = 0
        · rw [if_pos hroom, hfail hroom]
        · rw [if_neg hroom, (hadd (Nat.pos_of_ne_zero hroom)).1]
      · rw [Store.call]
        by_cases hroom : s.room p = 0
        · rw [if_pos hroom, hfail hroom]
          exact h
        · rw [if_neg hroom]
          exact (hadd (Nat.pos_of_ne_zero hroom)).2
  | q_to_b q cc =>
      obtain ⟨hsound, hout⟩ := h.getcs (p := q) cc.toNat
      refine ⟨_, ?_, hsound⟩
      rw [Pool.call, k.q_to_b_eq, Store.call, ← hout]
      rfl
  | b_to_q cp q =>
      obtain ⟨hleft, hsound⟩ := h.putcs (p := q) cp
      refine ⟨_, ?_, hsound⟩
      rw [Pool.call, h.b_to_q_eq, Store.call, ← hleft]
      rfl
  | ndqb q flag =>
      refine ⟨k, ?_, h⟩
      rw [Pool.call, h.ndqb]
      rfl
  | ndflush q cc =>
      refine ⟨_, ?_, (h.getcs (p := q) cc.toNat).1⟩
      rw [Pool.call, Pool.ndflush_eq h]
      rfl
  | unputc p =>
      obtain ⟨hempty, hlast⟩ := h.unputc char_signed p
      rw [Pool.call, Store.call]
      cases hcontent : (s.queue p).content.getLast? with
      | none =>
          rw [hempty (List.getLast?_eq_none_iff.mp hcontent)]
          exact ⟨k, rfl, h⟩
      | some c =>
          obtain ⟨k', hunputc, hsound⟩ := hlast c hcontent
          rw [hunputc]
          exact ⟨k', rfl, hsound⟩
  | catq source target =>
      have hne : source ≠ target := by
        rintro rfl
        exact hc source rfl
      obtain ⟨k', hcatq, hsound⟩ := h.catq hne
      have htarget : (s.set source .empty).queue target = s.queue target :=
        Store.set_queue_ne hne.symm ..
      refine ⟨k', ?_, ?_⟩
      · rw [Pool.call, hcatq, Store.call, htarget]
        split <;> rfl
      · rw [Store.call, htarget]
        split
        · rename_i hnil
          rw [if_pos hnil] at hsound
          exact hsound
        · rename_i hnil
          rw [if_neg hnil] at hsound
          exact hsound
  | walk p =>
      refine ⟨k, ?_, h⟩
      rw [Pool.call, h.walk]
      rfl

/-- A call that ends gives the result that it gives on queues. -/
theorem Sound.call_ended (h : Sound pool k s) {char_signed : Bool} {c : Call Q} {result : Result}
    {k' : Pool Q} (hcall : k.call char_signed c = some (result, k')) :
    result = (s.call char_signed c).1 ∧ Sound pool k' (s.call char_signed c).2 := by
  by_cases hself : ∃ p, c = .catq p p
  · obtain ⟨p, rfl⟩ := hself
    rw [Pool.call, h.catq_self p] at hcall
    split at hcall
    · next hnil =>
        cases hcall
        have hqueue := (h.queue_eq_empty hnil).2
        have hset : s.set p .empty = s := by
          rw [← hqueue]
          exact s.set_self p
        rw [Store.call, hset, if_pos hnil, Store.set_self]
        exact ⟨rfl, h⟩
    · cases hcall
  · obtain ⟨k'', hcall', hsound⟩ := h.call char_signed (c := c) fun p hp => hself ⟨p, hp⟩
    cases hcall'.symm.trans hcall
    exact ⟨rfl, hsound⟩

/-! ## Runs -/

/-- The results of a sequence of calls, and the memory after them. -/
def Pool.calls (char_signed : Bool) : List (Call Q) → Pool Q → Option (List Result × Pool Q)
  | [], k => some ([], k)
  | c :: cs, k =>
      (k.call char_signed c).bind fun (result, k) =>
        (Pool.calls char_signed cs k).map fun (results, k) => (result :: results, k)

/-- The same on queues. -/
def Store.calls (char_signed : Bool) : List (Call Q) → Store Q → List Result × Store Q
  | [], s => ([], s)
  | c :: cs, s =>
      let rest := Store.calls char_signed cs (s.call char_signed c).2
      ((s.call char_signed c).1 :: rest.1, rest.2)

theorem Sound.calls (char_signed : Bool) {cs : List (Call Q)} (h : Sound pool k s)
    (hcatq : ∀ p, .catq p p ∉ cs) :
    ∃ k', k.calls char_signed cs = some ((s.calls char_signed cs).1, k') ∧
      Sound pool k' (s.calls char_signed cs).2 := by
  induction cs generalizing k s with
  | nil => exact ⟨k, rfl, h⟩
  | cons c cs ih =>
      obtain ⟨k', hcall, hsound⟩ := h.call char_signed (c := c) fun p hc =>
        hcatq p (hc ▸ List.mem_cons_self)
      obtain ⟨k'', hcalls, hfinal⟩ := ih hsound fun p hmem => hcatq p (List.mem_cons_of_mem c hmem)
      refine ⟨k'', ?_, hfinal⟩
      rw [Pool.calls, hcall, Option.bind_some]
      dsimp only
      rw [hcalls]
      rfl

/-- Calls that end give the results that they give on queues. -/
theorem Sound.calls_ended {char_signed : Bool} {cs : List (Call Q)} (h : Sound pool k s)
    {results : List Result} {k' : Pool Q} (hcalls : k.calls char_signed cs = some (results, k')) :
    results = (s.calls char_signed cs).1 ∧ Sound pool k' (s.calls char_signed cs).2 := by
  induction cs generalizing k s results with
  | nil =>
      cases hcalls
      exact ⟨rfl, h⟩
  | cons c cs ih =>
      obtain ⟨⟨result, k₁⟩, hcall, hmap⟩ := Option.bind_eq_some_iff.mp hcalls
      obtain ⟨⟨rest, k₂⟩, hrest, heq⟩ := Option.map_eq_some_iff.mp hmap
      cases heq
      obtain ⟨hresult, hsound⟩ := h.call_ended hcall
      obtain ⟨hresults, hfinal⟩ := ih hsound hrest
      exact ⟨by rw [hresult, hresults]; rfl, hfinal⟩

/-- The blocks on the free list, or on a list. -/
def chainOf (free : List Nat) (blocks : Q → List Nat) : Option Q → List Nat
  | none => free
  | some p => blocks p

omit [DecidableEq Q] in
/-- Every block is on one chain, and the chains are what the memory says. -/
theorem Sound.chains (h : Sound pool k s) : ∃ free blocks,
    Linked k.c_next k.cfreelist free ∧ free.Nodup ∧ k.cfreecount = CBSIZE * free.length ∧
    (∀ p, InMemory k.c_next k.c_info (k.list p) (blocks p) (s.queue p) ∧ (blocks p).Nodup) ∧
    ∀ b ∈ pool, ∃! owner, b ∈ chainOf free blocks owner := by
  obtain ⟨owner, free, hsound, -⟩ := h
  choose blocks hblocks using fun p => hsound.holds p id
  have howned : ∀ b ∈ pool, ∀ o, b ∈ chainOf free blocks o ↔ owner b = o := by
    intro b hpool o
    cases o with
    | none => exact (hsound.owned b).trans (and_iff_right hpool)
    | some p => exact ((hblocks p).owned b).trans (and_iff_right hpool)
  refine ⟨free, blocks, hsound.chain, hsound.nodup, hsound.count,
    fun p => ⟨(hblocks p).memory, (hblocks p).nodup⟩, fun b hpool => ⟨owner b, ?_, ?_⟩⟩
  · exact (howned b hpool (owner b)).mpr rfl
  · intro o hmem
    exact ((howned b hpool o).mp hmem).symm

/-- From the pool of `cinit`, every sequence of calls ends with the results that byte queues give, and
the lists hold the bytes of the queues. `q_to_b` and `b_to_q` are repeated `getc` and `putc`, and every
block is on the free list or on one list. -/
theorem clists_refine (char_signed : Bool) (cfree n : Nat) (cs : List (Call Q))
    (hcfree : 0 < cfree) (hcatq : ∀ p, .catq p p ∉ cs) :
    ∃ k, (Pool.cinit cfree n Pool.zeroed).calls char_signed cs =
        some (((Store.initial (cblocks cfree n).length).calls char_signed cs).1, k) ∧
      (∀ q cc, k.q_to_b q cc = some (k.getcs q cc.toNat)) ∧
      (∀ cp q, k.b_to_q cp q = some (k.putcs q cp)) ∧
      ∃ free blocks, Linked k.c_next k.cfreelist free ∧ free.Nodup ∧
        k.cfreecount = CBSIZE * free.length ∧
        (∀ p, InMemory k.c_next k.c_info (k.list p) (blocks p)
          (((Store.initial (cblocks cfree n).length).calls char_signed cs).2.queue p) ∧
          (blocks p).Nodup) ∧
        ∀ b ∈ cblocks cfree n, ∃! owner, b ∈ chainOf free blocks owner := by
  obtain ⟨k, hcalls, hsound⟩ := (sound_cinit (Q := Q) (n := n) hcfree).calls char_signed hcatq
  exact ⟨k, hcalls, k.q_to_b_eq, hsound.b_to_q_eq, hsound.chains⟩

/-- One byte on a list of a pool of one block: `catq` of the list onto itself puts back what it takes,
however often its loop is repeated. -/
theorem catq_self_never_ends : ∃ k : Pool Unit,
    (Pool.cinit 64 1 Pool.zeroed).calls true [.putc 65 ()] = some ([.int 0], k) ∧
      k.call true (.catq () ()) = none ∧ ∀ fuel, Pool.catqLoop () () fuel k = none := by
  have hcfree : 0 < 64 := by decide
  have hcatq : ∀ p : Unit, .catq p p ∉ [Call.putc 65 ()] := by simp
  obtain ⟨k, hcalls, hsound⟩ := (sound_cinit (n := 1) hcfree).calls true hcatq
  have hloop := hsound.catqLoop_self (p := ()) (by decide)
  have hnone := hsound.catq_self ()
  rw [if_neg (by decide)] at hnone
  exact ⟨k, hcalls, by rw [Pool.call, hnone]; rfl, hloop⟩

/-- Two lists over three blocks: a copy that is cut short, a list that is joined to another, and the last
byte taken back. -/
theorem clists_refine_joined : ∃ k : Pool Bool,
    (Pool.cinit 64 3 Pool.zeroed).calls true
      [.putc 65 true, .b_to_q (List.replicate 60 66) false, .catq false true, .unputc true,
        .getc true] =
      some ([.int 0, .int 4, .none, .word 66, .int 65], k) := by
  obtain ⟨k, hcalls, -⟩ := clists_refine (Q := Bool) true 64 3
    [.putc 65 true, .b_to_q (List.replicate 60 66) false, .catq false true, .unputc true,
      .getc true] (by decide) (by simp)
  exact ⟨k, hcalls⟩

end DiscoBsd.Clists
