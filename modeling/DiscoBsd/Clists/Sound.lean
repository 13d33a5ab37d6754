import DiscoBsd.Clists.Fifo

/-!
# Queues in memory

`Sound` connects the memory of the character lists to the queues they stand for. Every block of the
pool has an owner, which is the free list or one list, and is on its owner's chain once. `SoundBut`
leaves out one list, on which a routine is at work; `SoundBut.close` takes it in again.
-/

namespace DiscoBsd.Clists

/-- A chain of links, from an address to NULL. -/
def Linked (c_next : Nat → Nat) : Nat → List Nat → Prop
  | a, [] => a = 0
  | a, b :: bs => a = b ∧ Linked c_next (c_next b) bs

theorem Linked.congr {c_next c_next' : Nat → Nat} {a : Nat} {bs : List Nat}
    (h : Linked c_next a bs) (hnext : ∀ b ∈ bs, c_next' b = c_next b) : Linked c_next' a bs := by
  induction bs generalizing a with
  | nil => exact h
  | cons b bs ih =>
      refine ⟨h.1, ?_⟩
      rw [hnext b List.mem_cons_self]
      exact ih h.2 fun b hmem => hnext b (List.mem_cons_of_mem _ hmem)

/-- A clist with its blocks and the queue it stands for. -/
inductive InMemory (c_next : Nat → Nat) (c_info : Nat → UInt8) : Clist → List Nat → Queue → Prop where
  | empty : InMemory c_next c_info ⟨0, 0, 0⟩ [] .empty
  | chain {cf cl skip : Nat} {blocks : List Nat} {content : List UInt8} :
      Chars c_next c_info cl cf blocks content → cf % 32 = skip + 4 →
      InMemory c_next c_info ⟨content.length, cf, cl⟩ blocks ⟨content, skip⟩

variable {c_next c_next' : Nat → Nat} {c_info c_info' : Nat → UInt8} {l : Clist} {blocks : List Nat}
  {q : Queue}

theorem InMemory.congr (h : InMemory c_next c_info l blocks q)
    (hnext : ∀ b ∈ blocks, c_next' b = c_next b)
    (hinfo : ∀ b ∈ blocks, ∀ a, b + 4 ≤ a → a < b + 32 → c_info' a = c_info a) :
    InMemory c_next' c_info' l blocks q := by
  cases h with
  | empty => exact .empty
  | chain h hskip => exact .chain (h.congr hnext hinfo) hskip

theorem InMemory.blocks_eq (h : InMemory c_next c_info l blocks q) : q.blocks = blocks.length := by
  cases h with
  | empty => rfl
  | @chain cf cl skip blocks content h hskip =>
      have hgeometry := h.geometry
      obtain ⟨_, b, -, hb, hlt, hle, -⟩ := h.exists_last
      show (skip + content.length + (28 - 1)) / 28 = blocks.length
      omega

/-- What `c_cl` says about the room behind the last byte. -/
theorem InMemory.slack_eq (h : InMemory c_next c_info l blocks q) :
    q.slack = if l.c_cl = 0 then 0 else 31 - (l.c_cl - 1) % 32 := by
  have hblocks := h.blocks_eq
  cases h with
  | empty => rfl
  | @chain cf cl skip blocks content h hskip =>
      have hgeometry := h.geometry
      obtain ⟨_, b, -, -, hlt, -⟩ := h.exists_last
      show 28 * Queue.blocks ⟨content, skip⟩ - (skip + content.length) = _
      rw [hblocks]
      dsimp only
      rw [if_neg (by omega)]
      omega

variable {Q : Type} [DecidableEq Q] {pool : List Nat} {k k' : Pool Q} {p : Q}
  {owner owner' : Nat → Option Q} {free free' : List Nat} {queue : Q → Queue}

/-- A list, its blocks and its queue. -/
structure Holds (pool : List Nat) (k : Pool Q) (owner : Nat → Option Q) (p : Q)
    (blocks : List Nat) (q : Queue) : Prop where
  memory : InMemory k.c_next k.c_info (k.list p) blocks q
  nodup : blocks.Nodup
  owned : ∀ b, b ∈ blocks ↔ b ∈ pool ∧ owner b = some p

/-- The free list and all lists but the exempt one. -/
structure SoundBut (exempt : Q → Prop) (pool : List Nat) (k : Pool Q) (queue : Q → Queue)
    (owner : Nat → Option Q) (free : List Nat) : Prop where
  aligned : ∀ b ∈ pool, b % 32 = 0 ∧ 0 < b
  chain : Linked k.c_next k.cfreelist free
  count : k.cfreecount = CBSIZE * free.length
  nodup : free.Nodup
  owned : ∀ b, b ∈ free ↔ b ∈ pool ∧ owner b = none
  holds : ∀ p, ¬ exempt p → ∃ blocks, Holds pool k owner p blocks (queue p)

/-- The memory stands for the queues, and each block is on one list. -/
def Sound (pool : List Nat) (k : Pool Q) (s : Store Q) : Prop :=
  ∃ owner free, SoundBut (fun _ => False) pool k s.queue owner free ∧ s.free = free.length

theorem block_disjoint {b b' a : Nat} (hb : b % 32 = 0) (hb' : b' % 32 = 0) (hne : b ≠ b')
    (hle : b + 4 ≤ a) (hlt : a < b + 32) : ¬ (b' + 4 ≤ a ∧ a < b' + 32) := by
  omega

namespace SoundBut

variable {s : Store Q}

omit [DecidableEq Q] in
theorem «open» (h : SoundBut (fun _ => False) pool k queue owner free) (p : Q) :
    SoundBut (fun other => other = p) pool k queue owner free ∧
      ∃ blocks, Holds pool k owner p blocks (queue p) :=
  ⟨{ h with holds := fun other _ => h.holds other id }, h.holds p id⟩

/-- A routine has finished with its list. -/
theorem close {q' : Queue} (h : SoundBut (fun other => other = p) pool k s.queue owner free)
    (hlist : Holds pool k owner p blocks q')
    (hsum : s.free + (s.queue p).blocks = free.length + blocks.length) :
    Sound pool k (s.set p q') := by
  refine ⟨owner, free, ⟨h.aligned, h.chain, h.count, h.nodup, h.owned, fun other _ => ?_⟩, ?_⟩
  · by_cases hother : other = p
    · subst hother
      refine ⟨blocks, ?_⟩
      simp only [Store.set, Function.update_self]
      exact hlist
    · obtain ⟨blocks', hblocks'⟩ := h.holds other hother
      refine ⟨blocks', ?_⟩
      simp only [Store.set, Function.update_of_ne hother]
      exact hblocks'
  · have := hlist.memory.blocks_eq
    simp only [Store.set]
    omega

omit [DecidableEq Q] in
/-- The memory of the open list may change. -/
theorem write (h : SoundBut (fun other => other = p) pool k queue owner free)
    (hlist : ∀ other, other ≠ p → k'.list other = k.list other)
    (hfree : k'.cfreelist = k.cfreelist) (hcount : k'.cfreecount = k.cfreecount)
    (hnext : ∀ b ∈ pool, owner b ≠ some p → k'.c_next b = k.c_next b)
    (hinfo : ∀ b ∈ pool, owner b ≠ some p → ∀ a, b + 4 ≤ a → a < b + 32 →
      k'.c_info a = k.c_info a) :
    SoundBut (fun other => other = p) pool k' queue owner free := by
  refine ⟨h.aligned, ?_, hcount ▸ h.count, h.nodup, h.owned, fun other hother => ?_⟩
  · rw [hfree]
    refine h.chain.congr fun b hmem => ?_
    obtain ⟨hpool, howner⟩ := (h.owned b).mp hmem
    exact hnext b hpool fun heq => nomatch howner.symm.trans heq
  · obtain ⟨blocks', hblocks'⟩ := h.holds other hother
    have hnot : ∀ b ∈ blocks', b ∈ pool ∧ owner b ≠ some p := by
      intro b hmem
      obtain ⟨hpool, howner⟩ := (hblocks'.owned b).mp hmem
      refine ⟨hpool, ?_⟩
      rw [howner]
      exact fun heq => hother (Option.some.inj heq)
    refine ⟨blocks', ?_, hblocks'.nodup, hblocks'.owned⟩
    rw [hlist other hother]
    exact hblocks'.memory.congr (fun b hmem => hnext b (hnot b hmem).1 (hnot b hmem).2)
      fun b hmem => hinfo b (hnot b hmem).1 (hnot b hmem).2

omit [DecidableEq Q] in
theorem relink (h : SoundBut (fun other => other = p) pool k queue owner free)
    (c_next : Nat → Nat) (hnext : ∀ b ∈ pool, owner b ≠ some p → c_next b = k.c_next b) :
    SoundBut (fun other => other = p) pool { k with c_next := c_next } queue owner free :=
  h.write (fun _ _ => rfl) rfl rfl hnext fun _ _ _ _ _ _ => rfl

omit [DecidableEq Q] in
/-- A block goes to the free list. -/
theorem freed {b : Nat} (h : SoundBut (fun other => other = p) pool k queue owner free)
    (hpool : b ∈ pool) (howner : owner b = some p) :
    SoundBut (fun other => other = p) pool (k.free b) queue (Function.update owner b none)
      (b :: free) := by
  have hnotin : b ∉ free := fun hmem => by
    rw [((h.owned b).mp hmem).2] at howner
    cases howner
  have hnext : ∀ other, other ≠ b → (k.free b).c_next other = k.c_next other := fun other hne =>
    Function.update_of_ne hne ..
  refine ⟨h.aligned, ⟨rfl, ?_⟩, ?_, List.nodup_cons.mpr ⟨hnotin, h.nodup⟩, ?_, ?_⟩
  · have hself : (k.free b).c_next b = k.cfreelist := Function.update_self ..
    rw [hself]
    refine h.chain.congr fun other hmem => hnext other ?_
    rintro rfl
    exact hnotin hmem
  · show k.cfreecount + (28 : Nat) = (28 : Nat) * (free.length + 1 : Nat)
    have hcount : k.cfreecount = (28 : Nat) * (free.length : Nat) := h.count
    omega
  · intro other
    by_cases hother : other = b
    · subst hother
      simp [hpool]
    · rw [Function.update_of_ne hother, List.mem_cons, ← h.owned other]
      simp [hother]
  · intro other hother
    obtain ⟨blocks', hblocks'⟩ := h.holds other hother
    have hne : ∀ b' ∈ blocks', b' ≠ b := by
      rintro b' hmem rfl
      rw [((hblocks'.owned b').mp hmem).2] at howner
      exact hother (Option.some.inj howner)
    refine ⟨blocks', ?_, hblocks'.nodup, fun b' => ?_⟩
    · exact hblocks'.memory.congr (fun b' hmem => hnext b' (hne b' hmem)) fun _ _ _ _ _ => rfl
    · by_cases hb' : b' = b
      · subst hb'
        rw [Function.update_self]
        exact ⟨fun hmem => absurd rfl (hne b' hmem), fun hand => nomatch hand.2⟩
      · rw [Function.update_of_ne hb']
        exact hblocks'.owned b'

omit [DecidableEq Q] in
theorem release {b : Nat} (h : SoundBut (fun other => other = p) pool k queue owner free)
    (hpool : b ∈ pool) (howner : owner b = some p) :
    SoundBut (fun other => other = p) pool (k.release b) queue (Function.update owner b none)
      (b :: free) :=
  (h.freed hpool howner).write (fun _ _ => rfl) rfl rfl (fun _ _ _ => rfl) fun _ _ _ _ _ _ => rfl

omit [DecidableEq Q] in
/-- A block is taken from the free list. -/
theorem take {b : Nat} (h : SoundBut (fun other => other = p) pool k queue owner (b :: free)) :
    k.cfreelist = b ∧ b ∈ pool ∧ owner b = none ∧
      SoundBut (fun other => other = p) pool k.take queue (Function.update owner b (some p)) free := by
  obtain ⟨hpool, howner⟩ := (h.owned b).mp List.mem_cons_self
  obtain ⟨hhead, htail⟩ := h.chain
  obtain ⟨hnotin, hnodup⟩ := List.nodup_cons.mp h.nodup
  have hnext : ∀ other, other ≠ b → k.take.c_next other = k.c_next other := by
    intro other hne
    rw [← hhead] at hne
    exact Function.update_of_ne hne ..
  refine ⟨hhead, hpool, howner, h.aligned, ?_, ?_, hnodup, ?_, ?_⟩
  · have hlist : k.take.cfreelist = k.c_next b := congrArg k.c_next hhead
    rw [hlist]
    refine htail.congr fun other hmem => hnext other ?_
    rintro rfl
    exact hnotin hmem
  · show k.cfreecount - (28 : Nat) = (28 : Nat) * (free.length : Nat)
    have hcount : k.cfreecount = (28 : Nat) * (free.length + 1 : Nat) := h.count
    omega
  · intro other
    by_cases hother : other = b
    · subst hother
      simp [hnotin]
    · have := h.owned other
      rw [List.mem_cons, or_iff_right hother] at this
      rw [Function.update_of_ne hother]
      exact this
  · intro other hother
    obtain ⟨blocks', hblocks'⟩ := h.holds other hother
    have hne : ∀ b' ∈ blocks', b' ≠ b := by
      rintro b' hmem rfl
      rw [((hblocks'.owned b').mp hmem).2] at howner
      cases howner
    refine ⟨blocks', ?_, hblocks'.nodup, fun b' => ?_⟩
    · exact hblocks'.memory.congr (fun b' hmem => hnext b' (hne b' hmem)) fun _ _ _ _ _ => rfl
    · by_cases hb' : b' = b
      · subst hb'
        rw [Function.update_self]
        refine ⟨fun hmem => absurd rfl (hne b' hmem), fun hand => ?_⟩
        exact absurd (Option.some.inj hand.2).symm hother
      · rw [Function.update_of_ne hb']
        exact hblocks'.owned b'

omit [DecidableEq Q] in
theorem owned_release {b : Nat} {bs : List Nat} (hnodup : (b :: bs).Nodup)
    (howned : ∀ b', b' ∈ b :: bs ↔ b' ∈ pool ∧ owner b' = some p) (b' : Nat) :
    b' ∈ bs ↔ b' ∈ pool ∧ Function.update owner b none b' = some p := by
  by_cases hb' : b' = b
  · subst hb'
    rw [Function.update_self]
    exact ⟨fun hmem => absurd hmem (List.nodup_cons.mp hnodup).1, fun hand => nomatch hand.2⟩
  · rw [Function.update_of_ne hb', ← howned b', List.mem_cons, or_iff_right hb']

omit [DecidableEq Q] in
/-- The blocks of a list that has taken another one. -/
theorem owned_take {b : Nat} {bs : List Nat} (hpool : b ∈ pool)
    (howned : ∀ b', b' ∈ bs ↔ b' ∈ pool ∧ owner b' = some p) (b' : Nat) :
    b' ∈ bs ++ [b] ↔ b' ∈ pool ∧ Function.update owner b (some p) b' = some p := by
  rw [List.mem_append, List.mem_singleton]
  by_cases hb' : b' = b
  · subst hb'
    rw [Function.update_self]
    exact ⟨fun _ => ⟨hpool, rfl⟩, fun _ => Or.inr rfl⟩
  · rw [Function.update_of_ne hb', ← howned b', or_iff_left hb']

end SoundBut

namespace Store

theorem set_self (s : Store Q) (p : Q) : s.set p (s.queue p) = s := by
  have hfree : s.free + (s.queue p).blocks - (s.queue p).blocks = s.free := by omega
  rw [set, Function.update_eq_self, hfree]

theorem set_queue (s : Store Q) (p : Q) (q : Queue) : (s.set p q).queue p = q :=
  Function.update_self ..

theorem set_queue_ne {p other : Q} (h : other ≠ p) (s : Store Q) (q : Queue) :
    (s.set p q).queue other = s.queue other :=
  Function.update_of_ne h ..

end Store

end DiscoBsd.Clists
