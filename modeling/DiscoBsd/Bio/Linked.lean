import Mathlib.Data.Finset.Card
import Mathlib.Order.Interval.Finset.Nat
import DiscoBsd.Bio.Cache

/-!
# The lists of the buffer cache

`Linked n c chains queues` says that the pointers of the cache make up the hash chains
`chains` and the free lists `queues`: each of the first `n` buffers is on one chain, is on a
free list exactly when it is not busy, and, when it stands for a block of a device, is on
that block's chain. Each piece of code keeps this; `search_some`, `search_none` and
`victim_some` say what the searches find.
-/

namespace DiscoBsd.Bio

open Lib

variable {α : Type*}

/-- The pointers make up the given chains and free lists. -/
structure Linked (n : Nat) (c : Cache α) (chains : Chain → List Nat) (queues : Queue → List Nat) :
    Prop where
  hash : Rings c.hash chains
  avail : Rings c.avail queues
  chained : ∀ i, i < n ↔ ∃ chain, i ∈ chains chain
  queued : ∀ i, (i < n ∧ (c.buf i).flags.busy = false) ↔ ∃ queue, i ∈ queues queue
  home : ∀ i, i < n → (c.buf i).flags.inval = false → (c.buf i).dev ≠ NODEV →
    i ∈ chains (bufHash (c.buf i).dev (c.buf i).blkno)

/-! ## Reading the cache -/

@[simp] theorem modify_buf_self (c : Cache α) (i : Nat) (f : Buf α → Buf α) :
    (c.modify i f).buf i = f (c.buf i) := by simp [Cache.modify]

@[simp] theorem modify_buf_of_ne {c : Cache α} {i j : Nat} (h : j ≠ i) (f : Buf α → Buf α) :
    (c.modify i f).buf j = c.buf j := by simp [Cache.modify, h]

@[simp] theorem modify_nbuf (c : Cache α) (i : Nat) (f : Buf α → Buf α) :
    (c.modify i f).nbuf = c.nbuf := rfl

@[simp] theorem modify_hash (c : Cache α) (i : Nat) (f : Buf α → Buf α) :
    (c.modify i f).hash = c.hash := rfl

@[simp] theorem modify_avail (c : Cache α) (i : Nat) (f : Buf α → Buf α) :
    (c.modify i f).avail = c.avail := rfl

@[simp] theorem modify_disk (c : Cache α) (i : Nat) (f : Buf α → Buf α) :
    (c.modify i f).disk = c.disk := rfl

theorem Linked.length_le {n : Nat} {c : Cache α} {chains : Chain → List Nat}
    {queues : Queue → List Nat} (h : Linked n c chains queues) (chain : Chain) :
    (chains chain).length ≤ n := by
  have hsub : (chains chain).toFinset ⊆ Finset.range n := by
    intro i hi
    exact Finset.mem_range.mpr ((h.chained i).mpr ⟨chain, List.mem_toFinset.mp hi⟩)
  have hcard := Finset.card_le_card hsub
  rwa [List.toFinset_card_of_nodup (h.hash.nodup chain), Finset.card_range] at hcard

theorem Linked.search_eq {c : Cache α} {chains : Chain → List Nat} {queues : Queue → List Nat}
    (h : Linked c.nbuf c chains queues) (dev blkno : Int) :
    search c dev blkno =
      (chains (bufHash dev blkno)).find? fun i => (c.buf i).stands dev blkno := by
  rw [search, (h.hash.path _).walk_eq (h.length_le _)]

theorem stands_iff {bp : Buf α} {dev blkno : Int} :
    bp.stands dev blkno = true ↔ bp.blkno = blkno ∧ bp.dev = dev ∧ bp.flags.inval = false := by
  simp [Buf.stands, and_assoc]

theorem search_some {c : Cache α} {chains : Chain → List Nat} {queues : Queue → List Nat}
    (h : Linked c.nbuf c chains queues) {dev blkno : Int} {i : Nat}
    (hsearch : search c dev blkno = some i) :
    i < c.nbuf ∧ (c.buf i).stands dev blkno = true := by
  rw [h.search_eq] at hsearch
  refine ⟨(h.chained i).mpr ⟨_, List.mem_of_find?_eq_some hsearch⟩, ?_⟩
  have hfound := List.find?_some hsearch
  exact hfound

/-- When the search finds nothing, no buffer stands for the block. -/
theorem search_none {c : Cache α} {chains : Chain → List Nat} {queues : Queue → List Nat}
    (h : Linked c.nbuf c chains queues) {dev blkno : Int} (hdev : dev ≠ NODEV)
    (hsearch : search c dev blkno = none) {i : Nat} (hi : i < c.nbuf) :
    (c.buf i).stands dev blkno = false := by
  by_contra hstands
  rw [Bool.not_eq_false] at hstands
  obtain ⟨rfl, rfl, hvalid⟩ := stands_iff.mp hstands
  rw [h.search_eq, List.find?_eq_none] at hsearch
  exact hsearch i (h.home i hi hvalid hdev) hstands

/-- The buffer `getnewbuf` looks at is free. -/
theorem victim_some {n : Nat} {c : Cache α} {chains : Chain → List Nat}
    {queues : Queue → List Nat} (h : Linked n c chains queues) {i : Nat}
    (hvictim : victim c = some i) : ∃ queue, i ∈ queues queue := by
  have hfirst : ∀ queue, c.avail.forw (.inl queue) = .inr i → i ∈ queues queue := by
    intro queue hforw
    have hpath := h.avail.path queue
    cases hlist : queues queue with
    | nil =>
        rw [hlist] at hpath
        rw [hpath.1] at hforw
        cases hforw
    | cons first rest =>
        rw [hlist] at hpath
        rw [hpath.1.1] at hforw
        cases hforw
        exact List.mem_cons_self
  unfold victim at hvictim
  split at hvictim
  · rename_i hforw
    cases hvictim
    exact ⟨.age, hfirst .age hforw⟩
  · split at hvictim
    · rename_i hforw
      cases hvictim
      exact ⟨.lru, hfirst .lru hforw⟩
    · cases hvictim

/-! ## What the pieces of code keep -/

/-- Changing a buffer without making it busy or free and without giving it a block. -/
theorem Linked.modify {n : Nat} {c : Cache α} {chains : Chain → List Nat}
    {queues : Queue → List Nat} (h : Linked n c chains queues) (i : Nat) {f : Buf α → Buf α}
    (hbusy : (f (c.buf i)).flags.busy = (c.buf i).flags.busy)
    (hhome : (f (c.buf i)).flags.inval = false → (f (c.buf i)).dev ≠ NODEV →
      (c.buf i).flags.inval = false ∧ (f (c.buf i)).dev = (c.buf i).dev ∧
        (f (c.buf i)).blkno = (c.buf i).blkno) :
    Linked n (c.modify i f) chains queues := by
  refine ⟨h.hash, h.avail, h.chained, ?_, ?_⟩
  · intro j
    rw [← h.queued j]
    by_cases heq : j = i
    · subst heq
      simp [hbusy]
    · simp [heq]
  · intro j hj hvalid hdev
    by_cases heq : j = i
    · subst heq
      rw [modify_buf_self] at hvalid hdev ⊢
      obtain ⟨hvalid', hdev', hblkno'⟩ := hhome hvalid hdev
      rw [hdev', hblkno']
      exact h.home j hj hvalid' (hdev' ▸ hdev)
    · rw [modify_buf_of_ne heq] at hvalid hdev ⊢
      exact h.home j hj hvalid hdev

/-- `notavail` takes the buffer off its queue. -/
theorem Linked.notavail {n : Nat} {c : Cache α} {chains : Chain → List Nat}
    {queues : Queue → List Nat} (h : Linked n c chains queues) {i : Nat} {queue : Queue}
    (hi : i ∈ queues queue) :
    Linked n (notavail c i) chains
      (Function.update queues queue ((queues queue).erase i)) := by
  refine ⟨h.hash, h.avail.remove hi, h.chained, ?_, ?_⟩
  · intro j
    by_cases heq : j = i
    · subst heq
      refine iff_of_false (by simp [Bio.notavail, Cache.setFlags]) ?_
      rintro ⟨other, hother⟩
      by_cases hq : other = queue
      · subst hq
        rw [Function.update_self] at hother
        exact (h.avail.nodup other).not_mem_erase hother
      · rw [Function.update_of_ne hq] at hother
        exact hq (h.avail.apart other queue j hother hi)
    · have hold := h.queued j
      simp only [Bio.notavail, Cache.setFlags, modify_buf_of_ne heq]
      rw [hold]
      refine exists_congr fun other => ?_
      by_cases hq : other = queue
      · subst hq
        rw [Function.update_self]
        exact (List.mem_erase_of_ne heq).symm
      · rw [Function.update_of_ne hq]
  · intro j hj hvalid hdev
    by_cases heq : j = i
    · subst heq
      simp only [Bio.notavail, Cache.setFlags, modify_buf_self] at hvalid hdev ⊢
      exact h.home j hj hvalid hdev
    · simp only [Bio.notavail, Cache.setFlags, modify_buf_of_ne heq] at hvalid hdev ⊢
      exact h.home j hj hvalid hdev

theorem Linked.not_mem_queue {n : Nat} {c : Cache α} {chains : Chain → List Nat}
    {queues : Queue → List Nat} (h : Linked n c chains queues) {i : Nat}
    (hbusy : (c.buf i).flags.busy = true) (queue : Queue) : i ∉ queues queue := by
  intro hmem
  have := ((h.queued i).mpr ⟨queue, hmem⟩).2
  simp [hbusy] at this

/-- The buffer after its release. -/
def released (bp : Buf α) : Buf α :=
  { forget bp with flags := { (forget bp).flags with
      wanted := false, busy := false, async := false, age := false } }

/-- `brelse` as one change of the buffer and one insertion. -/
theorem brelse_eq (c : Cache α) (i : Nat) :
    brelse c i =
      { c with
        wanted := false
        buf := Function.update c.buf i (released (c.buf i))
        avail := if (releaseQueue (forget (c.buf i)).flags).2 then
            c.avail.insertHead i (releaseQueue (forget (c.buf i)).flags).1
          else c.avail.insertTail i (releaseQueue (forget (c.buf i)).flags).1 } := by
  simp only [brelse, Cache.setFlags, Cache.modify, Function.update_self, Function.update_idem,
    released]

/-- `brelse` puts a busy buffer on a queue. -/
theorem Linked.brelse {n : Nat} {c : Cache α} {chains : Chain → List Nat}
    {queues : Queue → List Nat} (h : Linked n c chains queues) {i : Nat} (hi : i < n)
    (hbusy : (c.buf i).flags.busy = true) :
    ∃ elems, Linked n (brelse c i) chains
      (Function.update queues (releaseQueue (forget (c.buf i)).flags).1 elems) := by
  have hnew := h.not_mem_queue hbusy
  obtain ⟨elems, havail, hmem⟩ : ∃ elems,
      Rings (Bio.brelse c i).avail
        (Function.update queues (releaseQueue (forget (c.buf i)).flags).1 elems) ∧
        ∀ j, j ∈ elems ↔ j = i ∨ j ∈ queues (releaseQueue (forget (c.buf i)).flags).1 := by
    rw [brelse_eq]
    dsimp only
    split
    · exact ⟨_, h.avail.insertHead hnew _, by simp⟩
    · exact ⟨_, h.avail.insertTail hnew _, by simp [or_comm]⟩
  refine ⟨elems, ?_, havail, h.chained, ?_, ?_⟩
  · rw [brelse_eq]
    exact h.hash
  · intro j
    by_cases heq : j = i
    · subst heq
      refine iff_of_true ⟨hi, by simp [brelse_eq, released]⟩
        ⟨(releaseQueue (forget (c.buf j)).flags).1, ?_⟩
      rw [Function.update_self]
      exact (hmem j).mpr (Or.inl rfl)
    · have hold := h.queued j
      simp only [brelse_eq, Function.update_of_ne heq]
      rw [hold]
      refine exists_congr fun other => ?_
      by_cases hq : other = (releaseQueue (forget (c.buf i)).flags).1
      · rw [hq, Function.update_self, hmem]
        simp [heq]
      · rw [Function.update_of_ne hq]
  · intro j hj hvalid hdev
    by_cases heq : j = i
    · subst heq
      simp only [brelse_eq, Function.update_self] at hvalid hdev ⊢
      -- a buffer that keeps its device keeps its block
      have hkept : (forget (c.buf j)).dev = (c.buf j).dev ∧
          (forget (c.buf j)).blkno = (c.buf j).blkno ∧
          (forget (c.buf j)).flags.inval = (c.buf j).flags.inval := by
        have hdev : (forget (c.buf j)).dev ≠ NODEV := hdev
        unfold forget at hdev ⊢
        split
        · split
          · exact ⟨rfl, rfl, rfl⟩
          · simp_all
        · exact ⟨rfl, rfl, rfl⟩
      show j ∈ chains (bufHash (forget (c.buf j)).dev (forget (c.buf j)).blkno)
      have hvalid : (forget (c.buf j)).flags.inval = false := hvalid
      have hdev : (forget (c.buf j)).dev ≠ NODEV := hdev
      rw [hkept.1, hkept.2.1]
      exact h.home j hj (hkept.2.2 ▸ hvalid) (hkept.1 ▸ hdev)
    · simp only [brelse_eq, Function.update_of_ne heq] at hvalid hdev ⊢
      exact h.home j hj hvalid hdev

/-- Moving a buffer to another chain. -/
theorem Linked.rehash_rings {n : Nat} {c : Cache α} {chains : Chain → List Nat}
    {queues : Queue → List Nat} (h : Linked n c chains queues) {i : Nat} (hi : i < n)
    (chain : Chain) :
    ∃ chains', Rings (rehash c i chain).hash chains' ∧ i ∈ chains' chain ∧
      ∀ j, j ≠ i → ∀ other, j ∈ chains' other ↔ j ∈ chains other := by
  obtain ⟨old, hold⟩ := (h.chained i).mp hi
  have hremoved := h.hash.remove hold
  have hnew : ∀ other, i ∉ Function.update chains old ((chains old).erase i) other := by
    intro other hother
    by_cases hq : other = old
    · subst hq
      rw [Function.update_self] at hother
      exact (h.hash.nodup other).not_mem_erase hother
    · rw [Function.update_of_ne hq] at hother
      exact hq (h.hash.apart other old i hother hold)
  refine ⟨_, hremoved.insertHead hnew chain, by simp, ?_⟩
  intro j hj other
  have hremove : ∀ other, j ∈ Function.update chains old ((chains old).erase i) other ↔
      j ∈ chains other := by
    intro other
    by_cases hq : other = old
    · subst hq
      rw [Function.update_self]
      exact List.mem_erase_of_ne hj
    · rw [Function.update_of_ne hq]
  by_cases hq : other = chain
  · subst hq
    rw [Function.update_self, List.mem_cons, hremove]
    simp [hj]
  · rw [Function.update_of_ne hq, hremove]

/-- Giving a busy buffer a new identity: `chain` is the chain of its new block, if any. -/
theorem Linked.reassign {n : Nat} {c : Cache α} {chains : Chain → List Nat}
    {queues : Queue → List Nat} (h : Linked n c chains queues) {i : Nat} (hi : i < n)
    (hbusy : (c.buf i).flags.busy = true) {chain : Chain} {f : Buf α → Buf α}
    (hbusy' : (f (c.buf i)).flags.busy = true)
    (hhome : (f (c.buf i)).flags.inval = false → (f (c.buf i)).dev ≠ NODEV →
      chain = bufHash (f (c.buf i)).dev (f (c.buf i)).blkno) :
    ∃ chains', Linked n ((rehash c i chain).modify i f) chains' queues := by
  obtain ⟨chains', hrings, hmem, hothers⟩ := h.rehash_rings hi chain
  refine ⟨chains', hrings, h.avail, ?_, ?_, ?_⟩
  · intro j
    by_cases heq : j = i
    · subst heq
      exact iff_of_true hi ⟨chain, hmem⟩
    · rw [h.chained j]
      exact exists_congr fun other => (hothers j heq other).symm
  · intro j
    rw [← h.queued j]
    by_cases heq : j = i
    · subst heq
      simp [rehash, hbusy, hbusy']
    · simp [rehash, heq]
  · intro j hj hvalid hdev
    by_cases heq : j = i
    · subst heq
      rw [modify_buf_self] at hvalid hdev ⊢
      exact hhome hvalid hdev ▸ hmem
    · rw [modify_buf_of_ne heq] at hvalid hdev ⊢
      exact (hothers j heq _).mpr (h.home j hj hvalid hdev)

theorem Linked.assign {n : Nat} {c : Cache α} {chains : Chain → List Nat}
    {queues : Queue → List Nat} (h : Linked n c chains queues) {i : Nat} (hi : i < n)
    (hbusy : (c.buf i).flags.busy = true) (dev blkno : Int) :
    ∃ chains', Linked n (assign c i dev blkno) chains' queues :=
  h.reassign hi hbusy rfl fun _ _ => rfl

theorem Linked.assign_empty {n : Nat} {c : Cache α} {chains : Chain → List Nat}
    {queues : Queue → List Nat} (h : Linked n c chains queues) {i : Nat} (hi : i < n)
    (hbusy : (c.buf i).flags.busy = true) :
    ∃ chains', Linked n (assignEmpty c i) chains' queues := by
  refine h.reassign hi hbusy rfl fun hvalid => ?_
  cases hvalid

/-! ## The initial cache -/

theorem linked_empty (nbuf : Nat) (buf : Nat → Buf α) (disk : Int → Int → α) :
    Linked 0 (emptyCache nbuf buf disk) (fun _ => []) (fun _ => []) := by
  refine ⟨⟨?_, ?_, ?_⟩, ⟨?_, ?_, ?_⟩, ?_, ?_, ?_⟩ <;>
    simp [emptyCache, LinkPath, Links.Linked]

/-- `binit` puts one more buffer on its lists. -/
theorem Linked.binit_buf {n : Nat} {c : Cache α} {chains : Chain → List Nat}
    {queues : Queue → List Nat} (h : Linked n c chains queues) :
    ∃ chains' elems, Linked (n + 1) (binitBuf c n) chains' (Function.update queues .age elems) := by
  have hnew : ∀ chain, n ∉ chains chain := fun chain hmem =>
    absurd ((h.chained n).mpr ⟨chain, hmem⟩) (lt_irrefl n)
  have hqueue : ∀ queue, n ∉ queues queue := fun queue hmem =>
    absurd ((h.queued n).mpr ⟨queue, hmem⟩).1 (lt_irrefl n)
  have hbusy : Linked (n + 1) ({ c with hash := c.hash.insertHead n (.bfreelist .age) }.modify n
      fun bp => { bp with flags := { Flags.none with busy := true, inval := true }, dev := NODEV })
      (Function.update chains (.bfreelist .age) (n :: chains (.bfreelist .age))) queues := by
    refine ⟨h.hash.insertHead hnew _, h.avail, ?_, ?_, ?_⟩
    · intro j
      rw [Nat.lt_succ_iff_lt_or_eq, h.chained j]
      constructor
      · rintro (⟨chain, hchain⟩ | rfl)
        · by_cases hq : chain = .bfreelist .age
          · subst hq
            exact ⟨.bfreelist .age, by simp [hchain]⟩
          · exact ⟨chain, by rwa [Function.update_of_ne hq]⟩
        · exact ⟨.bfreelist .age, by simp⟩
      · rintro ⟨chain, hchain⟩
        by_cases hq : chain = .bfreelist .age
        · subst hq
          rw [Function.update_self, List.mem_cons] at hchain
          exact hchain.symm.imp_left fun hmem => ⟨_, hmem⟩
        · rw [Function.update_of_ne hq] at hchain
          exact Or.inl ⟨chain, hchain⟩
    · intro j
      by_cases heq : j = n
      · subst heq
        exact iff_of_false (by simp) fun ⟨queue, hmem⟩ => hqueue queue hmem
      · rw [← h.queued j, modify_buf_of_ne heq]
        have : j < n + 1 ↔ j < n := by omega
        rw [this]
    · intro j hj hvalid hdev
      by_cases heq : j = n
      · subst heq
        simp at hvalid
      · rw [modify_buf_of_ne heq] at hvalid hdev ⊢
        have hmem := h.home j (by omega) hvalid hdev
        rw [Function.update_of_ne (by simp [bufHash])]
        exact hmem
  obtain ⟨elems, hdone⟩ := hbusy.brelse (Nat.lt_succ_self n) (by simp)
  rw [modify_buf_self] at hdone
  exact ⟨_, elems, hdone⟩

/-- After `binit` every buffer of the pool is on its lists, and none is on `BQ_LOCKED`. -/
theorem linked_binit (nbuf : Nat) (buf : Nat → Buf α) (disk : Int → Int → α) :
    ∃ chains queues, Linked nbuf (binit nbuf buf disk) chains queues ∧ queues .locked = [] := by
  have hall : ∀ n, ∃ chains queues,
      Linked n ((List.range n).foldl binitBuf (emptyCache nbuf buf disk)) chains queues ∧
        queues .locked = [] := by
    intro n
    induction n with
    | zero => exact ⟨_, _, linked_empty nbuf buf disk, rfl⟩
    | succ n ih =>
        obtain ⟨chains, queues, h, hlocked⟩ := ih
        rw [List.range_succ, List.foldl_append]
        obtain ⟨chains', elems, h'⟩ := h.binit_buf
        refine ⟨chains', _, h', ?_⟩
        rw [Function.update_of_ne (by simp)]
        exact hlocked
  exact hall nbuf

/-- What `binit` leaves in the buffers of the pool, and that it leaves the rest alone. -/
theorem binit_spec (nbuf : Nat) (buf : Nat → Buf α) (disk : Int → Int → α) :
    (binit nbuf buf disk).nbuf = nbuf ∧ (binit nbuf buf disk).disk = disk ∧
      ∀ i, i < nbuf → ((binit nbuf buf disk).buf i).flags = { Flags.none with inval := true } ∧
        ((binit nbuf buf disk).buf i).dev = NODEV := by
  have hall : ∀ n, ((List.range n).foldl binitBuf (emptyCache nbuf buf disk)).nbuf = nbuf ∧
      ((List.range n).foldl binitBuf (emptyCache nbuf buf disk)).disk = disk ∧
      ∀ i, i < n → (((List.range n).foldl binitBuf (emptyCache nbuf buf disk)).buf i).flags =
          { Flags.none with inval := true } ∧
        (((List.range n).foldl binitBuf (emptyCache nbuf buf disk)).buf i).dev = NODEV := by
    intro n
    induction n with
    | zero => exact ⟨rfl, rfl, by simp⟩
    | succ n ih =>
        obtain ⟨hnbuf, hdisk, hbufs⟩ := ih
        rw [List.range_succ, List.foldl_append]
        simp only [List.foldl_cons, List.foldl_nil, binitBuf, brelse_eq]
        refine ⟨hnbuf, hdisk, ?_⟩
        intro i hi
        by_cases heq : i = n
        · subst heq
          simp [released, forget, Flags.none]
        · have := hbufs i (by omega)
          simpa [heq] using this
  exact hall nbuf

end DiscoBsd.Bio
