import DiscoBsd.Bio.Coherence

/-!
# Runs of one process over the buffer cache

`bflush` writes out the delayed writes that are on the free lists; a delayed write whose
buffer the process holds stays where it is. `buffer_cache_run` states what holds after every
sequence of calls from the cache that `binit` sets up.
-/

namespace DiscoBsd.Bio

open Lib

variable {α : Type*} {c : Cache α} {stored : Int → Int → α} {i : Nat}

/-! ## Flushing -/

theorem Linked.queue_length_le {n : Nat} {chains : Chain → List Nat} {queues : Queue → List Nat}
    (h : Linked n c chains queues) (queue : Queue) : (queues queue).length ≤ n := by
  have hsub : (queues queue).toFinset ⊆ Finset.range n := by
    intro j hj
    exact Finset.mem_range.mpr ((h.queued j).mpr ⟨queue, List.mem_toFinset.mp hj⟩).1
  have hcard := Finset.card_le_card hsub
  rwa [List.toFinset_card_of_nodup (h.avail.nodup queue), Finset.card_range] at hcard

theorem Linked.find_delayed_eq {chains : Chain → List Nat} {queues : Queue → List Nat}
    (h : Linked c.nbuf c chains queues) (dev : Int) (queue : Queue) :
    findDelayed c dev queue =
      (queues queue).find? fun i => (c.buf i).flags.delwri && dev = (c.buf i).dev := by
  rw [findDelayed, (h.avail.path _).walk_eq (h.queue_length_le _)]

/-- What `bflush` finds is a delayed write for the device on a free list. -/
theorem next_delayed_some {chains : Chain → List Nat} {queues : Queue → List Nat}
    (h : Linked c.nbuf c chains queues) {dev : Int} (hnext : nextDelayed c dev = some i) :
    i < c.nbuf ∧ (c.buf i).flags.busy = false ∧ (c.buf i).flags.delwri = true := by
  have hfound : ∀ queue, findDelayed c dev queue = some i →
      i < c.nbuf ∧ (c.buf i).flags.busy = false ∧ (c.buf i).flags.delwri = true := by
    intro queue hfind
    rw [h.find_delayed_eq] at hfind
    obtain ⟨hlt, hfree⟩ := (h.queued i).mpr ⟨queue, List.mem_of_find?_eq_some hfind⟩
    have hdelwri := List.find?_some hfind
    simp only [Bool.and_eq_true] at hdelwri
    exact ⟨hlt, hfree, hdelwri.1⟩
  unfold nextDelayed at hnext
  cases hlocked : findDelayed c dev .locked with
  | some j =>
      rw [hlocked] at hnext
      cases hnext
      exact hfound .locked hlocked
  | none =>
      rw [hlocked] at hnext
      cases hlru : findDelayed c dev .lru with
      | some j =>
          rw [hlru] at hnext
          cases hnext
          exact hfound .lru hlru
      | none =>
          rw [hlru] at hnext
          exact hfound .age hnext

/-- When `bflush` finds nothing, no free list has a delayed write for the device. -/
theorem next_delayed_none {chains : Chain → List Nat} {queues : Queue → List Nat}
    (h : Linked c.nbuf c chains queues) {dev : Int} (hnext : nextDelayed c dev = none)
    (hi : i < c.nbuf) (hfree : (c.buf i).flags.busy = false) (hdev : (c.buf i).dev = dev) :
    (c.buf i).flags.delwri = false := by
  obtain ⟨queue, hmem⟩ := (h.queued i).mp ⟨hi, hfree⟩
  have hnone : findDelayed c dev queue = none := by
    unfold nextDelayed at hnext
    cases hlocked : findDelayed c dev .locked with
    | some j =>
        rw [hlocked] at hnext
        cases hnext
    | none =>
        rw [hlocked] at hnext
        cases hlru : findDelayed c dev .lru with
        | some j =>
            rw [hlru] at hnext
            cases hnext
        | none =>
            rw [hlru] at hnext
            cases queue with
            | locked => exact hlocked
            | lru => exact hlru
            | age => exact hnext
  rw [h.find_delayed_eq, List.find?_eq_none] at hnone
  have := hnone i hmem
  simpa [hdev] using this

theorem flush_round_eq (c : Cache α) (i : Nat) :
    bwrite (notavail (c.setFlags i fun flags => { flags with async := true }) i) i =
      bawrite (notavail c i) i := by
  simp [bawrite, notavail, Cache.setFlags, Cache.modify]

/-- What `bflush` leaves. -/
structure Flushed (c : Cache α) (stored : Int → Int → α) (dev : Int) (c' : Cache α) : Prop where
  coherent : Coherent c' stored
  nbuf : c'.nbuf = c.nbuf
  held : ∀ j, (c'.buf j).flags.busy = true → c'.buf j = c.buf j
  clean : ∀ j, j < c.nbuf → (c'.buf j).flags.busy = false → (c'.buf j).dev = dev →
    (c'.buf j).flags.delwri = false

/-- With enough rounds no delayed write for the device is left on a free list. -/
theorem bflush_loop_flushed (dev : Int) {fuel : Nat} (h : Coherent c stored)
    (hfuel : (delayed c).card < fuel) : Flushed c stored dev (bflushLoop dev fuel c) := by
  induction fuel generalizing c with
  | zero => omega
  | succ fuel ih =>
      obtain ⟨chains, queues, hlinked, -⟩ := h.lists
      rw [bflushLoop]
      cases hnext : nextDelayed c dev with
      | none =>
          refine ⟨h, rfl, fun j _ => rfl, fun j hj hfree hdev => ?_⟩
          exact next_delayed_none hlinked hnext hj hfree hdev
      | some j =>
          obtain ⟨hj, hfree, hdelwri⟩ := next_delayed_some hlinked hnext
          dsimp only
          rw [flush_round_eq]
          have htaken := h.notavail hj hfree
          have hpushed := htaken.push hj (by simp [notavail, Cache.setFlags])
            (by simpa [notavail, Cache.setFlags] using hdelwri)
          obtain ⟨hnbuf, hothers, -, hnotBusy, -⟩ := bwrite_frame
            ((notavail c j).setFlags j fun flags => { flags with async := true }) j
          have hmem : j ∈ delayed c := by simp [delayed, hj, hfree, hdelwri]
          have hpos := Finset.card_pos.mpr ⟨j, hmem⟩
          have hless : (delayed (bawrite (notavail c j) j)).card < fuel := by
            rw [delayed_push hj hfree hdelwri, Finset.card_erase_of_mem hmem]
            omega
          obtain ⟨hcoherent, hn, hheld, hclean⟩ := ih hpushed hless
          have hnbuf' : (bawrite (notavail c j) j).nbuf = c.nbuf := hnbuf
          refine ⟨hcoherent, hn.trans hnbuf', fun k hk => ?_, fun k hk => ?_⟩
          · have hsame := hheld k hk
            have hne : k ≠ j := by
              rintro rfl
              rw [hsame] at hk
              exact absurd hk (by simp [bawrite, hnotBusy])
            rw [hsame, bawrite, hothers k hne]
            simp [notavail, Cache.setFlags, hne]
          · exact hclean k (hnbuf'.symm ▸ hk)

theorem bflush_flushed (h : Coherent c stored) (dev : Int) :
    Flushed c stored dev (bflush c dev) :=
  bflush_loop_flushed dev h (Nat.lt_succ_of_le (card_delayed_le c))

/-- After `bflush` the disk holds what was stored last in a block that is not held. -/
theorem bflush_disk (h : Coherent c stored) {dev blkno : Int}
    (hblock : ∀ j, j < c.nbuf → (c.buf j).stands dev blkno = true → (c.buf j).flags.busy = false) :
    (bflush c dev).disk dev blkno = stored dev blkno := by
  obtain ⟨hcoherent, hnbuf, hheld, hclean⟩ := bflush_flushed h dev
  rcases hcoherent.agrees.disk dev blkno with heq | ⟨j, hj, hstands, hdelwri⟩
  · exact heq
  · have hj' : j < c.nbuf := hnbuf ▸ hj
    by_cases hbusy : ((bflush c dev).buf j).flags.busy = true
    · have hsame := hheld j hbusy
      rw [hsame] at hstands hbusy
      rw [hblock j hj' hstands] at hbusy
      cases hbusy
    · have := hclean j hj' (by simpa using hbusy) (stands_iff.mp hstands).2.1
      rw [this] at hdelwri
      cases hdelwri

/-! ## Runs -/

/-- The cache and, for each block, what was stored in it last. -/
structure System (α : Type*) where
  cache : Cache α
  stored : Int → Int → α

/-- The calls of the process. The calls that write a buffer out name the contents stored in it. -/
inductive Call (α : Type*) where
  | bread (dev blkno : Int)
  | getblk (dev blkno : Int)
  | geteblk
  | bwrite (i : Nat) (data : α)
  | bawrite (i : Nat) (data : α)
  | bdwrite (i : Nat) (data : α)
  | brelse (i : Nat)
  | bflush (dev : Int)

/-- The process holds the buffer. -/
def Cache.held (c : Cache α) (i : Nat) : Bool := i < c.nbuf && (c.buf i).flags.busy

/-- The process holds the buffer, and it stands for a block. -/
def Cache.heldBlock (c : Cache α) (i : Nat) : Bool := c.held i && !(c.buf i).flags.inval

/-- Release a held buffer by writing it out one way or the other. -/
def System.storeBy (sys : System α) (i : Nat) (data : α) (write : Cache α → Nat → Cache α) :
    Option (System α) :=
  if sys.cache.heldBlock i then
    some ⟨write (sys.cache.fill i data) i,
      store sys.stored (sys.cache.buf i).dev (sys.cache.buf i).blkno data⟩
  else none

/-- One call. -/
def System.step (tape : Int → Bool) (sys : System α) : Call α → Option (System α)
  | .bread dev blkno =>
      if dev = NODEV then none
      else (Bio.bread sys.cache dev blkno).map fun (_, c) => ⟨c, sys.stored⟩
  | .getblk dev blkno =>
      if dev = NODEV then none
      else (Bio.getblk sys.cache dev blkno).map fun (_, c) => ⟨c, sys.stored⟩
  | .geteblk => (Bio.geteblk sys.cache).map fun (_, c) => ⟨c, sys.stored⟩
  | .bwrite i data => sys.storeBy i data Bio.bwrite
  | .bawrite i data => sys.storeBy i data Bio.bawrite
  | .bdwrite i data => sys.storeBy i data (Bio.bdwrite tape)
  | .brelse i => if sys.cache.held i then some ⟨Bio.brelse sys.cache i, sys.stored⟩ else none
  | .bflush dev => some ⟨Bio.bflush sys.cache dev, sys.stored⟩

/-- A way of writing out that stores the contents keeps the system coherent. -/
theorem store_by_coherent {sys sys' : System α} {data : α} {write : Cache α → Nat → Cache α}
    (hstep : sys.storeBy i data write = some sys')
    (hwrite : i < sys.cache.nbuf → (sys.cache.buf i).flags.busy = true →
      (sys.cache.buf i).flags.inval = false →
      Coherent (write (sys.cache.fill i data) i)
        (store sys.stored (sys.cache.buf i).dev (sys.cache.buf i).blkno data)) :
    Coherent sys'.cache sys'.stored := by
  unfold System.storeBy at hstep
  split at hstep
  · rename_i hheld
    cases hstep
    simp only [Cache.heldBlock, Cache.held, Bool.and_eq_true, decide_eq_true_eq,
      Bool.not_eq_true'] at hheld
    exact hwrite hheld.1.1 hheld.1.2 hheld.2
  · cases hstep

/-- Every call keeps the system coherent. -/
theorem step_coherent {tape : Int → Bool} {sys sys' : System α} {call : Call α}
    (h : Coherent sys.cache sys.stored) (hstep : sys.step tape call = some sys') :
    Coherent sys'.cache sys'.stored := by
  cases call with
  | bread dev blkno =>
      simp only [System.step] at hstep
      split at hstep
      · cases hstep
      · rename_i hdev
        obtain ⟨⟨i, c⟩, hread, rfl⟩ := Option.map_eq_some_iff.mp hstep
        exact (bread_got h hdev hread).1.coherent
  | getblk dev blkno =>
      simp only [System.step] at hstep
      split at hstep
      · cases hstep
      · rename_i hdev
        obtain ⟨⟨i, c⟩, hget, rfl⟩ := Option.map_eq_some_iff.mp hstep
        exact (getblk_got h hdev hget).coherent
  | geteblk =>
      obtain ⟨⟨i, c⟩, hget, rfl⟩ := Option.map_eq_some_iff.mp hstep
      exact (geteblk_coherent h hget).1
  | bwrite i data =>
      refine store_by_coherent hstep fun hi hbusy hvalid => ?_
      have hasync := (h.agrees.quiet i hi).2.2
      have hwrite := h.bwrite_fill hi hbusy hvalid data false
      have hsame : ((sys.cache.fill i data).setFlags i fun flags =>
          { flags with async := false }) = sys.cache.fill i data := by
        simp only [Cache.setFlags, Cache.fill, Cache.modify, Function.update_self,
          Function.update_idem, ← hasync]
      rwa [hsame] at hwrite
  | bawrite i data =>
      exact store_by_coherent hstep fun hi hbusy hvalid => h.bwrite_fill hi hbusy hvalid data true
  | bdwrite i data =>
      exact store_by_coherent hstep fun hi hbusy hvalid =>
        h.bdwrite_fill tape hi hbusy hvalid data
  | brelse i =>
      simp only [System.step] at hstep
      split at hstep
      · rename_i hheld
        cases hstep
        simp only [Cache.held, Bool.and_eq_true, decide_eq_true_eq] at hheld
        exact h.brelse hheld.1 hheld.2
      · cases hstep
  | bflush dev =>
      cases hstep
      exact (bflush_flushed h dev).coherent

/-- The system `binit` sets up: nothing was stored since the disk was as it is. -/
def initialSystem (nbuf : Nat) (buf : Nat → Buf α) (disk : Int → Int → α) : System α :=
  ⟨binit nbuf buf disk, disk⟩

/-- The cache that `binit` sets up is coherent. -/
theorem initial_coherent (nbuf : Nat) (buf : Nat → Buf α) (disk : Int → Int → α) :
    Coherent (binit nbuf buf disk) disk := by
  obtain ⟨hnbuf, hdisk, hbufs⟩ := binit_spec nbuf buf disk
  refine ⟨?_, ?_⟩
  · rw [hnbuf]
    exact linked_binit nbuf buf disk
  · rw [hnbuf, hdisk]
    refine ⟨?_, ?_, ?_, ?_, ?_, fun _ _ => Or.inl rfl⟩
    · intro i hi
      rw [(hbufs i hi).1]
      exact ⟨rfl, rfl, rfl⟩
    · intro i hi
      rw [(hbufs i hi).1, (hbufs i hi).2]
      simp
    · intro i hi _
      rw [(hbufs i hi).1]
      rfl
    · intro i j hi _ hv
      rw [(hbufs i hi).1] at hv
      cases hv
    · intro i hi hv
      rw [(hbufs i hi).1] at hv
      cases hv

/-- For every sequence of calls from the cache that `binit` sets up: `bread` returns the contents
stored last in the block, and does return when the buffer of the block is not held and some
buffer is free; after `bflush` the disk holds the contents stored last in every block of the
device whose buffer is not held; every buffer is on exactly one hash chain, and on exactly one
free list if and only if it is not busy. -/
theorem buffer_cache_run {tape : Int → Bool} {nbuf : Nat} {buf : Nat → Buf α}
    {disk : Int → Int → α} {calls : List (Call α)} {sys : System α}
    (hrun : Steps (Steps.Of (System.step tape)) (initialSystem nbuf buf disk) calls sys) :
    (∀ dev blkno i c, dev ≠ NODEV → bread sys.cache dev blkno = some (i, c) →
      (c.buf i).stands dev blkno = true ∧ (c.buf i).data = sys.stored dev blkno) ∧
    (∀ dev blkno,
      (∀ j, j < sys.cache.nbuf → (sys.cache.buf j).stands dev blkno = true →
        (sys.cache.buf j).flags.busy = false) →
      (∃ j, j < sys.cache.nbuf ∧ (sys.cache.buf j).flags.busy = false) →
      ∃ i c, bread sys.cache dev blkno = some (i, c)) ∧
    (∀ dev blkno,
      (∀ j, j < sys.cache.nbuf → (sys.cache.buf j).stands dev blkno = true →
        (sys.cache.buf j).flags.busy = false) →
      (bflush sys.cache dev).disk dev blkno = sys.stored dev blkno) ∧
    (∃ chains queues, Rings sys.cache.hash chains ∧ Rings sys.cache.avail queues ∧
      ∀ j, j < sys.cache.nbuf → (∃! chain, j ∈ chains chain) ∧
        ((sys.cache.buf j).flags.busy = false ↔ ∃! queue, j ∈ queues queue)) := by
  have h : Coherent sys.cache sys.stored := by
    refine hrun.invariant (fun sys => Coherent sys.cache sys.stored) ?_
      (initial_coherent nbuf buf disk)
    intro state call next hcoherent hstep
    exact step_coherent hcoherent hstep
  refine ⟨?_, ?_, ?_, ?_⟩
  · intro dev blkno i c hdev hread
    obtain ⟨hgot, hdata⟩ := bread_got h hdev hread
    exact ⟨hgot.stands, hdata⟩
  · intro dev blkno hblock hfree
    obtain ⟨i, c, hget⟩ := getblk_returns h hblock hfree
    unfold bread
    rw [hget]
    dsimp only
    split
    · exact ⟨i, c, rfl⟩
    · exact ⟨i, _, rfl⟩
  · intro dev blkno hblock
    exact bflush_disk h hblock
  · obtain ⟨chains, queues, hlinked, -⟩ := h.lists
    refine ⟨chains, queues, hlinked.hash, hlinked.avail, fun j hj => ⟨?_, ?_, ?_⟩⟩
    · obtain ⟨chain, hmem⟩ := (hlinked.chained j).mp hj
      exact ⟨chain, hmem, fun other hother => hlinked.hash.apart other chain j hother hmem⟩
    · intro hfree
      obtain ⟨queue, hmem⟩ := (hlinked.queued j).mp ⟨hj, hfree⟩
      exact ⟨queue, hmem, fun other hother => hlinked.avail.apart other queue j hother hmem⟩
    · rintro ⟨queue, hmem, -⟩
      exact ((hlinked.queued j).mpr ⟨queue, hmem⟩).2

/-- Three buffers with contents in `Nat`, and a disk full of zeros. -/
def threeBuffers : System Nat :=
  initialSystem 3 (fun _ => ⟨Flags.none, NODEV, 0, 0⟩) (fun _ _ => 0)

/-- Block 5 is written with delay, and then enough other blocks are read to use its buffer. -/
def recycling : List (Call Nat) :=
  [.getblk 0 5, .bdwrite 2 7, .bread 0 6, .brelse 1, .bread 0 7, .brelse 0, .bread 0 8, .brelse 1,
    .bread 0 9, .brelse 0, .bread 0 10, .brelse 2]

/-- What was stored in block 5 is read back after its buffer was recycled. -/
theorem buffer_cache_run_recycling :
    ∃ sys i c, Steps (Steps.Of (System.step fun _ => false)) threeBuffers recycling sys ∧
      bread sys.cache 0 5 = some (i, c) ∧ (c.buf i).data = sys.stored 0 5 ∧
      sys.stored 0 5 = 7 := by
  have hrun : (recycling.foldlM (System.step fun _ => false) threeBuffers).map (fun sys =>
      ((bread sys.cache 0 5).isSome, sys.stored 0 5)) = some (true, 7) := by decide +kernel
  obtain ⟨sys, hsys, hvalues⟩ := Option.map_eq_some_iff.mp hrun
  obtain ⟨hread, hstored⟩ := Prod.mk.inj hvalues
  obtain ⟨⟨i, c⟩, hread⟩ := Option.isSome_iff_exists.mp hread
  have hsteps := Steps.of_foldlM hsys
  refine ⟨sys, i, c, hsteps, hread, ?_, hstored⟩
  exact ((buffer_cache_run hsteps).1 0 5 i c (by decide) hread).2

/-- A delayed write whose buffer the process holds is not on a free list, so `bflush` does not
write it out. -/
theorem bflush_misses_held :
    ∃ sys, Steps (Steps.Of (System.step fun _ => false)) threeBuffers
        [.getblk 0 5, .bdwrite 2 7, .getblk 0 5] sys ∧
      (bflush sys.cache 0).disk 0 5 ≠ sys.stored 0 5 := by
  have hrun : ([Call.getblk 0 5, .bdwrite 2 7, .getblk 0 5].foldlM
      (System.step fun _ => false) threeBuffers).map (fun sys =>
        ((bflush sys.cache 0).disk 0 5, sys.stored 0 5)) = some (0, 7) := by decide +kernel
  obtain ⟨sys, hsys, hvalues⟩ := Option.map_eq_some_iff.mp hrun
  obtain ⟨hdisk, hstored⟩ := Prod.mk.inj hvalues
  refine ⟨sys, Steps.of_foldlM hsys, ?_⟩
  rw [hdisk, hstored]
  decide

end DiscoBsd.Bio
