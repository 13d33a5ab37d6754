import DiscoBsd.Lib.Steps
import DiscoBsd.Bio.Linked
import DiscoBsd.Bio.Cache

/-!
# Coherence of the buffer cache for one process

`stored dev blkno` is what was stored last in a block. `Agrees` relates it to the buffers and
the disk: a buffer with valid contents holds what was stored last, and so does the disk,
unless a delayed write of the block waits in a buffer. Every call keeps `Coherent`, the
agreement together with good lists, and `buffer_cache_run` reads the guarantees off for
every sequence of calls.
-/

namespace DiscoBsd.Bio

open Lib

variable {α : Type*}

/-- The blocks after one of them changed. -/
def store (blocks : Int → Int → α) (dev blkno : Int) (data : α) : Int → Int → α :=
  Function.update blocks dev (Function.update (blocks dev) blkno data)

@[simp] theorem store_self (blocks : Int → Int → α) (dev blkno : Int) (data : α) :
    store blocks dev blkno data dev blkno = data := by simp [store]

theorem store_of_ne (blocks : Int → Int → α) {dev blkno dev' blkno' : Int} (data : α)
    (h : ¬ (dev' = dev ∧ blkno' = blkno)) :
    store blocks dev blkno data dev' blkno' = blocks dev' blkno' := by
  by_cases hdev : dev' = dev
  · subst hdev
    have hblkno : blkno' ≠ blkno := fun heq => h ⟨rfl, heq⟩
    simp [store, hblkno]
  · simp [store, hdev]

theorem store_same (blocks : Int → Int → α) (dev blkno : Int) :
    store blocks dev blkno (blocks dev blkno) = blocks := by
  simp [store]

/-- The buffers and the disk agree with what was stored last. -/
structure Agrees (n : Nat) (buf : Nat → Buf α) (disk stored : Int → Int → α) : Prop where
  quiet : ∀ i, i < n → (buf i).flags.error = false ∧ (buf i).flags.locked = false ∧
    (buf i).flags.async = false
  nodev : ∀ i, i < n → ((buf i).flags.inval = false ↔ (buf i).dev ≠ NODEV)
  clean : ∀ i, i < n → (buf i).flags.inval = true → (buf i).flags.delwri = false
  unique : ∀ i j, i < n → j < n → (buf i).flags.inval = false → (buf j).flags.inval = false →
    (buf i).dev = (buf j).dev → (buf i).blkno = (buf j).blkno → i = j
  data : ∀ i, i < n → (buf i).flags.inval = false →
    ((buf i).flags.done || (buf i).flags.delwri) = true →
    (buf i).data = stored (buf i).dev (buf i).blkno
  disk : ∀ dev blkno, disk dev blkno = stored dev blkno ∨
    ∃ i, i < n ∧ (buf i).stands dev blkno = true ∧ (buf i).flags.delwri = true

/-- A cache with good lists that agrees with what was stored last. -/
structure Coherent (c : Cache α) (stored : Int → Int → α) : Prop where
  lists : ∃ chains queues, Linked c.nbuf c chains queues ∧ queues .locked = []
  agrees : Agrees c.nbuf c.buf c.disk stored

/-! ## Changing one buffer -/

section Agreement

variable {n : Nat} {buf : Nat → Buf α} {disk stored : Int → Int → α} {i : Nat} {bp : Buf α}

/-- A buffer keeps its identity. -/
def SameBlock (bp bp' : Buf α) : Prop :=
  bp'.flags.inval = bp.flags.inval ∧ bp'.dev = bp.dev ∧ bp'.blkno = bp.blkno

/-- No error, not locked, no transfer under way. -/
def Quiet (flags : Flags) : Prop :=
  flags.error = false ∧ flags.locked = false ∧ flags.async = false

theorem SameBlock.stands_eq {bp bp' : Buf α} (h : SameBlock bp bp') (dev blkno : Int) :
    bp'.stands dev blkno = bp.stands dev blkno := by
  obtain ⟨hinval, hdev, hblkno⟩ := h
  simp [Buf.stands, hinval, hdev, hblkno]

/-- The general rule for a buffer that keeps its identity: it has to agree with the new contents of
its block, and the disk may change there only. -/
theorem Agrees.update {disk' stored' : Int → Int → α} (h : Agrees n buf disk stored)
    (hsame : SameBlock (buf i) bp) (hquiet : Quiet bp.flags)
    (hclean : bp.flags.inval = true → bp.flags.delwri = false)
    (hdata : bp.flags.inval = false → (bp.flags.done || bp.flags.delwri) = true →
      bp.data = stored' bp.dev bp.blkno)
    (hother : ∀ dev blkno, bp.stands dev blkno = false →
      stored' dev blkno = stored dev blkno ∧ disk' dev blkno = disk dev blkno)
    (hself : bp.flags.inval = false → bp.flags.delwri = false →
      disk' bp.dev bp.blkno = stored' bp.dev bp.blkno)
    (hi : i < n) :
    Agrees n (Function.update buf i bp) disk' stored' := by
  obtain ⟨hinval, hdev, hblkno⟩ := hsame
  -- a second buffer stands for another block
  have hapart : ∀ j, j < n → j ≠ i → (buf j).flags.inval = false →
      bp.stands (buf j).dev (buf j).blkno = false := by
    intro j hj hne hvalid
    by_contra hstands
    rw [Bool.not_eq_false] at hstands
    obtain ⟨hb, hd, hv⟩ := stands_iff.mp hstands
    refine hne (h.unique j i hj hi hvalid (hinval ▸ hv) ?_ ?_)
    · rw [← hd, hdev]
    · rw [← hb, hblkno]
  refine ⟨?_, ?_, ?_, ?_, ?_, ?_⟩
  · intro j hj
    by_cases heq : j = i
    · subst heq
      rw [Function.update_self]
      exact hquiet
    · rw [Function.update_of_ne heq]
      exact h.quiet j hj
  · intro j hj
    by_cases heq : j = i
    · subst heq
      rw [Function.update_self, hinval, hdev]
      exact h.nodev j hj
    · rw [Function.update_of_ne heq]
      exact h.nodev j hj
  · intro j hj
    by_cases heq : j = i
    · subst heq
      rw [Function.update_self]
      exact hclean
    · rw [Function.update_of_ne heq]
      exact h.clean j hj
  · intro j k hj hk hvj hvk hjdev hjblkno
    have hkey : ∀ j, (Function.update buf i bp j).flags.inval = (buf j).flags.inval ∧
        (Function.update buf i bp j).dev = (buf j).dev ∧
        (Function.update buf i bp j).blkno = (buf j).blkno := by
      intro j
      by_cases heq : j = i
      · subst heq
        rw [Function.update_self]
        exact ⟨hinval, hdev, hblkno⟩
      · rw [Function.update_of_ne heq]
        exact ⟨rfl, rfl, rfl⟩
    rw [(hkey j).1] at hvj
    rw [(hkey k).1] at hvk
    rw [(hkey j).2.1, (hkey k).2.1] at hjdev
    rw [(hkey j).2.2, (hkey k).2.2] at hjblkno
    exact h.unique j k hj hk hvj hvk hjdev hjblkno
  · intro j hj hvalid hdone
    by_cases heq : j = i
    · subst heq
      rw [Function.update_self] at hvalid hdone ⊢
      exact hdata hvalid hdone
    · rw [Function.update_of_ne heq] at hvalid hdone ⊢
      rw [(hother _ _ (hapart j hj heq hvalid)).1]
      exact h.data j hj hvalid hdone
  · intro dev blkno
    by_cases hstands : bp.stands dev blkno = true
    · obtain ⟨rfl, rfl, hvalid⟩ := stands_iff.mp hstands
      by_cases hdelwri : bp.flags.delwri = true
      · exact Or.inr ⟨i, hi, by rwa [Function.update_self], by rwa [Function.update_self]⟩
      · exact Or.inl (hself hvalid (by simpa using hdelwri))
    · rw [Bool.not_eq_true] at hstands
      obtain ⟨hst, hdi⟩ := hother dev blkno hstands
      rcases h.disk dev blkno with heq | ⟨j, hj, hjstands, hjdelwri⟩
      · exact Or.inl (by rw [hst, hdi, heq])
      · have hne : j ≠ i := by
          rintro rfl
          rw [← SameBlock.stands_eq ⟨hinval, hdev, hblkno⟩, hstands] at hjstands
          cases hjstands
        refine Or.inr ⟨j, hj, ?_, ?_⟩ <;> rwa [Function.update_of_ne hne]

/-- The disk holds what was stored last in a block with a buffer that is not a delayed write. -/
theorem Agrees.disk_of_clean (h : Agrees n buf disk stored) (hi : i < n)
    (hvalid : (buf i).flags.inval = false) (hdelwri : (buf i).flags.delwri = false) :
    disk (buf i).dev (buf i).blkno = stored (buf i).dev (buf i).blkno := by
  rcases h.disk (buf i).dev (buf i).blkno with heq | ⟨j, hj, hstands, hjdelwri⟩
  · exact heq
  · obtain ⟨hblkno, hdev, hjvalid⟩ := stands_iff.mp hstands
    have : j = i := h.unique j i hj hi hjvalid hvalid hdev hblkno
    subst this
    rw [hdelwri] at hjdelwri
    cases hjdelwri

/-- Flags that do not say what a buffer holds may change. -/
theorem Agrees.reflag (h : Agrees n buf disk stored) (hi : i < n)
    (hsame : SameBlock (buf i) bp) (hquiet : Quiet bp.flags) (hdata : bp.data = (buf i).data)
    (hdone : bp.flags.done = (buf i).flags.done)
    (hdelwri : bp.flags.delwri = (buf i).flags.delwri) :
    Agrees n (Function.update buf i bp) disk stored := by
  obtain ⟨hinval, hdev, hblkno⟩ := hsame
  refine h.update ⟨hinval, hdev, hblkno⟩ hquiet ?_ ?_ (fun _ _ _ => ⟨rfl, rfl⟩) ?_ hi
  · intro hv
    rw [hdelwri]
    exact h.clean i hi (hinval ▸ hv)
  · intro hv hd
    rw [hdata, hdev, hblkno]
    exact h.data i hi (hinval ▸ hv) (by rwa [hdone, hdelwri] at hd)
  · intro hv hd
    rw [hdev, hblkno]
    exact h.disk_of_clean hi (hinval ▸ hv) (by rwa [hdelwri] at hd)

/-- A buffer is written out. -/
theorem Agrees.write (h : Agrees n buf disk stored) (hi : i < n)
    (hvalid : (buf i).flags.inval = false) (hsame : SameBlock (buf i) bp)
    (hquiet : Quiet bp.flags) (hdelwri : bp.flags.delwri = false) :
    Agrees n (Function.update buf i bp) (store disk (buf i).dev (buf i).blkno bp.data)
      (store stored (buf i).dev (buf i).blkno bp.data) := by
  obtain ⟨hinval, hdev, hblkno⟩ := hsame
  refine h.update ⟨hinval, hdev, hblkno⟩ hquiet (fun _ => hdelwri) ?_ ?_ ?_ hi
  · intro _ _
    rw [hdev, hblkno, store_self]
  · intro dev blkno hstands
    have hother : ¬ (dev = (buf i).dev ∧ blkno = (buf i).blkno) := by
      rintro ⟨rfl, rfl⟩
      have : bp.stands (buf i).dev (buf i).blkno = true :=
        stands_iff.mpr ⟨hblkno, hdev, hinval.trans hvalid⟩
      rw [hstands] at this
      cases this
    exact ⟨store_of_ne _ _ hother, store_of_ne _ _ hother⟩
  · intro _ _
    rw [hdev, hblkno, store_self, store_self]

/-- A buffer with new contents is kept for a delayed write. -/
theorem Agrees.delay (h : Agrees n buf disk stored) (hi : i < n)
    (hvalid : (buf i).flags.inval = false) (hsame : SameBlock (buf i) bp)
    (hquiet : Quiet bp.flags) (hdelwri : bp.flags.delwri = true) :
    Agrees n (Function.update buf i bp) disk
      (store stored (buf i).dev (buf i).blkno bp.data) := by
  obtain ⟨hinval, hdev, hblkno⟩ := hsame
  refine h.update ⟨hinval, hdev, hblkno⟩ hquiet ?_ ?_ ?_ ?_ hi
  · intro hv
    rw [hinval, hvalid] at hv
    cases hv
  · intro _ _
    rw [hdev, hblkno, store_self]
  · intro dev blkno hstands
    refine ⟨store_of_ne _ _ ?_, rfl⟩
    rintro ⟨rfl, rfl⟩
    have : bp.stands (buf i).dev (buf i).blkno = true :=
      stands_iff.mpr ⟨hblkno, hdev, hinval.trans hvalid⟩
    rw [hstands] at this
    cases this
  · intro _ hd
    rw [hdelwri] at hd
    cases hd

/-- A block is read into a buffer. -/
theorem Agrees.readIn (h : Agrees n buf disk stored) (hi : i < n)
    (hvalid : (buf i).flags.inval = false) (hclean : (buf i).flags.delwri = false)
    (hsame : SameBlock (buf i) bp) (hquiet : Quiet bp.flags)
    (hdata : bp.data = disk (buf i).dev (buf i).blkno) (hdelwri : bp.flags.delwri = false) :
    Agrees n (Function.update buf i bp) disk stored := by
  obtain ⟨hinval, hdev, hblkno⟩ := hsame
  have hdisk := h.disk_of_clean hi hvalid hclean
  refine h.update ⟨hinval, hdev, hblkno⟩ hquiet (fun _ => hdelwri) ?_
    (fun _ _ _ => ⟨rfl, rfl⟩) ?_ hi
  · intro _ _
    rw [hdata, hdisk, hdev, hblkno]
  · intro _ _
    rw [hdev, hblkno, hdisk]

/-- A buffer that is not a delayed write is taken for another block, or for none. -/
theorem Agrees.reassign (h : Agrees n buf disk stored) (hclean : (buf i).flags.delwri = false)
    (hquiet : Quiet bp.flags) (hnodev : bp.flags.inval = false ↔ bp.dev ≠ NODEV)
    (hdone : bp.flags.done = false) (hdelwri : bp.flags.delwri = false)
    (hnew : bp.flags.inval = false → ∀ j, j < n → (buf j).stands bp.dev bp.blkno = false) :
    Agrees n (Function.update buf i bp) disk stored := by
  -- two buffers for one block: neither is the new one
  have hapart : ∀ j, j < n → bp.flags.inval = false → (buf j).flags.inval = false →
      ¬ (bp.dev = (buf j).dev ∧ bp.blkno = (buf j).blkno) := by
    rintro j hj hvalid hvj ⟨hd, hb⟩
    have hstands : (buf j).stands bp.dev bp.blkno = true := stands_iff.mpr ⟨hb.symm, hd.symm, hvj⟩
    rw [hnew hvalid j hj] at hstands
    cases hstands
  refine ⟨?_, ?_, ?_, ?_, ?_, ?_⟩
  · intro j hj
    by_cases heq : j = i
    · subst heq
      rw [Function.update_self]
      exact hquiet
    · rw [Function.update_of_ne heq]
      exact h.quiet j hj
  · intro j hj
    by_cases heq : j = i
    · subst heq
      rw [Function.update_self]
      exact hnodev
    · rw [Function.update_of_ne heq]
      exact h.nodev j hj
  · intro j hj
    by_cases heq : j = i
    · subst heq
      rw [Function.update_self]
      exact fun _ => hdelwri
    · rw [Function.update_of_ne heq]
      exact h.clean j hj
  · intro j k hj hk hvj hvk hd hb
    by_cases heq : j = i <;> by_cases heq' : k = i
    · rw [heq, heq']
    · subst heq
      rw [Function.update_self] at hvj hd hb
      rw [Function.update_of_ne heq'] at hvk hd hb
      exact absurd ⟨hd, hb⟩ (hapart k hk hvj hvk)
    · subst heq'
      rw [Function.update_self] at hvk hd hb
      rw [Function.update_of_ne heq] at hvj hd hb
      exact absurd ⟨hd.symm, hb.symm⟩ (hapart j hj hvk hvj)
    · rw [Function.update_of_ne heq] at hvj hd hb
      rw [Function.update_of_ne heq'] at hvk hd hb
      exact h.unique j k hj hk hvj hvk hd hb
  · intro j hj hvalid hd
    by_cases heq : j = i
    · subst heq
      rw [Function.update_self] at hd
      simp [hdone, hdelwri] at hd
    · rw [Function.update_of_ne heq] at hvalid hd ⊢
      exact h.data j hj hvalid hd
  · intro dev blkno
    rcases h.disk dev blkno with heq | ⟨j, hj, hstands, hjdelwri⟩
    · exact Or.inl heq
    · have hne : j ≠ i := by
        rintro rfl
        rw [hclean] at hjdelwri
        cases hjdelwri
      refine Or.inr ⟨j, hj, ?_, ?_⟩ <;> rwa [Function.update_of_ne hne]

end Agreement

/-! ## Taking and releasing buffers -/

section Calls

variable {c : Cache α} {stored : Int → Int → α} {i : Nat}

theorem notavail_buf (c : Cache α) (i : Nat) :
    (notavail c i).buf = Function.update c.buf i
      { c.buf i with flags := { (c.buf i).flags with busy := true } } := rfl

/-- A buffer on a free list can be taken off it. -/
theorem Coherent.notavail (h : Coherent c stored) (hi : i < c.nbuf)
    (hfree : (c.buf i).flags.busy = false) : Coherent (notavail c i) stored := by
  obtain ⟨chains, queues, hlinked, hlocked⟩ := h.lists
  obtain ⟨queue, hmem⟩ := (hlinked.queued i).mp ⟨hi, hfree⟩
  refine ⟨⟨chains, _, hlinked.notavail hmem, ?_⟩, ?_⟩
  · by_cases hq : queue = .locked
    · rw [hq, hlocked] at hmem
      cases hmem
    · rw [Function.update_of_ne (Ne.symm hq)]
      exact hlocked
  · have hquiet := h.agrees.quiet i hi
    rw [notavail_buf]
    exact h.agrees.reflag hi ⟨rfl, rfl, rfl⟩ hquiet rfl rfl rfl

/-- Flags that do not say where a buffer is or what it holds may change. -/
theorem Coherent.reflag (h : Coherent c stored) (hi : i < c.nbuf) {f : Flags → Flags}
    (hbusy : (f (c.buf i).flags).busy = (c.buf i).flags.busy)
    (hinval : (f (c.buf i).flags).inval = (c.buf i).flags.inval)
    (hdone : (f (c.buf i).flags).done = (c.buf i).flags.done)
    (hdelwri : (f (c.buf i).flags).delwri = (c.buf i).flags.delwri)
    (hquiet : Quiet (f (c.buf i).flags)) : Coherent (c.setFlags i f) stored := by
  obtain ⟨chains, queues, hlinked, hlocked⟩ := h.lists
  refine ⟨⟨chains, queues, ?_, hlocked⟩, ?_⟩
  · exact hlinked.modify i hbusy fun hv _ => ⟨hinval ▸ hv, rfl, rfl⟩
  · exact h.agrees.reflag hi ⟨hinval, rfl, rfl⟩ hquiet rfl hdone hdelwri

theorem Coherent.mark_age (h : Coherent c stored) (hi : i < c.nbuf) :
    Coherent (c.setFlags i fun flags => { flags with age := true }) stored :=
  h.reflag hi rfl rfl rfl rfl (h.agrees.quiet i hi)

/-- A buffer that is not locked is not released to `BQ_LOCKED`. -/
theorem release_queue_ne_locked {flags : Flags} (h : flags.locked = false) :
    (releaseQueue flags).1 ≠ .locked := by
  unfold releaseQueue
  rw [h]
  split
  · simp
  · split
    · contradiction
    · split <;> simp

/-- Releasing a busy buffer that keeps its identity: the lists are good again, and what is left to
show is that the released buffer agrees with what is stored. -/
theorem Coherent.finish {c' : Cache α} {bp : Buf α} {stored' : Int → Int → α}
    (h : Coherent c stored) (hi : i < c.nbuf) (hbusy : (c.buf i).flags.busy = true)
    (hnbuf : c'.nbuf = c.nbuf) (hhash : c'.hash = c.hash) (havail : c'.avail = c.avail)
    (hbuf : c'.buf = Function.update c.buf i bp) (hsame : SameBlock (c.buf i) bp)
    (hbusy' : bp.flags.busy = true) (herror : bp.flags.error = false)
    (hlocked' : bp.flags.locked = false)
    (hagrees : Agrees c.nbuf (Function.update c.buf i (released bp)) c'.disk stored') :
    Coherent (brelse c' i) stored' := by
  obtain ⟨chains, queues, hlinked, hlocked⟩ := h.lists
  obtain ⟨hinval, hdev, hblkno⟩ := hsame
  have hself : c'.buf i = bp := by rw [hbuf, Function.update_self]
  have hlinked' : Linked c'.nbuf c' chains queues := by
    have hmodified := hlinked.modify i (f := fun _ => bp) (hbusy'.trans hbusy.symm)
      fun hv _ => ⟨hinval ▸ hv, hdev, hblkno⟩
    refine ⟨?_, ?_, ?_, ?_, ?_⟩
    · rw [hhash]
      exact hmodified.hash
    · rw [havail]
      exact hmodified.avail
    · rw [hnbuf]
      exact hmodified.chained
    · rw [hnbuf, hbuf]
      exact hmodified.queued
    · rw [hnbuf, hbuf]
      exact hmodified.home
  obtain ⟨elems, hdone⟩ := hlinked'.brelse (hnbuf ▸ hi) (by rw [hself, hbusy'])
  have hnbuf' : (brelse c' i).nbuf = c'.nbuf := by rw [brelse_eq]
  refine ⟨⟨chains, _, hnbuf'.symm ▸ hdone, ?_⟩, ?_⟩
  · -- a buffer that is not locked goes to another queue
    have hqueue : (releaseQueue (forget (c'.buf i)).flags).1 ≠ .locked := by
      rw [hself]
      have hforget : forget bp = bp := by simp [forget, herror]
      rw [hforget]
      exact release_queue_ne_locked hlocked'
    rw [Function.update_of_ne (Ne.symm hqueue)]
    exact hlocked
  · have hbufs : (brelse c' i).buf = Function.update c.buf i (released bp) := by
      simp only [brelse_eq, hself]
      rw [hbuf, Function.update_idem]
    have hdisk : (brelse c' i).disk = c'.disk := by rw [brelse_eq]
    rw [hnbuf', hnbuf, hbufs, hdisk]
    exact hagrees

/-- The cache when the driver has written a buffer out. -/
def flushed (c : Cache α) (i : Nat) : Cache α :=
  { c with
    buf := Function.update c.buf i
      { c.buf i with flags := { writeFlags (c.buf i).flags with done := true } }
    disk := store c.disk (c.buf i).dev (c.buf i).blkno (c.buf i).data }

theorem strategy_write (c : Cache α) (i : Nat) :
    strategy (c.setFlags i writeFlags) i =
      if (c.buf i).flags.async then brelse (flushed c i) i
      else (flushed c i).setFlags i fun flags => { flags with wanted := false } := by
  simp [strategy, biodone, transfer, Cache.setFlags, Cache.modify, writeFlags, flushed, store]

/-- Writing a buffer out, whether the caller waits or not, stores its contents. -/
theorem Coherent.bwrite_fill (h : Coherent c stored) (hi : i < c.nbuf)
    (hbusy : (c.buf i).flags.busy = true) (hvalid : (c.buf i).flags.inval = false) (data : α)
    (async : Bool) :
    Coherent (bwrite ((c.fill i data).setFlags i fun flags => { flags with async := async }) i)
      (store stored (c.buf i).dev (c.buf i).blkno data) := by
  obtain ⟨herror, hlocked, -⟩ := h.agrees.quiet i hi
  unfold bwrite
  rw [strategy_write]
  cases async with
  | false =>
      simp only [Cache.fill, Cache.setFlags, Cache.modify, Function.update_self,
        Function.update_idem, flushed, Bool.false_eq_true, if_false]
      refine h.finish hi hbusy rfl rfl rfl rfl ⟨rfl, rfl, rfl⟩ hbusy rfl hlocked ?_
      exact h.agrees.write hi hvalid ⟨rfl, rfl, rfl⟩ ⟨rfl, hlocked, rfl⟩ rfl
  | true =>
      have hreleased : Coherent (brelse (flushed ((c.fill i data).setFlags i
          fun flags => { flags with async := true }) i) i)
          (store stored (c.buf i).dev (c.buf i).blkno data) := by
        simp only [Cache.fill, Cache.setFlags, Cache.modify, Function.update_self,
          Function.update_idem, flushed]
        refine h.finish hi hbusy rfl rfl rfl rfl ⟨rfl, rfl, rfl⟩ hbusy rfl hlocked ?_
        exact h.agrees.write hi hvalid ⟨rfl, rfl, rfl⟩ ⟨rfl, hlocked, rfl⟩ rfl
      have hnbuf : (brelse (flushed ((c.fill i data).setFlags i
          fun flags => { flags with async := true }) i) i).nbuf = c.nbuf := by
        rw [brelse_eq]
        rfl
      simp only [Cache.fill, Cache.setFlags, modify_buf_self, if_true] at hreleased hnbuf ⊢
      split
      · exact hreleased.mark_age (hnbuf ▸ hi)
      · exact hreleased

/-- Releasing a buffer as it is. -/
theorem Coherent.brelse (h : Coherent c stored) (hi : i < c.nbuf)
    (hbusy : (c.buf i).flags.busy = true) : Coherent (brelse c i) stored := by
  obtain ⟨herror, hlocked, -⟩ := h.agrees.quiet i hi
  have hforget : forget (c.buf i) = c.buf i := by simp [forget, herror]
  refine h.finish hi hbusy rfl rfl rfl (Function.update_eq_self i c.buf).symm ⟨rfl, rfl, rfl⟩
    hbusy herror hlocked ?_
  refine h.agrees.reflag hi ?_ ?_ ?_ ?_ ?_ <;> simp only [released, hforget]
  · exact ⟨rfl, rfl, rfl⟩
  · exact ⟨herror, hlocked, rfl⟩

/-- A delayed write stores the contents of the buffer. -/
theorem Coherent.bdwrite_fill (tape : Int → Bool) (h : Coherent c stored) (hi : i < c.nbuf)
    (hbusy : (c.buf i).flags.busy = true) (hvalid : (c.buf i).flags.inval = false) (data : α) :
    Coherent (bdwrite tape (c.fill i data) i)
      (store stored (c.buf i).dev (c.buf i).blkno data) := by
  unfold bdwrite
  split
  · exact h.bwrite_fill hi hbusy hvalid data true
  · obtain ⟨herror, hlocked, -⟩ := h.agrees.quiet i hi
    simp only [Cache.fill, Cache.setFlags, Cache.modify, Function.update_self,
      Function.update_idem]
    refine h.finish hi hbusy rfl rfl rfl rfl ⟨rfl, rfl, rfl⟩ hbusy herror hlocked ?_
    have hreleased : released { c.buf i with
        flags := { (c.buf i).flags with delwri := true, done := true }, data := data } =
        { c.buf i with
          flags := { (c.buf i).flags with
            delwri := true, done := true, wanted := false, busy := false, async := false,
            age := false }
          data := data } := by
      simp [released, forget, herror]
    rw [hreleased]
    exact h.agrees.delay hi hvalid ⟨rfl, rfl, rfl⟩ ⟨herror, hlocked, rfl⟩ rfl

/-- What writing a buffer out does to the buffers: it leaves the others alone, and the buffer itself
free and clean, standing for the same block. -/
theorem bwrite_frame (c : Cache α) (i : Nat) :
    (bwrite c i).nbuf = c.nbuf ∧ (∀ j, j ≠ i → (bwrite c i).buf j = c.buf j) ∧
      SameBlock (c.buf i) ((bwrite c i).buf i) ∧ ((bwrite c i).buf i).flags.busy = false ∧
      ((bwrite c i).buf i).flags.delwri = false := by
  unfold bwrite
  rw [strategy_write]
  by_cases hasync : (c.buf i).flags.async = true
  · simp only [hasync, if_true]
    split <;> refine ⟨?_, ?_, ?_, ?_, ?_⟩ <;>
      simp_all [brelse_eq, flushed, released, forget, writeFlags, SameBlock, Cache.setFlags]
  · simp only [hasync, Bool.false_eq_true, if_false]
    refine ⟨?_, ?_, ?_, ?_, ?_⟩ <;>
      simp_all [brelse_eq, flushed, released, forget, writeFlags, SameBlock, Cache.setFlags]

/-- Writing out a delayed write stores nothing new. -/
theorem Coherent.push (h : Coherent c stored) (hi : i < c.nbuf)
    (hbusy : (c.buf i).flags.busy = true) (hdelwri : (c.buf i).flags.delwri = true) :
    Coherent (bawrite c i) stored := by
  have hvalid : (c.buf i).flags.inval = false := by
    by_contra hinval
    have := h.agrees.clean i hi (by simpa using hinval)
    simp [hdelwri] at this
  have hdata := h.agrees.data i hi hvalid (by simp [hdelwri])
  have hfill : c.fill i (c.buf i).data = c := by
    simp [Cache.fill, Cache.modify]
  have hwrite := h.bwrite_fill hi hbusy hvalid (c.buf i).data true
  rw [hfill] at hwrite
  rwa [hdata, store_same] at hwrite

/-! ## Finding a buffer -/

/-- With no victim the two queues `getnewbuf` looks at are empty. -/
theorem victim_none {n : Nat} {chains : Chain → List Nat} {queues : Queue → List Nat}
    (h : Linked n c chains queues) (hvictim : victim c = none) :
    queues .age = [] ∧ queues .lru = [] := by
  have hempty : ∀ queue head, c.avail.forw (.inl queue) = .inl head → queues queue = [] := by
    intro queue head hforw
    have hpath := h.avail.path queue
    cases hlist : queues queue with
    | nil => rfl
    | cons first rest =>
        rw [hlist] at hpath
        rw [hpath.1.1] at hforw
        cases hforw
  unfold victim at hvictim
  split at hvictim
  · cases hvictim
  · rename_i head hage
    split at hvictim
    · cases hvictim
    · rename_i head' hlru
      exact ⟨hempty .age head hage, hempty .lru head' hlru⟩

theorem Coherent.victim_free (h : Coherent c stored) (hvictim : victim c = some i) :
    i < c.nbuf ∧ (c.buf i).flags.busy = false := by
  obtain ⟨chains, queues, hlinked, -⟩ := h.lists
  exact (hlinked.queued i).mpr (victim_some hlinked hvictim)

/-- The delayed writes on the free lists. -/
def delayed (c : Cache α) : Finset Nat :=
  (Finset.range c.nbuf).filter fun j =>
    (c.buf j).flags.busy = false ∧ (c.buf j).flags.delwri = true

/-- Writing out a delayed write leaves one less, and its buffer free. -/
theorem delayed_push (hi : i < c.nbuf) (hbusy : (c.buf i).flags.busy = false)
    (hdelwri : (c.buf i).flags.delwri = true) :
    delayed (bawrite (notavail c i) i) = (delayed c).erase i := by
  obtain ⟨hnbuf, hothers, -, -, hclean⟩ := bwrite_frame
    ((notavail c i).setFlags i fun flags => { flags with async := true }) i
  ext j
  simp only [delayed, Finset.mem_filter, Finset.mem_range, Finset.mem_erase, bawrite, hnbuf]
  by_cases heq : j = i
  · subst heq
    simp [hclean]
  · rw [hothers j heq]
    simp [heq, notavail, Cache.setFlags]

/-- What `getnewbuf` returns. -/
structure Found (c : Cache α) (stored : Int → Int → α) (i : Nat) (c' : Cache α) : Prop where
  coherent : Coherent c' stored
  nbuf : c'.nbuf = c.nbuf
  lt : i < c.nbuf
  busy : (c'.buf i).flags.busy = true
  clean : (c'.buf i).flags.delwri = false
  same : ∀ j, SameBlock (c.buf j) (c'.buf j)

/-- Writing out the victim keeps the identity of every buffer. -/
theorem push_same (c : Cache α) (i j : Nat) :
    SameBlock (c.buf j) ((bawrite (notavail c i) i).buf j) := by
  obtain ⟨-, hothers, hsame, -, -⟩ := bwrite_frame
    ((notavail c i).setFlags i fun flags => { flags with async := true }) i
  by_cases heq : j = i
  · subst heq
    simpa [SameBlock, bawrite, notavail, Cache.setFlags] using hsame
  · unfold bawrite
    rw [hothers j heq]
    simp [SameBlock, notavail, Cache.setFlags, heq]

/-- `getnewbuf` finds a clean buffer and loses no delayed write. -/
theorem getnewbuf_found {fuel : Nat} {c' : Cache α} (h : Coherent c stored)
    (hget : getnewbuf fuel c = some (i, c')) : Found c stored i c' := by
  induction fuel generalizing c with
  | zero => cases hget
  | succ fuel ih =>
      rw [getnewbuf] at hget
      cases hvictim : victim c with
      | none =>
          rw [hvictim] at hget
          cases hget
      | some j =>
          obtain ⟨hj, hfree⟩ := h.victim_free hvictim
          have htaken := h.notavail hj hfree
          rw [hvictim] at hget
          dsimp only at hget
          split at hget
          · rename_i hdelwri
            have hpushed := htaken.push hj (by simp [notavail, Cache.setFlags]) hdelwri
            have hnbuf : (bawrite (notavail c j) j).nbuf = c.nbuf := (bwrite_frame _ j).1
            obtain ⟨hcoherent, hn, hlt, hbusy, hclean, hsame⟩ := ih hpushed hget
            refine ⟨hcoherent, hn.trans hnbuf, hnbuf ▸ hlt, hbusy, hclean, fun k => ?_⟩
            obtain ⟨h1, h2, h3⟩ := push_same c j k
            obtain ⟨h4, h5, h6⟩ := hsame k
            exact ⟨h4.trans h1, h5.trans h2, h6.trans h3⟩
          · rename_i hclean
            injection hget with hget
            injection hget with hji hc'
            subst hji hc'
            refine ⟨htaken, rfl, hj, by simp [notavail, Cache.setFlags], by simpa using hclean, ?_⟩
            intro k
            by_cases heq : k = j
            · subst heq
              simp [SameBlock, notavail, Cache.setFlags]
            · simp [SameBlock, notavail, Cache.setFlags, heq]

/-- `getnewbuf` returns when some buffer is free. -/
theorem getnewbuf_returns {fuel : Nat} (h : Coherent c stored) (hfuel : (delayed c).card < fuel)
    (hfree : ∃ j, j < c.nbuf ∧ (c.buf j).flags.busy = false) :
    ∃ i c', getnewbuf fuel c = some (i, c') := by
  induction fuel generalizing c with
  | zero => omega
  | succ fuel ih =>
      rw [getnewbuf]
      cases hvictim : victim c with
      | none =>
          obtain ⟨chains, queues, hlinked, hlocked⟩ := h.lists
          obtain ⟨hage, hlru⟩ := victim_none hlinked hvictim
          obtain ⟨j, hj⟩ := hfree
          obtain ⟨queue, hmem⟩ := (hlinked.queued j).mp hj
          cases queue <;> simp_all
      | some j =>
          obtain ⟨hj, hjfree⟩ := h.victim_free hvictim
          have htaken := h.notavail hj hjfree
          dsimp only
          split
          · rename_i hdelwri
            have hpushed := htaken.push hj (by simp [notavail, Cache.setFlags]) hdelwri
            have hdelwri' : (c.buf j).flags.delwri = true := by
              simpa [notavail, Cache.setFlags] using hdelwri
            obtain ⟨hnbuf, -, -, hnotBusy, -⟩ := bwrite_frame
              ((notavail c j).setFlags j fun flags => { flags with async := true }) j
            refine ih hpushed ?_ ⟨j, ?_, hnotBusy⟩
            · have hmem : j ∈ delayed c := by simp [delayed, hj, hjfree, hdelwri']
              have hpos := Finset.card_pos.mpr ⟨j, hmem⟩
              rw [delayed_push hj hjfree hdelwri', Finset.card_erase_of_mem hmem]
              omega
            · show j < (bawrite (notavail c j) j).nbuf
              rw [bawrite, hnbuf]
              exact hj
          · exact ⟨j, _, rfl⟩

theorem card_delayed_le (c : Cache α) : (delayed c).card ≤ c.nbuf := by
  have hcard := Finset.card_filter_le (Finset.range c.nbuf)
    fun j => (c.buf j).flags.busy = false ∧ (c.buf j).flags.delwri = true
  rwa [Finset.card_range] at hcard

/-- The buffer of a block as `getblk` and `bread` return it. -/
structure Got (c : Cache α) (stored : Int → Int → α) (dev blkno : Int) (i : Nat) (c' : Cache α) :
    Prop where
  coherent : Coherent c' stored
  nbuf : c'.nbuf = c.nbuf
  lt : i < c.nbuf
  busy : (c'.buf i).flags.busy = true
  stands : (c'.buf i).stands dev blkno = true

/-- `getblk` returns a busy buffer that stands for the block. -/
theorem getblk_got {c' : Cache α} {dev blkno : Int} (h : Coherent c stored) (hdev : dev ≠ NODEV)
    (hget : getblk c dev blkno = some (i, c')) : Got c stored dev blkno i c' := by
  obtain ⟨chains, queues, hlinked, -⟩ := h.lists
  unfold getblk at hget
  cases hsearch : search c dev blkno with
  | some j =>
      obtain ⟨hj, hstands⟩ := search_some hlinked hsearch
      rw [hsearch] at hget
      dsimp only at hget
      split at hget
      · cases hget
      · rename_i hfree
        injection hget with hget
        injection hget with hji hc'
        subst hji hc'
        refine ⟨h.notavail hj (by simpa using hfree), rfl, hj, by simp [notavail, Cache.setFlags], ?_⟩
        simpa [Buf.stands, notavail, Cache.setFlags] using hstands
  | none =>
      rw [hsearch] at hget
      dsimp only at hget
      split at hget
      · cases hget
      · rename_i j d hnew
        injection hget with hget
        injection hget with hji hc'
        subst hji hc'
        obtain ⟨hcoherent, hnbuf, hlt, hbusy, hclean, hsame⟩ := getnewbuf_found h hnew
        -- no buffer stood for the block, and `getnewbuf` changed no identity
        have habsent : ∀ k, k < d.nbuf → (d.buf k).stands dev blkno = false := by
          intro k hk
          rw [(hsame k).stands_eq]
          exact search_none hlinked hdev hsearch (hnbuf ▸ hk)
        obtain ⟨chains', queues', hlinked', hlocked'⟩ := hcoherent.lists
        obtain ⟨chains'', hassigned⟩ := hlinked'.assign (hnbuf ▸ hlt) hbusy dev blkno
        refine ⟨⟨⟨chains'', queues', hassigned, hlocked'⟩, ?_⟩, hnbuf, hlt, ?_, ?_⟩
        · refine hcoherent.agrees.reassign hclean ⟨rfl, rfl, rfl⟩ ?_ rfl rfl fun _ => habsent
          simp [Flags.none, hdev]
        · simp [assign]
        · simp [assign, Buf.stands, Flags.none]

/-- `getblk` returns when the buffer of the block is not busy and some buffer is free. -/
theorem getblk_returns {dev blkno : Int} (h : Coherent c stored)
    (hblock : ∀ j, j < c.nbuf → (c.buf j).stands dev blkno = true → (c.buf j).flags.busy = false)
    (hfree : ∃ j, j < c.nbuf ∧ (c.buf j).flags.busy = false) :
    ∃ i c', getblk c dev blkno = some (i, c') := by
  obtain ⟨chains, queues, hlinked, -⟩ := h.lists
  unfold getblk
  cases hsearch : search c dev blkno with
  | some j =>
      obtain ⟨hj, hstands⟩ := search_some hlinked hsearch
      exact ⟨j, notavail c j, by simp [hblock j hj hstands]⟩
  | none =>
      obtain ⟨j, d, hnew⟩ := getnewbuf_returns h
        (Nat.lt_succ_of_le (card_delayed_le c)) hfree
      exact ⟨j, assign d j dev blkno, by simp [hnew]⟩

/-- `bread` returns a busy buffer that stands for the block and holds what was stored last. -/
theorem bread_got {c' : Cache α} {dev blkno : Int} (h : Coherent c stored) (hdev : dev ≠ NODEV)
    (hread : bread c dev blkno = some (i, c')) :
    Got c stored dev blkno i c' ∧ (c'.buf i).data = stored dev blkno := by
  unfold bread at hread
  cases hget : getblk c dev blkno with
  | none =>
      rw [hget] at hread
      cases hread
  | some got =>
      obtain ⟨j, d⟩ := got
      obtain ⟨hcoherent, hnbuf, hlt, hbusy, hstands⟩ := getblk_got h hdev hget
      obtain ⟨rfl, rfl, hvalid⟩ := stands_iff.mp hstands
      have hj : j < d.nbuf := hnbuf ▸ hlt
      rw [hget] at hread
      dsimp only at hread
      split at hread
      · rename_i hdone
        injection hread with hread
        injection hread with hji hc'
        subst hji hc'
        exact ⟨⟨hcoherent, hnbuf, hlt, hbusy, hstands⟩, hcoherent.agrees.data j hj hvalid hdone⟩
      · rename_i hempty
        injection hread with hread
        injection hread with hji hc'
        subst hji
        obtain ⟨herror, hlocked, hasync⟩ := hcoherent.agrees.quiet j hj
        have hclean : (d.buf j).flags.delwri = false := by
          simp only [Bool.or_eq_true, not_or, Bool.not_eq_true] at hempty
          exact hempty.2
        -- the driver reads the block and reports back before it returns
        have hstrategy : strategy (d.setFlags j fun flags => { flags with read := true }) j =
            d.modify j fun bp =>
              { bp with
                flags := { bp.flags with read := true, done := true, wanted := false }
                data := d.disk bp.dev bp.blkno } := by
          simp [strategy, biodone, transfer, Cache.setFlags, Cache.modify, hasync]
        rw [hstrategy] at hc'
        subst hc'
        obtain ⟨chains, queues, hlinked, hqueue⟩ := hcoherent.lists
        have hdisk := hcoherent.agrees.disk_of_clean hj hvalid hclean
        refine ⟨⟨⟨⟨chains, queues, ?_, hqueue⟩, ?_⟩, hnbuf, hlt, ?_, ?_⟩, ?_⟩
        · exact hlinked.modify j rfl fun hv _ => ⟨hv, rfl, rfl⟩
        · exact hcoherent.agrees.readIn hj hvalid hclean ⟨rfl, rfl, rfl⟩
            ⟨herror, hlocked, hasync⟩ rfl hclean
        · simpa using hbusy
        · simpa [Buf.stands] using hvalid
        · simpa using hdisk

/-- `geteblk` keeps the cache coherent. -/
theorem geteblk_coherent {c' : Cache α} (h : Coherent c stored)
    (hget : geteblk c = some (i, c')) : Coherent c' stored ∧ c'.nbuf = c.nbuf := by
  unfold geteblk at hget
  split at hget
  · cases hget
  · rename_i j d hnew
    injection hget with hget
    injection hget with hji hc'
    subst hji hc'
    obtain ⟨hcoherent, hnbuf, hlt, hbusy, hclean, -⟩ := getnewbuf_found h hnew
    obtain ⟨chains, queues, hlinked, hlocked⟩ := hcoherent.lists
    obtain ⟨chains', hassigned⟩ := hlinked.assign_empty (hnbuf ▸ hlt) hbusy
    refine ⟨⟨⟨chains', queues, hassigned, hlocked⟩, ?_⟩, hnbuf⟩
    refine hcoherent.agrees.reassign hclean ⟨rfl, rfl, rfl⟩ ?_ rfl rfl fun hv => ?_
    · simp
    · cases hv

end Calls

end DiscoBsd.Bio
