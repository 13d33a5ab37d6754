import DiscoBsd.Bio.Interleave

/-!
# One buffer for a block

The invariant has two halves. `Locks` says who has which buffer: a buffer that a process or a
driver has is busy and off the free lists, and no two have the same one, so every release
finds the lists in order. `Names` says which buffers stand for which blocks: one at most for
a block of a device, none for a block that a process has missed and not yet entered, and no
two processes have missed the same block. A miss while another process is in the window is
the only step that can break it; `one_buffer_run` is about the runs without such steps.
-/

namespace DiscoBsd.Bio

open Lib

variable {α : Type*}

/-- The buffers a process has: those it was given, and the one it waits for in `biowait`. -/
def Proc.owned (proc : Proc) : List Nat :=
  match proc.control with
  | .biowait i _ | .wokenIo i _ => i :: proc.held
  | _ => proc.held

/-- The device of the block a process is asking for. -/
def Control.wants : Control → Option Int
  | .searching dev _ _ | .sleepBuf dev _ _ _ | .wokenBuf dev _ _ => some dev
  | .newbuf (.block dev _ _) | .sleepFree (.block dev _ _) | .wokenFree (.block dev _ _) => some dev
  | _ => none

/-- Two processes that have the same buffers and ask for the same block. -/
structure Proc.Alike (proc other : Proc) : Prop where
  owned : proc.owned = other.owned
  held : proc.held = other.held
  wants : proc.control.wants = other.control.wants
  window : proc.control.window = other.control.window

/-- A wakeup of the sleepers on a buffer changes no process in these respects. -/
theorem alike_wakeBuf (proc : Proc) (i : Nat) :
    ({ proc with control := proc.control.wakeBuf i } : Proc).Alike proc := by
  obtain ⟨control, held⟩ := proc
  cases control with
  | sleepBuf dev blkno read j =>
      show Proc.Alike ⟨if j = i then .wokenBuf dev blkno read else .sleepBuf dev blkno read j, held⟩ _
      split <;> exact ⟨rfl, rfl, rfl, rfl⟩
  | biowait j write =>
      show Proc.Alike ⟨if j = i then .wokenIo j write else .biowait j write, held⟩ _
      split <;> exact ⟨rfl, rfl, rfl, rfl⟩
  | _ => exact ⟨rfl, rfl, rfl, rfl⟩

theorem alike_wakeFree (proc : Proc) :
    ({ proc with control := proc.control.wakeFree } : Proc).Alike proc := by
  obtain ⟨control, held⟩ := proc
  cases control with
  | sleepFree want => cases want <;> exact ⟨rfl, rfl, rfl, rfl⟩
  | _ => exact ⟨rfl, rfl, rfl, rfl⟩

/-! ## Who has which buffer -/

/-- The lists are good, and a buffer has at most one owner. -/
structure Locks (c : Cache α) (queue : List Nat) (procs : Nat → Proc) : Prop where
  linked : ∃ chains queues, Linked c.nbuf c chains queues
  queue_nodup : queue.Nodup
  owned_nodup : ∀ pid, (procs pid).owned.Nodup
  one : ∀ pid qid i, i ∈ (procs pid).owned → i ∈ (procs qid).owned → pid = qid
  owned : ∀ pid i, i ∈ (procs pid).owned → i < c.nbuf ∧ (c.buf i).flags.busy = true ∧
    (c.buf i).flags.async = false
  queued : ∀ i, i ∈ queue → i < c.nbuf ∧ (c.buf i).flags.busy = true ∧
    (c.buf i).flags.done = false
  held : ∀ pid i, i ∈ (procs pid).held → i ∉ queue
  free : ∀ i, i < c.nbuf → (c.buf i).flags.busy = false → (c.buf i).flags.async = false

section Locks

variable {c : Cache α} {queue : List Nat} {procs : Nat → Proc} {i pid : Nat}

theorem Proc.mem_owned_of_held {proc : Proc} (h : i ∈ proc.held) : i ∈ proc.owned := by
  unfold Proc.owned
  split <;> simp [h]

theorem Locks.not_owned (h : Locks c queue procs) (hfree : (c.buf i).flags.busy = false)
    (pid : Nat) : i ∉ (procs pid).owned := by
  intro hmem
  have := (h.owned pid i hmem).2.1
  rw [hfree] at this
  cases this

theorem Locks.not_queued (h : Locks c queue procs) (hfree : (c.buf i).flags.busy = false) :
    i ∉ queue := by
  intro hmem
  have := (h.queued i hmem).2.1
  rw [hfree] at this
  cases this

/-- The buffers change at `i` only, and stay as busy as they were. -/
theorem Locks.change (i : Nat) {c' : Cache α} (h : Locks c queue procs) (hnbuf : c'.nbuf = c.nbuf)
    (hlinked : ∃ chains queues, Linked c'.nbuf c' chains queues)
    (hothers : ∀ j, j ≠ i → c'.buf j = c.buf j)
    (howned : ∀ pid, i ∈ (procs pid).owned → (c'.buf i).flags.busy = true ∧
      (c'.buf i).flags.async = false)
    (hqueued : i ∈ queue → (c'.buf i).flags.busy = true ∧ (c'.buf i).flags.done = false)
    (hfree : i < c.nbuf → (c'.buf i).flags.busy = false → (c'.buf i).flags.async = false) :
    Locks c' queue procs := by
  refine ⟨hlinked, h.queue_nodup, h.owned_nodup, h.one, ?_, ?_, h.held, ?_⟩
  · intro qid j hj
    obtain ⟨hlt, hflags⟩ := h.owned qid j hj
    by_cases heq : j = i
    · subst heq
      exact ⟨hnbuf ▸ hlt, howned qid hj⟩
    · rw [hothers j heq]
      exact ⟨hnbuf ▸ hlt, hflags⟩
  · intro j hj
    obtain ⟨hlt, hflags⟩ := h.queued j hj
    by_cases heq : j = i
    · subst heq
      exact ⟨hnbuf ▸ hlt, hqueued hj⟩
    · rw [hothers j heq]
      exact ⟨hnbuf ▸ hlt, hflags⟩
  · intro j hj hjfree
    by_cases heq : j = i
    · subst heq
      exact hfree (hnbuf ▸ hj) hjfree
    · rw [hothers j heq] at hjfree ⊢
      exact h.free j (hnbuf ▸ hj) hjfree

/-- Flags of a buffer change, but not whether it is busy or valid. -/
theorem Locks.setFlags {f : Flags → Flags} (h : Locks c queue procs)
    (hbusy : (f (c.buf i).flags).busy = (c.buf i).flags.busy)
    (hinval : (f (c.buf i).flags).inval = (c.buf i).flags.inval)
    (howned : ∀ pid, i ∈ (procs pid).owned → (f (c.buf i).flags).async = false)
    (hqueued : i ∈ queue → (f (c.buf i).flags).done = false)
    (hfree : i < c.nbuf → (c.buf i).flags.busy = false → (f (c.buf i).flags).async = false) :
    Locks (c.setFlags i f) queue procs := by
  obtain ⟨chains, queues, hlinked⟩ := h.linked
  have hself : ((c.setFlags i f).buf i).flags = f (c.buf i).flags := by simp [Cache.setFlags]
  refine h.change i rfl ⟨chains, queues, ?_⟩ (fun j hj => by simp [Cache.setFlags, hj]) ?_ ?_ ?_
  · exact hlinked.modify i hbusy fun hv _ => ⟨hinval ▸ hv, rfl, rfl⟩
  · intro qid hmem
    rw [hself]
    exact ⟨hbusy.trans (h.owned qid i hmem).2.1, howned qid hmem⟩
  · intro hmem
    rw [hself]
    exact ⟨hbusy.trans (h.queued i hmem).2.1, hqueued hmem⟩
  · rw [hself, hbusy]
    exact hfree

/-- A free buffer is taken off its list. -/
theorem Locks.notavail (h : Locks c queue procs) (hi : i < c.nbuf)
    (hfree : (c.buf i).flags.busy = false) : Locks (notavail c i) queue procs := by
  obtain ⟨chains, queues, hlinked⟩ := h.linked
  obtain ⟨q, hmem⟩ := (hlinked.queued i).mp ⟨hi, hfree⟩
  refine h.change i rfl ⟨chains, _, hlinked.notavail hmem⟩
    (fun j hj => by simp [Bio.notavail, Cache.setFlags, hj]) ?_ ?_ ?_
  · intro qid howned
    exact absurd howned (h.not_owned hfree qid)
  · intro hqueued
    exact absurd hqueued (h.not_queued hfree)
  · intro _ hbusy
    simp [Bio.notavail, Cache.setFlags] at hbusy

/-- A transfer changes the contents of a buffer or of the disk, and nothing else. -/
theorem transfer_spec (c : Cache α) (i : Nat) :
    (transfer c i).nbuf = c.nbuf ∧ (transfer c i).hash = c.hash ∧ (transfer c i).avail = c.avail ∧
      ∀ j, ((transfer c i).buf j).flags = (c.buf j).flags ∧
        ((transfer c i).buf j).dev = (c.buf j).dev ∧
        ((transfer c i).buf j).blkno = (c.buf j).blkno := by
  unfold transfer
  dsimp only
  split
  · refine ⟨rfl, rfl, rfl, fun j => ?_⟩
    by_cases heq : j = i
    · subst heq
      simp
    · simp [heq]
  · exact ⟨rfl, rfl, rfl, fun _ => ⟨rfl, rfl, rfl⟩⟩

/-- Nobody's buffer changes hands in a transfer. -/
theorem Locks.transfer (h : Locks c queue procs) (i : Nat) : Locks (transfer c i) queue procs := by
  obtain ⟨hnbuf, hhash, havail, hbufs⟩ := transfer_spec c i
  obtain ⟨chains, queues, hlinked⟩ := h.linked
  refine ⟨⟨chains, queues, ?_⟩, h.queue_nodup, h.owned_nodup, h.one, ?_, ?_, h.held, ?_⟩
  · refine ⟨hhash ▸ hlinked.hash, havail ▸ hlinked.avail, hnbuf ▸ hlinked.chained, ?_, ?_⟩
    · intro j
      rw [hnbuf, (hbufs j).1]
      exact hlinked.queued j
    · intro j
      rw [hnbuf, (hbufs j).1, (hbufs j).2.1, (hbufs j).2.2]
      exact hlinked.home j
  · intro qid j
    rw [hnbuf, (hbufs j).1]
    exact h.owned qid j
  · intro j
    rw [hnbuf, (hbufs j).1]
    exact h.queued j
  · intro j
    rw [hnbuf, (hbufs j).1]
    exact h.free j

/-- A busy buffer without owner is released. -/
theorem Locks.brelse (h : Locks c queue procs) (hi : i < c.nbuf)
    (hbusy : (c.buf i).flags.busy = true) (hqueue : i ∉ queue)
    (howned : ∀ pid, i ∉ (procs pid).owned) : Locks (brelse c i) queue procs := by
  obtain ⟨chains, queues, hlinked⟩ := h.linked
  obtain ⟨elems, hdone⟩ := hlinked.brelse hi hbusy
  have hnbuf : (Bio.brelse c i).nbuf = c.nbuf := by rw [brelse_eq]
  refine h.change i hnbuf ⟨chains, _, hnbuf ▸ hdone⟩ ?_ ?_ ?_ ?_
  · intro j hj
    simp [brelse_eq, hj]
  · intro qid hmem
    exact absurd hmem (howned qid)
  · intro hmem
    exact absurd hmem hqueue
  · intro _ _
    simp [brelse_eq, released]

/-- A busy buffer without owner is taken for another block, or for none. -/
theorem Locks.reassign {c' : Cache α} (h : Locks c queue procs) (hnbuf : c'.nbuf = c.nbuf)
    (hlinked : ∃ chains queues, Linked c'.nbuf c' chains queues)
    (hothers : ∀ j, j ≠ i → c'.buf j = c.buf j) (hbusy : (c'.buf i).flags.busy = true)
    (hqueue : i ∉ queue) (howned : ∀ pid, i ∉ (procs pid).owned) : Locks c' queue procs := by
  refine h.change i hnbuf hlinked hothers ?_ ?_ ?_
  · intro qid hmem
    exact absurd hmem (howned qid)
  · intro hmem
    exact absurd hmem hqueue
  · intro _ hfree
    rw [hbusy] at hfree
    cases hfree

/-- A busy buffer that no process was given goes into a driver's queue. -/
theorem Locks.enqueue (h : Locks c queue procs) (hi : i < c.nbuf)
    (hbusy : (c.buf i).flags.busy = true) (hdone : (c.buf i).flags.done = false)
    (hqueue : i ∉ queue) (hheld : ∀ pid, i ∉ (procs pid).held) :
    Locks c (i :: queue) procs := by
  refine ⟨h.linked, List.nodup_cons.mpr ⟨hqueue, h.queue_nodup⟩, h.owned_nodup, h.one, h.owned,
    ?_, ?_, h.free⟩
  · intro j hj
    rcases List.mem_cons.mp hj with rfl | hj
    · exact ⟨hi, hbusy, hdone⟩
    · exact h.queued j hj
  · intro qid j hj hmem
    rcases List.mem_cons.mp hmem with rfl | hmem
    · exact hheld qid hj
    · exact h.held qid j hj hmem

theorem Locks.dequeue (h : Locks c queue procs) : Locks c (queue.erase i) procs := by
  refine ⟨h.linked, h.queue_nodup.erase i, h.owned_nodup, h.one, h.owned, ?_, ?_, h.free⟩
  · intro j hj
    exact h.queued j (List.mem_of_mem_erase hj)
  · intro qid j hj hmem
    exact h.held qid j hj (List.mem_of_mem_erase hmem)

/-- One process changes. What it has now it had before, or nobody else has it. -/
theorem Locks.setProc {proc : Proc} (h : Locks c queue procs) (hnodup : proc.owned.Nodup)
    (howned : ∀ j, j ∈ proc.owned → j ∈ (procs pid).owned ∨
      j < c.nbuf ∧ (c.buf j).flags.busy = true ∧ (c.buf j).flags.async = false ∧
        ∀ qid, qid ≠ pid → j ∉ (procs qid).owned)
    (hheld : ∀ j, j ∈ proc.held → j ∉ queue) :
    Locks c queue (Function.update procs pid proc) := by
  have hothers : ∀ qid j, qid ≠ pid → j ∈ (procs qid).owned → j ∉ proc.owned := by
    intro qid j hne hj hmem
    rcases howned j hmem with hold | ⟨-, -, -, hnew⟩
    · exact hne (h.one qid pid j hj hold)
    · exact hnew qid hne hj
  refine ⟨h.linked, h.queue_nodup, ?_, ?_, ?_, h.queued, ?_, h.free⟩
  · intro qid
    by_cases heq : qid = pid
    · subst heq
      rwa [Function.update_self]
    · rw [Function.update_of_ne heq]
      exact h.owned_nodup qid
  · intro qid rid j hq hr
    by_cases heq : qid = pid <;> by_cases heq' : rid = pid
    · rw [heq, heq']
    · subst heq
      rw [Function.update_self] at hq
      rw [Function.update_of_ne heq'] at hr
      exact absurd hq (hothers rid j heq' hr)
    · subst heq'
      rw [Function.update_self] at hr
      rw [Function.update_of_ne heq] at hq
      exact absurd hr (hothers qid j heq hq)
    · rw [Function.update_of_ne heq] at hq
      rw [Function.update_of_ne heq'] at hr
      exact h.one qid rid j hq hr
  · intro qid j hq
    by_cases heq : qid = pid
    · subst heq
      rw [Function.update_self] at hq
      rcases howned j hq with hold | ⟨hlt, hbusy, hasync, -⟩
      · exact h.owned qid j hold
      · exact ⟨hlt, hbusy, hasync⟩
    · rw [Function.update_of_ne heq] at hq
      exact h.owned qid j hq
  · intro qid j hq
    by_cases heq : qid = pid
    · subst heq
      rw [Function.update_self] at hq
      exact hheld j hq
    · rw [Function.update_of_ne heq] at hq
      exact h.held qid j hq

/-- Processes that have the same buffers. -/
theorem Locks.congr {procs' : Nat → Proc} (h : Locks c queue procs)
    (hsame : ∀ pid, (procs' pid).Alike (procs pid)) : Locks c queue procs' := by
  refine ⟨h.linked, h.queue_nodup, ?_, ?_, ?_, h.queued, ?_, h.free⟩
  · intro qid
    rw [(hsame qid).owned]
    exact h.owned_nodup qid
  · intro qid rid j
    rw [(hsame qid).owned, (hsame rid).owned]
    exact h.one qid rid j
  · intro qid j
    rw [(hsame qid).owned]
    exact h.owned qid j
  · intro qid j
    rw [(hsame qid).held]
    exact h.held qid j

end Locks

/-! ## Which buffer stands for which block -/

/-- A block of a device has at most one buffer, one that was missed has none, and no two processes
have missed the same one. Without failed transfers no valid buffer is without device. -/
structure Names (c : Cache α) (procs : Nat → Proc) (failed : Bool) : Prop where
  devs : ∀ pid dev, (procs pid).control.wants = some dev → dev ≠ NODEV
  unique : ∀ dev blkno, dev ≠ NODEV → OneBuffer c dev blkno
  absent : ∀ pid dev blkno, (procs pid).control.window = some (dev, blkno) →
    ∀ i, i < c.nbuf → (c.buf i).stands dev blkno = false
  alone : ∀ pid qid key, (procs pid).control.window = some key →
    (procs qid).control.window = some key → pid = qid
  whole : failed = false → ∀ i, i < c.nbuf → (c.buf i).flags.error = false ∧
    ((c.buf i).flags.inval = false → (c.buf i).dev ≠ NODEV)

section Names

variable {c : Cache α} {procs : Nat → Proc} {failed : Bool} {i pid : Nat}

theorem Control.wants_of_window {control : Control} {dev blkno : Int}
    (h : control.window = some (dev, blkno)) : control.wants = some dev := by
  cases control with
  | newbuf want => cases want <;> simp_all [Control.window, Control.wants]
  | sleepFree want => cases want <;> simp_all [Control.window, Control.wants]
  | wokenFree want => cases want <;> simp_all [Control.window, Control.wants]
  | _ => cases h

/-- Buffers lose blocks but get no new ones. -/
theorem Names.fewer {c' : Cache α} {failed' : Bool} (h : Names c procs failed)
    (hnbuf : c'.nbuf = c.nbuf)
    (hfewer : ∀ j dev blkno, j < c.nbuf → dev ≠ NODEV → (c'.buf j).stands dev blkno = true →
      (c.buf j).stands dev blkno = true)
    (hwhole : failed' = false → ∀ j, j < c.nbuf → (c'.buf j).flags.error = false ∧
      ((c'.buf j).flags.inval = false → (c'.buf j).dev ≠ NODEV)) :
    Names c' procs failed' := by
  refine ⟨h.devs, ?_, ?_, h.alone, ?_⟩
  · intro dev blkno hdev j k hj hk hsj hsk
    rw [hnbuf] at hj hk
    exact h.unique dev blkno hdev j k hj hk (hfewer j dev blkno hj hdev hsj)
      (hfewer k dev blkno hk hdev hsk)
  · intro qid dev blkno hwindow j hj
    rw [hnbuf] at hj
    have hdev := h.devs qid dev (Control.wants_of_window hwindow)
    by_contra hstands
    rw [Bool.not_eq_false] at hstands
    have := hfewer j dev blkno hj hdev hstands
    rw [h.absent qid dev blkno hwindow j hj] at this
    cases this
  · rw [hnbuf]
    exact hwhole

/-- Flags that do not say whether a buffer is valid or in error change. -/
theorem Names.setFlags {f : Flags → Flags} (h : Names c procs failed)
    (hinval : (f (c.buf i).flags).inval = (c.buf i).flags.inval)
    (herror : failed = false → (c.buf i).flags.error = false → (f (c.buf i).flags).error = false) :
    Names (c.setFlags i f) procs failed := by
  refine h.fewer rfl ?_ ?_
  · intro j dev blkno _ _ hstands
    by_cases heq : j = i
    · subst heq
      simpa [Buf.stands, Cache.setFlags, hinval] using hstands
    · simpa [Cache.setFlags, heq] using hstands
  · intro hfailed j hj
    obtain ⟨he, hd⟩ := h.whole hfailed j hj
    by_cases heq : j = i
    · subst heq
      simp only [Cache.setFlags, modify_buf_self]
      exact ⟨herror hfailed he, fun hv => hd (hinval ▸ hv)⟩
    · simpa [Cache.setFlags, heq] using ⟨he, hd⟩

theorem Names.fail (h : Names c procs failed) (failed' : Bool) :
    Names c procs (failed || failed') := by
  refine ⟨h.devs, h.unique, h.absent, h.alone, fun hfailed => h.whole ?_⟩
  exact (Bool.or_eq_false_iff.mp hfailed).1

/-- A change that leaves flags and blocks alone. -/
theorem Names.same_bufs {c' : Cache α} (h : Names c procs failed) (hnbuf : c'.nbuf = c.nbuf)
    (hbufs : ∀ j, (c'.buf j).flags.inval = (c.buf j).flags.inval ∧
      (c'.buf j).flags.error = (c.buf j).flags.error ∧ (c'.buf j).dev = (c.buf j).dev ∧
      (c'.buf j).blkno = (c.buf j).blkno) : Names c' procs failed := by
  refine h.fewer hnbuf ?_ ?_
  · intro j dev blkno _ _ hstands
    obtain ⟨hi, -, hd, hb⟩ := hbufs j
    rw [stands_iff, hi, hd, hb] at hstands
    exact stands_iff.mpr hstands
  · intro hfailed j hj
    obtain ⟨hi, he, hd, -⟩ := hbufs j
    rw [hi, he, hd]
    exact h.whole hfailed j hj

/-- Releasing a buffer takes its block away if its transfer failed, and changes nothing else. -/
theorem Names.brelse (h : Names c procs failed) (i : Nat) : Names (brelse c i) procs failed := by
  have hothers : ∀ j, j ≠ i → (Bio.brelse c i).buf j = c.buf j := by
    intro j hj
    simp [brelse_eq, hj]
  have hself : (Bio.brelse c i).buf i = released (c.buf i) := by simp [brelse_eq]
  refine h.fewer (by rw [brelse_eq]) ?_ ?_
  · intro j dev blkno _ hdev hstands
    by_cases heq : j = i
    · subst heq
      rw [hself] at hstands
      obtain ⟨hb, hd, hv⟩ := stands_iff.mp hstands
      simp only [released, forget] at hb hd hv
      refine stands_iff.mpr ?_
      split at hd
      · split at hd <;> simp_all
      · simp_all
    · rwa [hothers j heq] at hstands
  · intro hfailed j hj
    obtain ⟨he, hd⟩ := h.whole hfailed j hj
    by_cases heq : j = i
    · subst heq
      rw [hself]
      have hforget : forget (c.buf j) = c.buf j := by simp [forget, he]
      simp only [released, hforget]
      exact ⟨he, hd⟩
    · rw [hothers j heq]
      exact ⟨he, hd⟩

/-- One process changes, without missing a block. -/
theorem Names.setProc {proc : Proc} (h : Names c procs failed)
    (hwants : ∀ dev, proc.control.wants = some dev → dev ≠ NODEV)
    (hwindow : proc.control.window = none ∨
      proc.control.window = (procs pid).control.window) :
    Names c (Function.update procs pid proc) failed := by
  have hold : ∀ qid key, ((Function.update procs pid proc) qid).control.window = some key →
      (procs qid).control.window = some key := by
    intro qid key hkey
    by_cases heq : qid = pid
    · subst heq
      rw [Function.update_self] at hkey
      rcases hwindow with hnone | hsame
      · rw [hnone] at hkey
        cases hkey
      · rw [← hsame]
        exact hkey
    · rwa [Function.update_of_ne heq] at hkey
  refine ⟨?_, h.unique, ?_, ?_, h.whole⟩
  · intro qid dev hdev
    by_cases heq : qid = pid
    · subst heq
      rw [Function.update_self] at hdev
      exact hwants dev hdev
    · rw [Function.update_of_ne heq] at hdev
      exact h.devs qid dev hdev
  · intro qid dev blkno hkey
    exact h.absent qid dev blkno (hold qid _ hkey)
  · intro qid rid key hq hr
    exact h.alone qid rid key (hold qid key hq) (hold rid key hr)

/-- Processes that ask for the same blocks. -/
theorem Names.congr {procs' : Nat → Proc} (h : Names c procs failed)
    (hsame : ∀ pid, (procs' pid).Alike (procs pid)) : Names c procs' failed := by
  refine ⟨?_, h.unique, ?_, ?_, h.whole⟩
  · intro qid dev
    rw [(hsame qid).wants]
    exact h.devs qid dev
  · intro qid dev blkno
    rw [(hsame qid).window]
    exact h.absent qid dev blkno
  · intro qid rid key
    rw [(hsame qid).window, (hsame rid).window]
    exact h.alone qid rid key

/-- A process misses a block that no other process has missed. -/
theorem Names.miss {chains : Chain → List Nat} {queues : Queue → List Nat} {dev blkno : Int}
    {read : Bool} {held : List Nat} (h : Names c procs failed)
    (hlinked : Linked c.nbuf c chains queues) (hdev : dev ≠ NODEV)
    (hsearch : search c dev blkno = none)
    (hapart : ∀ qid, qid ≠ pid → (procs qid).control.window ≠ some (dev, blkno)) :
    Names c (Function.update procs pid ⟨.newbuf (.block dev blkno read), held⟩) failed := by
  refine ⟨?_, h.unique, ?_, ?_, h.whole⟩
  · intro qid dev' hwants
    by_cases heq : qid = pid
    · subst heq
      rw [Function.update_self] at hwants
      cases hwants
      exact hdev
    · rw [Function.update_of_ne heq] at hwants
      exact h.devs qid dev' hwants
  · intro qid dev' blkno' hwindow j hj
    by_cases heq : qid = pid
    · subst heq
      rw [Function.update_self] at hwindow
      cases hwindow
      exact search_none hlinked hdev hsearch hj
    · rw [Function.update_of_ne heq] at hwindow
      exact h.absent qid dev' blkno' hwindow j hj
  · intro qid rid key hq hr
    by_cases heq : qid = pid <;> by_cases heq' : rid = pid
    · rw [heq, heq']
    · subst heq
      rw [Function.update_self] at hq
      rw [Function.update_of_ne heq'] at hr
      cases hq
      exact absurd hr (hapart rid heq')
    · subst heq'
      rw [Function.update_self] at hr
      rw [Function.update_of_ne heq] at hq
      cases hr
      exact absurd hq (hapart qid heq)
    · rw [Function.update_of_ne heq] at hq
      rw [Function.update_of_ne heq'] at hr
      exact h.alone qid rid key hq hr

/-- A process enters a buffer for the block it missed, and leaves the window. -/
theorem Names.enter {dev blkno : Int} (h : Names c procs failed)
    (hwindow : (procs pid).control.window = some (dev, blkno)) (i : Nat) :
    Names (assign c i dev blkno)
      (Function.update procs pid { procs pid with control := .idle }) failed := by
  have hdev := h.devs pid dev (Control.wants_of_window hwindow)
  have hself : (assign c i dev blkno).buf i =
      { c.buf i with flags := { Flags.none with busy := true }, dev := dev, blkno := blkno } := by
    simp [assign, rehash]
  have hothers : ∀ j, j ≠ i → (assign c i dev blkno).buf j = c.buf j := by
    intro j hj
    simp [assign, rehash, hj]
  -- the buffers that stand for a block are those from before, and `i` for the missed block
  have hstands : ∀ j dev' blkno', ((assign c i dev blkno).buf j).stands dev' blkno' = true →
      (j = i ∧ dev' = dev ∧ blkno' = blkno) ∨ (j ≠ i ∧ (c.buf j).stands dev' blkno' = true) := by
    intro j dev' blkno' hs
    by_cases heq : j = i
    · subst heq
      obtain ⟨hb, hd, -⟩ := stands_iff.mp hs
      rw [hself] at hb hd
      exact Or.inl ⟨rfl, hd.symm, hb.symm⟩
    · rw [hothers j heq] at hs
      exact Or.inr ⟨heq, hs⟩
  have hmissed : ∀ j, j < c.nbuf → (c.buf j).stands dev blkno ≠ true := by
    intro j hj
    rw [h.absent pid dev blkno hwindow j hj]
    exact Bool.false_ne_true
  have hold : ∀ qid key, ((Function.update procs pid { procs pid with control := .idle })
      qid).control.window = some key → qid ≠ pid ∧ (procs qid).control.window = some key := by
    intro qid key hkey
    by_cases heq : qid = pid
    · subst heq
      rw [Function.update_self] at hkey
      cases hkey
    · rw [Function.update_of_ne heq] at hkey
      exact ⟨heq, hkey⟩
  refine ⟨?_, ?_, ?_, ?_, ?_⟩
  · intro qid dev' hwants
    by_cases heq : qid = pid
    · subst heq
      rw [Function.update_self] at hwants
      cases hwants
    · rw [Function.update_of_ne heq] at hwants
      exact h.devs qid dev' hwants
  · intro dev' blkno' hdev' j k hj hk hsj hsk
    rcases hstands j dev' blkno' hsj with ⟨rfl, rfl, rfl⟩ | ⟨-, hsj'⟩
    · rcases hstands k dev' blkno' hsk with ⟨rfl, -, -⟩ | ⟨-, hsk'⟩
      · rfl
      · exact absurd hsk' (hmissed k hk)
    · rcases hstands k dev' blkno' hsk with ⟨rfl, rfl, rfl⟩ | ⟨-, hsk'⟩
      · exact absurd hsj' (hmissed j hj)
      · exact h.unique dev' blkno' hdev' j k hj hk hsj' hsk'
  · intro qid dev' blkno' hkey j hj
    obtain ⟨hne, hkey⟩ := hold qid _ hkey
    by_contra hs
    rw [Bool.not_eq_false] at hs
    rcases hstands j dev' blkno' hs with ⟨rfl, rfl, rfl⟩ | ⟨-, hs⟩
    · exact hne (h.alone qid pid _ hkey hwindow)
    · rw [h.absent qid dev' blkno' hkey j hj] at hs
      cases hs
  · intro qid rid key hq hr
    exact h.alone qid rid key (hold qid key hq).2 (hold rid key hr).2
  · intro hfailed j hj
    by_cases heq : j = i
    · subst heq
      rw [hself]
      exact ⟨rfl, fun _ => hdev⟩
    · rw [hothers j heq]
      exact h.whole hfailed j hj

end Names

end DiscoBsd.Bio
