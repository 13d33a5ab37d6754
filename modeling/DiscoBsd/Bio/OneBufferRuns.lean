import DiscoBsd.Bio.OneBuffer

/-!
# Runs with one buffer for a block

Every piece of code of `Bio.Interleave` keeps the invariant of `Bio.OneBuffer`. Between two pieces
the code has a buffer in its hands that neither a process nor a driver has: `Loose`. The main
result is `one_buffer_run`.
-/

namespace DiscoBsd.Bio

open Lib

variable {α : Type*} {m : Machine α} {i pid : Nat}

/-- Both halves of the invariant. -/
structure Safe (m : Machine α) : Prop where
  locks : Locks m.cache m.queue m.procs
  names : Names m.cache m.procs m.failed

/-- The buffer is busy, and neither a process nor a driver has it. -/
structure Loose (m : Machine α) (i : Nat) : Prop where
  lt : i < m.cache.nbuf
  busy : (m.cache.buf i).flags.busy = true
  queue : i ∉ m.queue
  owned : ∀ pid, i ∉ (m.procs pid).owned

/-! ## Release and transfer -/

theorem Loose.not_held (h : Loose m i) (pid : Nat) : i ∉ (m.procs pid).held :=
  fun hmem => h.owned pid (Proc.mem_owned_of_held hmem)

/-- Flags that do not say whether a buffer is busy or valid change. -/
theorem Safe.setFlags {f : Flags → Flags} (h : Safe m)
    (hbusy : (f (m.cache.buf i).flags).busy = (m.cache.buf i).flags.busy)
    (hinval : (f (m.cache.buf i).flags).inval = (m.cache.buf i).flags.inval)
    (herror : m.failed = false → (m.cache.buf i).flags.error = false →
      (f (m.cache.buf i).flags).error = false)
    (howned : ∀ pid, i ∈ (m.procs pid).owned → (f (m.cache.buf i).flags).async = false)
    (hqueued : i ∈ m.queue → (f (m.cache.buf i).flags).done = false)
    (hfree : i < m.cache.nbuf → (m.cache.buf i).flags.busy = false →
      (f (m.cache.buf i).flags).async = false) :
    Safe (m.setFlags i f) :=
  ⟨h.locks.setFlags hbusy hinval howned hqueued hfree, h.names.setFlags hinval herror⟩

@[simp] theorem setFlags_flags (m : Machine α) (i : Nat) (f : Flags → Flags) :
    ((m.setFlags i f).cache.buf i).flags = f (m.cache.buf i).flags := by
  simp [Machine.setFlags, Cache.setFlags]

theorem Loose.setFlags {f : Flags → Flags} (h : Loose m i)
    (hbusy : (f (m.cache.buf i).flags).busy = (m.cache.buf i).flags.busy) :
    Loose (m.setFlags i f) i := by
  refine ⟨h.lt, ?_, h.queue, h.owned⟩
  rw [setFlags_flags]
  exact hbusy.trans h.busy

/-- Nobody has a loose buffer, so that its flags are free. -/
theorem Safe.setFlags_loose {f : Flags → Flags} (h : Safe m) (hi : Loose m i)
    (hbusy : (f (m.cache.buf i).flags).busy = (m.cache.buf i).flags.busy)
    (hinval : (f (m.cache.buf i).flags).inval = (m.cache.buf i).flags.inval)
    (herror : (m.cache.buf i).flags.error = false → (f (m.cache.buf i).flags).error = false) :
    Safe (m.setFlags i f) := by
  refine h.setFlags hbusy hinval (fun _ => herror) ?_ ?_ ?_
  · intro pid hmem
    exact absurd hmem (hi.owned pid)
  · intro hmem
    exact absurd hmem hi.queue
  · intro _ hfree
    rw [hi.busy] at hfree
    cases hfree

theorem Safe.wake_buf (h : Safe m) (i : Nat) : Safe (m.wake (Control.wakeBuf i)) :=
  ⟨h.locks.congr fun pid => alike_wakeBuf (m.procs pid) i,
    h.names.congr fun pid => alike_wakeBuf (m.procs pid) i⟩

theorem Safe.wake_free (h : Safe m) : Safe (m.wake Control.wakeFree) :=
  ⟨h.locks.congr fun pid => alike_wakeFree (m.procs pid),
    h.names.congr fun pid => alike_wakeFree (m.procs pid)⟩

theorem Loose.wake_buf (h : Loose m i) (j : Nat) : Loose (m.wake (Control.wakeBuf j)) i := by
  refine ⟨h.lt, h.busy, h.queue, fun pid => ?_⟩
  show i ∉ Proc.owned { m.procs pid with control := (m.procs pid).control.wakeBuf j }
  rw [(alike_wakeBuf (m.procs pid) j).owned]
  exact h.owned pid

theorem Loose.wake_free (h : Loose m i) : Loose (m.wake Control.wakeFree) i := by
  refine ⟨h.lt, h.busy, h.queue, fun pid => ?_⟩
  show i ∉ Proc.owned { m.procs pid with control := (m.procs pid).control.wakeFree }
  rw [(alike_wakeFree (m.procs pid)).owned]
  exact h.owned pid

/-- A loose buffer may be released. -/
theorem Safe.brelse (h : Safe m) (hi : Loose m i) : Safe (m.brelse i) := by
  have hrelease : ∀ m : Machine α, Safe m → Loose m i →
      Safe { m with cache := Bio.brelse m.cache i } := fun m h hi =>
    ⟨h.locks.brelse hi.lt hi.busy hi.queue hi.owned, h.names.brelse i⟩
  unfold Machine.brelse
  dsimp only
  -- the buffer's sleepers first, then those on the free lists
  obtain ⟨hbuf, hibuf⟩ : Safe (if (m.cache.buf i).flags.wanted then m.wake (Control.wakeBuf i)
      else m) ∧ Loose (if (m.cache.buf i).flags.wanted then m.wake (Control.wakeBuf i) else m) i := by
    split
    · exact ⟨h.wake_buf i, hi.wake_buf i⟩
    · exact ⟨h, hi⟩
  generalize (if (m.cache.buf i).flags.wanted then m.wake (Control.wakeBuf i) else m) = m'
    at hbuf hibuf ⊢
  split
  · exact hrelease _ hbuf.wake_free hibuf.wake_free
  · exact hrelease _ hbuf hibuf

/-- What the end of a transfer does to the flags of the buffer. -/
theorem finish_flags (m : Machine α) (i : Nat) (failed : Bool) :
    ((m.finish i failed).cache.buf i).flags =
      { (m.cache.buf i).flags with
        done := true
        error := (m.cache.buf i).flags.error || failed } := by
  unfold Machine.finish
  cases failed with
  | true => simp
  | false => simp [(transfer_spec m.cache i).2.2.2 i]

/-- The end of a transfer of a buffer that is no longer in a driver's queue. -/
theorem Safe.finish (h : Safe m) (hbusy : (m.cache.buf i).flags.busy = true)
    (hqueue : i ∉ m.queue) (failed : Bool) : Safe (m.finish i failed) := by
  have hfail : Safe { m with failed := m.failed || failed } := ⟨h.locks, h.names.fail failed⟩
  have hdone : ∀ m' : Machine α, Safe m' → m'.queue = m.queue →
      (m'.cache.buf i).flags.busy = true →
      Safe (m'.setFlags i fun flags => { flags with done := true }) := by
    intro m' h' hsame hbusy'
    refine h'.setFlags rfl rfl (fun _ => id) ?_ ?_ ?_
    · intro pid hmem
      exact (h'.locks.owned pid i hmem).2.2
    · intro hmem
      rw [hsame] at hmem
      exact absurd hmem hqueue
    · intro _ hfree
      rw [hbusy'] at hfree
      cases hfree
  unfold Machine.finish
  cases failed with
  | true =>
      refine hdone _ (hfail.setFlags rfl rfl ?_ ?_ ?_ ?_) rfl ?_
      · intro hfailed
        simp at hfailed
      · intro pid hmem
        exact (h.locks.owned pid i hmem).2.2
      · intro hmem
        exact absurd hmem hqueue
      · intro _ hfree
        rw [hbusy] at hfree
        cases hfree
      · simpa using hbusy
  | false =>
      obtain ⟨hnbuf, -, -, hbufs⟩ := transfer_spec m.cache i
      refine hdone { m with cache := transfer m.cache i, failed := m.failed || false }
        ⟨hfail.locks.transfer i, hfail.names.same_bufs hnbuf fun j => ?_⟩ rfl ?_
      · rw [(hbufs j).1]
        exact ⟨rfl, rfl, (hbufs j).2⟩
      · rw [(hbufs i).1]
        exact hbusy

theorem finish_frame (m : Machine α) (i : Nat) (failed : Bool) :
    (m.finish i failed).cache.nbuf = m.cache.nbuf ∧ (m.finish i failed).queue = m.queue ∧
      (m.finish i failed).procs = m.procs := by
  unfold Machine.finish
  cases failed with
  | true => exact ⟨rfl, rfl, rfl⟩
  | false => exact ⟨(transfer_spec m.cache i).1, rfl, rfl⟩

theorem Loose.finish (h : Loose m i) (failed : Bool) : Loose (m.finish i failed) i := by
  obtain ⟨hnbuf, hqueue, hprocs⟩ := finish_frame m i failed
  refine ⟨hnbuf ▸ h.lt, ?_, hqueue ▸ h.queue, hprocs ▸ h.owned⟩
  rw [finish_flags]
  exact h.busy

theorem Safe.biodone_async (h : Safe m) (hi : Loose m i)
    (hasync : (m.cache.buf i).flags.async = true) (failed : Bool) :
    Safe (m.biodone i failed) := by
  unfold Machine.biodone
  dsimp only
  rw [finish_flags, if_pos hasync]
  exact (h.finish hi.busy hi.queue failed).brelse (hi.finish failed)

/-- `biodone` of a transfer that somebody waits for. -/
theorem Safe.biodone_sync (h : Safe m) (hbusy : (m.cache.buf i).flags.busy = true) (hqueue : i ∉ m.queue)
    (hasync : (m.cache.buf i).flags.async = false) (failed : Bool) :
    Safe (m.biodone i failed) := by
  have hfinish := h.finish hbusy hqueue failed
  have hset : Safe ((m.finish i failed).setFlags i fun flags => { flags with wanted := false }) := by
    refine hfinish.setFlags rfl rfl (fun _ => id) ?_ ?_ ?_
    · intro pid hmem
      exact (hfinish.locks.owned pid i hmem).2.2
    · intro hmem
      rw [(finish_frame m i failed).2.1] at hmem
      exact absurd hmem hqueue
    · intro _ _
      rw [finish_flags]
      exact hasync
  unfold Machine.biodone
  dsimp only
  rw [finish_flags, if_neg (by rw [hasync]; exact Bool.false_ne_true)]
  exact hset.wake_buf i

/-- After `biodone` the buffer of a synchronous transfer is as loose as before. -/
theorem Loose.biodone_sync (h : Loose m i) (hasync : (m.cache.buf i).flags.async = false)
    (failed : Bool) :
    Loose (m.biodone i failed) i ∧ ((m.biodone i failed).cache.buf i).flags.async = false ∧
      ∀ pid, (m.procs pid).control = .idle → ((m.biodone i failed).procs pid).control = .idle := by
  have hfinish := h.finish failed
  have hset : Loose ((m.finish i failed).setFlags i fun flags => { flags with wanted := false }) i :=
    hfinish.setFlags rfl
  unfold Machine.biodone
  dsimp only
  rw [finish_flags, if_neg (by rw [hasync]; exact Bool.false_ne_true)]
  refine ⟨hset.wake_buf i, ?_, ?_⟩
  · show (((m.finish i failed).setFlags i fun flags =>
      { flags with wanted := false }).cache.buf i).flags.async = false
    rw [setFlags_flags, finish_flags]
    exact hasync
  · intro pid hidle
    show (((m.finish i failed).procs pid).control).wakeBuf i = .idle
    rw [(finish_frame m i failed).2.2, hidle]
    rfl

/-! ## Writes and reads -/

theorem Safe.enqueue (h : Safe m) (hi : Loose m i) (hdone : (m.cache.buf i).flags.done = false) :
    Safe { m with queue := i :: m.queue } :=
  ⟨h.locks.enqueue hi.lt hi.busy hdone hi.queue hi.not_held, h.names⟩

/-- `bawrite` of a loose buffer. -/
theorem Safe.bawrite (h : Safe m) (hi : Loose m i) (io : Io) : Safe (m.bawrite i io) := by
  have hset := h.setFlags_loose (f := fun flags => writeFlags { flags with async := true }) hi
    rfl rfl fun _ => rfl
  have hloose := hi.setFlags (f := fun flags => writeFlags { flags with async := true }) rfl
  -- the buffer may be gone by now, but `B_AGE` does no harm
  have hage : ∀ m' : Machine α, Safe m' →
      Safe (m'.setFlags i fun flags => { flags with age := true }) := by
    intro m' h'
    refine h'.setFlags rfl rfl (fun _ => id) ?_ ?_ ?_
    · intro pid hmem
      exact (h'.locks.owned pid i hmem).2.2
    · intro hmem
      exact (h'.locks.queued i hmem).2.2
    · intro hlt hfree
      exact h'.locks.free i hlt hfree
  have hstrategy : Safe ((m.setFlags i fun flags =>
      writeFlags { flags with async := true }).strategy i io) := by
    cases io with
    | queued => exact hset.enqueue hloose (by rw [setFlags_flags]; rfl)
    | finished failed => exact hset.biodone_async hloose (by rw [setFlags_flags]; rfl) failed
  unfold Machine.bawrite
  dsimp only
  split
  · exact hage _ hstrategy
  · exact hstrategy

/-- A process that is not in `biowait` has what it holds. -/
theorem Proc.owned_eq_held {proc : Proc} (hwait : ∀ i write, proc.control ≠ .biowait i write)
    (hwoken : ∀ i write, proc.control ≠ .wokenIo i write) : proc.owned = proc.held := by
  unfold Proc.owned
  split
  · rename_i j write heq
    exact absurd heq (hwait j write)
  · rename_i j write heq
    exact absurd heq (hwoken j write)
  · rfl

theorem Proc.owned_of_idle {proc : Proc} (hidle : proc.control = .idle) : proc.owned = proc.held :=
  Proc.owned_eq_held (by simp [hidle]) (by simp [hidle])

/-- A process that waits for no transfer is given a loose buffer. -/
theorem Safe.give (h : Safe m) (hi : Loose m i) (hasync : (m.cache.buf i).flags.async = false)
    (howned : (m.procs pid).owned = (m.procs pid).held) : Safe (m.give pid i) := by
  refine ⟨h.locks.setProc ?_ ?_ ?_, h.names.setProc ?_ (Or.inl rfl)⟩
  · show (i :: (m.procs pid).held).Nodup
    exact List.nodup_cons.mpr ⟨hi.not_held pid, howned ▸ h.locks.owned_nodup pid⟩
  · intro j hj
    rcases List.mem_cons.mp hj with rfl | hj
    · exact Or.inr ⟨hi.lt, hi.busy, hasync, fun qid _ => hi.owned qid⟩
    · exact Or.inl (Proc.mem_owned_of_held hj)
  · intro j hj
    rcases List.mem_cons.mp hj with rfl | hj
    · exact hi.queue
    · exact h.locks.held pid j hj
  · intro dev hdev
    cases hdev

/-- A process that is doing nothing waits for the transfer of a buffer nobody else has. -/
theorem Safe.await (h : Safe m) (hi : i < m.cache.nbuf) (hbusy : (m.cache.buf i).flags.busy = true)
    (hasync : (m.cache.buf i).flags.async = false) (howned : ∀ qid, i ∉ (m.procs qid).owned)
    (hidle : (m.procs pid).control = .idle) (write : Bool) :
    Safe (m.setControl pid (.biowait i write)) := by
  have hheld := Proc.owned_of_idle hidle
  refine ⟨h.locks.setProc ?_ ?_ ?_, h.names.setProc ?_ (Or.inl rfl)⟩
  · show (i :: (m.procs pid).held).Nodup
    rw [← hheld]
    exact List.nodup_cons.mpr ⟨howned pid, h.locks.owned_nodup pid⟩
  · intro j hj
    rcases List.mem_cons.mp hj with rfl | hj
    · exact Or.inr ⟨hi, hbusy, hasync, fun qid _ => howned qid⟩
    · exact Or.inl (Proc.mem_owned_of_held hj)
  · intro j hj
    exact h.locks.held pid j hj
  · intro dev hdev
    cases hdev

/-- A process gets the loose buffer it asked for. -/
theorem Safe.got (h : Safe m) (hi : Loose m i) (hasync : (m.cache.buf i).flags.async = false)
    (hidle : (m.procs pid).control = .idle) (read : Bool) (io : Io) :
    Safe (m.got pid i read io) := by
  unfold Machine.got
  dsimp only
  split
  next hread =>
    have hset := h.setFlags_loose (f := fun flags => { flags with read := true }) hi rfl rfl id
    have hloose := hi.setFlags (f := fun flags => { flags with read := true }) rfl
    have hasync' : ((m.setFlags i fun flags => { flags with read := true }).cache.buf i).flags.async
        = false := by
      rw [setFlags_flags]
      exact hasync
    cases io with
    | queued =>
        have hdone : ((m.setFlags i fun flags => { flags with read := true }).cache.buf i).flags.done
            = false := by
          rw [setFlags_flags]
          simp_all
        exact (hset.enqueue hloose hdone).await hloose.lt hloose.busy hasync' hloose.owned hidle false
    | finished failed =>
        have hsync := hset.biodone_sync hloose.busy hloose.queue hasync' failed
        obtain ⟨hloose', hasync'', hidle'⟩ := hloose.biodone_sync hasync' failed
        exact hsync.give hloose' hasync'' (Proc.owned_of_idle (hidle' pid hidle))
  next => exact h.give hi hasync (Proc.owned_of_idle hidle)

/-- Taking a buffer from the process that holds it leaves it loose. -/
theorem Safe.takeBack (h : Safe m) (hholds : m.holds pid i = true) :
    Safe (m.takeBack pid i) ∧ Loose (m.takeBack pid i) i ∧
      ((m.takeBack pid i).cache.buf i).flags.async = false ∧
      ((m.takeBack pid i).procs pid).control = .idle := by
  unfold Machine.holds at hholds
  simp only [Bool.and_eq_true, decide_eq_true_eq] at hholds
  obtain ⟨hidle, hmem⟩ := hholds
  have howned := Proc.owned_of_idle hidle
  have howned' : Proc.owned { m.procs pid with held := (m.procs pid).held.erase i } =
      (m.procs pid).held.erase i := Proc.owned_of_idle hidle
  have hnodup : (m.procs pid).held.Nodup := howned ▸ h.locks.owned_nodup pid
  obtain ⟨hlt, hbusy, hasync⟩ := h.locks.owned pid i (howned ▸ hmem)
  refine ⟨⟨h.locks.setProc ?_ ?_ ?_, h.names.setProc ?_ (Or.inr rfl)⟩, ⟨hlt, hbusy, ?_, ?_⟩, hasync, ?_⟩
  · rw [howned']
    exact hnodup.erase i
  · intro j hj
    rw [howned'] at hj
    exact Or.inl (howned ▸ List.mem_of_mem_erase hj)
  · intro j hj
    exact h.locks.held pid j (List.mem_of_mem_erase hj)
  · intro dev hdev
    exact h.names.devs pid dev hdev
  · exact h.locks.held pid i hmem
  · intro qid
    show i ∉ (Function.update m.procs pid _ qid).owned
    by_cases heq : qid = pid
    · subst heq
      rw [Function.update_self, howned']
      exact hnodup.not_mem_erase
    · rw [Function.update_of_ne heq]
      intro hother
      exact heq (h.locks.one qid pid i hother (howned ▸ hmem))
  · show (Function.update m.procs pid _ pid).control = .idle
    rw [Function.update_self]
    exact hidle

/-- `bwrite`. -/
theorem Safe.bwrite (h : Safe m) (hholds : m.holds pid i = true) (io : Io) :
    Safe (m.bwrite pid i io) := by
  obtain ⟨hback, hloose, hasync, hidle⟩ := h.takeBack hholds
  have hset := hback.setFlags_loose (f := writeFlags) hloose rfl rfl fun _ => rfl
  have hloose' := hloose.setFlags (f := writeFlags) rfl
  have hasync' : (((m.takeBack pid i).setFlags i writeFlags).cache.buf i).flags.async = false := by
    rw [setFlags_flags]
    exact hasync
  unfold Machine.bwrite
  cases io with
  | queued =>
      have hqueued := hset.enqueue hloose' (by rw [setFlags_flags]; rfl)
      exact hqueued.await hloose'.lt hloose'.busy hasync' hloose'.owned hidle true
  | finished failed =>
      have hsync := hset.biodone_sync hloose'.busy hloose'.queue hasync' failed
      exact hsync.brelse (hloose'.biodone_sync hasync' failed).1

/-- `bdwrite`. -/
theorem Safe.bdwrite {tape : Int → Bool} (h : Safe m) (hholds : m.holds pid i = true) (io : Io) :
    Safe (m.bdwrite tape pid i io) := by
  obtain ⟨hback, hloose, -, -⟩ := h.takeBack hholds
  unfold Machine.bdwrite
  dsimp only
  split
  · exact hback.bawrite hloose io
  · have hset := hback.setFlags_loose (f := fun flags => { flags with delwri := true, done := true })
      hloose rfl rfl id
    exact hset.brelse (hloose.setFlags rfl)

/-! ## One step -/

/-- A process moves on without taking or leaving a buffer and without missing a block. -/
theorem Safe.setControl {control : Control} (h : Safe m)
    (howned : Proc.owned { m.procs pid with control := control } = (m.procs pid).owned)
    (hwants : ∀ dev, control.wants = some dev → dev ≠ NODEV)
    (hwindow : control.window = none ∨ control.window = (m.procs pid).control.window) :
    Safe (m.setControl pid control) := by
  refine ⟨h.locks.setProc ?_ ?_ ?_, h.names.setProc hwants hwindow⟩
  · rw [howned]
    exact h.locks.owned_nodup pid
  · intro j hj
    exact Or.inl (howned ▸ hj)
  · intro j hj
    exact h.locks.held pid j hj

/-- A free buffer of the pool is taken off its list. -/
theorem Safe.notavail (h : Safe m) (hi : i < m.cache.nbuf)
    (hfree : (m.cache.buf i).flags.busy = false) :
    Safe { m with cache := notavail m.cache i } ∧ Loose { m with cache := notavail m.cache i } i ∧
      ((notavail m.cache i).buf i).flags.async = false := by
  have hself : ((Bio.notavail m.cache i).buf i).flags =
      { (m.cache.buf i).flags with busy := true } := by
    simp [Bio.notavail, Cache.setFlags]
  refine ⟨⟨h.locks.notavail hi hfree, h.names.same_bufs rfl fun j => ?_⟩, ⟨hi, ?_, ?_, ?_⟩, ?_⟩
  · by_cases heq : j = i
    · subst heq
      simp [Bio.notavail, Cache.setFlags]
    · simp [Bio.notavail, Cache.setFlags, heq]
  · rw [hself]
  · exact h.locks.not_queued hfree
  · exact h.locks.not_owned hfree
  · rw [hself]
    exact h.locks.free i hi hfree

/-- A process that missed a block enters the loose buffer for it. -/
theorem Safe.enter {dev blkno : Int} (h : Safe m) (hi : Loose m i)
    (hwindow : (m.procs pid).control.window = some (dev, blkno))
    (howned : (m.procs pid).owned = (m.procs pid).held) :
    Safe ({ m with cache := assign m.cache i dev blkno }.setControl pid .idle) ∧
      Loose ({ m with cache := assign m.cache i dev blkno }.setControl pid .idle) i ∧
      ((assign m.cache i dev blkno).buf i).flags.async = false := by
  have hself : ((assign m.cache i dev blkno).buf i).flags = { Flags.none with busy := true } := by
    simp [assign, rehash]
  obtain ⟨chains, queues, hlinked⟩ := h.locks.linked
  obtain ⟨chains', hlinked'⟩ := hlinked.assign hi.lt hi.busy dev blkno
  have hlocks : Locks (assign m.cache i dev blkno) m.queue m.procs := by
    refine h.locks.reassign rfl ⟨chains', queues, hlinked'⟩ ?_ ?_ hi.queue hi.owned
    · intro j hj
      simp [assign, rehash, hj]
    · rw [hself]
  have hsame : ∀ qid, (Function.update m.procs pid { m.procs pid with control := .idle } qid).owned =
      (m.procs qid).owned := by
    intro qid
    by_cases heq : qid = pid
    · subst heq
      rw [Function.update_self, howned]
      rfl
    · rw [Function.update_of_ne heq]
  refine ⟨⟨hlocks.setProc ?_ ?_ ?_, h.names.enter hwindow i⟩, ⟨hi.lt, ?_, hi.queue, ?_⟩, ?_⟩
  · show (m.procs pid).held.Nodup
    exact howned ▸ h.locks.owned_nodup pid
  · intro j hj
    exact Or.inl (howned ▸ hj)
  · intro j hj
    exact h.locks.held pid j hj
  · show ((assign m.cache i dev blkno).buf i).flags.busy = true
    rw [hself]
  · intro qid
    show i ∉ (Function.update m.procs pid { m.procs pid with control := .idle } qid).owned
    rw [hsame qid]
    exact hi.owned qid
  · rw [hself]
    rfl

/-- The loose buffer is taken for no block. -/
theorem Safe.enter_empty (h : Safe m) (hi : Loose m i) :
    Safe { m with cache := assignEmpty m.cache i } ∧
      Loose { m with cache := assignEmpty m.cache i } i ∧
      ((assignEmpty m.cache i).buf i).flags.async = false := by
  have hself : ((assignEmpty m.cache i).buf i).flags =
      { Flags.none with busy := true, inval := true } := by
    simp [assignEmpty, rehash]
  have hothers : ∀ j, j ≠ i → (assignEmpty m.cache i).buf j = m.cache.buf j := by
    intro j hj
    simp [assignEmpty, rehash, hj]
  obtain ⟨chains, queues, hlinked⟩ := h.locks.linked
  obtain ⟨chains', hlinked'⟩ := hlinked.assign_empty hi.lt hi.busy
  refine ⟨⟨?_, ?_⟩, ⟨hi.lt, ?_, hi.queue, hi.owned⟩, ?_⟩
  · refine h.locks.reassign rfl ⟨chains', queues, hlinked'⟩ hothers ?_ hi.queue hi.owned
    rw [hself]
  · refine h.names.fewer rfl ?_ ?_
    · intro j dev blkno _ _ hstands
      by_cases heq : j = i
      · subst heq
        obtain ⟨-, -, hvalid⟩ := stands_iff.mp hstands
        rw [hself] at hvalid
        cases hvalid
      · rwa [hothers j heq] at hstands
    · intro hfailed j hj
      by_cases heq : j = i
      · subst heq
        rw [hself]
        exact ⟨rfl, fun hvalid => by cases hvalid⟩
      · rw [hothers j heq]
        exact h.names.whole hfailed j hj
  · rw [hself]
  · rw [hself]
    rfl

/-- `getnewbuf` and what follows it. -/
theorem Safe.run_newbuf {m' : Machine α} {want : Want} {io : Io} (h : Safe m)
    (hcontrol : (m.procs pid).control = .newbuf want) (hrun : m.run pid io = some m') :
    Safe m' := by
  have howned : (m.procs pid).owned = (m.procs pid).held :=
    Proc.owned_eq_held (by simp [hcontrol]) (by simp [hcontrol])
  unfold Machine.run at hrun
  rw [hcontrol] at hrun
  dsimp only at hrun
  split at hrun
  next hvictim =>
    cases hrun
    have hwanted : Safe { m with cache := { m.cache with wanted := true } } := by
      refine ⟨?_, h.names.same_bufs rfl fun j => ⟨rfl, rfl, rfl, rfl⟩⟩
      obtain ⟨chains, queues, hl⟩ := h.locks.linked
      exact ⟨⟨chains, queues, ⟨hl.hash, hl.avail, hl.chained, hl.queued, hl.home⟩⟩,
        h.locks.queue_nodup, h.locks.owned_nodup, h.locks.one, h.locks.owned, h.locks.queued,
        h.locks.held, h.locks.free⟩
    have hwindow : (Control.sleepFree want).window = (m.procs pid).control.window := by
      rw [hcontrol]
      cases want <;> rfl
    have hwants : (Control.sleepFree want).wants = (m.procs pid).control.wants := by
      rw [hcontrol]
      cases want <;> rfl
    refine hwanted.setControl howned.symm ?_ (Or.inr hwindow)
    intro dev hdev
    exact h.names.devs pid dev (hwants ▸ hdev)
  next i hvictim =>
    obtain ⟨chains, queues, hlinked⟩ := h.locks.linked
    obtain ⟨hi, hfree⟩ := (hlinked.queued i).mpr (victim_some hlinked hvictim)
    obtain ⟨hsafe, hloose, hasync⟩ := h.notavail hi hfree
    split at hrun
    · cases hrun
      exact hsafe.bawrite hloose io
    · cases want with
      | block dev blkno read =>
          cases hrun
          have hwindow : (m.procs pid).control.window = some (dev, blkno) := by
            rw [hcontrol]
            rfl
          obtain ⟨henter, hloose', hasync'⟩ := hsafe.enter hloose hwindow howned
          refine henter.got hloose' hasync' ?_ read io
          simp [Machine.setControl]
      | empty =>
          cases hrun
          obtain ⟨henter, hloose', hasync'⟩ := hsafe.enter_empty hloose
          exact henter.give hloose' hasync' howned

/-- The search of `getblk` and what follows it, when nobody else is in the window of its block. -/
theorem Safe.run_searching {m' : Machine α} {dev blkno : Int} {read : Bool} {io : Io} (h : Safe m)
    (hcontrol : (m.procs pid).control = .searching dev blkno read)
    (hapart : search m.cache dev blkno = none →
      ∀ qid, qid ≠ pid → (m.procs qid).control.window ≠ some (dev, blkno))
    (hrun : m.run pid io = some m') : Safe m' := by
  have howned : (m.procs pid).owned = (m.procs pid).held :=
    Proc.owned_eq_held (by simp [hcontrol]) (by simp [hcontrol])
  have hdev : dev ≠ NODEV := h.names.devs pid dev (by rw [hcontrol]; rfl)
  obtain ⟨chains, queues, hlinked⟩ := h.locks.linked
  unfold Machine.run at hrun
  rw [hcontrol] at hrun
  dsimp only at hrun
  split at hrun
  next i hsearch =>
    obtain ⟨hi, -⟩ := search_some hlinked hsearch
    split at hrun
    next hbusy =>
      cases hrun
      have hset : Safe (m.setFlags i fun flags => { flags with wanted := true }) := by
        refine h.setFlags rfl rfl (fun _ => id) ?_ ?_ (h.locks.free i)
        · intro qid hmem
          exact (h.locks.owned qid i hmem).2.2
        · intro hmem
          exact (h.locks.queued i hmem).2.2
      refine hset.setControl howned.symm ?_ (Or.inl rfl)
      intro dev' hdev'
      cases hdev'
      exact hdev
    next hbusy =>
      cases hrun
      rw [Bool.not_eq_true] at hbusy
      obtain ⟨hsafe, hloose, hasync⟩ := h.notavail hi hbusy
      have hidle : Safe ({ m with cache := Bio.notavail m.cache i }.setControl pid .idle) := by
        refine hsafe.setControl howned.symm ?_ (Or.inl rfl)
        intro dev' hdev'
        cases hdev'
      refine hidle.got ⟨hloose.lt, hloose.busy, hloose.queue, ?_⟩ hasync ?_ read io
      · intro qid
        show i ∉ (Function.update m.procs pid { m.procs pid with control := .idle } qid).owned
        by_cases heq : qid = pid
        · subst heq
          rw [Function.update_self]
          exact hloose.not_held qid
        · rw [Function.update_of_ne heq]
          exact hloose.owned qid
      · simp [Machine.setControl]
  next hsearch =>
    cases hrun
    refine ⟨h.locks.setProc ?_ ?_ ?_, h.names.miss hlinked hdev hsearch (hapart hsearch)⟩
    · show (m.procs pid).held.Nodup
      exact howned ▸ h.locks.owned_nodup pid
    · intro j hj
      exact Or.inl (howned ▸ hj)
    · intro j hj
      exact h.locks.held pid j hj

/-- The end of `biowait`. -/
theorem Safe.run_wokenIo {m' : Machine α} {write : Bool} {io : Io} (h : Safe m)
    (hcontrol : (m.procs pid).control = .wokenIo i write) (hrun : m.run pid io = some m') :
    Safe m' := by
  have howned : (m.procs pid).owned = i :: (m.procs pid).held := by
    unfold Proc.owned
    rw [hcontrol]
  have hnodup := h.locks.owned_nodup pid
  rw [howned] at hnodup
  obtain ⟨hnew, hnodup⟩ := List.nodup_cons.mp hnodup
  have hmem : i ∈ (m.procs pid).owned := by
    rw [howned]
    exact List.mem_cons_self
  obtain ⟨hlt, hbusy, hasync⟩ := h.locks.owned pid i hmem
  have hkept : ∀ j, j ∈ (m.procs pid).held → j ∈ (m.procs pid).owned := fun j hj =>
    Proc.mem_owned_of_held hj
  unfold Machine.run at hrun
  rw [hcontrol] at hrun
  dsimp only at hrun
  split at hrun
  next hdone =>
    have hqueue : i ∉ m.queue := by
      intro hqueued
      have := (h.locks.queued i hqueued).2.2
      rw [hdone] at this
      cases this
    split at hrun
    · cases hrun
      have hidle : Safe (m.setControl pid .idle) := by
        refine ⟨h.locks.setProc hnodup (fun j hj => Or.inl (hkept j hj)) (h.locks.held pid),
          h.names.setProc ?_ (Or.inl rfl)⟩
        intro dev hdev
        cases hdev
      refine hidle.brelse ⟨hlt, hbusy, hqueue, ?_⟩
      intro qid
      show i ∉ (Function.update m.procs pid { m.procs pid with control := .idle } qid).owned
      by_cases heq : qid = pid
      · subst heq
        rw [Function.update_self]
        exact hnew
      · rw [Function.update_of_ne heq]
        intro hother
        exact heq (h.locks.one qid pid i hother hmem)
    · cases hrun
      refine ⟨h.locks.setProc (List.nodup_cons.mpr ⟨hnew, hnodup⟩) ?_ ?_,
        h.names.setProc ?_ (Or.inl rfl)⟩
      · intro j hj
        left
        rw [howned]
        exact hj
      · intro j hj
        rcases List.mem_cons.mp hj with rfl | hj
        · exact hqueue
        · exact h.locks.held pid j hj
      · intro dev hdev
        cases hdev
  next =>
    cases hrun
    refine h.setControl howned.symm ?_ (Or.inl rfl)
    intro dev hdev
    cases hdev

/-- The next stretch of code of a process. -/
theorem Safe.run {m' : Machine α} {io : Io} (h : Safe m)
    (hapart : ∀ dev blkno read, (m.procs pid).control = .searching dev blkno read →
      search m.cache dev blkno = none →
      ∀ qid, qid ≠ pid → (m.procs qid).control.window ≠ some (dev, blkno))
    (hrun : m.run pid io = some m') : Safe m' := by
  cases hcontrol : (m.procs pid).control with
  | searching dev blkno read => exact h.run_searching hcontrol (hapart dev blkno read hcontrol) hrun
  | newbuf want => exact h.run_newbuf hcontrol hrun
  | wokenIo i write => exact h.run_wokenIo hcontrol hrun
  | wokenBuf dev blkno read =>
      rw [Machine.run, hcontrol] at hrun
      cases hrun
      have howned : (m.procs pid).owned = (m.procs pid).held :=
        Proc.owned_eq_held (by simp [hcontrol]) (by simp [hcontrol])
      refine h.setControl howned.symm ?_ (Or.inl rfl)
      intro dev' hdev'
      exact h.names.devs pid dev' (by rw [hcontrol]; exact hdev')
  | wokenFree want =>
      rw [Machine.run, hcontrol] at hrun
      cases hrun
      have hwindow : (Control.newbuf want).window = (m.procs pid).control.window := by
        rw [hcontrol]
        cases want <;> rfl
      have hwants : (Control.newbuf want).wants = (m.procs pid).control.wants := by
        rw [hcontrol]
        cases want <;> rfl
      have howned : (m.procs pid).owned = (m.procs pid).held :=
        Proc.owned_eq_held (by simp [hcontrol]) (by simp [hcontrol])
      refine h.setControl howned.symm ?_ (Or.inr hwindow)
      intro dev hdev
      exact h.names.devs pid dev (hwants ▸ hdev)
  | idle | sleepBuf _ _ _ _ | sleepFree _ | biowait _ _ =>
      rw [Machine.run, hcontrol] at hrun
      cases hrun

/-- One action of a process. -/
theorem Safe.act {m' : Machine α} {tape : Int → Bool} {action : Action} (h : Safe m)
    (hapart : ¬ Crowded m (.step pid action)) (hact : m.act tape pid action = some m') :
    Safe m' := by
  cases action with
  | run io =>
      refine h.run ?_ hact
      intro dev blkno read hcontrol hsearch qid hne hwindow
      exact hapart ⟨pid, io, dev, blkno, read, qid, rfl, hcontrol, hsearch, hne, hwindow⟩
  | getblk dev blkno | bread dev blkno =>
      unfold Machine.act at hact
      dsimp only at hact
      split at hact
      next hcall =>
        cases hact
        refine h.setControl (Proc.owned_of_idle hcall.1).symm ?_ (Or.inl rfl)
        intro dev' hdev'
        cases hdev'
        exact hcall.2
      next => cases hact
  | geteblk =>
      unfold Machine.act at hact
      dsimp only at hact
      split at hact
      next hidle =>
        cases hact
        refine h.setControl (Proc.owned_of_idle hidle).symm ?_ (Or.inl rfl)
        intro dev hdev
        cases hdev
      next => cases hact
  | bwrite i io =>
      unfold Machine.act at hact
      dsimp only at hact
      split at hact
      next hwritable =>
        cases hact
        exact h.bwrite (Bool.and_eq_true_iff.mp hwritable).1 io
      next => cases hact
  | bawrite i io =>
      unfold Machine.act at hact
      dsimp only at hact
      split at hact
      next hwritable =>
        cases hact
        obtain ⟨hback, hloose, -, -⟩ := h.takeBack (Bool.and_eq_true_iff.mp hwritable).1
        exact hback.bawrite hloose io
      next => cases hact
  | bdwrite i io =>
      unfold Machine.act at hact
      dsimp only at hact
      split at hact
      next hwritable =>
        cases hact
        exact h.bdwrite (Bool.and_eq_true_iff.mp hwritable).1 io
      next => cases hact
  | brelse i =>
      unfold Machine.act at hact
      dsimp only at hact
      split at hact
      next hholds =>
        cases hact
        obtain ⟨hback, hloose, -, -⟩ := h.takeBack hholds
        exact hback.brelse hloose
      next => cases hact

/-- One event. -/
theorem Safe.next {m' : Machine α} {tape : Int → Bool} {event : Event} (h : Safe m)
    (hnext : Uncrowded tape m event m') : Safe m' := by
  obtain ⟨hnext, hapart⟩ := hnext
  cases event with
  | step pid action =>
      unfold Machine.next at hnext
      dsimp only at hnext
      split at hnext
      next =>
        obtain ⟨m'', hact, rfl⟩ := Option.map_eq_some_iff.mp hnext
        have hsafe := h.act hapart hact
        exact ⟨hsafe.locks, hsafe.names⟩
      next => cases hnext
  | interrupt i failed =>
      unfold Machine.next at hnext
      dsimp only at hnext
      split at hnext
      next hmem =>
        cases hnext
        obtain ⟨hlt, hbusy, -⟩ := h.locks.queued i hmem
        have hdequeue : Safe { m with queue := m.queue.erase i } := ⟨h.locks.dequeue, h.names⟩
        have hqueue : i ∉ m.queue.erase i := h.locks.queue_nodup.not_mem_erase
        cases hasync : (m.cache.buf i).flags.async with
        | false => exact hdequeue.biodone_sync hbusy hqueue hasync failed
        | true =>
            -- nobody waits for an asynchronous transfer
            refine hdequeue.biodone_async ⟨hlt, hbusy, hqueue, ?_⟩ hasync failed
            intro pid howned
            have := (h.locks.owned pid i howned).2.2
            rw [hasync] at this
            cases this
      next => cases hnext

/-! ## Whole runs -/

/-- The machine that `binit` sets up. -/
theorem safe_initial (nbuf : Nat) (buf : Nat → Buf α) (disk : Int → Int → α) :
    Safe (initialMachine nbuf buf disk) := by
  obtain ⟨chains, queues, hlinked, -⟩ := linked_binit nbuf buf disk
  obtain ⟨hnbuf, -, hbufs⟩ := binit_spec nbuf buf disk
  have hinval : ∀ i, i < (binit nbuf buf disk).nbuf →
      ((binit nbuf buf disk).buf i).flags = { Flags.none with inval := true } := by
    intro i hi
    rw [hnbuf] at hi
    exact (hbufs i hi).1
  constructor
  · refine ⟨⟨chains, queues, hnbuf.symm ▸ hlinked⟩, List.nodup_nil, ?_, ?_, ?_, ?_, ?_, ?_⟩
    · intro pid
      exact List.nodup_nil
    · intro pid qid i hmem
      cases hmem
    · intro pid i hmem
      cases hmem
    · intro i hmem
      cases hmem
    · intro pid i hmem
      cases hmem
    · intro i hi _
      show ((binit nbuf buf disk).buf i).flags.async = false
      rw [hinval i hi]
      rfl
  · refine ⟨?_, ?_, ?_, ?_, ?_⟩
    · intro pid dev hdev
      cases hdev
    · intro dev blkno _ i j hi _ hs _
      obtain ⟨-, -, hvalid⟩ := stands_iff.mp hs
      rw [show (initialMachine nbuf buf disk).cache = binit nbuf buf disk from rfl, hinval i hi]
        at hvalid
      cases hvalid
    · intro pid dev blkno hwindow
      cases hwindow
    · intro pid qid key hwindow
      cases hwindow
    · intro _ i hi
      show ((binit nbuf buf disk).buf i).flags.error = false ∧
        (((binit nbuf buf disk).buf i).flags.inval = false → _)
      rw [hinval i hi]
      exact ⟨rfl, fun hvalid => by cases hvalid⟩

/-- For any number of processes, as long as no process misses a block while another one has missed it
and not yet entered it, a block has at most one valid buffer at every moment. Buffers whose
transfer failed belong to no device; they may share a block number. -/
theorem one_buffer_run {tape : Int → Bool} {nbuf : Nat} {buf : Nat → Buf α}
    {disk : Int → Int → α} {events : List Event} {m : Machine α}
    (hrun : Steps (Uncrowded tape) (initialMachine nbuf buf disk) events m) (dev blkno : Int)
    (hkey : dev ≠ NODEV ∨ m.failed = false) : OneBuffer m.cache dev blkno := by
  have hsafe : Safe m :=
    hrun.invariant Safe (fun _ _ _ h hnext => h.next hnext) (safe_initial nbuf buf disk)
  by_cases hdev : dev = NODEV
  · have hfailed : m.failed = false := hkey.resolve_left fun hne => hne hdev
    intro i j hi _ hs _
    obtain ⟨-, hd, hvalid⟩ := stands_iff.mp hs
    exact absurd (hd.trans hdev) ((hsafe.names.whole hfailed i hi).2 hvalid)
  · exact hsafe.names.unique dev blkno hdev

/-- The processes that search find their blocks. -/
def Finds (m : Machine α) : Event → Bool
  | .step pid (.run _) =>
      match (m.procs pid).control with
      | .searching dev blkno _ => (search m.cache dev blkno).isSome
      | _ => true
  | _ => true

theorem not_crowded_of_finds {m : Machine α} {event : Event} (h : Finds m event = true) :
    ¬ Crowded m event := by
  rintro ⟨pid, io, dev, blkno, read, qid, rfl, hcontrol, hsearch, -⟩
  simp [Finds, hcontrol, hsearch] at h

/-- Process 0 has missed block 5. -/
def missed : Machine Nat :=
  { (({ (initialMachine 2 (fun _ => ⟨Flags.none, NODEV, 0, 0⟩) (fun _ _ => (0 : Nat))).setControl 0
      (.searching 0 5 false) with cpu := some 0 } : Machine Nat).setControl 0
        (.newbuf (.block 0 5 false))) with cpu := some 0 }

/-- Process 0 gets a buffer for block 5; process 1 sleeps until it is released. -/
def shared : List Event :=
  [.step 0 (.run .queued), .step 1 (.getblk 0 5), .step 1 (.run .queued), .step 0 (.brelse 1),
    .step 1 (.run .queued), .step 1 (.run .queued)]

/-- The process that slept gets the buffer that the other one had for the block. -/
theorem one_buffer_run_one_block :
    ∃ m, Steps (Uncrowded fun _ => false)
        (initialMachine 2 (fun _ => ⟨Flags.none, NODEV, 0, 0⟩) (fun _ _ => (0 : Nat)))
        (.step 0 (.getblk 0 5) :: .step 0 (.run .queued) :: shared) m ∧
      (m.procs 1).held = [1] ∧ (m.cache.buf 1).stands 0 5 = true ∧ OneBuffer m.cache 0 5 := by
  have hshared : (shared.foldlM
      (fun m e => if Finds m e then m.next (fun _ => false) e else none) missed).map
        (fun m => ((m.procs 1).held, (m.cache.buf 1).stands 0 5)) = some ([1], true) := by
    decide +kernel
  obtain ⟨m, hm, hvalues⟩ := Option.map_eq_some_iff.mp hshared
  obtain ⟨hheld, hstands⟩ := Prod.mk.inj hvalues
  have hrest : Steps (Uncrowded fun _ => false) missed shared m := by
    exact (Steps.of_guarded hm).mono fun _ _ _ hstep => ⟨hstep.2, not_crowded_of_finds hstep.1⟩
  have hrun : Steps (Uncrowded fun _ => false)
      (initialMachine 2 (fun _ => ⟨Flags.none, NODEV, 0, 0⟩) (fun _ _ => (0 : Nat)))
      (.step 0 (.getblk 0 5) :: .step 0 (.run .queued) :: shared) m := by
    refine .cons ⟨rfl, not_crowded_of_finds rfl⟩ (.cons ⟨rfl, ?_⟩ hrest)
    -- the one miss of the run, while the others are outside of the cache
    rintro ⟨pid, io, dev, blkno, read, qid, hevent, -, -, hne, hwindow⟩
    cases hevent
    simp [hne, Machine.setControl, initialMachine, Control.window] at hwindow
  exact ⟨m, hrun, hheld, hstands, one_buffer_run hrun 0 5 (Or.inl (by decide))⟩

end DiscoBsd.Bio
