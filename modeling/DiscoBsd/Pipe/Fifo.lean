import DiscoBsd.Pipe.Transfer

/-!
# A pipe is a queue of bytes

What readers obtained, followed by what the file still has, is what writers stored, and a write that
returns a count has stored everything. This holds along every run whose steps are `Allowed`: a writer
that sleeps for room is not interrupted after a transfer, no transfer goes through after one that
failed, no buffer is unreadable below a write, and no read breaks off after its first block.
-/

namespace DiscoBsd.Pipe

open DiscoBsd.Lib

variable {P : Type}

/-! ## The condition -/

/-- What may happen to a process. -/
def Control.Allowed (rlim_fsize i_size : Nat) (faults : Nat → Option Fault) : Control → Prop
  | .readTransfer count uio_offset => ¬ Broken uio_offset (min count (i_size - uio_offset)) faults
  | .writeTransfer w =>
      ¬ Unreadable rlim_fsize w.uio_offset w.uio_resid faults ∧
        (w.error ≠ none → ¬ Fits rlim_fsize w.uio_offset w.uio_resid faults)
  | _ => True

/-- A writer that sleeps has not had a transfer. -/
def Control.Fresh : Control → Prop
  | .writeSleep w => w.uio_resid = w.data.length
  | _ => True

def Kernel.Allowed (rlim_fsize : P → Nat) (k : Kernel P) : Event P → Prop
  | .run p faults => (k.proc p).Allowed (rlim_fsize p) k.i_size faults
  | .signal p _ => (k.proc p).Fresh
  | _ => True

/-! ## The invariant -/

/-- A write with `left` bytes ahead of it. -/
structure Write.Good (w : Write) (left : Nat) : Prop where
  data : w.data = w.put ++ w.iov
  left_le : left ≤ w.iov.length
  left_eq : w.error = none → left = w.iov.length

/-- A write that returned an error, or the full count with every byte stored. -/
def Finished.Good (w : Finished) : Prop :=
  ∀ n, w.result = .ok n → n = w.data.length ∧ w.put = w.data

namespace Control

def Transfers : Control → Prop
  | .readTransfer _ _ => True
  | .writeTransfer _ => True
  | _ => False

def Good : Control → Prop
  | .writeLock w => w.Good w.c
  | .writeSleep w => w.Good w.c
  | .writeTransfer w => w.Good (w.c + w.uio_resid) ∧ 0 < w.uio_resid
  | _ => True

/-- A transfer starts where the pipe has or takes its next byte. -/
def At (f_offset i_size : Nat) : Control → Prop
  | .readTransfer _ uio_offset => uio_offset = f_offset
  | .writeTransfer w => w.uio_offset = i_size
  | _ => True

end Control

namespace Kernel

/-- The bytes that the pipe has. -/
def unread (k : Kernel P) : List UInt8 := bytes k.file k.f_offset (k.i_size - k.f_offset)

/-- The pipe as a queue, and its offsets. -/
structure Queue (k : Kernel P) : Prop where
  fifo : k.obtained ++ k.unread = k.stored
  offset : k.f_offset < k.i_size ∨ k.f_offset = 0 ∧ k.i_size = 0

/-- A process has the inode to itself. -/
structure Owned (k : Kernel P) (p : P) : Prop where
  queue : k.Queue
  finished : ∀ w ∈ k.finished, w.Good
  others : ∀ q, q ≠ p → (k.proc q).Good ∧ ¬ (k.proc q).Transfers

structure Sound (k : Kernel P) : Prop where
  queue : k.Queue
  finished : ∀ w ∈ k.finished, w.Good
  good : ∀ p, (k.proc p).Good
  locked : ∀ p, (k.proc p).Transfers → k.ilocked = true
  alone : ∀ p q, (k.proc p).Transfers → (k.proc q).Transfers → p = q
  at_transfer : ∀ p, (k.proc p).At k.f_offset k.i_size

theorem Queue.offset_le {k : Kernel P} (h : k.Queue) : k.f_offset ≤ k.i_size := by
  rcases h.offset with hlt | ⟨hzero, -⟩
  · exact Nat.le_of_lt hlt
  · omega

theorem Control.at_of_not_transfers {c : Control} (h : ¬ c.Transfers) (f_offset i_size : Nat) :
    c.At f_offset i_size := by
  cases c <;> first | trivial | exact absurd trivial h

theorem Sound.owned_of_free {k : Kernel P} (h : k.Sound) (hfree : k.ilocked = false) (p : P) :
    Owned { k with ilocked := true } p where
  queue := ⟨h.queue.fifo, h.queue.offset⟩
  finished := h.finished
  others q _ := ⟨h.good q, fun ht => by
    have := h.locked q ht
    rw [hfree] at this
    cases this⟩

theorem Sound.owned_of_transfers {k : Kernel P} (h : k.Sound) {p : P}
    (hp : (k.proc p).Transfers) : Owned k p where
  queue := h.queue
  finished := h.finished
  others q hq := ⟨h.good q, fun ht => hq (h.alone q p ht hp)⟩

variable [DecidableEq P]

theorem proc_goTo_self (k : Kernel P) (p : P) (c : Control) : (k.goTo p c).proc p = c :=
  Function.update_self ..

theorem proc_goTo_of_ne (k : Kernel P) {p q : P} (h : q ≠ p) (c : Control) :
    (k.goTo p c).proc q = k.proc q :=
  Function.update_of_ne h ..

omit [DecidableEq P] in
theorem Owned.unlock {k : Kernel P} {p : P} (h : Owned k p) : Owned k.unlock p :=
  ⟨⟨h.queue.fifo, h.queue.offset⟩, h.finished, h.others⟩

/-- A process that has the inode to itself comes to another point. -/
theorem Owned.goTo {k : Kernel P} {p : P} (h : Owned k p) {c : Control} (hgood : c.Good)
    (hlocked : c.Transfers → k.ilocked = true) (hat : c.At k.f_offset k.i_size) :
    (k.goTo p c).Sound := by
  have honly : ∀ q, ((k.goTo p c).proc q).Transfers → q = p := by
    intro q hq
    by_contra hne
    rw [proc_goTo_of_ne k hne] at hq
    exact (h.others q hne).2 hq
  refine ⟨⟨h.queue.fifo, h.queue.offset⟩, h.finished, fun q => ?_, fun q hq => ?_,
    fun q q' hq hq' => (honly q hq).trans (honly q' hq').symm, fun q => ?_⟩
  · by_cases hq : q = p
    · rw [hq, proc_goTo_self]
      exact hgood
    · rw [proc_goTo_of_ne k hq]
      exact (h.others q hq).1
  · rw [honly q hq, proc_goTo_self] at hq
    exact hlocked hq
  · by_cases hq : q = p
    · rw [hq, proc_goTo_self]
      exact hat
    · rw [proc_goTo_of_ne k hq]
      exact Control.at_of_not_transfers (h.others q hq).2 _ _

theorem Owned.release {k : Kernel P} {p : P} (h : Owned k p) {c : Control} (hgood : c.Good)
    (hc : ¬ c.Transfers) : (k.unlock.goTo p c).Sound :=
  h.unlock.goTo hgood (fun ht => absurd ht hc) (Control.at_of_not_transfers hc _ _)

theorem Owned.returnWrite {k : Kernel P} {p : P} (h : Owned k p) {w : Write}
    {result : Except Errno Nat} (hw : Finished.Good ⟨w.data, w.put, result⟩) :
    (k.unlock.returnWrite p w result).Sound := by
  have hk : Owned { k with finished := ⟨w.data, w.put, result⟩ :: k.finished } p :=
    ⟨⟨h.queue.fifo, h.queue.offset⟩, fun w' hw' => by
      rcases List.mem_cons.mp hw' with rfl | hw'
      · exact hw
      · exact h.finished w' hw', h.others⟩
  exact hk.release (c := .idle) trivial id

/-- A process that has nothing to do with the inode comes to another point. -/
theorem Sound.goTo {k : Kernel P} (h : k.Sound) {p : P} {c : Control}
    (hgood : c.Good) (hc : ¬ c.Transfers) : (k.goTo p c).Sound := by
  have hsame : ∀ q, ((k.goTo p c).proc q).Transfers → (k.proc q).Transfers := by
    intro q hq
    by_cases hne : q = p
    · rw [hne, proc_goTo_self] at hq
      exact absurd hq hc
    · rwa [proc_goTo_of_ne k hne] at hq
  refine ⟨⟨h.queue.fifo, h.queue.offset⟩, h.finished, fun q => ?_,
    fun q hq => h.locked q (hsame q hq), fun q q' hq hq' => h.alone q q' (hsame q hq) (hsame q' hq'),
    fun q => ?_⟩
  · by_cases hq : q = p
    · rw [hq, proc_goTo_self]
      exact hgood
    · rw [proc_goTo_of_ne k hq]
      exact h.good q
  · by_cases hq : q = p
    · rw [hq, proc_goTo_self]
      exact Control.at_of_not_transfers hc _ _
    · rw [proc_goTo_of_ne k hq]
      exact h.at_transfer q

/-! ## The steps -/

theorem Owned.readp {k : Kernel P} {p : P} (h : Owned k p) (hlocked : k.ilocked = true)
    (count : Nat) (nonblock : Bool) : (k.readp p count nonblock).Sound := by
  rw [Kernel.readp]
  split
  · split
    · exact h.release (c := .idle) trivial id
    · split
      · exact h.release (c := .idle) trivial id
      · exact h.release (c := .readSleep count nonblock) trivial id
  · exact h.goTo (c := .readTransfer count k.f_offset) trivial (fun _ => hlocked) rfl

theorem Owned.writeLoop {k : Kernel P} {p : P} (h : Owned k p) (hlocked : k.ilocked = true)
    {w : Write} (hw : w.Good w.c) : (k.writeLoop p w).Sound := by
  rw [Kernel.writeLoop]
  split
  · rename_i hdone
    apply h.returnWrite
    intro n hn
    cases herror : w.error with
    | some error =>
        rw [herror] at hn
        cases hn
    | none =>
        rw [herror] at hn
        have hiov : w.iov = [] := List.length_eq_zero_iff.mp (by rw [← hw.left_eq herror, hdone])
        refine ⟨(Except.ok.inj hn).symm, ?_⟩
        rw [hw.data, hiov, List.append_nil]
  · rename_i hmore
    split
    · exact h.returnWrite fun n hn => nomatch hn
    · split
      · exact h.release (c := .writeSleep w) hw id
      · refine h.goTo ?_ (fun _ => hlocked) rfl
        have hleft : w.c - min w.c MAXPIPSIZ + min w.c MAXPIPSIZ = w.c :=
          Nat.sub_add_cancel (Nat.min_le_left ..)
        refine ⟨⟨hw.data, ?_, ?_⟩, ?_⟩
        · exact hleft.symm ▸ hw.left_le
        · exact fun herror => hleft.trans (hw.left_eq herror)
        · exact Nat.lt_min.mpr ⟨Nat.pos_of_ne_zero hmore, by decide⟩

theorem Owned.writep {k : Kernel P} {p : P} (h : Owned k p) (hlocked : k.ilocked = true)
    {w : Write} (hw : w.Good w.c) : (k.writep p w).Sound := by
  rw [Kernel.writep]
  split
  · exact h.returnWrite fun n hn => nomatch hn
  · exact h.writeLoop hlocked hw

omit [DecidableEq P] in
/-- A reader takes bytes, and all that is left when it has caught up starts afresh. -/
theorem Owned.take {k : Kernel P} {p : P} (h : Owned k p) {m : Nat}
    (hm : k.f_offset + m ≤ k.i_size) :
    Owned (let k := { k with
        f_offset := k.f_offset + m
        obtained := k.obtained ++ bytes k.file k.f_offset m }
      if k.f_offset = k.i_size then { k with f_offset := 0, i_size := 0 } else k) p := by
  have hleft : k.i_size - k.f_offset = m + (k.i_size - (k.f_offset + m)) := by omega
  have hfifo : k.obtained ++ (bytes k.file k.f_offset m ++
      bytes k.file (k.f_offset + m) (k.i_size - (k.f_offset + m))) = k.stored := by
    rw [← bytes_add, ← hleft]
    exact h.queue.fifo
  dsimp only
  split
  · rename_i hend
    rw [hend, Nat.sub_self, bytes, List.append_nil] at hfifo
    refine ⟨⟨?_, .inr ⟨rfl, rfl⟩⟩, h.finished, h.others⟩
    rw [unread, Nat.sub_self, bytes, List.append_nil]
    exact hfifo
  · rename_i hmore
    refine ⟨⟨?_, .inl ?_⟩, h.finished, h.others⟩
    · rw [unread, List.append_assoc]
      exact hfifo
    · exact Nat.lt_of_le_of_ne hm hmore

theorem Owned.readTransfer {k : Kernel P} {p : P} (h : Owned k p) {count : Nat}
    {faults : Nat → Option Fault}
    (hwhole : ¬ Broken k.f_offset (min count (k.i_size - k.f_offset)) faults) :
    (k.readTransfer p count k.f_offset faults).Sound := by
  have hmoved := rwipIn_moved k.file ⟨k.f_offset, count, []⟩ h.queue.offset_le hwhole
  rcases hio : rwipIn k.file k.i_size faults ⟨k.f_offset, count, []⟩ with ⟨error, io⟩
  rw [hio] at hmoved
  obtain ⟨m, hm, rfl, herror⟩ := hmoved
  have hobtained : (if error = none then k.obtained ++ ([] ++ bytes k.file k.f_offset m)
      else k.obtained) = k.obtained ++ bytes k.file k.f_offset m := by
    rcases herror with rfl | rfl
    · rw [if_pos rfl, List.nil_append]
    · rw [bytes, List.append_nil, List.append_nil, ite_self]
  rw [Kernel.readTransfer, hio]
  simp only [In.moved, hobtained]
  exact (h.take hm).release (c := .idle) trivial id

omit [DecidableEq P] in
/-- A writer puts bytes at the end. -/
theorem Owned.put {k : Kernel P} {p : P} (h : Owned k p) (cs : List UInt8) :
    Owned { k with
      file := store k.file k.i_size cs
      i_size := k.i_size + cs.length
      stored := k.stored ++ cs } p := by
  have hle := h.queue.offset_le
  have hunread : bytes (store k.file k.i_size cs) k.f_offset (k.i_size + cs.length - k.f_offset) =
      k.unread ++ cs := by
    have hleft : k.i_size + cs.length - k.f_offset = k.i_size - k.f_offset + cs.length := by omega
    have hend : k.f_offset + (k.i_size - k.f_offset) = k.i_size := by omega
    rw [hleft, bytes_add, hend, bytes_store, unread]
    congr 1
    exact bytes_congr fun b _ hb => store_of_lt (by omega)
  refine ⟨⟨?_, ?_⟩, h.finished, h.others⟩
  · show k.obtained ++ bytes (store k.file k.i_size cs) k.f_offset _ = k.stored ++ cs
    rw [hunread, ← List.append_assoc, h.queue.fifo]
  · show k.f_offset < k.i_size + cs.length ∨ k.f_offset = 0 ∧ k.i_size + cs.length = 0
    rcases h.queue.offset with hlt | ⟨hzero, hsize⟩
    · exact .inl (by omega)
    · omega

theorem Owned.writeTransfer {rlim_fsize : Nat} {k : Kernel P} {p : P} (h : Owned k p)
    (hlocked : k.ilocked = true) {w : Write} (hoffset : w.uio_offset = k.i_size)
    (hw : w.Good (w.c + w.uio_resid)) (hpos : 0 < w.uio_resid) {faults : Nat → Option Fault}
    (hread : ¬ Unreadable rlim_fsize w.uio_offset w.uio_resid faults)
    (hfits : w.error ≠ none → ¬ Fits rlim_fsize w.uio_offset w.uio_resid faults) :
    (writeTransfer rlim_fsize k p w faults).Sound := by
  have hlength : w.uio_resid ≤ w.iov.length := by
    have := hw.left_le
    omega
  have hmoved := rwipOut_moved ⟨k.file, k.i_size, w.uio_offset, w.uio_resid, w.iov⟩ hoffset.symm
    hlength hpos hread
  rcases hio : rwipOut rlim_fsize faults ⟨k.file, k.i_size, w.uio_offset, w.uio_resid, w.iov⟩ with
    ⟨error, io⟩
  rw [hio] at hmoved
  obtain ⟨m, hm, rfl, hnone, hall⟩ := hmoved
  dsimp only at hm hall
  have hm' : m ≤ w.iov.length := Nat.le_trans hm hlength
  have hmoved : w.iov.take (w.iov.length - (w.iov.drop m).length) = w.iov.take m := by
    rw [List.length_drop, Nat.sub_sub_self hm']
  rw [Kernel.writeTransfer, hio]
  simp only [Out.moved, hmoved, hoffset]
  have hput := h.put (w.iov.take m)
  rw [List.length_take_of_le hm'] at hput
  refine hput.writeLoop hlocked ⟨?_, ?_, ?_⟩
  · rw [List.append_assoc, List.take_append_drop]
    exact hw.data
  · have := hw.left_le
    simp only [List.length_drop]
    omega
  · intro herror
    have hprior : w.error = none := by
      by_contra hne
      exact hfits hne (hnone.mp herror)
    have := hw.left_eq hprior
    have := hall herror
    simp only [List.length_drop]
    omega

/-! ## Runs -/

omit [DecidableEq P] in
theorem sound_boot (file : Nat → UInt8) : (boot file : Kernel P).Sound where
  queue := ⟨rfl, .inr ⟨rfl, rfl⟩⟩
  finished _ hw := nomatch hw
  good _ := trivial
  locked _ ht := ht.elim
  alone _ _ ht := ht.elim
  at_transfer _ := trivial

omit [DecidableEq P] in
/-- Locking the inode leads to a sound state if what follows does. -/
theorem Sound.locking {k k' : Kernel P} (h : k.Sound) {p : P} {next : Kernel P → Kernel P}
    (hnext : ∀ k, Owned k p → k.ilocked = true → (next k).Sound)
    (hstep : k.locking next = some k') : k'.Sound := by
  rw [Kernel.locking] at hstep
  split at hstep
  · cases hstep
  · rename_i hfree
    cases hstep
    exact hnext _ (h.owned_of_free (Bool.eq_false_iff.mpr hfree) p) rfl

theorem Sound.event {rlim_fsize : P → Nat} {k k' : Kernel P} {e : Event P} (h : k.Sound)
    (hallowed : k.Allowed rlim_fsize e) (hstep : k.event rlim_fsize e = some k') : k'.Sound := by
  cases e with
  | read p count nonblock =>
      rw [Kernel.event] at hstep
      split at hstep
      · cases hstep
        exact h.goTo (c := .readLock count nonblock) trivial id
      · cases hstep
  | write p data nonblock =>
      rw [Kernel.event] at hstep
      split at hstep
      · cases hstep
        exact h.goTo (c := .writeLock _) ⟨rfl, Nat.le_refl _, fun _ => rfl⟩ id
      · cases hstep
  | run p faults =>
      have hgood := h.good p
      have hat := h.at_transfer p
      have howned := h.owned_of_transfers (p := p)
      have hlocked := h.locked p
      rw [Kernel.Allowed] at hallowed
      rw [Kernel.event] at hstep
      cases hp : k.proc p with
      | idle =>
          rw [hp] at hstep
          cases hstep
      | readLock count nonblock =>
          rw [hp] at hstep
          exact h.locking (fun k hk hl => hk.readp hl count nonblock) hstep
      | readSleep count nonblock =>
          rw [hp] at hstep
          exact h.locking (fun k hk hl => hk.readp hl count nonblock) hstep
      | readTransfer count uio_offset =>
          rw [hp] at hstep hat howned hallowed
          cases hstep
          cases hat
          exact (howned trivial).readTransfer hallowed
      | writeLock w =>
          rw [hp] at hstep hgood
          exact h.locking (fun k hk hl => hk.writep hl hgood) hstep
      | writeSleep w =>
          rw [hp] at hstep hgood
          exact h.locking (fun k hk hl => hk.writeLoop hl hgood) hstep
      | writeTransfer w =>
          rw [hp] at hstep hgood hat howned hlocked hallowed
          cases hstep
          exact (howned trivial).writeTransfer (hlocked trivial) hat hgood.1 hgood.2 hallowed.1
            hallowed.2
  | signal p intr =>
      rw [Kernel.event] at hstep
      rw [Kernel.Allowed] at hallowed
      split at hstep
      · cases hstep
        exact h.goTo (c := .idle) trivial id
      · rename_i w hw
        cases hstep
        rw [hw] at hallowed
        change w.uio_resid = w.data.length at hallowed
        have hk := h.goTo (p := p) (c := .idle) trivial id
        refine ⟨⟨hk.queue.fifo, hk.queue.offset⟩, fun w' hw' => ?_, hk.good, hk.locked, hk.alone,
          hk.at_transfer⟩
        rcases List.mem_cons.mp hw' with rfl | hw'
        · intro n hn
          rw [interrupted, if_pos hallowed] at hn
          cases hn
        · exact hk.finished w' hw'
      · cases hstep
  | close =>
      cases hstep
      exact ⟨⟨h.queue.fifo, h.queue.offset⟩, h.finished, h.good, h.locked, h.alone, h.at_transfer⟩

/-- The steps of a run that meets the condition. -/
def Step (rlim_fsize : P → Nat) (k : Kernel P) (e : Event P) (k' : Kernel P) : Prop :=
  k.Allowed rlim_fsize e ∧ k.event rlim_fsize e = some k'

end Kernel

/-- The transfer of the first 4096 of 4097 bytes. -/
def firstTransfer (data : List UInt8) : Write :=
  ⟨data, false, 1, none, 0, 4096, data, []⟩

/-- The sleep for room after it. -/
def afterTransfer (data : List UInt8) : Write :=
  ⟨data, false, 1, none, 4096, 0, data.drop 4096, data.take 4096⟩

def empty : Kernel Unit := .boot fun _ => 0

theorem event_firstTransfer {data : List UInt8} (h : data.length = 4097) :
    (empty.goTo () (.writeLock ⟨data, false, data.length, none, 0, data.length, data, []⟩)).event
        (fun _ => 100000) (.run () fun _ => none) =
      some (Kernel.goTo { empty with ilocked := true } () (.writeTransfer (firstTransfer data))) := by
  have hmin : min data.length MAXPIPSIZ = 4096 := by
    rw [h]
    rfl
  have hlong : data.length ≠ 0 := by omega
  rw [Kernel.event, Kernel.proc_goTo_self]
  simp only [Kernel.locking, Kernel.goTo, empty, Kernel.boot, Bool.false_eq_true, if_false,
    Kernel.writep, false_and, Kernel.writeLoop, hlong, ne_eq, not_true, hmin]
  rw [if_neg (by decide)]
  simp only [Function.update_idem, firstTransfer, h]

theorem event_afterTransfer {data : List UInt8} (h : data.length = 4097) :
    (Kernel.goTo { empty with ilocked := true } () (.writeTransfer (firstTransfer data))).event
        (fun _ => 100000) (.run () fun _ => none) =
      some (Kernel.goTo
        { empty with
          file := store (fun _ => 0) 0 (data.take 4096)
          i_size := 4096
          stored := data.take 4096 } () (.writeSleep (afterTransfer data))) := by
  have hfits : Fits 100000 0 4096 fun _ => none := ⟨by decide, rfl⟩
  have hwhole : rwipOut 100000 (fun _ => none) ⟨fun _ => 0, 0, 0, 4096, data⟩ =
      (none, Out.moved ⟨fun _ => 0, 0, 0, 4096, data⟩ 4096) :=
    rwipOut_of_fits rfl (by simp only [h]; decide) (Nat.succ_pos 4095) hfits
  have hmoved : data.length - (data.drop 4096).length = 4096 := by
    rw [List.length_drop, h]
  rw [Kernel.event, Kernel.proc_goTo_self]
  dsimp only
  rw [Kernel.writeTransfer]
  simp only [firstTransfer, empty, Kernel.boot, Kernel.goTo, hwhole, Out.moved, hmoved,
    Kernel.writeLoop, List.nil_append, Kernel.unlock, afterTransfer, Function.update_idem]
  rfl

variable [DecidableEq P]

/-- The bytes that readers obtain are those that writers stored, in order, up to those the pipe still
has, and a write returns an error or the full count with every byte stored. -/
theorem pipe_fifo (rlim_fsize : P → Nat) (file : Nat → UInt8) {events : List (Event P)}
    {k : Kernel P} (hrun : Steps (Kernel.Step rlim_fsize) (.boot file) events k) :
    k.obtained ++ k.unread = k.stored ∧
      ∀ w ∈ k.finished, ∀ n, w.result = .ok n → n = w.data.length ∧ w.put = w.data := by
  have hsound : k.Sound :=
    Steps.invariant Kernel.Sound (fun _ _ _ h hstep => h.event hstep.1 hstep.2) hrun
      (Kernel.sound_boot file)
  exact ⟨hsound.queue.fifo, hsound.finished⟩

/-- One process writes two bytes, another reads them; and of a write of 4097 bytes the first 4096 are in
the pipe. -/
theorem pipe_fifo_two :
    (∃ k : Kernel Bool, Steps (Kernel.Step fun _ => 100) (.boot fun _ => 0)
        [.write false [1, 2] false, .run false fun _ => none, .run false fun _ => none,
          .read true 2 false, .run true fun _ => none, .run true fun _ => none] k ∧
      k.obtained = [1, 2] ∧ k.obtained ++ k.unread = k.stored) ∧
    ∃ k : Kernel Unit, Steps (Kernel.Step fun _ => 100000) empty
        [.write () (List.replicate 4097 1) false, .run () fun _ => none, .run () fun _ => none] k ∧
      k.stored.length = 4096 ∧ k.obtained ++ k.unread = k.stored := by
  have hrun : Steps (Kernel.Step fun _ => 100) (.boot fun _ => 0)
      [.write false [1, 2] false, .run false fun _ => none, .run false fun _ => none,
        .read true 2 false, .run true fun _ => none, .run true fun _ => none] _ :=
    .cons ⟨trivial, rfl⟩ (.cons ⟨trivial, rfl⟩
      (.cons ⟨And.intro (fun h => nomatch h.2) (fun h => absurd rfl h), rfl⟩ (.cons ⟨trivial, rfl⟩
        (.cons ⟨trivial, rfl⟩ (.cons ⟨fun h => absurd rfl h.2, rfl⟩ (.refl _))))))
  have hlength : (List.replicate 4097 (1 : UInt8)).length = 4097 := List.length_replicate
  generalize List.replicate 4097 (1 : UInt8) = data at hlength
  have hreadable : ¬ Unreadable 100000 0 4096 fun _ => none := by
    intro h
    have hnone : firstFault (fun _ => none) 0 (blocks 0 4096) = none := rfl
    rw [Unreadable, hnone] at h
    cases h.2
  have hlong : Steps (Kernel.Step fun _ => 100000) empty
      [.write () data false, .run () fun _ => none, .run () fun _ => none] _ :=
    .cons ⟨trivial, rfl⟩ (.cons ⟨trivial, event_firstTransfer hlength⟩
      (.cons ⟨And.intro hreadable (fun h => absurd rfl h), event_afterTransfer hlength⟩
        (.refl _)))
  refine ⟨⟨_, hrun, rfl, (pipe_fifo _ _ hrun).1⟩, _, hlong, ?_, (pipe_fifo _ _ hlong).1⟩
  show (data.take 4096).length = 4096
  rw [List.length_take, hlength]
  rfl

/-- A writer that sleeps for room after its first 4096 bytes returns the full count of 4097 when a
signal comes. -/
theorem pipe_write_cut :
    ∃ k : Kernel Unit, Steps (Steps.Of (Kernel.event fun _ => 100000)) empty
        [.write () (List.replicate 4097 0) false, .run () fun _ => none, .run () fun _ => none,
          .signal () false] k ∧
      ∃ w ∈ k.finished, w.result = .ok w.data.length ∧ w.put ≠ w.data := by
  have hlength : (List.replicate 4097 (0 : UInt8)).length = 4097 := List.length_replicate
  generalize List.replicate 4097 (0 : UInt8) = data at hlength
  have hrun : Steps (Steps.Of (Kernel.event fun _ => 100000)) empty
      [.write () data false, .run () fun _ => none, .run () fun _ => none, .signal () false] _ :=
    .cons rfl (.cons (event_firstTransfer hlength)
      (.cons (event_afterTransfer hlength) (.cons rfl (.refl _))))
  refine ⟨_, hrun, _, List.mem_singleton_self _, ?_, fun hput => ?_⟩
  · simp only [Kernel.interrupted, afterTransfer, hlength]
    rfl
  · have hshort := congrArg List.length hput
    simp only [afterTransfer, List.length_take, hlength] at hshort
    omega

end DiscoBsd.Pipe
