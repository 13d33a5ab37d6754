import Mathlib.Algebra.Order.BigOperators.Group.Finset
import DiscoBsd.File.Flock

/-!
# Locks and their counts

`Sound` is the invariant of the advisory locks: the counters of an inode are the numbers of open files that
hold a lock on it, the flags agree with the counters, and a process that sleeps is waited for: its lock
is not free, and `ILWAIT` is set. Each operation keeps it, and `flock_run` is the result for all runs.
-/

namespace DiscoBsd.File

open DiscoBsd.Lib

variable {F I P : Type*} [Fintype F] [DecidableEq F] [DecidableEq I]

theorem update_kept {A B C : Type*} [DecidableEq A] {f : A → B} {a : A} {b : B} (get : B → C)
    (h : get b = get (f a)) (q : A) : get (Function.update f a b q) = get (f q) := by
  by_cases hq : q = a
  · rw [hq, Function.update_self, h]
  · rw [Function.update_of_ne hq]

/-- The files that hold a lock on an inode. -/
def holders (flag : OpenFile I → Bool) (file : F → OpenFile I) (ip : I) : Finset F :=
  {fp | flag (file fp) = true ∧ (file fp).f_data = ip}

section Holders

variable {flag : OpenFile I → Bool} {file file' : F → OpenFile I} {fp : F} {x : OpenFile I} {ip : I}

omit [DecidableEq F] in
theorem mem_holders : fp ∈ holders flag file ip ↔ flag (file fp) = true ∧ (file fp).f_data = ip := by
  simp [holders]

omit [DecidableEq F] in
theorem holders_congr (hflag : ∀ fp, flag (file' fp) = flag (file fp))
    (hdata : ∀ fp, flag (file fp) = true → (file' fp).f_data = (file fp).f_data) :
    holders flag file' ip = holders flag file ip := by
  ext fp
  rw [mem_holders, mem_holders, hflag fp]
  refine and_congr_right fun hset => ?_
  rw [hdata fp hset]

theorem holders_erase (hx : flag x = false) :
    holders flag (Function.update file fp x) ip = (holders flag file ip).erase fp := by
  ext q
  rw [Finset.mem_erase, mem_holders, mem_holders]
  by_cases hq : q = fp
  · subst hq
    simp [hx]
  · rw [Function.update_of_ne hq]
    simp [hq]

theorem holders_insert (hx : flag x = true) (hdata : x.f_data = (file fp).f_data) :
    holders flag (Function.update file fp x) (file fp).f_data =
      insert fp (holders flag file (file fp).f_data) := by
  ext q
  rw [Finset.mem_insert, mem_holders, mem_holders]
  by_cases hq : q = fp
  · rw [hq, Function.update_self, hx, hdata]
    simp
  · rw [Function.update_of_ne hq, or_iff_right hq]

theorem card_holders_clear (flag : OpenFile I → Bool) (file : F → OpenFile I) (fp : F) (x : OpenFile I)
    (hx : flag x = false) (hset : flag (file fp) = true) :
    (holders flag (Function.update file fp x) (file fp).f_data).card =
      (holders flag file (file fp).f_data).card - 1 := by
  rw [holders_erase hx, Finset.card_erase_of_mem (mem_holders.mpr ⟨hset, rfl⟩)]

/-- A file that held no lock gets it. -/
theorem card_holders_set (flag : OpenFile I → Bool) (file : F → OpenFile I) (fp : F) (x : OpenFile I)
    (hx : flag x = true)
    (hdata : x.f_data = (file fp).f_data) (hfree : flag (file fp) = false) :
    (holders flag (Function.update file fp x) (file fp).f_data).card =
      (holders flag file (file fp).f_data).card + 1 := by
  have hnot : fp ∉ holders flag file (file fp).f_data := fun hmem => by
    rw [mem_holders, hfree] at hmem
    cases hmem.1
  rw [holders_insert hx hdata, Finset.card_insert_of_notMem hnot]

theorem holders_update (flag : OpenFile I → Bool) (file : F → OpenFile I) (fp : F) (x : OpenFile I)
    (ip : I) (hx : flag x = flag (file fp)) (hdata : x.f_data = (file fp).f_data) :
    holders flag (Function.update file fp x) ip = holders flag file ip :=
  holders_congr (update_kept flag hx) fun q _ => update_kept OpenFile.f_data hdata q

theorem holders_of_ne (hdata : x.f_data = (file fp).f_data) (hip : ip ≠ (file fp).f_data) :
    holders flag (Function.update file fp x) ip = holders flag file ip := by
  ext q
  rw [mem_holders, mem_holders]
  by_cases hq : q = fp
  · rw [hq, Function.update_self, hdata]
    simp [Ne.symm hip]
  · rw [Function.update_of_ne hq]

omit [DecidableEq F] in
theorem card_holders_pos (flag : OpenFile I → Bool) (hset : flag (file fp) = true) :
    0 < (holders flag file (file fp).f_data).card :=
  Finset.card_pos.mpr ⟨fp, mem_holders.mpr ⟨hset, rfl⟩⟩

end Holders

/-- The counters and the flags of an inode, for the numbers of files that hold a lock on it. -/
structure Agree (locks : InodeLocks) (shared exclusive : Nat) : Prop where
  i_shlockc : locks.i_shlockc = shared
  i_exlockc : locks.i_exlockc = exclusive
  ishlock : locks.ishlock = true ↔ 0 < shared
  iexlock : locks.iexlock = true ↔ 0 < exclusive
  one : exclusive ≤ 1
  apart : 0 < exclusive → shared = 0

namespace Locks

/-- The lock that a call waits for is not free. -/
def Blocked (locks : InodeLocks) (cmd : How) : Prop :=
  locks.iexlock = true ∨ cmd.ex = true ∧ locks.ishlock = true

/-- The process is in `flock`, asleep or woken up. -/
def Waits (s : Locks F I P) (p : P) (fp : F) : Prop :=
  ∃ cmd, s.proc p = .asleep fp cmd ∨ s.proc p = .woken fp cmd

variable [Fintype P]

structure Sound (s : Locks F I P) : Prop where
  agree : ∀ ip, Agree (s.inode ip) (holders OpenFile.fshlock s.file ip).card
    (holders OpenFile.fexlock s.file ip).card
  locked : ∀ fp, (s.file fp).fshlock = true ∨ (s.file fp).fexlock = true →
    0 < (s.file fp).f_count ∧ (s.file fp).f_type = .DTYPE_INODE
  asleep : ∀ p fp cmd, s.proc p = .asleep fp cmd →
    (s.inode (s.file fp).f_data).ilwait = true ∧ Blocked (s.inode (s.file fp).f_data) cmd
  waits : ∀ p fp, s.Waits p fp → 0 < s.fds p fp ∧ (s.file fp).f_type = .DTYPE_INODE
  count : ∀ fp, (s.file fp).f_count = ∑ p, s.fds p fp

variable {s s' : Locks F I P} {fp : F} {p : P} {ip : I}

omit [DecidableEq F] in
theorem Sound.open_of_fds (h : s.Sound) (hfds : 0 < s.fds p fp) : 0 < (s.file fp).f_count := by
  have hle : s.fds p fp ≤ ∑ q, s.fds q fp :=
    Finset.single_le_sum (f := fun q => s.fds q fp) (fun _ _ => Nat.zero_le _) (Finset.mem_univ p)
  rw [h.count]
  exact lt_of_lt_of_le hfds hle

omit [DecidableEq F] in
theorem Sound.not_both (h : s.Sound) (hsh : (s.file fp).fshlock = true) :
    (s.file fp).fexlock = false := by
  by_contra hex
  have hex : (s.file fp).fexlock = true := by simpa using hex
  have hzero := (h.agree (s.file fp).f_data).apart (card_holders_pos OpenFile.fexlock hex)
  have hpos := card_holders_pos OpenFile.fshlock hsh
  omega

/-- An operation on one file changes its inode alone. -/
theorem Sound.agree_update (h : s.Sound) {x : OpenFile I} {locks : InodeLocks}
    (hdata : x.f_data = (s.file fp).f_data)
    (hlocks : Agree locks
      (holders OpenFile.fshlock (Function.update s.file fp x) (s.file fp).f_data).card
      (holders OpenFile.fexlock (Function.update s.file fp x) (s.file fp).f_data).card) (ip : I) :
    Agree (Function.update s.inode (s.file fp).f_data locks ip)
      (holders OpenFile.fshlock (Function.update s.file fp x) ip).card
      (holders OpenFile.fexlock (Function.update s.file fp x) ip).card := by
  by_cases hip : ip = (s.file fp).f_data
  · rw [hip, Function.update_self]
    exact hlocks
  · rw [Function.update_of_ne hip, holders_of_ne hdata hip, holders_of_ne hdata hip]
    exact h.agree ip

omit [Fintype F] [DecidableEq F] [Fintype P] in
/-- Processes stay blocked on the inodes that do not change. -/
theorem blocked_update {locks : InodeLocks} {ip' : I} {cmd : How}
    (hblocked : (s.inode ip').ilwait = true ∧ Blocked (s.inode ip') cmd)
    (hlocks : ip' = ip → locks.ilwait = true ∧ Blocked locks cmd) :
    (Function.update s.inode ip locks ip').ilwait = true ∧
      Blocked (Function.update s.inode ip locks ip') cmd := by
  by_cases hip : ip' = ip
  · rw [hip, Function.update_self]
    exact hlocks hip
  · rw [Function.update_of_ne hip]
    exact hblocked

/-! ## `ino_unlock` -/

omit [Fintype F] [DecidableEq F] [Fintype P] in
/-- A wakeup leaves no process asleep on the inode. -/
theorem asleep_of_wakeup {cmd : How} (h : (s.wakeup ip).proc p = .asleep fp cmd) :
    s.proc p = .asleep fp cmd ∧ (s.file fp).f_data ≠ ip := by
  unfold wakeup at h
  dsimp only at h
  split at h
  next fp' cmd' hproc =>
    split at h
    · cases h
    next hother =>
      cases h
      exact ⟨hproc, hother⟩
  next state hne =>
    exact absurd h (hne fp cmd)

omit [Fintype F] [DecidableEq F] [Fintype P] in
theorem waits_of_wakeup (h : (s.wakeup ip).Waits p fp) : s.Waits p fp := by
  obtain ⟨cmd, h⟩ := h
  unfold wakeup at h
  dsimp only at h
  split at h
  next fp' cmd' hproc =>
    split at h
    · rcases h with h | h
      · cases h
      · cases h
        exact ⟨cmd, Or.inl hproc⟩
    · rcases h with h | h
      · cases h
        exact ⟨cmd, Or.inl hproc⟩
      · cases h
  next state hne => exact ⟨cmd, h⟩

/-- A lock was released: processes may have been woken up, and the files are as they were but for their
lock flags. -/
structure Released (s s' : Locks F I P) (ip : I) (woke : Prop) [Decidable woke] : Prop where
  f_count : ∀ fp, (s'.file fp).f_count = (s.file fp).f_count
  f_type : ∀ fp, (s'.file fp).f_type = (s.file fp).f_type
  f_data : ∀ fp, (s'.file fp).f_data = (s.file fp).f_data
  fds : s'.fds = s.fds
  proc : s'.proc = if woke then (s.wakeup ip).proc else s.proc

section Released

variable {woke : Prop} [Decidable woke]

omit [Fintype F] [DecidableEq F] [Fintype P] in
theorem Released.asleep (h : Released s s' ip woke) {cmd : How}
    (hproc : s'.proc p = .asleep fp cmd) :
    s.proc p = .asleep fp cmd ∧ ((s.file fp).f_data = ip → ¬ woke) := by
  rw [h.proc] at hproc
  split at hproc
  next hwoke =>
    obtain ⟨hasleep, hne⟩ := asleep_of_wakeup hproc
    exact ⟨hasleep, fun heq => absurd heq hne⟩
  next hwoke => exact ⟨hproc, fun _ => hwoke⟩

omit [Fintype F] [DecidableEq F] [Fintype P] in
theorem Released.waits (h : Released s s' ip woke) (hwaits : s'.Waits p fp) : s.Waits p fp := by
  obtain ⟨cmd, hproc⟩ := hwaits
  rw [h.proc] at hproc
  split at hproc
  · exact waits_of_wakeup ⟨cmd, hproc⟩
  · exact ⟨cmd, hproc⟩

end Released

theorem pred_mod {n : Nat} (hpos : 0 < n) (hlt : n < 65536) : (n + 65535) % 65536 = n - 1 := by
  omega

omit [Fintype F] [Fintype P] in
theorem released_unlockShared (s : Locks F I P) (fp : F) (wait : Bool) :
    Released s (s.unlockShared fp wait) (s.file fp).f_data
      (((s.inode (s.file fp).f_data).i_shlockc + 65535) % 65536 = 0 ∧ wait = true) := by
  rw [unlockShared_eq]
  dsimp only
  generalize (_ + 65535) % 65536 = c
  exact ⟨update_kept OpenFile.f_count rfl, update_kept OpenFile.f_type rfl,
    update_kept OpenFile.f_data rfl, rfl, rfl⟩

omit [Fintype F] [Fintype P] in
theorem released_unlockExclusive (s : Locks F I P) (fp : F) (wait : Bool) :
    Released s (s.unlockExclusive fp wait) (s.file fp).f_data
      (((s.inode (s.file fp).f_data).i_exlockc + 65535) % 65536 = 0 ∧ wait = true) := by
  rw [unlockExclusive_eq]
  dsimp only
  generalize (_ + 65535) % 65536 = c
  exact ⟨update_kept OpenFile.f_count rfl, update_kept OpenFile.f_type rfl,
    update_kept OpenFile.f_data rfl, rfl, rfl⟩

theorem Sound.unlockShared (h : s.Sound) (hsize : Fintype.card F < 65536)
    (hheld : (s.file fp).fshlock = true) :
    (s.unlockShared fp (s.inode (s.file fp).f_data).ilwait).Sound := by
  have hagree := h.agree (s.file fp).f_data
  have hpos := card_holders_pos OpenFile.fshlock hheld
  have hle := Finset.card_le_univ (holders OpenFile.fshlock s.file (s.file fp).f_data)
  have hc := pred_mod hpos (lt_of_le_of_lt hle hsize)
  have hish := hagree.ishlock.mpr hpos
  have hrel := released_unlockShared s fp (s.inode (s.file fp).f_data).ilwait
  have hfile := file_unlockShared s fp (s.inode (s.file fp).f_data).ilwait
  have hinode := inode_unlockShared s fp (s.inode (s.file fp).f_data).ilwait
  rw [hagree.i_shlockc, hc] at hrel hinode
  refine ⟨?_, ?_, ?_, ?_, ?_⟩
  · rw [hfile, hinode]
    refine h.agree_update rfl ?_
    have hcard := card_holders_clear OpenFile.fshlock s.file fp { s.file fp with fshlock := false } rfl hheld
    have hsame := holders_update OpenFile.fexlock s.file fp { s.file fp with fshlock := false }
      (s.file fp).f_data rfl rfl
    rw [hcard, hsame]
    refine { hagree with i_shlockc := rfl, ishlock := ?_, apart := ?_ }
    · rw [hish]
      simp only [Bool.and_true, decide_eq_true_iff]
      omega
    · intro hex
      rw [hagree.apart hex]
  · intro q hq
    rw [hrel.f_count, hrel.f_type]
    rw [hfile] at hq
    refine h.locked q (hq.imp (fun hsh => ?_) fun hex => ?_)
    · by_cases hqfp : q = fp
      · rw [hqfp]
        exact hheld
      · rwa [Function.update_of_ne hqfp] at hsh
    · rwa [update_kept (f := s.file) (a := fp) (b := { s.file fp with fshlock := false })
        OpenFile.fexlock rfl] at hex
  · intro q fp' cmd hproc
    obtain ⟨hold, hwoke⟩ := hrel.asleep hproc
    obtain ⟨hwait, hblocked⟩ := h.asleep q fp' cmd hold
    rw [hrel.f_data, hinode]
    refine blocked_update ⟨hwait, hblocked⟩ fun hip => ?_
    -- the process was not woken up, so that there are others that hold the lock
    rw [hip] at hwait hblocked
    have hmore : (holders OpenFile.fshlock s.file (s.file fp).f_data).card - 1 ≠ 0 :=
      fun hzero => hwoke hip ⟨hzero, hwait⟩
    refine ⟨hwait, hblocked.imp_right fun hsh => ⟨hsh.1, ?_⟩⟩
    simp [hmore, hish]
  · intro q fp' hwaits
    rw [hrel.fds, hrel.f_type]
    exact h.waits q fp' (hrel.waits hwaits)
  · intro q
    rw [hrel.f_count, hrel.fds]
    exact h.count q

theorem Sound.unlockExclusive (h : s.Sound) (hheld : (s.file fp).fexlock = true) :
    (s.unlockExclusive fp (s.inode (s.file fp).f_data).ilwait).Sound := by
  have hagree := h.agree (s.file fp).f_data
  have hpos := card_holders_pos OpenFile.fexlock hheld
  have hcard : (holders OpenFile.fexlock s.file (s.file fp).f_data).card = 1 := by
    have hone := hagree.one
    omega
  have hrel := released_unlockExclusive s fp (s.inode (s.file fp).f_data).ilwait
  have hfile := file_unlockExclusive s fp (s.inode (s.file fp).f_data).ilwait
  have hinode := inode_unlockExclusive s fp (s.inode (s.file fp).f_data).ilwait
  rw [hagree.i_exlockc, hcard] at hrel hinode
  refine ⟨?_, ?_, ?_, ?_, ?_⟩
  · rw [hfile, hinode]
    refine h.agree_update rfl ?_
    have hclear := card_holders_clear OpenFile.fexlock s.file fp { s.file fp with fexlock := false } rfl hheld
    have hsame := holders_update OpenFile.fshlock s.file fp { s.file fp with fexlock := false }
      (s.file fp).f_data rfl rfl
    rw [hclear, hsame, hcard]
    exact ⟨hagree.i_shlockc, rfl, hagree.ishlock, by simp, Nat.zero_le 1, fun hex => by omega⟩
  · intro q hq
    rw [hrel.f_count, hrel.f_type]
    rw [hfile] at hq
    refine h.locked q (hq.imp (fun hsh => ?_) fun hex => ?_)
    · rwa [update_kept (f := s.file) (a := fp) (b := { s.file fp with fexlock := false })
        OpenFile.fshlock rfl] at hsh
    · by_cases hqfp : q = fp
      · rw [hqfp]
        exact hheld
      · rwa [Function.update_of_ne hqfp] at hex
  · intro q fp' cmd hproc
    obtain ⟨hold, hwoke⟩ := hrel.asleep hproc
    obtain ⟨hwait, hblocked⟩ := h.asleep q fp' cmd hold
    rw [hrel.f_data, hinode]
    refine blocked_update ⟨hwait, hblocked⟩ fun hip => ?_
    -- everyone that slept on the inode was woken up
    rw [hip] at hwait
    exact absurd ⟨rfl, hwait⟩ (hwoke hip)
  · intro q fp' hwaits
    rw [hrel.fds, hrel.f_type]
    exact h.waits q fp' (hrel.waits hwaits)
  · intro q
    rw [hrel.f_count, hrel.fds]
    exact h.count q

/-- `ino_unlock` releases one lock at most. -/
theorem Sound.ino_unlock_cases (h : s.Sound) (fp : F) (sh ex : Bool) :
    (sh = true ∧ (s.file fp).fshlock = true ∧ (s.file fp).fexlock = false ∧
      s.ino_unlock fp sh ex = s.unlockShared fp (s.inode (s.file fp).f_data).ilwait) ∨
    (ex = true ∧ (s.file fp).fexlock = true ∧ (s.file fp).fshlock = false ∧
      s.ino_unlock fp sh ex = s.unlockExclusive fp (s.inode (s.file fp).f_data).ilwait) ∨
    (¬ (sh = true ∧ (s.file fp).fshlock = true) ∧ ¬ (ex = true ∧ (s.file fp).fexlock = true) ∧
      s.ino_unlock fp sh ex = s) := by
  unfold Locks.ino_unlock
  dsimp only
  cases hsh : (s.file fp).fshlock with
  | true =>
      rw [h.not_both hsh]
      cases sh <;> simp
  | false => cases hex : (s.file fp).fexlock <;> cases ex <;> simp

/-- `ino_unlock` keeps the invariant. -/
theorem Sound.ino_unlock (h : s.Sound) (hsize : Fintype.card F < 65536) (fp : F) (sh ex : Bool) :
    (s.ino_unlock fp sh ex).Sound := by
  obtain ⟨-, hsh, -, heq⟩ | ⟨-, hex, -, heq⟩ | ⟨-, -, heq⟩ := h.ino_unlock_cases fp sh ex
  · rw [heq]
    exact h.unlockShared hsize hsh
  · rw [heq]
    exact h.unlockExclusive hex
  · rw [heq]
    exact h

/-- What `ino_unlock` leaves as it is. -/
structure Kept (s s' : Locks F I P) : Prop where
  f_count : ∀ fp, (s'.file fp).f_count = (s.file fp).f_count
  f_type : ∀ fp, (s'.file fp).f_type = (s.file fp).f_type
  f_data : ∀ fp, (s'.file fp).f_data = (s.file fp).f_data
  fds : s'.fds = s.fds
  waits : ∀ p fp, s'.Waits p fp → s.Waits p fp

theorem Sound.ino_unlock_kept (h : s.Sound) (fp : F) (sh ex : Bool) : Kept s (s.ino_unlock fp sh ex) := by
  obtain ⟨-, -, -, heq⟩ | ⟨-, -, -, heq⟩ | ⟨-, -, heq⟩ := h.ino_unlock_cases fp sh ex
  · rw [heq]
    have hrel := released_unlockShared s fp (s.inode (s.file fp).f_data).ilwait
    exact ⟨hrel.f_count, hrel.f_type, hrel.f_data, hrel.fds, fun _ _ => hrel.waits⟩
  · rw [heq]
    have hrel := released_unlockExclusive s fp (s.inode (s.file fp).f_data).ilwait
    exact ⟨hrel.f_count, hrel.f_type, hrel.f_data, hrel.fds, fun _ _ => hrel.waits⟩
  · rw [heq]
    exact ⟨fun _ => rfl, fun _ => rfl, fun _ => rfl, rfl, fun _ _ => id⟩

/-- After `ino_unlock` of both kinds the file holds no lock. -/
theorem Sound.ino_unlock_free (h : s.Sound) (fp : F) :
    ((s.ino_unlock fp true true).file fp).fshlock = false ∧
      ((s.ino_unlock fp true true).file fp).fexlock = false := by
  obtain ⟨-, -, hex, heq⟩ | ⟨-, -, hsh, heq⟩ | ⟨hsh, hex, heq⟩ := h.ino_unlock_cases fp true true
  · rw [heq, file_unlockShared, Function.update_self]
    exact ⟨rfl, hex⟩
  · rw [heq, file_unlockExclusive, Function.update_self]
    exact ⟨hsh, rfl⟩
  · rw [heq]
    exact ⟨by simpa using hsh, by simpa using hex⟩

/-! ## `ino_lock` and `flock` -/

omit [Fintype F] [DecidableEq F] [DecidableEq I] [Fintype P] in
/-- The process leaves `flock`, or enters the wait for a lock that is not free. -/
theorem waits_setProc [DecidableEq P] {state : LockProc F} {q : P} (h : (s.setProc p state).Waits q fp) :
    q = p ∧ (∃ cmd, state = .asleep fp cmd ∨ state = .woken fp cmd) ∨ q ≠ p ∧ s.Waits q fp := by
  obtain ⟨cmd, h⟩ := h
  rw [setProc] at h
  dsimp only at h
  by_cases hq : q = p
  · rw [hq, Function.update_self] at h
    exact Or.inl ⟨hq, cmd, h⟩
  · rw [Function.update_of_ne hq] at h
    exact Or.inr ⟨hq, cmd, h⟩

variable [DecidableEq P]

omit [DecidableEq F] in
theorem Sound.ret (h : s.Sound) (p : P) (error : Option LockError) : (s.ret p error).Sound := by
  refine { h with asleep := ?_, waits := ?_ }
  · intro q fp cmd hproc
    obtain ⟨-, cmd', hcmd | hcmd⟩ | ⟨hq, -⟩ := waits_setProc
      (⟨cmd, Or.inl hproc⟩ : (s.ret p error).Waits q fp)
    · cases hcmd
    · cases hcmd
    · rw [Locks.ret, setProc] at hproc
      dsimp only at hproc
      rw [Function.update_of_ne hq] at hproc
      exact h.asleep q fp cmd hproc
  · intro q fp hwaits
    obtain ⟨-, cmd, hcmd | hcmd⟩ | ⟨-, hwaits⟩ := waits_setProc hwaits
    · cases hcmd
    · cases hcmd
    · exact h.waits q fp hwaits

omit [DecidableEq F] in
theorem Sound.sleep (h : s.Sound) (p : P) {cmd : How} (hfds : 0 < s.fds p fp)
    (htype : (s.file fp).f_type = .DTYPE_INODE) (hblocked : Blocked (s.inode (s.file fp).f_data) cmd) :
    (s.sleep p fp cmd).Sound := by
  have hinode : (s.sleep p fp cmd).inode = Function.update s.inode (s.file fp).f_data
      { s.inode (s.file fp).f_data with ilwait := true } := rfl
  have hfile : (s.sleep p fp cmd).file = s.file := rfl
  refine ⟨?_, h.locked, ?_, ?_, h.count⟩
  · intro ip
    rw [hinode, hfile]
    by_cases hip : ip = (s.file fp).f_data
    · rw [hip, Function.update_self]
      exact { h.agree (s.file fp).f_data with }
    · rw [Function.update_of_ne hip]
      exact h.agree ip
  · intro q fp' cmd' hproc
    rw [hinode, hfile]
    rw [Locks.sleep, setProc] at hproc
    dsimp only at hproc
    by_cases hq : q = p
    · rw [hq, Function.update_self] at hproc
      cases hproc
      rw [Function.update_self]
      exact ⟨rfl, hblocked⟩
    · rw [Function.update_of_ne hq] at hproc
      have hold := h.asleep q fp' cmd' hproc
      refine blocked_update hold fun hip => ⟨rfl, ?_⟩
      rw [← hip]
      exact hold.2
  · intro q fp' hwaits
    obtain ⟨hq, cmd', hcmd | hcmd⟩ | ⟨-, hwaits⟩ := waits_setProc hwaits
    · cases hcmd
      subst hq
      exact ⟨hfds, htype⟩
    · cases hcmd
    · exact h.waits q fp' hwaits

omit [DecidableEq P] in
/-- A lock is granted to a file that does not hold it. -/
theorem Sound.granted (h : s.Sound) {x : OpenFile I} {locks : InodeLocks}
    (hopen : 0 < (s.file fp).f_count) (htype : (s.file fp).f_type = .DTYPE_INODE)
    (hx : x.f_count = (s.file fp).f_count ∧ x.f_type = (s.file fp).f_type ∧
      x.f_data = (s.file fp).f_data)
    (hlocks : Agree locks
      (holders OpenFile.fshlock (Function.update s.file fp x) (s.file fp).f_data).card
      (holders OpenFile.fexlock (Function.update s.file fp x) (s.file fp).f_data).card)
    (hmore : locks.ilwait = (s.inode (s.file fp).f_data).ilwait ∧
      ((s.inode (s.file fp).f_data).ishlock = true → locks.ishlock = true) ∧
      ((s.inode (s.file fp).f_data).iexlock = true → locks.iexlock = true)) :
    ({ s with
      inode := Function.update s.inode (s.file fp).f_data locks
      file := Function.update s.file fp x } : Locks F I P).Sound := by
  obtain ⟨hcount, hxtype, hdata⟩ := hx
  obtain ⟨hilwait, hishlock, hiexlock⟩ := hmore
  have hdatas : ∀ q, (Function.update s.file fp x q).f_data = (s.file q).f_data :=
    update_kept OpenFile.f_data hdata
  have htypes : ∀ q, (Function.update s.file fp x q).f_type = (s.file q).f_type :=
    update_kept OpenFile.f_type hxtype
  have hcounts : ∀ q, (Function.update s.file fp x q).f_count = (s.file q).f_count :=
    update_kept OpenFile.f_count hcount
  refine ⟨h.agree_update hdata hlocks, ?_, ?_, ?_, ?_⟩
  · intro q hq
    dsimp only at hq ⊢
    rw [hcounts, htypes]
    by_cases hqfp : q = fp
    · rw [hqfp]
      exact ⟨hopen, htype⟩
    · rw [Function.update_of_ne hqfp] at hq
      exact h.locked q hq
  · intro q fp' cmd hproc
    dsimp only
    rw [hdatas]
    obtain ⟨hwait, hblocked⟩ := h.asleep q fp' cmd hproc
    refine blocked_update ⟨hwait, hblocked⟩ fun hip => ?_
    rw [hip] at hwait hblocked
    refine ⟨by rw [hilwait, hwait], hblocked.imp hiexlock fun hsh => ⟨hsh.1, hishlock hsh.2⟩⟩
  · intro q fp' hwaits
    dsimp only
    rw [htypes]
    exact h.waits q fp' hwaits
  · intro q
    dsimp only
    rw [hcounts]
    exact h.count q

omit [DecidableEq P] in
/-- A lock is granted when it is free. -/
theorem Sound.grant (h : s.Sound) (hsize : Fintype.card F < 65536) {cmd : How}
    (hopen : 0 < (s.file fp).f_count) (htype : (s.file fp).f_type = .DTYPE_INODE)
    (hfree : ¬ Blocked (s.inode (s.file fp).f_data) cmd) : (s.grant fp cmd).Sound := by
  have hagree := h.agree (s.file fp).f_data
  have hexzero : (holders OpenFile.fexlock s.file (s.file fp).f_data).card = 0 := by
    by_contra hne
    exact hfree (Or.inl (hagree.iexlock.mpr (Nat.pos_of_ne_zero hne)))
  have hfex : (s.file fp).fexlock = false := by
    by_contra hset
    have hpos := card_holders_pos OpenFile.fexlock (by simpa using hset)
    omega
  rw [Locks.grant]
  dsimp only
  split
  next hex =>
    have hshzero : (holders OpenFile.fshlock s.file (s.file fp).f_data).card = 0 := by
      by_contra hne
      exact hfree (Or.inr ⟨hex, hagree.ishlock.mpr (Nat.pos_of_ne_zero hne)⟩)
    refine h.granted hopen htype ⟨rfl, rfl, rfl⟩ ?_ ⟨rfl, id, fun _ => rfl⟩
    have hcard := card_holders_set OpenFile.fexlock s.file fp { s.file fp with fexlock := true } rfl rfl hfex
    have hsame := holders_update OpenFile.fshlock s.file fp { s.file fp with fexlock := true }
      (s.file fp).f_data rfl rfl
    rw [hcard, hsame, hexzero]
    refine ⟨hagree.i_shlockc, ?_, hagree.ishlock, by simp, le_rfl, fun _ => hshzero⟩
    dsimp only
    rw [hagree.i_exlockc, hexzero]
  next hex =>
    split
    next hsh =>
      have hfsh : (s.file fp).fshlock = false := by simpa using (Bool.and_eq_true_iff.mp hsh).2
      refine h.granted hopen htype ⟨rfl, rfl, rfl⟩ ?_ ⟨rfl, fun _ => rfl, id⟩
      have hcard := card_holders_set OpenFile.fshlock s.file fp { s.file fp with fshlock := true } rfl rfl
        hfsh
      have hsame := holders_update OpenFile.fexlock s.file fp { s.file fp with fshlock := true }
        (s.file fp).f_data rfl rfl
      have hle := Finset.card_le_univ
        (holders OpenFile.fshlock (Function.update s.file fp { s.file fp with fshlock := true })
          (s.file fp).f_data)
      rw [hcard] at hle
      rw [hcard, hsame]
      refine { hagree with i_shlockc := ?_, ishlock := by simp, apart := fun hpos => by omega }
      dsimp only
      rw [hagree.i_shlockc, Nat.mod_eq_of_lt (lt_of_le_of_lt hle hsize)]
    next hsh => exact h

/-- `ino_lock` keeps the invariant, at every sleep and to its end. -/
theorem Sound.ino_lock (h : s.Sound) (hsize : Fintype.card F < 65536) (p : P) {cmd : How}
    (hfds : 0 < s.fds p fp) (htype : (s.file fp).f_type = .DTYPE_INODE) :
    (s.ino_lock p fp cmd).Sound := by
  fun_induction Locks.ino_lock s p fp cmd with
  | case1 s ip hiex hfex ih =>
      have hkept := h.ino_unlock_kept fp false true
      refine ih (h.ino_unlock hsize fp false true) ?_ ?_
      · rwa [hkept.fds]
      · rwa [hkept.f_type]
  | case2 s ip hiex hfex hnb => exact h.ret p _
  | case3 s ip hiex hfex hnb => exact h.sleep p hfds htype (Or.inl hiex)
  | case4 s ip hiex hish hfsh ih =>
      have hkept := h.ino_unlock_kept fp true false
      refine ih (h.ino_unlock hsize fp true false) ?_ ?_
      · rwa [hkept.fds]
      · rwa [hkept.f_type]
  | case5 s ip hiex hish hfsh hnb => exact h.ret p _
  | case6 s ip hiex hish hfsh hnb =>
      exact h.sleep p hfds htype (Or.inr (Bool.and_eq_true_iff.mp hish))
  | case7 s ip hiex hish =>
      refine (h.grant hsize (h.open_of_fds hfds) htype ?_).ret p _
      rintro (hset | hset)
      · exact hiex hset
      · exact hish (Bool.and_eq_true_iff.mpr hset)

theorem Sound.flock (h : s.Sound) (hsize : Fintype.card F < 65536) (p : P) (how : How)
    (hfds : 0 < s.fds p fp) : (s.flock p fp how).Sound := by
  unfold Locks.flock
  split
  next htype => exact h.ret p _
  next htype =>
    split
    · exact (h.ino_unlock hsize fp true true).ret p _
    · split
      · exact h.ret p _
      · generalize (if how.ex then { how with sh := false } else how) = cmd
        dsimp only
        split
        · exact h.ret p _
        · split
          · exact h.ret p _
          · exact h.ino_lock hsize p hfds (not_not.mp htype)

/-! ## Descriptors -/

omit [Fintype F] [DecidableEq I] in
/-- The descriptors of one process for one file change. -/
theorem sum_setFds (s : Locks F I P) (p : P) (fp : F) (n : Nat) :
    ∑ q, (s.setFds p fp n).fds q fp + s.fds p fp = ∑ q, s.fds q fp + n := by
  rw [← Finset.add_sum_erase _ _ (Finset.mem_univ p),
    ← Finset.add_sum_erase _ (fun q => s.fds q fp) (Finset.mem_univ p)]
  have hself : (s.setFds p fp n).fds p fp = n := by
    rw [setFds]
    dsimp only
    rw [Function.update_self, Function.update_self]
  have hrest : ∑ q ∈ Finset.univ.erase p, (s.setFds p fp n).fds q fp =
      ∑ q ∈ Finset.univ.erase p, s.fds q fp := by
    refine Finset.sum_congr rfl fun q hq => ?_
    rw [setFds]
    dsimp only
    rw [Function.update_of_ne (Finset.ne_of_mem_erase hq)]
  rw [hself, hrest]
  omega

omit [Fintype F] [DecidableEq I] [Fintype P] in
theorem fds_setFds_of_ne {q : P} {fp' : F} {n : Nat} (h : q ≠ p ∨ fp' ≠ fp) :
    (s.setFds p fp n).fds q fp' = s.fds q fp' := by
  rw [setFds]
  dsimp only
  by_cases hq : q = p
  · rw [hq, Function.update_self, Function.update_of_ne (h.resolve_left fun hne => hne hq)]
  · rw [Function.update_of_ne hq]

/-- A file gets another reference count, or is opened anew, together with the descriptors of a
process. -/
theorem Sound.describe (h : s.Sound) {x : OpenFile I} {n : Nat}
    (hshlock : x.fshlock = (s.file fp).fshlock) (hexlock : x.fexlock = (s.file fp).fexlock)
    (hkept : (s.file fp).f_count = 0 ∨
      x.f_data = (s.file fp).f_data ∧ x.f_type = (s.file fp).f_type)
    (hlocked : x.fshlock = true ∨ x.fexlock = true → 0 < x.f_count)
    (hcount : x.f_count + s.fds p fp = (s.file fp).f_count + n)
    (hwaits : ∀ q, s.Waits q fp → q ≠ p) :
    (({ s with file := Function.update s.file fp x } : Locks F I P).setFds p fp n).Sound := by
  have hshlocks : ∀ q, (Function.update s.file fp x q).fshlock = (s.file q).fshlock :=
    update_kept OpenFile.fshlock hshlock
  have hexlocks : ∀ q, (Function.update s.file fp x q).fexlock = (s.file q).fexlock :=
    update_kept OpenFile.fexlock hexlock
  -- a file that is not open holds no lock, and nobody waits for it
  have hopen : ∀ q, 0 < (s.file q).f_count →
      (Function.update s.file fp x q).f_data = (s.file q).f_data ∧
        (Function.update s.file fp x q).f_type = (s.file q).f_type := by
    intro q hq
    by_cases hqfp : q = fp
    · subst hqfp
      rw [Function.update_self]
      exact hkept.resolve_left (Nat.pos_iff_ne_zero.mp hq)
    · rw [Function.update_of_ne hqfp]
      exact ⟨rfl, rfl⟩
  refine ⟨?_, ?_, ?_, ?_, ?_⟩
  · intro ip
    have hsh : holders OpenFile.fshlock (Function.update s.file fp x) ip =
        holders OpenFile.fshlock s.file ip :=
      holders_congr hshlocks fun q hq => (hopen q (h.locked q (Or.inl hq)).1).1
    have hex : holders OpenFile.fexlock (Function.update s.file fp x) ip =
        holders OpenFile.fexlock s.file ip :=
      holders_congr hexlocks fun q hq => (hopen q (h.locked q (Or.inr hq)).1).1
    show Agree _ (holders OpenFile.fshlock (Function.update s.file fp x) ip).card
      (holders OpenFile.fexlock (Function.update s.file fp x) ip).card
    rw [hsh, hex]
    exact h.agree ip
  · intro q hq
    have hq : (Function.update s.file fp x q).fshlock = true ∨
        (Function.update s.file fp x q).fexlock = true := hq
    have hold := hq
    rw [hshlocks, hexlocks] at hold
    obtain ⟨hpos, htype⟩ := h.locked q hold
    refine ⟨?_, (hopen q hpos).2.trans htype⟩
    show 0 < (Function.update s.file fp x q).f_count
    by_cases hqfp : q = fp
    · rw [hqfp, Function.update_self] at hq ⊢
      exact hlocked hq
    · rwa [Function.update_of_ne hqfp]
  · intro q fp' cmd hproc
    have hpos := h.open_of_fds (h.waits q fp' ⟨cmd, Or.inl hproc⟩).1
    show (s.inode (Function.update s.file fp x fp').f_data).ilwait = true ∧
      Blocked (s.inode (Function.update s.file fp x fp').f_data) cmd
    rw [(hopen fp' hpos).1]
    exact h.asleep q fp' cmd hproc
  · intro q fp' hq
    have hq : s.Waits q fp' := hq
    obtain ⟨hpos, htype⟩ := h.waits q fp' hq
    refine ⟨?_, (hopen fp' (h.open_of_fds hpos)).2.trans htype⟩
    by_cases hfp : fp' = fp
    · rw [hfp] at hq hpos ⊢
      rw [fds_setFds_of_ne (Or.inl (hwaits q hq))]
      exact hpos
    · rw [fds_setFds_of_ne (Or.inr hfp)]
      exact hpos
  · intro q
    show (Function.update s.file fp x q).f_count =
      ∑ r, (({ s with file := Function.update s.file fp x } : Locks F I P).setFds p fp n).fds r q
    have hsum := h.count q
    by_cases hqfp : q = fp
    · subst hqfp
      have hall := sum_setFds { s with file := Function.update s.file q x } p q n
      dsimp only at hall
      rw [Function.update_self]
      omega
    · rw [Function.update_of_ne hqfp, hsum]
      refine Finset.sum_congr rfl fun r _ => ?_
      rw [fds_setFds_of_ne (Or.inr hqfp)]

omit [Fintype F] [DecidableEq F] [DecidableEq I] [Fintype P] [DecidableEq P] in
theorem Running.not_waits (h : s.Running p) : ¬ s.Waits p fp := by
  obtain ⟨error, hproc⟩ := h
  rintro ⟨cmd, hwait | hwait⟩
  · rw [hproc] at hwait
    cases hwait
  · rw [hproc] at hwait
    cases hwait

theorem Sound.close (h : s.Sound) (hsize : Fintype.card F < 65536) (hrun : s.Running p)
    (hfds : 0 < s.fds p fp) : ((s.closef fp).setFds p fp (s.fds p fp - 1)).Sound := by
  have hwaits : ∀ {t : Locks F I P}, (∀ q fp', t.Waits q fp' → s.Waits q fp') →
      ∀ q, t.Waits q fp → q ≠ p := by
    rintro t ht q hq rfl
    exact hrun.not_waits (ht q fp hq)
  have hopen := h.open_of_fds hfds
  unfold closef
  split
  next hmany =>
    refine h.describe rfl rfl (Or.inr ⟨rfl, rfl⟩) (fun _ => Nat.sub_pos_of_lt hmany) ?_
      (hwaits fun _ _ => id)
    dsimp only
    omega
  next hlast =>
    have hle : s.fds p fp ≤ (s.file fp).f_count := by
      rw [h.count]
      exact Finset.single_le_sum (f := fun q => s.fds q fp) (fun _ _ => Nat.zero_le _)
        (Finset.mem_univ p)
    have hone : (s.file fp).f_count = 1 ∧ s.fds p fp = 1 := by omega
    dsimp only
    split
    next hset =>
      have hkept := h.ino_unlock_kept fp true true
      obtain ⟨hsh, hex⟩ := h.ino_unlock_free fp
      refine (h.ino_unlock hsize fp true true).describe rfl rfl (Or.inr ⟨rfl, rfl⟩) ?_ ?_
        (hwaits hkept.waits)
      · rintro (hset | hset)
        · exact absurd (hsh.symm.trans hset) Bool.false_ne_true
        · exact absurd (hex.symm.trans hset) Bool.false_ne_true
      · rw [hkept.fds, hkept.f_count, hone.1, hone.2]
    next hset =>
      refine h.describe rfl rfl (Or.inr ⟨rfl, rfl⟩) ?_ ?_ (hwaits fun _ _ => id)
      · intro hheld
        -- the flags of a file that is no inode are clear
        have htype := (h.locked fp hheld).2
        refine absurd ?_ hset
        rw [htype]
        simpa using hheld
      · dsimp only
        omega

omit [DecidableEq F] in
/-- A child gets the descriptors of its parent. -/
theorem Sound.fork {q : P} (h : s.Sound) (hq : s.Running q) (hnone : ∀ fp, s.fds q fp = 0) :
    ({ s with
      file := fun fp => { s.file fp with f_count := (s.file fp).f_count + s.fds p fp }
      fds := Function.update s.fds q (s.fds p) } : Locks F I P).Sound := by
  refine ⟨h.agree, ?_, h.asleep, ?_, ?_⟩
  · intro fp hset
    obtain ⟨hpos, htype⟩ := h.locked fp hset
    exact ⟨Nat.add_pos_left hpos _, htype⟩
  · intro r fp hwaits
    have hwaits : s.Waits r fp := hwaits
    obtain ⟨hpos, htype⟩ := h.waits r fp hwaits
    refine ⟨?_, htype⟩
    have hne : r ≠ q := by
      rintro rfl
      exact hq.not_waits hwaits
    dsimp only
    rwa [Function.update_of_ne hne]
  · intro fp
    dsimp only
    rw [h.count fp, ← Finset.add_sum_erase _ _ (Finset.mem_univ q),
      ← Finset.add_sum_erase _ (fun r => Function.update s.fds q (s.fds p) r fp) (Finset.mem_univ q)]
    have hrest : ∑ r ∈ Finset.univ.erase q, Function.update s.fds q (s.fds p) r fp =
        ∑ r ∈ Finset.univ.erase q, s.fds r fp :=
      Finset.sum_congr rfl fun r hr => by rw [Function.update_of_ne (Finset.ne_of_mem_erase hr)]
    rw [hrest, Function.update_self, hnone]
    omega

theorem Sound.step (h : s.Sound) (hsize : Fintype.card F < 65536) {action : LockAction F I P}
    (hstep : Step s action s') : s'.Sound := by
  cases hstep with
  | «open» hrun hfree =>
      rename_i p fp f_type ip
      have hnofds : ∀ q, s.fds q fp = 0 := by
        intro q
        by_contra hne
        have hopen := h.open_of_fds (Nat.pos_of_ne_zero hne)
        omega
      have hnolock : ¬ ((s.file fp).fshlock = true ∨ (s.file fp).fexlock = true) := fun hset => by
        have hopen := (h.locked fp hset).1
        omega
      rw [not_or, Bool.not_eq_true, Bool.not_eq_true] at hnolock
      refine h.describe hnolock.1.symm hnolock.2.symm (Or.inl hfree) (fun _ => Nat.one_pos) ?_ ?_
      · rw [hnofds, hfree]
      · rintro q hq rfl
        exact hrun.not_waits hq
  | dup hrun hfds =>
      have hopen := h.open_of_fds hfds
      refine h.describe rfl rfl (Or.inr ⟨rfl, rfl⟩) (fun _ => Nat.succ_pos _) ?_ ?_
      · dsimp only
        omega
      · rintro q hq rfl
        exact hrun.not_waits hq
  | fork hp hq hnone => exact h.fork hq hnone
  | close hrun hfds => exact h.close hsize hrun hfds
  | flock hrun hfds => exact h.flock hsize _ _ hfds
  | resume hwoken =>
      obtain ⟨hfds, htype⟩ := h.waits _ _ ⟨_, Or.inr hwoken⟩
      exact h.ino_lock hsize _ hfds htype
  | interrupt_asleep hasleep => exact h.ret _ _
  | interrupt_woken hwoken => exact h.ret _ _

omit [DecidableEq F] [DecidableEq P] in
theorem boot_sound (ip : F → I) : (boot ip : Locks F I P).Sound := by
  have hnone : ∀ (flag : OpenFile I → Bool), (∀ fp, flag ⟨0, .DTYPE_INODE, ip fp, false, false⟩ = false) →
      ∀ jp, holders flag (boot ip : Locks F I P).file jp = ∅ := by
    intro flag hflag jp
    refine Finset.eq_empty_of_forall_notMem fun fp hmem => ?_
    have hset := (mem_holders.mp hmem).1
    exact absurd ((hflag fp).symm.trans hset) Bool.false_ne_true
  refine ⟨?_, ?_, ?_, ?_, ?_⟩
  · intro jp
    rw [hnone OpenFile.fshlock (fun _ => rfl), hnone OpenFile.fexlock (fun _ => rfl), Finset.card_empty]
    exact ⟨rfl, rfl, by simp [boot], by simp [boot], Nat.zero_le 1, fun _ => rfl⟩
  · rintro fp (hset | hset)
    · cases hset
    · cases hset
  · intro p fp cmd hproc
    cases hproc
  · rintro p fp ⟨cmd, hproc | hproc⟩
    · cases hproc
    · cases hproc
  · intro fp
    exact (Finset.sum_const_zero).symm

/-- In every run the counters are the numbers of open files that hold a lock, nobody else holds a lock
that is exclusive, and `ILWAIT` is set for as long as a process sleeps for a lock that is not free. -/
theorem flock_run (hsize : Fintype.card F < 65536) {ip : F → I} {actions : List (LockAction F I P)}
    (hrun : Steps Step (boot ip) actions s) :
    (∀ jp, (s.inode jp).i_exlockc ≤ 1 ∧
      ¬ (0 < (s.inode jp).i_shlockc ∧ 0 < (s.inode jp).i_exlockc) ∧
      (s.inode jp).i_shlockc = (Finset.univ.filter fun fp =>
        0 < (s.file fp).f_count ∧ (s.file fp).f_data = jp ∧ (s.file fp).fshlock = true).card ∧
      (s.inode jp).i_exlockc = (Finset.univ.filter fun fp =>
        0 < (s.file fp).f_count ∧ (s.file fp).f_data = jp ∧ (s.file fp).fexlock = true).card ∧
      ((s.inode jp).ishlock = true ↔ 0 < (s.inode jp).i_shlockc) ∧
      ((s.inode jp).iexlock = true ↔ 0 < (s.inode jp).i_exlockc)) ∧
    ∀ p fp cmd, s.proc p = .asleep fp cmd →
      (s.inode (s.file fp).f_data).ilwait = true ∧ Blocked (s.inode (s.file fp).f_data) cmd := by
  have h : s.Sound := hrun.invariant Sound (fun _ _ _ hinv hstep => hinv.step hsize hstep) (boot_sound ip)
  refine ⟨fun jp => ?_, h.asleep⟩
  have hagree := h.agree jp
  have hopen : ∀ flag : OpenFile I → Bool,
      (∀ fp, flag (s.file fp) = true → 0 < (s.file fp).f_count) →
      holders flag s.file jp = Finset.univ.filter fun fp =>
        0 < (s.file fp).f_count ∧ (s.file fp).f_data = jp ∧ flag (s.file fp) = true := by
    intro flag hflag
    refine Finset.filter_congr fun fp _ => ⟨fun hset => ?_, fun hset => ⟨hset.2.2, hset.2.1⟩⟩
    exact ⟨hflag fp hset.1, hset.2, hset.1⟩
  rw [← hopen OpenFile.fshlock fun fp hset => (h.locked fp (Or.inl hset)).1,
    ← hopen OpenFile.fexlock fun fp hset => (h.locked fp (Or.inr hset)).1,
    hagree.i_shlockc, hagree.i_exlockc]
  refine ⟨hagree.one, fun hboth => ?_, rfl, rfl, hagree.ishlock, hagree.iexlock⟩
  have hzero := hagree.apart hboth.2
  omega

/-- A process waits for an exclusive lock until the shared lock of another one is given up. -/
theorem flock_run_upgrade : ∃ s : Locks Bool Unit Bool,
    Steps Step (boot fun _ => ())
      [.open false false .DTYPE_INODE (), .open true true .DTYPE_INODE (),
        .flock false false ⟨true, false, false, false⟩, .flock true true ⟨false, true, false, false⟩,
        .flock false false ⟨false, false, false, true⟩, .resume true] s ∧
      (s.inode ()).i_shlockc = 0 ∧ (s.inode ()).i_exlockc = 1 ∧
      ((s.inode ()).iexlock = true ↔ 0 < (s.inode ()).i_exlockc) := by
  suffices h : ∃ s : Locks Bool Unit Bool, Steps Step (boot fun _ => ())
      [.open false false .DTYPE_INODE (), .open true true .DTYPE_INODE (),
        .flock false false ⟨true, false, false, false⟩, .flock true true ⟨false, true, false, false⟩,
        .flock false false ⟨false, false, false, true⟩, .resume true] s ∧
      (s.inode ()).i_shlockc = 0 ∧ (s.inode ()).i_exlockc = 1 by
    obtain ⟨s, hrun, hsh, hex⟩ := h
    exact ⟨s, hrun, hsh, hex, ((flock_run (by decide) hrun).1 ()).2.2.2.2.2⟩
  refine ⟨_, .cons (.open ⟨_, rfl⟩ rfl) (.cons (.open ⟨_, rfl⟩ rfl) (.cons (.flock ⟨_, rfl⟩ (by decide))
    (.cons (.flock ⟨none, ?_⟩ ?_) (.cons (.flock ⟨none, ?_⟩ ?_) (.cons
      (@Step.resume Bool Unit Bool _ _ _ (Locks.flock _ _ _ _) true true ⟨false, true, false, false⟩ ?_)
      (.refl _)))))), ?_, ?_⟩
  all_goals simp [Locks.flock, Locks.ino_lock, boot, setFds, Locks.grant, Locks.ret, setProc, Locks.sleep,
    Locks.ino_unlock, unlockShared, wakeup]

end Locks

end DiscoBsd.File
