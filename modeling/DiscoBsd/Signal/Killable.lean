import DiscoBsd.Signal.Masks

/-!
# SIGKILL and SIGSTOP stay deliverable

No mask of a process ever holds SIGKILL or SIGSTOP. The invariant also covers what the masks are
filled from later: the masks of the handlers, the mask that waits in a sleeping `pselect`, and the
two handlers, which stay at their default. `kill_stop_clear` is the result. The one exception is
what `exit` does: it ignores every signal.
-/

namespace DiscoBsd.Signal

open DiscoBsd.Lib

/-- The bits of SIGKILL and SIGSTOP are clear. -/
def Clear (mask : BitVec 32) : Prop := mask &&& sigcantmask = 0

theorem clear_iff {mask : BitVec 32} :
    Clear mask ↔ mask.getLsbD 8 = false ∧ mask.getLsbD 16 = false := by
  have hbits : ∀ i, sigcantmask.getLsbD i = (decide (i = 8) || decide (i = 16)) := by
    intro i
    rw [sigcantmask, BitVec.getLsbD_or, getLsbD_sigmask, getLsbD_sigmask]
    simp only [SIGKILL, SIGSTOP]
    grind
  unfold Clear
  constructor
  · intro h
    have hbit : ∀ i, (mask &&& sigcantmask).getLsbD i = false := by simp [h]
    have h8 := hbit 8
    have h16 := hbit 16
    rw [BitVec.getLsbD_and, hbits] at h8 h16
    simpa using And.intro h8 h16
  · rintro ⟨h8, h16⟩
    refine BitVec.eq_of_getLsbD_eq fun i _ => ?_
    rw [BitVec.getLsbD_and, hbits]
    grind

@[simp] theorem clear_zero : Clear 0 := by simp [Clear]

theorem clear_or {a b : BitVec 32} (ha : Clear a) (hb : Clear b) : Clear (a ||| b) := by
  obtain ⟨ha8, ha16⟩ := clear_iff.mp ha
  obtain ⟨hb8, hb16⟩ := clear_iff.mp hb
  rw [clear_iff, BitVec.getLsbD_or, BitVec.getLsbD_or, ha8, ha16, hb8, hb16]
  exact ⟨rfl, rfl⟩

theorem clear_and {a b : BitVec 32} (ha : Clear a) : Clear (a &&& b) := by
  obtain ⟨ha8, ha16⟩ := clear_iff.mp ha
  rw [clear_iff, BitVec.getLsbD_and, BitVec.getLsbD_and, ha8, ha16]
  exact ⟨rfl, rfl⟩

theorem clear_filter (mask : BitVec 32) : Clear (mask &&& ~~~sigcantmask) := by
  rw [Clear, BitVec.and_assoc, BitVec.and_comm _ sigcantmask, BitVec.and_not_self]
  simp

theorem clear_sigmask {sig : Nat} (hkill : sig ≠ SIGKILL) (hstop : sig ≠ SIGSTOP) :
    Clear (sigmask sig) := by
  rw [clear_iff, getLsbD_sigmask, getLsbD_sigmask]
  simp only [SIGKILL, SIGSTOP] at hkill hstop
  simp only [Bool.and_eq_false_iff, decide_eq_false_iff_not]
  omega

theorem clear_ignored {sig : Nat} (h : ignoredByDefault sig = true) : Clear (sigmask sig) := by
  refine clear_sigmask ?_ ?_
  · rintro rfl
    exact absurd h (by decide)
  · rintro rfl
    exact absurd h (by decide)

/-- Neither signal is blocked, caught or ignored, now or later. -/
structure Killable (p : Proc) : Prop where
  mask : Clear p.p_sigmask
  caught : Clear p.p_sigcatch
  ignored : p.exiting = false → Clear p.p_sigignore
  old : Clear p.u_oldmask
  handlers : ∀ sig, Clear (p.u_sigmask sig)
  kill : p.u_signal SIGKILL = SIG_DFL
  stop : p.u_signal SIGSTOP = SIG_DFL
  waiting : ∀ sigmsk, p.asleep = some (.pselect (some sigmsk)) → Clear sigmsk

namespace Killable

variable {p : Proc}

theorem setsigvec (h : Killable p) {signum : Nat} (hkill : signum ≠ SIGKILL)
    (hstop : signum ≠ SIGSTOP) (sa : Sigaction) : Killable (p.setsigvec signum sa) := by
  have hbit := clear_sigmask hkill hstop
  have hmasks : ∀ sig, Clear (Function.update p.u_sigmask signum
      (sa.sa_mask &&& ~~~sigcantmask) sig) := by
    intro sig
    by_cases hsig : sig = signum
    · rw [hsig, Function.update_self]
      exact clear_filter _
    · rw [Function.update_of_ne hsig]
      exact h.handlers sig
  unfold Proc.setsigvec
  dsimp only
  split
  · refine ⟨h.mask, clear_and h.caught, fun hexit => ?_, h.old, hmasks, ?_, ?_, h.waiting⟩
    · dsimp only
      split
      · exact clear_or (h.ignored hexit) hbit
      · exact h.ignored hexit
    · exact (Function.update_of_ne hkill.symm _ _).trans h.kill
    · exact (Function.update_of_ne hstop.symm _ _).trans h.stop
  · refine ⟨h.mask, ?_, fun hexit => clear_and (h.ignored hexit), h.old, hmasks, ?_, ?_, h.waiting⟩
    · dsimp only
      split
      · exact clear_and h.caught
      · exact clear_or h.caught hbit
    · exact (Function.update_of_ne hkill.symm _ _).trans h.kill
    · exact (Function.update_of_ne hstop.symm _ _).trans h.stop

theorem congr {p' : Proc} (h : Killable p) (hmask : p'.p_sigmask = p.p_sigmask)
    (hcatch : p'.p_sigcatch = p.p_sigcatch) (hignore : p'.p_sigignore = p.p_sigignore)
    (hold : p'.u_oldmask = p.u_oldmask) (hhandlers : p'.u_sigmask = p.u_sigmask)
    (hsignal : p'.u_signal = p.u_signal) (hasleep : p'.asleep = p.asleep)
    (hexit : p'.exiting = p.exiting) : Killable p' :=
  ⟨hmask ▸ h.mask, hcatch ▸ h.caught, fun he => hignore ▸ h.ignored (hexit ▸ he), hold ▸ h.old,
    hhandlers ▸ h.handlers, hsignal ▸ h.kill, hsignal ▸ h.stop, hasleep ▸ h.waiting⟩

theorem sigaction (h : Killable p) (signum : Int) (nsa : UserPtr Sigaction) (osa : UserPtr Unit)
    (sigtramp : Nat) : Killable (p.sigaction signum nsa osa sigtramp).1 := by
  have htramp : Killable { p with u_sigtramp := sigtramp } :=
    h.congr rfl rfl rfl rfl rfl rfl rfl rfl
  unfold Proc.sigaction
  dsimp only
  split
  · exact htramp.congr rfl rfl rfl rfl rfl rfl rfl rfl
  · rename_i hrange
    split
    · exact htramp.congr rfl rfl rfl rfl rfl rfl rfl rfl
    · rename_i hcant
      split
      · exact htramp.congr rfl rfl rfl rfl rfl rfl rfl rfl
      · exact htramp.congr rfl rfl rfl rfl rfl rfl rfl rfl
      · exact htramp.congr rfl rfl rfl rfl rfl rfl rfl rfl
      · rename_i sa _
        have hne : ¬(signum = SIGKILL ∨ signum = SIGSTOP) := fun hsig => hcant ⟨rfl, hsig⟩
        have hset : Killable (Proc.setsigvec { p with u_sigtramp := sigtramp } signum.toNat sa) :=
          htramp.setsigvec (by omega) (by omega) sa
        exact hset.congr rfl rfl rfl rfl rfl rfl rfl rfl

theorem fatalsig (h : Killable p) (signum : Nat) : Killable (p.fatalsig signum) := by
  have hdefault : ∀ sig, p.u_signal sig = SIG_DFL →
      Function.update p.u_signal signum SIG_DFL sig = SIG_DFL := by
    intro sig hsig
    by_cases heq : sig = signum
    · rw [heq, Function.update_self]
    · rw [Function.update_of_ne heq, hsig]
  exact ⟨clear_and h.mask, clear_and h.caught, fun hexit => clear_and (h.ignored hexit), h.old,
    h.handlers, hdefault _ h.kill, hdefault _ h.stop, h.waiting⟩

theorem changeMask (h : Killable p) (how : Int) (set : UserPtr (BitVec 32)) :
    Killable (p.changeMask how set).1 := by
  unfold Proc.changeMask
  split
  · exact h
  · exact h
  · rename_i newmask
    split
    · exact { h with mask := clear_or h.mask (clear_filter newmask) }
    · split
      · exact { h with mask := clear_and h.mask }
      · split
        · exact { h with mask := clear_filter newmask }
        · exact h

theorem sigprocmask (h : Killable p) (how : Int) (set : UserPtr (BitVec 32)) (oset : UserPtr Unit) :
    Killable (p.sigprocmask how set oset).1 := by
  have hmask := h.changeMask how set
  unfold Proc.sigprocmask
  generalize p.changeMask how set = res at hmask
  obtain ⟨q, error⟩ := res
  dsimp only
  split <;> exact Killable.congr hmask rfl rfl rfl rfl rfl rfl rfl rfl

theorem sigsuspend (h : Killable p) (set : UserPtr (BitVec 32)) : Killable (p.sigsuspend set) :=
  { h with
    mask := clear_filter _
    old := h.mask
    waiting := by simp [Proc.sigsuspend] }

theorem selectSleep (h : Killable p) {sigmsk : Option (BitVec 32)}
    (hmask : ∀ mask, sigmsk = some mask → Clear mask) : Killable (p.selectSleep sigmsk) := by
  cases sigmsk with
  | none => exact { h with waiting := by simp [Proc.selectSleep] }
  | some sigmsk =>
      exact { h with
        mask := hmask sigmsk rfl
        old := h.mask
        waiting := by simpa [Proc.selectSleep] using hmask }

theorem select1 (h : Killable p) (maskp : UserPtr (BitVec 32)) (done : Option Errno) :
    Killable (p.select1 maskp done) := by
  unfold Proc.select1
  split
  · exact h.congr rfl rfl rfl rfl rfl rfl rfl rfl
  · exact h.congr rfl rfl rfl rfl rfl rfl rfl rfl
  · exact h.selectSleep (by simp)
  · refine h.selectSleep ?_
    rintro mask hmask
    cases hmask
    exact clear_filter _

theorem wake (h : Killable p) (error : Errno) (done : Option Errno) :
    Killable (p.wake error done) := by
  unfold Proc.wake
  split
  · exact h
  · split
    · exact h
    · exact { h with waiting := by simp }
  · rename_i sigmsk hasleep
    have hback : Killable (if sigmsk.isSome then { p with p_sigmask := p.u_oldmask } else p) := by
      split
      · exact { h with mask := h.old }
      · exact h
    dsimp only
    split
    · split
      · refine hback.selectSleep ?_
        rintro mask rfl
        exact h.waiting mask hasleep
      · exact { hback with waiting := by simp }
    · exact { hback with waiting := by simp }

theorem sigaltstack (h : Killable p) (nss : UserPtr Sigaltstack) (oss : UserPtr Unit) :
    Killable (p.sigaltstack nss oss).1 := by
  unfold Proc.sigaltstack
  dsimp only
  generalize hq : (if p.u_psflags &&& SAS_ALTSTACK = 0 then
      { p with u_sigstk := { p.u_sigstk with ss_flags := p.u_sigstk.ss_flags ||| SA_DISABLE } }
    else p) = q
  have hstk : Killable q := by
    rw [← hq]
    split
    · exact h.congr rfl rfl rfl rfl rfl rfl rfl rfl
    · exact h
  split
  · exact hstk.congr rfl rfl rfl rfl rfl rfl rfl rfl
  · exact hstk.congr rfl rfl rfl rfl rfl rfl rfl rfl
  · exact hstk.congr rfl rfl rfl rfl rfl rfl rfl rfl
  · split
    · split <;> exact hstk.congr rfl rfl rfl rfl rfl rfl rfl rfl
    · split <;> exact hstk.congr rfl rfl rfl rfl rfl rfl rfl rfl

theorem sendsig (h : Killable p) (sig : Nat) (mask : BitVec 32) (trashed : Bool) :
    Killable (p.sendsig sig mask trashed).1 := by
  unfold Proc.sendsig
  dsimp only
  generalize hq : (if p.u_psflags &&& SAS_ALTSTACK ≠ 0 ∧ p.u_sigstk.ss_flags &&& SA_ONSTACK = 0 ∧
        p.u_sigonstack &&& sigmask sig ≠ 0 then
      { p with u_sigstk := { p.u_sigstk with ss_flags := p.u_sigstk.ss_flags ||| SA_ONSTACK } }
    else p) = q
  have hstk : Killable q := by
    rw [← hq]
    split
    · exact h.congr rfl rfl rfl rfl rfl rfl rfl rfl
    · exact h
  split
  · exact hstk.fatalsig SIGILL
  · exact hstk

theorem exit (h : Killable p) : Killable p.exit :=
  { h with ignored := by simp [Proc.exit] }

/-- Only a signal with a handler is added to the mask, and neither of the two has one. -/
theorem postsig (h : Killable p) (sig : Nat) (trashed : Bool) :
    Killable (p.postsig sig trashed).1 := by
  unfold Proc.postsig
  dsimp only
  split
  · rename_i haction
    have hbit : Clear (sigmask sig) := by
      refine clear_sigmask ?_ ?_
      · rintro rfl
        exact haction h.kill
      · rintro rfl
        exact haction h.stop
    generalize hq : Proc.returnmask { p with u_error := .ok } = q
    have hret : Killable q.1 := by
      rw [← hq, Proc.returnmask]
      split <;> exact h.congr rfl rfl rfl rfl rfl rfl rfl rfl
    refine sendsig ?_ _ _ _
    exact { hret with mask := clear_or hret.mask (clear_or (hret.handlers sig) hbit) }
  · exact h.exit

theorem sigreturn (h : Killable p) (scp : UserPtr Sigcontext) : Killable (p.sigreturn scp) := by
  unfold Proc.sigreturn
  split
  · exact { h with mask := clear_filter _ }
  · exact h.congr rfl rfl rfl rfl rfl rfl rfl rfl

theorem resetCaught (h : Killable p) : Killable p.resetCaught := by
  induction p using Proc.resetCaught.induct with
  | case1 p hzero =>
      rw [Proc.resetCaught, dif_pos hzero]
      exact h
  | case2 p hcaught nc mask ih =>
      rw [Proc.resetCaught, dif_neg hcaught]
      refine ih ?_
      have hdefault : ∀ sig, p.u_signal sig = SIG_DFL →
          Function.update p.u_signal nc SIG_DFL sig = SIG_DFL := by
        intro sig hsig
        by_cases heq : sig = nc
        · rw [heq, Function.update_self]
        · rw [Function.update_of_ne heq, hsig]
      refine { h with
        caught := clear_and h.caught
        ignored := fun hexit => ?_
        kill := hdefault _ h.kill
        stop := hdefault _ h.stop }
      dsimp only
      split
      · rename_i hignored
        exact clear_or (h.ignored hexit) (clear_ignored hignored.1)
      · exact h.ignored hexit

theorem execsigs (h : Killable p) : Killable p.execsigs :=
  h.resetCaught.congr rfl rfl rfl rfl rfl rfl rfl rfl

/-- Every call keeps the two signals deliverable. -/
theorem call (h : Killable p) (c : Call) : Killable (p.call c) := by
  cases c with
  | sigaction signum nsa osa sigtramp => exact h.sigaction signum nsa osa sigtramp
  | sigprocmask how set oset => exact h.sigprocmask how set oset
  | sigsuspend set => exact h.sigsuspend set
  | pselect maskp done => exact h.select1 maskp done
  | sigaltstack nss oss => exact h.sigaltstack nss oss
  | postsig sig trashed => exact h.postsig sig trashed
  | sigreturn scp => exact h.sigreturn scp
  | execve => exact h.execsigs
  | exit => exact h.exit

end Killable

/-! ## Runs -/

/-- Every process of the system is killable. -/
def Kernel.Killable (k : Kernel) : Prop := ∀ slot p, k slot = some p → Signal.Killable p

theorem killable_siginit {p : Proc} (h : Killable p) : Killable p.siginit := by
  unfold Proc.siginit
  generalize List.range NSIG = sigs
  induction sigs generalizing p with
  | nil => exact h
  | cons sig sigs ih =>
      rw [List.foldl_cons]
      refine ih ?_
      split
      · rename_i hignored
        exact { h with ignored := fun hexit => clear_or (h.ignored hexit) (clear_ignored hignored.1) }
      · exact h

theorem Kernel.killable_boot : Kernel.boot.Killable := by
  intro slot p hp
  unfold Kernel.boot at hp
  split at hp
  · cases hp
    exact killable_siginit ⟨clear_zero, clear_zero, fun _ => clear_zero, clear_zero,
      fun _ => clear_zero, rfl, rfl, by simp⟩
  · cases hp

theorem Kernel.Killable.update {k : Kernel} (h : k.Killable) {slot : Nat} {next : Option Proc}
    (hnext : ∀ p, next = some p → Signal.Killable p) :
    Kernel.Killable (Function.update k slot next) := by
  intro other p hp
  by_cases heq : other = slot
  · rw [heq, Function.update_self] at hp
    exact hnext p hp
  · rw [Function.update_of_ne heq] at hp
    exact h other p hp

theorem Kernel.Killable.event {k k' : Kernel} {event : Event} (h : k.Killable)
    (hstep : k.event event = some k') : k'.Killable := by
  cases event with
  | call slot c =>
      obtain ⟨p, hp, hrest⟩ := Option.bind_eq_some_iff.mp hstep
      split at hrest
      · cases hrest
      · cases hrest
        refine h.update ?_
        rintro q hq
        cases hq
        exact (h slot p hp).call c
  | wake slot error done =>
      obtain ⟨p, hp, hrest⟩ := Option.bind_eq_some_iff.mp hstep
      split at hrest
      · cases hrest
        refine h.update ?_
        rintro q hq
        cases hq
        exact (h slot p hp).wake error done
      · cases hrest
  | newproc parent child =>
      obtain ⟨p, hp, hrest⟩ := Option.bind_eq_some_iff.mp hstep
      split at hrest
      · cases hrest
      · cases hrest
        refine h.update ?_
        rintro q hq
        cases hq
        exact (h parent p hp).congr rfl rfl rfl rfl rfl rfl rfl rfl
  | wait4 slot =>
      obtain ⟨p, -, hrest⟩ := Option.bind_eq_some_iff.mp hstep
      split at hrest
      · cases hrest
        exact h.update (by simp)
      · cases hrest

/-- In every reachable state SIGKILL and SIGSTOP are clear in the mask, the caught signals and the
saved mask of every process, and in the ignored signals of every process that is not in `exit`. -/
theorem kill_stop_clear {events : List Event} {k : Kernel} {p : Proc} (slot : Nat)
    (hrun : Steps (Steps.Of Kernel.event) Kernel.boot events k) (hp : k slot = some p) :
    Clear p.p_sigmask ∧ Clear p.p_sigcatch ∧ (p.exiting = false → Clear p.p_sigignore) ∧
      Clear p.u_oldmask := by
  have hkillable : k.Killable := hrun.invariant Kernel.Killable
    (fun _ _ _ h hstep => h.event hstep) Kernel.killable_boot
  have h := hkillable slot p hp
  exact ⟨h.mask, h.caught, h.ignored, h.old⟩

/-- A child that asks for every signal to be blocked, sleeps in `pselect` with every signal blocked,
and returns through a forged frame. -/
theorem kill_stop_clear_forged :
    ∃ k p, Steps (Steps.Of Kernel.event) Kernel.boot
        [.newproc 0 2, .call 2 (.sigprocmask 3 (.pointsTo (BitVec.allOnes 32)) .null),
          .call 2 (.pselect (.pointsTo (BitVec.allOnes 32)) none), .wake 2 .EINTR none,
          .call 2 (.sigreturn (.pointsTo ⟨1, BitVec.allOnes 32⟩))] k ∧ k 2 = some p ∧
      p.p_sigmask = ~~~sigcantmask ∧ p.u_oldmask = ~~~sigcantmask ∧ Clear p.p_sigmask ∧
      Clear p.p_sigcatch ∧ (p.exiting = false → Clear p.p_sigignore) ∧ Clear p.u_oldmask := by
  have hrun : Steps (Steps.Of Kernel.event) Kernel.boot
      [.newproc 0 2, .call 2 (.sigprocmask 3 (.pointsTo (BitVec.allOnes 32)) .null),
        .call 2 (.pselect (.pointsTo (BitVec.allOnes 32)) none), .wake 2 .EINTR none,
        .call 2 (.sigreturn (.pointsTo ⟨1, BitVec.allOnes 32⟩))] _ := Steps.of_foldlM rfl
  exact ⟨_, _, hrun, rfl, by decide, by decide, kill_stop_clear 2 hrun rfl⟩

/-- A fatal signal sends its process into `exit`, which ignores SIGKILL and SIGSTOP as well. -/
theorem exit_ignores :
    ∃ k p, Steps (Steps.Of Kernel.event) Kernel.boot
        [.newproc 0 2, .call 2 (.postsig SIGTERM false)] k ∧ k 2 = some p ∧
      ¬ Clear p.p_sigignore := by
  have hrun : Steps (Steps.Of Kernel.event) Kernel.boot
      [.newproc 0 2, .call 2 (.postsig SIGTERM false)] _ := Steps.of_foldlM rfl
  exact ⟨_, _, hrun, rfl, by unfold Clear; decide⟩

end DiscoBsd.Signal
