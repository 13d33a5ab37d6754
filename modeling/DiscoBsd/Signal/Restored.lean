import DiscoBsd.Lib.Steps
import DiscoBsd.Signal.Killable
import DiscoBsd.Signal.Masks

/-!
# Which mask a handler restores

`postsig` saves `u_oldmask` when `SAS_OLDMASK` is set, and only `postsig` and exec clear it. A
`pselect` or `sigsuspend` that ends without a handler leaves it set. As long as the program keeps its
mask then, the saved mask is still the right one: `masks_restored`.
-/

namespace DiscoBsd.Signal

/-! ## A program and its handlers

What a process does with its signal mask, as its program sees it: it enters the kernel by a call or a
trap, signals are delivered on the way back by `userret`, and a handler returns by `sigreturn` with the
context that it was given. `mask` is the mask in force for the program, which the temporary mask of
`sigsuspend` and `pselect` is not. Signals that find their process in the kernel wait for `userret`.
-/

section

open DiscoBsd.Lib

/-- A handler that has been entered: what its context will restore, and the mask that was in force. -/
structure Frame where
  saved : Sigcontext
  interrupted : BitVec 32

/-- A process, in user mode or in the kernel, with the handlers that have not returned. -/
structure Program where
  p : Proc
  user : Bool
  mask : BitVec 32
  frames : List Frame

inductive Program.Event where
  | enter (c : Call)
  | sigwait (error : Errno)
  | trap
  | wake (error : Errno) (done : Option Errno)
  | deliver (sig : Nat) (trashed : Bool)
  | userret
  | handlerReturn (depth : Nat)

/-- The signals that `CURSIG` can return. -/
def Proc.CURSIG (p : Proc) (sig : Nat) : Prop :=
  1 ≤ sig ∧ sig < NSIG ∧ p.p_sigmask &&& sigmask sig = 0 ∧ p.u_signal sig ≠ SIG_IGN

instance (p : Proc) (sig : Nat) : Decidable (p.CURSIG sig) :=
  inferInstanceAs (Decidable (_ ∧ _))

namespace Program

/-- The process can make no call. -/
def gone (s : Program) : Bool := s.p.exiting || s.p.asleep.isSome

/-- A call of the program. -/
def enter (s : Program) (c : Call) : Option Program :=
  let p := s.p.call c
  match c with
  | .postsig .. => none
  | .sigsuspend _ | .pselect .. => some { s with p := p, user := false }
  | .execve => some { p := p, user := false, mask := p.p_sigmask, frames := [] }
  | _ => some { s with p := p, user := false, mask := p.p_sigmask }

/-- One step. `sigwait` changes no mask. A handler may be left for an outer one. -/
def step (s : Program) : Event → Option Program
  | .enter c => if s.user = false ∨ s.gone then none else s.enter c
  | .sigwait error =>
      if s.user = false ∨ s.gone then none
      else some { s with p := { s.p with u_error := error }, user := false }
  | .trap => if s.user = false ∨ s.gone then none else some { s with user := false }
  | .wake error done =>
      if s.p.asleep.isSome then some { s with p := s.p.wake error done } else none
  | .deliver sig trashed =>
      if s.user = true ∨ s.gone ∨ ¬ s.p.CURSIG sig then none
      else
        let (p, saved) := s.p.postsig sig trashed
        let frames := match saved with
          | none => s.frames
          | some saved => ⟨saved, s.mask⟩ :: s.frames
        some { s with p := p, mask := p.p_sigmask, frames := frames }
  | .userret =>
      if s.user = true ∨ s.gone then none
      else some { s with user := true, mask := s.p.p_sigmask }
  | .handlerReturn depth =>
      if s.user = false ∨ s.gone then none
      else
        match s.frames[depth]? with
        | none => none
        | some frame =>
            let p := s.p.sigreturn (.pointsTo frame.saved)
            some { p := p, user := false, mask := p.p_sigmask, frames := s.frames.drop (depth + 1) }

end Program

end

open DiscoBsd.Lib

variable {p : Proc}

/-! ## The saved mask -/

/-- `SAS_OLDMASK` is set. -/
def Proc.oldmask (p : Proc) : Prop := p.u_psflags &&& SAS_OLDMASK ≠ 0

instance (p : Proc) : Decidable p.oldmask := inferInstanceAs (Decidable (_ ≠ _))

/-- The mask that a handler restores, when it is entered now. -/
def Proc.restores (p : Proc) : BitVec 32 := if p.oldmask then p.u_oldmask else p.p_sigmask

theorem returnmask_eq (p : Proc) : p.returnmask.2 = p.restores := by
  unfold Proc.returnmask Proc.restores
  by_cases hflag : p.oldmask
  · rw [if_pos hflag, if_pos (show p.u_psflags &&& SAS_OLDMASK ≠ 0 from hflag)]
  · rw [if_neg hflag, if_neg (show ¬ p.u_psflags &&& SAS_OLDMASK ≠ 0 from hflag)]

theorem oldmask_or (flags : BitVec 32) : (flags ||| SAS_OLDMASK) &&& SAS_OLDMASK ≠ 0 := by
  intro h
  have hbit := congrArg (fun flags => flags.getLsbD 0) h
  simp [SAS_OLDMASK] at hbit

theorem altstack_or (flags : BitVec 32) :
    (flags ||| SAS_ALTSTACK) &&& SAS_OLDMASK = flags &&& SAS_OLDMASK := by
  rw [BitVec.and_or_distrib_right]
  simp [SAS_ALTSTACK, SAS_OLDMASK]

theorem altstack_not (flags : BitVec 32) :
    (flags &&& ~~~SAS_ALTSTACK) &&& SAS_OLDMASK = flags &&& SAS_OLDMASK := by
  rw [BitVec.and_assoc]
  rfl

theorem oldmask_not (flags : BitVec 32) : (flags &&& ~~~SAS_OLDMASK) &&& SAS_OLDMASK = 0 := by
  rw [BitVec.and_assoc]
  simp [SAS_OLDMASK]

/-- The flag, the mask that it stands for, and the sleep are the same. -/
structure SameOld (p p' : Proc) : Prop where
  old : p'.u_oldmask = p.u_oldmask
  flag : p'.u_psflags &&& SAS_OLDMASK = p.u_psflags &&& SAS_OLDMASK
  asleep : p'.asleep = p.asleep

namespace SameOld

theorem refl (p : Proc) : SameOld p p := ⟨rfl, rfl, rfl⟩

theorem oldmask {p' : Proc} (h : SameOld p p') : p'.oldmask ↔ p.oldmask := by
  unfold Proc.oldmask
  rw [h.flag]

theorem restores {p' : Proc} (h : SameOld p p') :
    p'.restores = if p.oldmask then p.u_oldmask else p'.p_sigmask := by
  unfold Proc.restores
  rw [h.old]
  simp only [h.oldmask]

theorem setsigvec (p : Proc) (signum : Nat) (sa : Sigaction) :
    SameOld p (p.setsigvec signum sa) ∧ (p.setsigvec signum sa).p_sigmask = p.p_sigmask := by
  unfold Proc.setsigvec
  dsimp only
  split <;> exact ⟨⟨rfl, rfl, rfl⟩, rfl⟩

theorem sigaction (p : Proc) (signum : Int) (nsa : UserPtr Sigaction) (osa : UserPtr Unit)
    (sigtramp : Nat) : SameOld p (p.sigaction signum nsa osa sigtramp).1 ∧
      (p.sigaction signum nsa osa sigtramp).1.p_sigmask = p.p_sigmask := by
  unfold Proc.sigaction
  dsimp only
  split
  · exact ⟨⟨rfl, rfl, rfl⟩, rfl⟩
  · split
    · exact ⟨⟨rfl, rfl, rfl⟩, rfl⟩
    · split
      · exact ⟨⟨rfl, rfl, rfl⟩, rfl⟩
      · exact ⟨⟨rfl, rfl, rfl⟩, rfl⟩
      · exact ⟨⟨rfl, rfl, rfl⟩, rfl⟩
      · next sa _ _ =>
          obtain ⟨hsame, hmask⟩ := setsigvec { p with u_sigtramp := sigtramp } signum.toNat sa
          exact ⟨⟨hsame.old, hsame.flag, hsame.asleep⟩, hmask⟩

theorem sigprocmask (p : Proc) (how : Int) (set : UserPtr (BitVec 32)) (oset : UserPtr Unit) :
    SameOld p (p.sigprocmask how set oset).1 := by
  have hchange : SameOld p (p.changeMask how set).1 := by
    unfold Proc.changeMask
    split
    · exact refl p
    · exact refl p
    · split
      · exact ⟨rfl, rfl, rfl⟩
      · split
        · exact ⟨rfl, rfl, rfl⟩
        · split
          · exact ⟨rfl, rfl, rfl⟩
          · exact refl p
  unfold Proc.sigprocmask
  generalize p.changeMask how set = res at hchange
  dsimp only
  split <;> exact ⟨hchange.old, hchange.flag, hchange.asleep⟩

theorem sigaltstack (p : Proc) (nss : UserPtr Sigaltstack) (oss : UserPtr Unit) :
    SameOld p (p.sigaltstack nss oss).1 ∧
      (p.sigaltstack nss oss).1.p_sigmask = p.p_sigmask := by
  unfold Proc.sigaltstack
  dsimp only
  generalize hq : (if p.u_psflags &&& SAS_ALTSTACK = 0 then
      { p with u_sigstk := { p.u_sigstk with ss_flags := p.u_sigstk.ss_flags ||| SA_DISABLE } }
    else p) = q
  have hstk : SameOld p q ∧ q.p_sigmask = p.p_sigmask := by
    rw [← hq]
    split <;> exact ⟨⟨rfl, rfl, rfl⟩, rfl⟩
  obtain ⟨hsame, hmask⟩ := hstk
  split
  · exact ⟨⟨hsame.old, hsame.flag, hsame.asleep⟩, hmask⟩
  · exact ⟨⟨hsame.old, hsame.flag, hsame.asleep⟩, hmask⟩
  · exact ⟨⟨hsame.old, hsame.flag, hsame.asleep⟩, hmask⟩
  · split
    · split
      · exact ⟨⟨hsame.old, hsame.flag, hsame.asleep⟩, hmask⟩
      · exact ⟨⟨hsame.old, (altstack_not _).trans hsame.flag, hsame.asleep⟩, hmask⟩
    · split
      · exact ⟨⟨hsame.old, hsame.flag, hsame.asleep⟩, hmask⟩
      · exact ⟨⟨hsame.old, (altstack_or _).trans hsame.flag, hsame.asleep⟩, hmask⟩

theorem sigreturn (p : Proc) (scp : UserPtr Sigcontext) : SameOld p (p.sigreturn scp) := by
  unfold Proc.sigreturn
  split <;> exact ⟨rfl, rfl, rfl⟩

end SameOld

/-! ## The calls that sleep with a mask -/

/-- What a sleep leaves: a handler restores the mask of before, and the flag of a masked sleep is set. -/
def Proc.Waits (p : Proc) (mask : BitVec 32) : Prop :=
  p.restores = mask ∧ ∀ sigmsk, p.asleep = some (.pselect (some sigmsk)) → p.oldmask

theorem selectSleep_waits {mask : BitVec 32} (hmask : p.p_sigmask = mask)
    (hwaits : p.restores = mask) (sigmsk : Option (BitVec 32)) :
    (p.selectSleep sigmsk).Waits mask := by
  cases sigmsk with
  | none => exact ⟨hwaits, fun sigmsk h => by cases h⟩
  | some sigmsk =>
      have hflag : (p.selectSleep (some sigmsk)).oldmask := oldmask_or _
      refine ⟨?_, fun _ _ => hflag⟩
      exact (if_pos hflag).trans hmask

theorem sigsuspend_waits (p : Proc) (set : UserPtr (BitVec 32)) :
    (p.sigsuspend set).Waits p.p_sigmask := by
  have hflag : (p.sigsuspend set).oldmask := oldmask_or _
  refine ⟨?_, fun sigmsk h => by cases h⟩
  exact if_pos hflag

theorem select1_waits {mask : BitVec 32} (hmask : p.p_sigmask = mask)
    (hwaits : p.restores = mask) (hawake : p.asleep = none) (maskp : UserPtr (BitVec 32))
    (done : Option Errno) : (p.select1 maskp done).Waits mask := by
  have hsame : ∀ error, Proc.Waits { p with u_error := error } mask := by
    refine fun error => ⟨hwaits, fun sigmsk h => ?_⟩
    rw [show p.asleep = some (.pselect (some sigmsk)) from h] at hawake
    cases hawake
  unfold Proc.select1
  split
  · exact hsame .EFAULT
  · exact hsame _
  · exact selectSleep_waits hmask hwaits none
  · exact selectSleep_waits hmask hwaits (some _)

/-- A sleeper that goes on has the mask of before, but in `sigsuspend`. -/
theorem wake_waits {mask : BitVec 32} (h : p.Waits mask) (error : Errno) (done : Option Errno) :
    (p.wake error done).Waits mask := by
  unfold Proc.wake
  split
  · exact h
  · split
    · exact h
    · exact ⟨h.1, fun sigmsk h => by cases h⟩
  · next sigmsk hasleep =>
      dsimp only
      cases sigmsk with
      | none =>
          split
          · split
            · exact ⟨h.1, fun sigmsk h => by cases h⟩
            · exact ⟨h.1, fun sigmsk h => by cases h⟩
          · exact ⟨h.1, fun sigmsk h => by cases h⟩
      | some sigmsk =>
          have hflag := h.2 sigmsk hasleep
          have hold : p.u_oldmask = mask := by
            rw [← h.1]
            exact (if_pos hflag).symm
          have hback : Proc.restores { p with p_sigmask := p.u_oldmask } = mask :=
            (if_pos hflag).trans hold
          split
          · split
            · exact selectSleep_waits (p := { p with p_sigmask := p.u_oldmask }) hold hback (some sigmsk)
            · exact ⟨hback, fun sigmsk h => by cases h⟩
          · exact ⟨hback, fun sigmsk h => by cases h⟩

theorem wake_exiting (p : Proc) (error : Errno) (done : Option Errno) :
    (p.wake error done).exiting = p.exiting := by
  unfold Proc.wake Proc.selectSleep
  grind

theorem Clear.filter {mask : BitVec 32} (h : Clear mask) : mask &&& ~~~sigcantmask = mask := by
  have hall : mask &&& (sigcantmask ||| ~~~sigcantmask) = mask := BitVec.and_allOnes
  rw [BitVec.and_or_distrib_left, show mask &&& sigcantmask = 0 from h] at hall
  simpa using hall

/-! ## Delivery and exec -/

theorem sendsig_same (p : Proc) (sig : Nat) (mask : BitVec 32) (trashed : Bool) :
    (p.sendsig sig mask trashed).1.u_psflags = p.u_psflags ∧
      (p.sendsig sig mask trashed).1.asleep = p.asleep ∧
      ∀ saved, (p.sendsig sig mask trashed).2 = some saved → saved.sc_mask = mask := by
  unfold Proc.sendsig
  dsimp only
  generalize hq : (if p.u_psflags &&& SAS_ALTSTACK ≠ 0 ∧ p.u_sigstk.ss_flags &&& SA_ONSTACK = 0 ∧
        p.u_sigonstack &&& sigmask sig ≠ 0 then
      { p with u_sigstk := { p.u_sigstk with ss_flags := p.u_sigstk.ss_flags ||| SA_ONSTACK } }
    else p) = q
  have hstk : q.u_psflags = p.u_psflags ∧ q.asleep = p.asleep := by
    rw [← hq]
    split <;> exact ⟨rfl, rfl⟩
  split
  · exact ⟨hstk.1, hstk.2, fun saved h => by cases h⟩
  · exact ⟨hstk.1, hstk.2, fun saved h => by cases h; rfl⟩

/-- A handler gets the mask to restore, and clears the flag. -/
theorem postsig_restores (p : Proc) (sig : Nat) (trashed : Bool) :
    (p.postsig sig trashed).1.asleep = p.asleep ∧
      ((p.postsig sig trashed).1.exiting = true ∨
        (p.postsig sig trashed).1.restores = (p.postsig sig trashed).1.p_sigmask) ∧
      ∀ saved, (p.postsig sig trashed).2 = some saved → saved.sc_mask = p.restores := by
  unfold Proc.postsig
  dsimp only
  split
  · generalize hq : Proc.returnmask { p with u_error := .ok } = q
    have hmask : q.2 = p.restores := by
      rw [← hq, returnmask_eq]
      rfl
    have hret : ¬ q.1.oldmask ∧ q.1.asleep = p.asleep := by
      rw [← hq]
      unfold Proc.returnmask
      split
      · exact ⟨not_not.mpr (oldmask_not _), rfl⟩
      · next hflag => exact ⟨hflag, rfl⟩
    obtain ⟨hflags, hasleep, hsaved⟩ := sendsig_same
      { q.1 with p_sigmask := q.1.p_sigmask ||| (q.1.u_sigmask sig ||| sigmask sig) } sig q.2 trashed
    refine ⟨hasleep.trans hret.2, .inr (if_neg fun hold => hret.1 ?_), ?_⟩
    · unfold Proc.oldmask at hold
      rw [hflags] at hold
      exact hold
    · rw [← hmask]
      exact hsaved
  · exact ⟨rfl, .inl rfl, fun saved h => by cases h⟩

theorem resetCaught_same (p : Proc) :
    p.resetCaught.p_sigmask = p.p_sigmask ∧ p.resetCaught.asleep = p.asleep := by
  induction p using Proc.resetCaught.induct with
  | case1 p hzero =>
      rw [Proc.resetCaught, dif_pos hzero]
      exact ⟨rfl, rfl⟩
  | case2 p hcaught nc mask ih =>
      rw [Proc.resetCaught, dif_neg hcaught]
      exact ih

theorem execsigs_restores (p : Proc) :
    p.execsigs.restores = p.execsigs.p_sigmask ∧ p.execsigs.asleep = p.asleep :=
  ⟨if_neg fun hflag => hflag (BitVec.zero_and ..), (resetCaught_same p).2⟩

/-! ## The invariant -/

namespace Program

variable {s s' : Program}

/-- A handler restores the mask in force: those that have been entered, and the next one. -/
structure Sound (s : Program) : Prop where
  killable : Killable s.p
  clear : Clear s.mask
  inForce : s.user = true → s.p.p_sigmask = s.mask ∧ s.p.asleep = none
  waits : s.p.exiting = false → s.p.Waits s.mask
  frames : ∀ frame ∈ s.frames,
    frame.saved.sc_mask = frame.interrupted ∧ Clear frame.interrupted

/-- The mask that is to be in force is the one that waits to be restored, if there is one. -/
def Agrees (s : Program) (mask : BitVec 32) : Prop := s.p.oldmask → s.p.u_oldmask = mask

/-- While `SAS_OLDMASK` is set, the program keeps the mask `u_oldmask`. -/
def Meets (s : Program) : Event → Prop
  | .enter (.sigprocmask how set oset) => s.Agrees (s.p.sigprocmask how set oset).1.p_sigmask
  | .enter (.sigreturn scp) => s.Agrees (s.p.sigreturn scp).p_sigmask
  | .userret => s.Agrees s.p.p_sigmask
  | .handlerReturn depth => ∀ frame, s.frames[depth]? = some frame →
      s.Agrees (s.p.sigreturn (.pointsTo frame.saved)).p_sigmask
  | _ => True

theorem agrees_iff {p' : Proc} (hsame : SameOld s.p p') :
    p'.restores = p'.p_sigmask ↔ s.Agrees p'.p_sigmask := by
  rw [hsame.restores]
  unfold Agrees
  split
  · next hflag => exact ⟨fun h _ => h, fun h => h hflag⟩
  · next hflag => exact ⟨fun _ h => absurd h hflag, fun _ => rfl⟩

/-- The state after a step that is not asleep and establishes its mask. -/
theorem established {p : Proc} {user : Bool} {frames : List Frame} (hkillable : Killable p)
    (hawake : p.asleep = none) (hrestores : p.exiting = false → p.restores = p.p_sigmask)
    (hframes : ∀ frame ∈ frames,
      frame.saved.sc_mask = frame.interrupted ∧ Clear frame.interrupted) :
    Sound ⟨p, user, p.p_sigmask, frames⟩ where
  killable := hkillable
  clear := hkillable.mask
  inForce := fun _ => ⟨rfl, hawake⟩
  waits := fun hexit => ⟨hrestores hexit, fun sigmsk h => by rw [hawake] at h; cases h⟩
  frames := hframes

/-- What a step is to keep, and when it does. -/
def Keeps (s : Program) (event : Event) (s' : Program) : Prop :=
  (s'.p.exiting = false → (s'.p.restores = s'.mask ↔ s.Meets event)) ∧ (s.Meets event → s'.Sound)

theorem gone_eq_false (h : ¬ (s.gone = true)) : s.p.exiting = false ∧ s.p.asleep = none := by
  unfold gone at h
  rw [Bool.or_eq_true, not_or] at h
  exact ⟨Bool.eq_false_iff.mpr h.1, Option.not_isSome_iff_eq_none.mp h.2⟩

theorem Keeps.of_sound {event : Event} (hmeets : s.Meets event) (h : s'.Sound) :
    s.Keeps event s' :=
  ⟨fun hexit => iff_of_true (h.waits hexit).1 hmeets, fun _ => h⟩

theorem Keeps.of_same {event : Event} {p' : Proc} {user : Bool} {frames : List Frame}
    (hsame : SameOld s.p p') (hmeets : s.Meets event ↔ s.Agrees p'.p_sigmask)
    (hkillable : Killable p') (hawake : s.p.asleep = none)
    (hframes : ∀ frame ∈ frames,
      frame.saved.sc_mask = frame.interrupted ∧ Clear frame.interrupted) :
    s.Keeps event ⟨p', user, p'.p_sigmask, frames⟩ :=
  ⟨fun _ => (agrees_iff hsame).trans hmeets.symm, fun h => established hkillable
    (hsame.asleep.trans hawake) (fun _ => (agrees_iff hsame).mpr (hmeets.mp h)) hframes⟩

theorem Sound.enter (h : s.Sound) {c : Call} (huser : s.user = true) (hgone : ¬ (s.gone = true))
    (hstep : s.enter c = some s') : s.Keeps (.enter c) s' := by
  obtain ⟨hexit, hawake⟩ := gone_eq_false hgone
  obtain ⟨hmask, -⟩ := h.inForce huser
  have hwaits := (h.waits hexit).1
  have hkillable := h.killable.call c
  -- a call that leaves the flag and the mask
  have hkeeps : ∀ p', SameOld s.p p' → p'.p_sigmask = s.p.p_sigmask → Killable p' →
      Sound ⟨p', false, p'.p_sigmask, s.frames⟩ := by
    intro p' hsame hmask' hkillable'
    refine established hkillable' (hsame.asleep.trans hawake) (fun _ => ?_) h.frames
    rw [hsame.restores, hmask', hmask]
    exact (if_congr Iff.rfl rfl hmask.symm).trans hwaits
  unfold Program.enter at hstep
  cases c with
  | postsig sig trashed => cases hstep
  | sigaction signum nsa osa sigtramp =>
      cases hstep
      obtain ⟨hsame, hmask'⟩ := SameOld.sigaction s.p signum nsa osa sigtramp
      exact .of_sound trivial (hkeeps _ hsame hmask' hkillable)
  | sigprocmask how set oset =>
      cases hstep
      exact .of_same (SameOld.sigprocmask s.p how set oset) Iff.rfl hkillable hawake h.frames
  | sigsuspend set =>
      cases hstep
      have hsleep := sigsuspend_waits s.p set
      rw [hmask] at hsleep
      exact .of_sound trivial ⟨hkillable, h.clear, (fun hno => by cases hno), fun _ => hsleep, h.frames⟩
  | pselect maskp done =>
      cases hstep
      have hsleep := select1_waits hmask hwaits hawake maskp done
      exact .of_sound trivial ⟨hkillable, h.clear, (fun hno => by cases hno), fun _ => hsleep, h.frames⟩
  | sigaltstack nss oss =>
      cases hstep
      obtain ⟨hsame, hmask'⟩ := SameOld.sigaltstack s.p nss oss
      exact .of_sound trivial (hkeeps _ hsame hmask' hkillable)
  | sigreturn scp =>
      cases hstep
      exact .of_same (SameOld.sigreturn s.p scp) Iff.rfl hkillable hawake h.frames
  | execve =>
      cases hstep
      obtain ⟨hrestores, hasleep⟩ := execsigs_restores s.p
      exact .of_sound trivial (established hkillable (hasleep.trans hawake) (fun _ => hrestores)
        fun frame hmem => by cases hmem)
  | exit =>
      cases hstep
      exact .of_sound trivial (established hkillable hawake (fun hno => by cases hno) h.frames)

/-- A handler that is entered gets the mask in force. -/
theorem Sound.deliver (h : s.Sound) {sig : Nat} {trashed : Bool}
    (hstep : s.step (.deliver sig trashed) = some s') : s'.Sound := by
  simp only [Program.step] at hstep
  split at hstep
  · cases hstep
  · next hguard =>
      cases hstep
      obtain ⟨hexit, hawake⟩ := gone_eq_false fun hgone => hguard (.inr (.inl hgone))
      obtain ⟨hasleep, hrestores, hsaved⟩ := postsig_restores s.p sig trashed
      refine established (h.killable.postsig sig trashed) (hasleep.trans hawake)
        (fun hexit' => hrestores.resolve_left fun hno => by rw [hexit'] at hno; cases hno) ?_
      intro frame hmem
      split at hmem
      · exact h.frames frame hmem
      · next saved hsome =>
          cases List.mem_cons.mp hmem with
          | inl heq =>
              subst heq
              exact ⟨(hsaved saved hsome).trans (h.waits hexit).1, h.clear⟩
          | inr hmem => exact h.frames frame hmem

theorem Sound.step (h : s.Sound) {event : Event} (hstep : s.step event = some s') :
    s.Keeps event s' := by
  cases event with
  | deliver sig trashed => exact .of_sound trivial (h.deliver hstep)
  | enter c =>
      simp only [Program.step] at hstep
      split at hstep
      · cases hstep
      · next hguard =>
          obtain ⟨huser, hgone⟩ := not_or.mp hguard
          exact h.enter (Bool.not_eq_false _ |>.mp huser) hgone hstep
  | sigwait error =>
      simp only [Program.step] at hstep
      split at hstep
      · cases hstep
      · cases hstep
        exact .of_sound trivial ⟨h.killable.congr rfl rfl rfl rfl rfl rfl rfl rfl, h.clear,
          (fun hno => by cases hno), h.waits, h.frames⟩
  | trap =>
      simp only [Program.step] at hstep
      split at hstep
      · cases hstep
      · cases hstep
        exact .of_sound trivial ⟨h.killable, h.clear, (fun hno => by cases hno), h.waits, h.frames⟩
  | wake error done =>
      simp only [Program.step] at hstep
      split at hstep
      · next hasleep =>
          cases hstep
          refine .of_sound trivial ⟨h.killable.wake error done, h.clear, fun huser => ?_, fun hexit => ?_,
            h.frames⟩
          · rw [(h.inForce huser).2] at hasleep
            cases hasleep
          · refine wake_waits (h.waits ?_) error done
            rw [← hexit]
            exact (wake_exiting s.p error done).symm
      · cases hstep
  | userret =>
      simp only [Program.step] at hstep
      split at hstep
      · cases hstep
      · next hguard =>
          cases hstep
          obtain ⟨hexit, hawake⟩ := gone_eq_false fun hgone => hguard (.inr hgone)
          exact .of_same (SameOld.refl s.p) Iff.rfl h.killable hawake h.frames
  | handlerReturn depth =>
      simp only [Program.step] at hstep
      split at hstep
      · cases hstep
      · next hguard =>
          obtain ⟨hexit, hawake⟩ := gone_eq_false fun hgone => hguard (.inr hgone)
          split at hstep
          · cases hstep
          · next frame hframe =>
              cases hstep
              refine .of_same (SameOld.sigreturn s.p _) ⟨fun hall => hall frame hframe, fun hone => ?_⟩
                (h.killable.sigreturn _) hawake fun frame hmem => h.frames frame (List.mem_of_mem_drop hmem)
              intro frame' hframe'
              cases hframe.symm.trans hframe'
              exact hone

/-! ## Runs -/

/-- The program in the kernel, by a trap if it is in user mode. -/
def inKernel (s : Program) : Program := { s with user := false }

/-- The state in which a program starts. -/
def start (p : Proc) : Program := ⟨p, true, p.p_sigmask, []⟩

theorem sound_run {p : Proc} (hkillable : Killable p) (hclear : ¬ p.oldmask)
    (hawake : p.asleep = none) {events : List Event} {s : Program}
    (hrun : Steps (fun s event s' => s.Meets event ∧ s.step event = some s') (start p) events s) :
    s.Sound :=
  hrun.invariant Sound (fun _ _ _ h hstep => (h.step hstep.2).2 hstep.1)
    (established hkillable hawake (fun _ => if_neg hclear) fun frame hmem => by cases hmem)

/-- In a run in which the program keeps its mask while `SAS_OLDMASK` is set, every handler that is
entered has the mask in force saved, and restores it. After one more step the next handler does if
and only if that step meets the condition, too. -/
theorem masks_restored {p : Proc} (hkillable : Killable p) (hclear : ¬ p.oldmask)
    (hawake : p.asleep = none) {events : List Event} {s : Program}
    (hrun : Steps (fun s event s' => s.Meets event ∧ s.step event = some s') (start p) events s) :
    (∀ frame ∈ s.frames, frame.saved.sc_mask = frame.interrupted) ∧
      (∀ depth frame s', s.frames[depth]? = some frame → s.step (.handlerReturn depth) = some s' →
        s'.p.p_sigmask = frame.interrupted) ∧
      ∀ event s' sig trashed s'' frame, s.step event = some s' →
        s'.inKernel.step (.deliver sig trashed) = some s'' → s''.frames = frame :: s'.frames →
          (frame.saved.sc_mask = frame.interrupted ↔ s.Meets event) := by
  have h := sound_run hkillable hclear hawake hrun
  refine ⟨fun frame hmem => (h.frames frame hmem).1, ?_, ?_⟩
  · intro depth frame s' hframe hstep
    obtain ⟨hsaved, hinterrupted⟩ := h.frames frame (List.mem_of_getElem? hframe)
    simp only [Program.step, hframe] at hstep
    split at hstep
    · cases hstep
    · cases hstep
      show frame.saved.sc_mask &&& ~~~sigcantmask = frame.interrupted
      rw [hsaved]
      exact hinterrupted.filter
  · intro event s' sig trashed s'' frame hstep hdeliver hentered
    simp only [Program.step] at hdeliver
    split at hdeliver
    · cases hdeliver
    · next hguard =>
        cases hdeliver
        have hexit := (gone_eq_false fun hgone => hguard (.inr (.inl hgone))).1
        obtain ⟨-, -, hsaved⟩ := postsig_restores s'.p sig trashed
        dsimp only at hentered
        split at hentered
        · exact absurd (congrArg List.length hentered) (by rw [List.length_cons]; exact Nat.ne_of_lt (Nat.lt_succ_self _))
        · next saved hsome =>
            have heq : (⟨saved, s'.mask⟩ : Frame) = frame := List.head_eq_of_cons_eq hentered
            rw [← heq, hsaved saved hsome]
            exact (h.step hstep).1 hexit

/-- A process that nothing has been done to. -/
def quiet : Proc where
  p_sigmask := 0
  p_sigignore := 0
  p_sigcatch := 0
  noCldStop := false
  u_signal := fun _ => SIG_DFL
  u_sigmask := fun _ => 0
  u_sigonstack := 0
  u_sigintr := 0
  u_oldmask := 0
  u_psflags := 0
  u_sigstk := { ss_base := 0, ss_size := 0, ss_flags := 0 }
  u_sigtramp := 0
  u_error := .ok
  asleep := none
  exiting := false

theorem killable_quiet : Killable quiet :=
  ⟨clear_zero, clear_zero, fun _ => clear_zero, clear_zero, fun _ => clear_zero, rfl, rfl,
    fun _ h => by cases h⟩

/-- A `sigsuspend` that ends in a handler. -/
theorem masks_restored_sigsuspend :
    ∃ s, Steps (fun s event s' => s.Meets event ∧ s.step event = some s') (start quiet)
        [.enter (.sigaction 30 (.pointsTo ⟨4096, 0, 0⟩) .null 0), .userret,
          .enter (.sigsuspend (.pointsTo 1)), .wake .EINTR none, .deliver 30 false] s ∧
      s.frames.length = 1 ∧ ∀ frame ∈ s.frames, frame.saved.sc_mask = frame.interrupted := by
  have hrun : Steps (fun s event s' => s.Meets event ∧ s.step event = some s') (start quiet)
      [.enter (.sigaction 30 (.pointsTo ⟨4096, 0, 0⟩) .null 0), .userret,
        .enter (.sigsuspend (.pointsTo 1)), .wake .EINTR none, .deliver 30 false] _ :=
    .cons ⟨trivial, rfl⟩ (.cons ⟨fun hold => absurd rfl hold, rfl⟩ (.cons ⟨trivial, rfl⟩
      (.cons ⟨trivial, rfl⟩ (.cons ⟨trivial, rfl⟩ (.refl _)))))
  exact ⟨_, hrun, rfl, (masks_restored killable_quiet (fun hold => hold rfl) rfl hrun).1⟩

/-- A `pselect` that ends by its timeout leaves its mask for a handler long after. -/
theorem stale_mask_restored :
    ∃ s s', Steps (Steps.Of Program.step) (start quiet)
        [.enter (.sigaction 30 (.pointsTo ⟨4096, 0, 0⟩) .null 0), .userret,
          .enter (.pselect (.pointsTo 1) none), .wake .EWOULDBLOCK none, .userret,
          .enter (.sigprocmask Proc.SIG_SETMASK (.pointsTo 2) .null), .userret, .trap,
          .deliver 30 false, .userret] s ∧
      s.frames.map Frame.interrupted = [2] ∧ s.step (.handlerReturn 0) = some s' ∧
      s'.p.p_sigmask = 0 := by
  have hrun : Steps (Steps.Of Program.step) (start quiet)
      [.enter (.sigaction 30 (.pointsTo ⟨4096, 0, 0⟩) .null 0), .userret,
        .enter (.pselect (.pointsTo 1) none), .wake .EWOULDBLOCK none, .userret,
        .enter (.sigprocmask Proc.SIG_SETMASK (.pointsTo 2) .null), .userret, .trap,
        .deliver 30 false, .userret] _ := Steps.of_foldlM rfl
  exact ⟨_, _, hrun, by decide, rfl, by decide⟩

end Program

end DiscoBsd.Signal
