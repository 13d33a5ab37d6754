import DiscoBsd.Signal.Delivery

/-!
# Signal numbers are in range

Bit 31 of the pending and the caught signals stays clear, and a number that waits for its use, as the
answer of `issignal` or in `p_ptracesig`, is in range. Every number in a mask got there through a
check of its own, with one exception: `procxmt` takes the number of PT_CONTINUE and PT_STEP up to
`NSIG` and puts its low byte into `p_ptracesig`.
-/

namespace DiscoBsd.Signal.Delivery

open DiscoBsd.Lib

/-- The bit of a signal with number 32 is clear. -/
def Low (mask : BitVec 32) : Prop := mask.getLsbD 31 = false

instance (mask : BitVec 32) : Decidable (Low mask) := inferInstanceAs (Decidable (_ = _))

theorem Low.and {a : BitVec 32} (h : Low a) (b : BitVec 32) : Low (a &&& b) := by
  rw [Low, BitVec.getLsbD_and, show a.getLsbD 31 = false from h, Bool.false_and]

theorem Low.or {a b : BitVec 32} (ha : Low a) (hb : Low b) : Low (a ||| b) := by
  rw [Low, BitVec.getLsbD_or, show a.getLsbD 31 = false from ha, show b.getLsbD 31 = false from hb,
    Bool.or_false]

theorem low_sigmask {sig : Nat} (h : sig < NSIG) : Low (sigmask sig) := by
  have hne : ¬ 31 = sig - 1 := by
    simp only [NSIG] at h
    omega
  rw [Low, getLsbD_sigmask, decide_eq_false hne, Bool.and_false]

theorem ffs_lt {mask : BitVec 32} (h : Low mask) (hne : mask ≠ 0) :
    1 ≤ ffs mask ∧ ffs mask < NSIG := by
  obtain ⟨hpos, hle, hbit⟩ := ffs_spec hne
  refine ⟨hpos, Nat.lt_of_le_of_ne hle fun heq => ?_⟩
  rw [heq, show mask.getLsbD (NSIG - 1) = false from h] at hbit
  cases hbit

theorem index_nat {sig : Nat} (hpos : 1 ≤ sig) (hlt : sig < NSIG) : index sig = some sig := by
  rw [index, if_pos (by omega), Int.toNat_natCast]

theorem index_eq_some {sig : Int} {n : Nat} (h : index sig = some n) : 1 ≤ n ∧ n < NSIG := by
  unfold index at h
  split at h
  · have := Option.some.inj h
    omega
  · cases h

theorem index_isSome {sig : Int} (hpos : 1 ≤ sig) (hlt : sig < NSIG) : ∃ n, index sig = some n :=
  ⟨_, if_pos ⟨hpos, hlt⟩⟩

/-! ## Caught signals -/

theorem low_setsigvec {p : Proc} (h : Low p.p_sigcatch) {sig : Nat} (hsig : sig < NSIG)
    (sa : Sigaction) : Low (p.setsigvec sig sa).p_sigcatch := by
  unfold Proc.setsigvec
  dsimp only
  split
  · exact h.and _
  dsimp only
  split
  · exact h.and _
  · exact h.or (low_sigmask hsig)

theorem low_sigaction {p : Proc} (h : Low p.p_sigcatch) (signum : Int) (nsa : UserPtr Sigaction)
    (osa : UserPtr Unit) (sigtramp : Nat) :
    Low (p.sigaction signum nsa osa sigtramp).1.p_sigcatch := by
  unfold Proc.sigaction
  dsimp only
  split
  · exact h
  · rename_i hrange
    split
    · exact h
    split
    · exact h
    · exact h
    · exact h
    · have hlt : signum.toNat < NSIG := by omega
      exact low_setsigvec (p := { p with u_sigtramp := sigtramp }) h hlt _

theorem low_sendsig {p : Proc} (h : Low p.p_sigcatch) (sig : Nat) (mask : BitVec 32)
    (trashed : Bool) : Low (p.sendsig sig mask trashed).1.p_sigcatch := by
  unfold Proc.sendsig
  dsimp only
  generalize hq : (if p.u_psflags &&& SAS_ALTSTACK ≠ 0 ∧ p.u_sigstk.ss_flags &&& SA_ONSTACK = 0 ∧
        p.u_sigonstack &&& sigmask sig ≠ 0 then
      { p with u_sigstk := { p.u_sigstk with ss_flags := p.u_sigstk.ss_flags ||| SA_ONSTACK } }
    else p) = q
  have hstk : Low q.p_sigcatch := by
    rw [← hq]
    split <;> exact h
  split
  · exact hstk.and _
  · exact hstk

theorem low_postsig {p : Proc} (h : Low p.p_sigcatch) (sig : Nat) (trashed : Bool) :
    Low (p.postsig sig trashed).1.p_sigcatch := by
  unfold Proc.postsig
  dsimp only
  split
  · generalize hq : Proc.returnmask { p with u_error := .ok } = q
    have hret : Low q.1.p_sigcatch := by
      rw [← hq, Proc.returnmask]
      split <;> exact h
    refine low_sendsig ?_ sig q.2 trashed
    exact hret
  · exact h

theorem low_resetCaught {p : Proc} (h : Low p.p_sigcatch) : Low p.resetCaught.p_sigcatch := by
  induction p using Proc.resetCaught.induct with
  | case1 p hzero =>
      rw [Proc.resetCaught, dif_pos hzero]
      exact h
  | case2 p hcaught nc mask ih =>
      rw [Proc.resetCaught, dif_neg hcaught]
      exact ih (h.and _)

theorem changeMask_sigcatch (p : Proc) (how : Int) (set : UserPtr (BitVec 32)) :
    (p.changeMask how set).1.p_sigcatch = p.p_sigcatch := by
  unfold Proc.changeMask
  split
  · rfl
  · rfl
  · split_ifs <;> rfl

theorem sigprocmask_sigcatch (p : Proc) (how : Int) (set : UserPtr (BitVec 32))
    (oset : UserPtr Unit) : (p.sigprocmask how set oset).1.p_sigcatch = p.p_sigcatch := by
  have hmask := changeMask_sigcatch p how set
  unfold Proc.sigprocmask
  generalize p.changeMask how set = res at hmask
  obtain ⟨q, error⟩ := res
  dsimp only
  split <;> exact hmask

theorem select1_sigcatch (p : Proc) (maskp : UserPtr (BitVec 32)) (done : Option Errno) :
    (p.select1 maskp done).p_sigcatch = p.p_sigcatch := by
  unfold Proc.select1
  split <;> rfl

theorem sigaltstack_sigcatch (p : Proc) (nss : UserPtr Sigaltstack) (oss : UserPtr Unit) :
    (p.sigaltstack nss oss).1.p_sigcatch = p.p_sigcatch := by
  unfold Proc.sigaltstack
  dsimp only
  generalize hq : (if p.u_psflags &&& SAS_ALTSTACK = 0 then
      { p with u_sigstk := { p.u_sigstk with ss_flags := p.u_sigstk.ss_flags ||| SA_DISABLE } }
    else p) = q
  have hstk : q.p_sigcatch = p.p_sigcatch := by
    rw [← hq]
    split <;> rfl
  split
  · exact hstk
  · exact hstk
  · exact hstk
  · split_ifs <;> exact hstk

theorem low_call {p : Proc} (h : Low p.p_sigcatch) (c : Call) : Low (p.call c).p_sigcatch := by
  cases c with
  | sigaction signum nsa osa sigtramp => exact low_sigaction h signum nsa osa sigtramp
  | sigprocmask how set oset =>
      rw [Proc.call, sigprocmask_sigcatch]
      exact h
  | sigsuspend set => exact h
  | pselect maskp done =>
      rw [Proc.call, select1_sigcatch]
      exact h
  | sigaltstack nss oss =>
      rw [Proc.call, sigaltstack_sigcatch]
      exact h
  | postsig sig trashed => exact low_postsig h sig trashed
  | sigreturn scp =>
      cases scp <;> exact h
  | execve => exact low_resetCaught h
  | exit => exact h

namespace Task

/-- What keeps the numbers of a process in range. -/
structure Ranged (p : Task) : Prop where
  sig : Low p.p_sig
  caught : Low p.p_sigcatch
  traced : p.point = .traced → p.p_ptracesig < NSIG
  signalled : ∀ sig, p.point = .signalled sig → 1 ≤ sig ∧ sig < NSIG

namespace Ranged

variable {p q : Task}

theorem congr (h : Ranged p) (hsig : Low q.p_sig) (hcaught : Low q.p_sigcatch)
    (hpoint : q.point = p.point) (hptrace : q.p_ptracesig = p.p_ptracesig) : Ranged q :=
  ⟨hsig, hcaught, fun ht => hptrace ▸ h.traced (hpoint ▸ ht),
    fun sig hs => h.signalled sig (hpoint ▸ hs)⟩

theorem of_low (hsig : Low q.p_sig) (hcaught : Low q.p_sigcatch) (htraced : q.point ≠ .traced)
    (hsignalled : ∀ sig, q.point ≠ .signalled sig) : Ranged q :=
  ⟨hsig, hcaught, fun ht => absurd ht htraced, fun sig hs => absurd hs (hsignalled sig)⟩

theorem take (h : Ranged p) (mask : BitVec 32) : Ranged (p.take mask) :=
  h.congr (h.sig.and _) h.caught rfl rfl

theorem run (h : Ranged p) : Ranged p.run := h.congr h.sig h.caught rfl rfl

theorem psignalSleep (h : Ranged p) {sig : Nat} (hsig : sig < NSIG) (action : Action) :
    Ranged (p.psignalSleep sig action).1 := by
  unfold Task.psignalSleep
  split
  · exact h
  split
  · exact h.run
  split
  · exact h.take _
  split
  · split
    · exact h.run
    split
    · exact h
    · exact ⟨h.sig.and _, h.caught, fun _ => hsig, h.signalled⟩
  · exact h.run

theorem psignalStop (h : Ranged p) (sig : Nat) (action : Action) :
    Ranged (p.psignalStop sig action) := by
  unfold Task.psignalStop
  split
  · exact h
  split
  · exact h.run
  split
  · have hcont : Ranged (if action = .dfl then p.take (sigmask sig) else p) := by
      split
      · exact h.take _
      · exact h
    dsimp only
    generalize (if action = .dfl then p.take (sigmask sig) else p) = q at hcont ⊢
    split
    · exact hcont.run
    · exact hcont.congr hcont.sig hcont.caught rfl rfl
  split
  · exact h.take _
  split
  · exact h.congr h.sig h.caught rfl rfl
  · exact h

theorem renice (h : Ranged p) (sig : Nat) (action : Action) : Ranged (p.renice sig action) := by
  unfold Task.renice
  split
  · exact h.congr h.sig h.caught rfl rfl
  · exact h

theorem cancel (h : Ranged p) (sig prop : Nat) (mask : BitVec 32) :
    Ranged (p.cancel sig prop mask) := by
  unfold Task.cancel
  split
  · exact h.take _
  · exact h

theorem pend (h : Ranged p) {sig : Nat} (hsig : sig < NSIG) (action : Action) :
    Ranged (p.pend sig action).1 := by
  have hset : Ranged { p with p_sig := p.p_sig ||| sigmask sig } :=
    h.congr (h.sig.or (low_sigmask hsig)) h.caught rfl rfl
  unfold Task.pend
  dsimp only
  split
  · exact hset
  split
  · exact hset.psignalSleep hsig action
  · exact hset.psignalStop sig action
  · exact hset

/-- A signal with a number in range can be posted. -/
theorem psignal (h : Ranged p) {sig : Int} (hpos : 1 ≤ sig) (hlt : sig < NSIG) :
    ∃ q told, p.psignal sig = some (q, told) ∧ Ranged q := by
  obtain ⟨n, hn⟩ := index_isSome hpos hlt
  have hrange := (index_eq_some hn).2
  have hcont := (h.renice n (p.action (sigmask n))).cancel n SA_CONT stopsigmask
  unfold Task.psignal
  rw [hn, Option.bind_eq_bind, Option.bind_some]
  dsimp only
  split
  · exact ⟨p, false, rfl, h⟩
  split
  · exact ⟨_, false, rfl, hcont⟩
  · exact ⟨_, _, rfl, (hcont.cancel n SA_STOP contsigmask).pend hrange _⟩

/-! ## Calls and delivery -/

theorem sigaction (h : Ranged p) (signum : Int) (nsa : UserPtr Sigaction) (osa : UserPtr Unit)
    (sigtramp : Nat) : ∃ q, p.sigaction signum nsa osa sigtramp = some q ∧ Ranged q := by
  have hq : Ranged { p with toProc := (p.toProc.sigaction signum nsa osa sigtramp).1 } :=
    h.congr h.sig (low_sigaction h.caught signum nsa osa sigtramp) rfl rfl
  unfold Task.sigaction
  dsimp only
  split
  · exact ⟨_, rfl, hq⟩
  · rename_i hrange
    split
    · exact ⟨_, rfl, hq⟩
    obtain ⟨n, hn⟩ : ∃ n, index signum = some n := index_isSome (by omega) (by omega)
    rw [hn, Option.bind_eq_bind, Option.bind_some]
    split
    · exact ⟨_, rfl, hq⟩
    · refine ⟨_, rfl, ?_⟩
      unfold unpend
      split
      · exact hq.take _
      · exact hq
    · exact ⟨_, rfl, hq⟩

theorem execLoop (h : Ranged p) (fuel : Nat) : ∃ q, p.execLoop fuel = some q ∧ Ranged q := by
  induction fuel generalizing p with
  | zero => exact ⟨p, rfl, h⟩
  | succ fuel ih =>
      rw [Task.execLoop]
      split
      · exact ⟨p, rfl, h⟩
      · rename_i hcaught
        obtain ⟨hpos, hlt⟩ := ffs_lt h.caught hcaught
        rw [index_nat hpos hlt, Option.bind_eq_bind, Option.bind_some]
        refine ih (h.congr ?_ (h.caught.and _) rfl rfl)
        dsimp only
        split
        · exact h.sig.and _
        · exact h.sig

theorem execsigs (h : Ranged p) : ∃ q, p.execsigs = some q ∧ Ranged q := by
  obtain ⟨q, hloop, hq⟩ := h.execLoop 32
  rw [Task.execsigs, hloop, Option.bind_eq_bind, Option.bind_some]
  exact ⟨_, rfl, hq.congr hq.sig hq.caught rfl rfl⟩

theorem cursig (h : Ranged p) : Ranged p.cursig := by
  unfold Task.cursig
  split
  · exact h
  · exact of_low h.sig h.caught Point.noConfusion fun _ => Point.noConfusion

theorem dispose (h : Ranged p) {sig : Nat} (hpos : 1 ≤ sig) (hlt : sig < NSIG) :
    Ranged (p.dispose sig).1 := by
  have hagain : Ranged { p.take (sigmask sig) with point := .issignal } :=
    of_low (h.sig.and _) h.caught Point.noConfusion fun _ => Point.noConfusion
  have hreturn : Ranged { p with point := .signalled sig } := by
    refine ⟨h.sig, h.caught, Point.noConfusion, fun n hn => ?_⟩
    cases hn
    omega
  unfold Task.dispose
  dsimp only
  split
  · split
    · exact hagain
    split
    · split
      · exact hagain
      · exact of_low h.sig h.caught Point.noConfusion fun _ => Point.noConfusion
    split
    · exact hagain
    · exact hreturn
  split
  · exact hagain
  · exact hreturn

/-- A turn of `issignal` finds its number in a mask without bit 31. -/
theorem issignal (h : Ranged p) : ∃ q notice, p.issignal = some (q, notice) ∧ Ranged q := by
  unfold Task.issignal
  dsimp only
  generalize hmask : (if p.SVFORK then p.p_sig &&& ~~~p.p_sigmask &&& ~~~stopsigmask
    else p.p_sig &&& ~~~p.p_sigmask) = mask
  have hlow : Low mask := by
    rw [← hmask]
    split
    · exact (h.sig.and _).and _
    · exact h.sig.and _
  split
  · exact ⟨_, _, rfl, of_low h.sig h.caught Point.noConfusion fun _ => Point.noConfusion⟩
  · rename_i hne
    obtain ⟨hpos, hlt⟩ := ffs_lt hlow hne
    rw [index_nat hpos hlt, Option.bind_eq_bind, Option.bind_some]
    split
    · exact ⟨_, _, rfl, h.take _⟩
    split
    · exact ⟨_, _, rfl, h.sig.and _, h.caught, fun _ => hlt, fun _ => Point.noConfusion⟩
    · exact ⟨_, _, rfl, h.dispose hpos hlt⟩

/-- The number that the tracing process has left is used if it is not 0. -/
theorem released (h : Ranged p) (hptrace : p.p_ptracesig < NSIG) :
    ∃ q told, p.released = some (q, told) ∧ Ranged q := by
  unfold Task.released
  split
  · exact ⟨_, _, rfl, of_low h.sig h.caught Point.noConfusion fun _ => Point.noConfusion⟩
  · rename_i hne
    have hpos : 1 ≤ p.p_ptracesig := Nat.one_le_iff_ne_zero.mpr hne
    rw [index_nat hpos hptrace, Option.bind_eq_bind, Option.bind_some]
    have hset : Low (p.p_sig ||| sigmask p.p_ptracesig) := h.sig.or (low_sigmask hptrace)
    have hq : Ranged { p with p_sig := p.p_sig ||| sigmask p.p_ptracesig } :=
      h.congr hset h.caught rfl rfl
    dsimp only
    split
    · exact ⟨_, _, rfl, of_low hset h.caught Point.noConfusion fun _ => Point.noConfusion⟩
    split
    · exact ⟨_, _, rfl, of_low hset h.caught Point.noConfusion fun _ => Point.noConfusion⟩
    · exact ⟨_, _, rfl, hq.dispose hpos hptrace⟩

theorem released_eq_none (hptrace : NSIG ≤ p.p_ptracesig) : p.released = none := by
  have hne : ¬ p.p_ptracesig = 0 := by
    simp only [NSIG] at hptrace
    omega
  rw [Task.released, if_neg hne, index, if_neg (by omega)]
  rfl

theorem postsig (h : Ranged p) {sig : Int} (hpos : 1 ≤ sig) (hlt : sig < NSIG) (trashed : Bool) :
    ∃ q fatal, p.postsig sig trashed = some (q, fatal) ∧ Ranged q := by
  obtain ⟨n, hn⟩ := index_isSome hpos hlt
  unfold Task.postsig
  rw [hn, Option.bind_eq_bind, Option.bind_some]
  exact ⟨_, _, rfl, of_low (h.sig.and _) (low_postsig h.caught n trashed) Point.noConfusion
    fun _ => Point.noConfusion⟩

end Ranged

end Task

/-! ## The system -/

/-- A value that keeps the numbers in range when it is stored in a word. -/
def Word.Takes (data : Int) : Word → Prop
  | .p_sig => Low (BitVec.ofInt 32 data)
  | .p_sigcatch => Low (BitVec.ofInt 32 data)
  | .p_ptracesig => data / 256 % 256 < NSIG
  | _ => True

/-- A request of `ptrace` whose number `procxmt` refuses, or that has a signal number in its low
byte, and that overwrites no word of signal state with a number out of range. -/
structure Admissible (word : Int → Option (Nat × Word)) (req addr data : Int) : Prop where
  continue_ : req = PT_STEP ∨ req = PT_CONTINUE → (NSIG : Int) < data ∨ data % 256 < NSIG
  write : req = PT_WRITE_U → ∀ slot w, word addr = some (slot, w) → w.Takes data

theorem admissible_of_nonpos {word : Int → Option (Nat × Word)} {req : Int} (h : req ≤ 0)
    (addr data : Int) : Admissible word req addr data := by
  refine ⟨fun hreq => ?_, fun hreq => ?_⟩
  · simp only [PT_STEP, PT_CONTINUE] at hreq
    omega
  · simp only [PT_WRITE_U] at hreq
    omega

theorem Task.Ranged.store {p : Task} (h : p.Ranged) {data : Int} {w : Word} (hw : w.Takes data) :
    (p.store data w).Ranged := by
  cases w with
  | p_sig => exact h.congr hw h.caught rfl rfl
  | p_sigcatch => exact h.congr h.sig hw rfl rfl
  | p_ptracesig =>
      refine ⟨h.sig, h.caught, fun _ => ?_, h.signalled⟩
      have hw : data / 256 % 256 < NSIG := hw
      show (data / 256 % 256).toNat < NSIG
      omega
  | p_sigmask => exact h.congr h.sig h.caught rfl rfl
  | p_sigignore => exact h.congr h.sig h.caught rfl rfl
  | u_signal sig => exact h.congr h.sig h.caught rfl rfl
  | u_sigmask sig => exact h.congr h.sig h.caught rfl rfl

namespace System

/-- Every process keeps its numbers in range, and so will what a request of `ptrace` stores. -/
structure Ranged (word : Int → Option (Nat × Word)) (s : System) : Prop where
  procs : ∀ slot p, s.procs slot = some p → p.Ranged
  request : Admissible word s.ipc.ip_req s.ipc.ip_addr s.ipc.ip_data

/-- A step that uses no number out of range, and leaves none. -/
def Safe (word : Int → Option (Nat × Word)) (r : Option System) : Prop :=
  ∃ s, r = some s ∧ Ranged word s

variable {word : Int → Option (Nat × Word)} {s : System} {p : Task}

@[simp] theorem set_procs (s : System) (slot : Nat) (p : Task) :
    (s.set slot p).procs slot = some p := Function.update_self ..

theorem Ranged.safe (h : Ranged word s) : Safe word (some s) := ⟨s, rfl, h⟩

theorem Safe.bind {r : Option System} (h : Safe word r) {f : System → Option System}
    (hf : ∀ s, Ranged word s → Safe word (f s)) : Safe word (r.bind f) := by
  obtain ⟨s, rfl, hs⟩ := h
  exact hf s hs

theorem Ranged.foldlM {f : System → Nat → Option System}
    (hf : ∀ s slot, Ranged word s → Safe word (f s slot)) (h : Ranged word s) (slots : List Nat) :
    Safe word (slots.foldlM f s) := by
  induction slots generalizing s with
  | nil => exact h.safe
  | cons slot slots ih =>
      rw [List.foldlM_cons]
      exact (hf s slot h).bind fun s hs => ih hs

namespace Ranged

theorem set (h : Ranged word s) (hp : p.Ranged) (slot : Nat) : Ranged word (s.set slot p) := by
  refine ⟨fun other q hq => ?_, h.request⟩
  unfold System.set at hq
  by_cases heq : other = slot
  · rw [heq] at hq
    dsimp only at hq
    rw [Function.update_self] at hq
    cases hq
    exact hp
  · dsimp only at hq
    rw [Function.update_of_ne heq] at hq
    exact h.procs other q hq

theorem tell (h : Ranged word s) (parent : Nat) : Safe word (s.tell parent) := by
  unfold System.tell
  split
  · exact h.safe
  · rename_i q hq
    split
    · exact h.safe
    · obtain ⟨q', told, hpost, hq'⟩ := (h.procs parent q hq).psignal (show 1 ≤ (SIGCHLD : Int) by decide) (by decide)
      rw [hpost]
      exact (h.set hq' parent).safe

theorem psignal (h : Ranged word s) (slot : Nat) {sig : Int} (hpos : 1 ≤ sig) (hlt : sig < NSIG) :
    Safe word (s.psignal slot sig) := by
  unfold System.psignal
  split
  · exact h.safe
  · rename_i p hp
    obtain ⟨q, told, hpost, hq⟩ := (h.procs slot p hp).psignal hpos hlt
    rw [hpost, Option.bind_eq_bind, Option.bind_some]
    dsimp only
    split
    · exact (h.set hq slot).tell q.p_pptr
    · exact (h.set hq slot).safe

theorem gsignal (h : Ranged word s) (pgrp : Int) {sig : Int} (hpos : 1 ≤ sig) (hlt : sig < NSIG) :
    Safe word (s.gsignal pgrp sig) := by
  unfold System.gsignal
  split
  · exact h.safe
  · refine h.foldlM (fun s slot hs => ?_) _
    split
    · exact hs.safe
    split
    · exact hs.psignal slot hpos hlt
    · exact hs.safe

/-- Both `kill` and `killpg` check the number before they get here, and leave 0 to it. -/
theorem killpg1 (h : Ranged word s) (self : Nat) {signo : Int} (hpos : 0 ≤ signo) (hlt : signo < NSIG)
    (pgrp : Int) (all : Bool) (can : Nat → Bool) : Safe word (s.killpg1 self signo pgrp all can) := by
  unfold System.killpg1
  dsimp only
  generalize (if ¬ all ∧ pgrp = 0 then ((s.procs self).map (·.p_pgrp)).getD 0 else pgrp) = pgrp'
  split
  · exact h.safe
  · refine h.foldlM (fun s slot hs => ?_) _
    split
    · exact hs.safe
    split
    · exact hs.safe
    split
    · exact hs.safe
    split
    · exact hs.psignal slot (by omega) hlt
    · exact hs.safe

theorem kill (h : Ranged word s) (self : Nat) (pid signo : Int) (can : Nat → Bool) :
    Safe word (s.kill self pid signo can) := by
  unfold System.kill
  split
  · exact h.safe
  · rename_i hrange
    split
    · split
      · exact h.safe
      split
      · rename_i slot _ hcan
        exact h.psignal slot (by omega) (by omega)
      · exact h.safe
    split
    · exact h.killpg1 self (by omega) (by omega) _ _ can
    split
    · exact h.killpg1 self (by omega) (by omega) _ _ can
    · exact h.killpg1 self (by omega) (by omega) _ _ can

theorem killpg (h : Ranged word s) (self : Nat) (pgrp signo : Int) (can : Nat → Bool) :
    Safe word (s.killpg self pgrp signo can) := by
  unfold System.killpg
  split
  · exact h.safe
  · exact h.killpg1 self (by omega) (by omega) _ _ can

theorem orphan (h : Ranged word s) (parent child : Nat) : Safe word (orphan parent s child) := by
  unfold System.orphan
  split
  · exact h.safe
  · rename_i q hq
    have hchild := h.procs child q hq
    split
    · exact h.safe
    dsimp only
    split
    · have hfree : Task.Ranged { q with p_pptr := 1, p_ppid := 1, P_TRACED := false } :=
        hchild.congr hchild.sig hchild.caught rfl rfl
      exact (h.set hfree child).psignal child (by decide) (by decide)
    have hset : Task.Ranged { q with p_pptr := 1, p_ppid := 1 } :=
      hchild.congr hchild.sig hchild.caught rfl rfl
    split
    · refine ((h.set hset child).psignal child (by decide) (by decide)).bind fun s hs => ?_
      exact hs.psignal child (by decide) (by decide)
    · exact (h.set hset child).safe

theorem exit (h : Ranged word s) (slot : Nat) (hcaught : Low p.p_sigcatch) : Safe word (s.exit slot p) := by
  have hzomb : Task.Ranged { p with
      toProc := p.toProc.exit, P_TRACED := false, p_sig := 0, SVFORK := false, p_stat := .SZOMB
      point := .away } :=
    Task.Ranged.of_low (show Low 0 by decide) hcaught Point.noConfusion fun _ => Point.noConfusion
  have hset : System.Ranged word { s.set slot { p with
      toProc := p.toProc.exit, P_TRACED := false, p_sig := 0, SVFORK := false, p_stat := .SZOMB
      point := .away } with allproc := s.allproc.erase slot } :=
    ⟨(h.set hzomb slot).procs, h.request⟩
  unfold System.exit
  dsimp only
  refine (hset.foldlM (fun s child hs => hs.orphan slot child) _).bind fun s hs => ?_
  exact hs.psignal p.p_pptr (by decide) (by decide)

/-! ## Tracing -/

theorem withIpc (h : Ranged word s) {ipc : Ipc}
    (hipc : Admissible word ipc.ip_req ipc.ip_addr ipc.ip_data) :
    Ranged word { s with ipc := ipc } := ⟨h.procs, hipc⟩

theorem ptrace (h : Ranged word s) (self : Nat) {req addr data : Int} (pid : Int)
    (hreq : Admissible word req addr data) : Ranged word (s.ptrace self req pid addr data) := by
  unfold System.ptrace
  split
  · exact h
  · rename_i u hu
    split
    · have hself := h.procs self u hu
      have htraced : Task.Ranged { u with P_TRACED := true } :=
        hself.congr hself.sig hself.caught rfl rfl
      exact h.set htraced self
    split
    · exact h
    split
    · exact h
    · rename_i slot _ _ p hp
      have hslot := h.procs slot p hp
      have hrun : p.setrun.Ranged := hslot.congr hslot.sig hslot.caught rfl rfl
      split
      · exact h
      split
      · exact h
      · exact (h.set hrun slot).withIpc hreq

theorem ptraceEnd (h : Ranged word s) : Ranged word s.ptraceEnd := by
  unfold System.ptraceEnd
  split
  · exact ⟨h.procs, h.request⟩
  · exact h

theorem writeU (h : Ranged word s) {target : Option (Nat × Word)} {data : Int}
    (hw : ∀ slot w, target = some (slot, w) → w.Takes data) :
    Ranged word (s.writeU target data) := by
  unfold System.writeU
  split
  · exact h
  · rename_i slot w
    split
    · exact h
    · rename_i p hp
      exact h.set ((h.procs slot p hp).store (hw slot w rfl)) slot

/-- The process in a slot stands where it stood. -/
def Stands (s : System) (slot : Nat) (point : Point) : Prop :=
  ∃ q, s.procs slot = some q ∧ q.point = point

theorem stands_writeU {slot : Nat} {point : Point} (hs : Stands s slot point)
    (target : Option (Nat × Word)) (data : Int) : Stands (s.writeU target data) slot point := by
  obtain ⟨q, hq, hpoint⟩ := hs
  unfold System.writeU
  split
  · exact ⟨q, hq, hpoint⟩
  · rename_i other w
    split
    · exact ⟨q, hq, hpoint⟩
    · rename_i p hp
      by_cases heq : slot = other
      · subst heq
        rw [hq] at hp
        cases hp
        refine ⟨q.store data w, Function.update_self .., ?_⟩
        cases w <;> exact hpoint
      · exact ⟨q, (Function.update_of_ne heq ..).trans hq, hpoint⟩

/-- What `procxmt` leaves is in range too, when its request was admissible. -/
theorem procxmt (h : Ranged word s) {slot : Nat} (hp : s.procs slot = some p) (user : Option Int) :
    (∃ t, s.procxmt word slot p user = .exit t ∧ Ranged word t) ∨
      ∃ value t, s.procxmt word slot p user = .ret value t ∧ Ranged word t ∧
        Stands t slot p.point := by
  have hsame : Stands s slot p.point := ⟨p, hp, rfl⟩
  have herror : Ranged word { s with ipc := { s.ipc with ip_req := -1 } } :=
    h.withIpc (admissible_of_nonpos (show (-1 : Int) ≤ 0 by decide) _ _)
  have hseen : ∀ data, Ranged word { s with ipc := { s.ipc with ip_req := 0, ip_data := data } } :=
    fun data => h.withIpc (admissible_of_nonpos (Int.le_refl 0) _ _)
  unfold System.procxmt
  split
  · exact .inr ⟨_, _, rfl, h, hsame⟩
  dsimp only
  split
  · split
    · exact .inr ⟨_, _, rfl, herror, hsame⟩
    · exact .inr ⟨_, _, rfl, hseen _, hsame⟩
  split
  · split
    · exact .inr ⟨_, _, rfl, herror, hsame⟩
    · exact .inr ⟨_, _, rfl, hseen _, hsame⟩
  split
  · split
    · exact .inr ⟨_, _, rfl, herror, hsame⟩
    · exact .inr ⟨_, _, rfl, hseen _, hsame⟩
  split
  · rename_i hwrite
    have hstands : Stands { s with ipc := { s.ipc with ip_req := 0 } } slot p.point := hsame
    refine .inr ⟨_, _, rfl, ?_, stands_writeU hstands _ _⟩
    exact (hseen s.ipc.ip_data).writeU fun slot w hw => h.request.write hwrite slot w hw
  split
  · rename_i hcont
    split
    · exact .inr ⟨_, _, rfl, herror, hsame⟩
    · rename_i hle
      have hold := h.procs slot p hp
      have hrange := h.request.continue_ hcont
      have hset : Task.Ranged { p with p_ptracesig := (s.ipc.ip_data % 256).toNat } := by
        refine ⟨hold.sig, hold.caught, fun _ => ?_, hold.signalled⟩
        show (s.ipc.ip_data % 256).toNat < NSIG
        omega
      exact .inr ⟨_, _, rfl, (hseen s.ipc.ip_data).set hset slot,
        ⟨_, Function.update_self .., rfl⟩⟩
  split
  · exact .inl ⟨_, rfl, hseen _⟩
  · exact .inr ⟨_, _, rfl, herror, hsame⟩

theorem resume (h : Ranged word s) {slot : Nat} (hp : s.procs slot = some p)
    (hpoint : p.point = .traced) (user : Option Int) : Safe word (s.resume word slot p user) := by
  unfold System.resume
  cases h.procxmt hp user with
  | inl hexit =>
      obtain ⟨t, ht, hr⟩ := hexit
      rw [ht]
      exact hr.exit slot (h.procs slot p hp).caught
  | inr hret =>
      obtain ⟨value, t, ht, hr, q, hq, hqpoint⟩ := hret
      rw [ht]
      dsimp only
      rw [hq]
      dsimp only
      have hqr := hr.procs slot q hq
      split
      · have hstop : q.stop.Ranged := hqr.congr hqr.sig hqr.caught rfl rfl
        exact (hr.set hstop slot).safe
      · obtain ⟨q', told, hrel, hq'⟩ := hqr.released (hqr.traced (hqpoint.trans hpoint))
        rw [hrel, Option.bind_eq_bind, Option.bind_some]
        dsimp only
        split
        · exact (hr.set hq' slot).tell _
        · exact (hr.set hq' slot).safe

/-! ## Steps and runs -/

theorem running (h : Ranged word s) (slot : Nat) {f : Task → Option System}
    (hf : ∀ p, s.procs slot = some p → Safe word (f p)) : Safe word (s.running slot f) := by
  unfold System.running
  split
  · exact h.safe
  · rename_i p hp
    split
    · exact hf p hp
    · exact h.safe

theorem call (h : Ranged word s) {slot : Nat} (hp : s.procs slot = some p) (c : Call) :
    Safe word (s.call slot p c) := by
  have hold := h.procs slot p hp
  have hnew : Task.Ranged { p with toProc := p.toProc.call c } :=
    hold.congr hold.sig (low_call hold.caught c) rfl rfl
  have hcall : Safe word (some (s.set slot { p with toProc := p.toProc.call c })) :=
    (h.set hnew slot).safe
  cases c with
  | sigaction signum nsa osa sigtramp =>
      obtain ⟨q, hq, hr⟩ := hold.sigaction signum nsa osa sigtramp
      rw [System.call, hq]
      exact (h.set hr slot).safe
  | execve =>
      obtain ⟨q, hq, hr⟩ := hold.execsigs
      rw [System.call, hq]
      exact (h.set hr slot).safe
  | exit => exact h.exit slot hold.caught
  | postsig sig trashed => exact h.safe
  | sigprocmask how set oset => exact hcall
  | sigsuspend set => exact hcall
  | pselect maskp done => exact hcall
  | sigaltstack nss oss => exact hcall
  | sigreturn scp => exact hcall

theorem raised_range {sig : Nat} (h : sig ∈ raised) : 1 ≤ sig ∧ sig < NSIG := by
  revert sig
  decide

end Ranged

/-- The requests of `ptrace` are admissible. -/
def Admitted (word : Int → Option (Nat × Word)) : Event → Prop
  | .ptrace _ req _ addr data => Admissible word req addr data
  | _ => True

/-- What one step does. -/
theorem step_safe (h : Ranged word s) {e : Event} (he : Admitted word e) :
    Safe word (s.step word e) := by
  cases e with
  | kill self pid signo can => exact h.running self fun p _ => h.kill self pid signo can
  | killpg self pgrp signo can => exact h.running self fun p _ => h.killpg self pgrp signo can
  | psignal slot sig =>
      rw [step]
      split
      · rename_i hraised
        have hrange := Ranged.raised_range hraised
        exact h.psignal slot (by omega) (by omega)
      · exact h.safe
  | gsignal pgrp sig =>
      rw [step]
      split
      · rename_i hraised
        have hrange := Ranged.raised_range hraised
        exact h.gsignal pgrp (by omega) (by omega)
      · exact h.safe
  | call slot c =>
      refine h.running slot fun p hp => ?_
      split
      · exact h.call hp c
      · exact h.safe
  | ptrace self req pid addr data => exact (h.ptrace self pid he).safe
  | ptraceEnd => exact h.ptraceEnd.safe
  | cursig slot =>
      refine h.running slot fun p hp => ?_
      split
      · exact (h.set (h.procs slot p hp).cursig slot).safe
      · exact h.safe
  | issignal slot =>
      refine h.running slot fun p hp => ?_
      split
      · obtain ⟨q, notice, hq, hr⟩ := (h.procs slot p hp).issignal
        rw [hq, Option.bind_eq_bind, Option.bind_some]
        have hset := h.set hr slot
        cases notice with
        | none => exact hset.safe
        | always => exact hset.psignal q.p_pptr (by decide) (by decide)
        | stop => exact hset.tell q.p_pptr
      · exact h.safe
  | resume slot user =>
      refine h.running slot fun p hp => ?_
      split
      · rename_i hpoint
        exact h.resume hp hpoint user
      · exact h.safe
  | restart slot =>
      refine h.running slot fun p hp => ?_
      have hold := h.procs slot p hp
      split
      · rename_i mask _
        have hagain : Task.Ranged { p.take mask with point := .issignal } :=
          .of_low (hold.sig.and _) hold.caught Point.noConfusion fun _ => Point.noConfusion
        exact (h.set hagain slot).safe
      · exact h.safe
  | postsig slot trashed =>
      refine h.running slot fun p hp => ?_
      have hold := h.procs slot p hp
      split
      · rename_i sig hpoint
        obtain ⟨hpos, hlt⟩ := hold.signalled sig hpoint
        obtain ⟨q, fatal, hq, hr⟩ := hold.postsig hpos hlt trashed
        rw [hq, Option.bind_eq_bind, Option.bind_some]
        dsimp only
        split
        · exact h.exit slot hr.caught
        split
        · exact (h.set hr slot).psignal slot (by decide) (by decide)
        · exact (h.set hr slot).safe
      · exact h.safe
  | tsleepEnd slot =>
      refine h.running slot fun p hp => ?_
      have hold := h.procs slot p hp
      split
      · rename_i sig hpoint
        obtain ⟨hpos, hlt⟩ := hold.signalled sig hpoint
        obtain ⟨n, hn⟩ := index_isSome hpos hlt
        rw [hn, Option.bind_eq_bind, Option.bind_some]
        have haway : Task.Ranged { p with P_SINTR := false, point := .away } :=
          .of_low hold.sig hold.caught Point.noConfusion fun _ => Point.noConfusion
        exact (h.set haway slot).safe
      · exact h.safe
  | tsleep slot catching =>
      refine h.running slot fun p hp => ?_
      have hold := h.procs slot p hp
      have hasleep : Task.Ranged { p with p_wchan := true, P_SINTR := catching } :=
        hold.congr hold.sig hold.caught rfl rfl
      exact (h.set hasleep slot).safe
  | block slot =>
      refine h.running slot fun p hp => ?_
      have hold := h.procs slot p hp
      have hblock : Task.Ranged { p with p_stat := .SSLEEP } :=
        hold.congr hold.sig hold.caught rfl rfl
      split
      · exact (h.set hblock slot).safe
      · exact h.safe
  | wakeup slot =>
      rw [step]
      split
      · exact h.safe
      · rename_i p hp
        have hold := h.procs slot p hp
        have hwake : Task.Ranged { p with
            p_wchan := false, p_stat := if p.p_stat = .SSLEEP then .SRUN else p.p_stat } :=
          hold.congr hold.sig hold.caught rfl rfl
        split
        · exact (h.set hwake slot).safe
        · exact h.safe
  | newproc parent child pid isvfork stale =>
      refine h.running parent fun p hp => ?_
      split
      · exact h.safe
      · have hchild : Task.Ranged { p with
            noCldStop := false, p_pid := pid, p_ppid := p.p_pid, p_pptr := parent
            P_TRACED := false, SVFORK := isvfork, SSYS := false, P_SINTR := false, p_wchan := false
            p_sig := 0, p_ptracesig := stale, point := .away } :=
          .of_low (show Low 0 by decide) (h.procs parent p hp).caught Point.noConfusion
            fun _ => Point.noConfusion
        exact Ranged.safe ⟨(h.set hchild child).procs, h.request⟩
  | wait4 slot =>
      rw [step]
      split
      · exact h.safe
      · split
        · refine Ranged.safe ⟨fun other q hq => ?_, h.request⟩
          by_cases heq : other = slot
          · rw [heq] at hq
            dsimp only at hq
            rw [Function.update_self] at hq
            cases hq
          · exact h.procs other q ((Function.update_of_ne heq ..).symm.trans hq)
        · exact h.safe

/-- The system as it starts: process 0 alone. -/
def boot : System where
  procs slot := (Kernel.boot slot).map fun p =>
    { toProc := p, p_stat := .SRUN, p_pid := 0, p_ppid := 0, p_pgrp := 0, p_pptr := 0
      P_TRACED := false, SVFORK := false, SSYS := true, P_SINTR := false, p_wchan := false
      p_nice := NZERO, p_pri := 0, p_sig := 0, p_ptracesig := 0, point := .away }
  allproc := [0]
  ipc := ⟨0, 0, 0, 0⟩

theorem boot_ranged (word : Int → Option (Nat × Word)) : Ranged word boot := by
  refine ⟨fun slot p hp => ?_, admissible_of_nonpos (Int.le_refl 0) _ _⟩
  obtain ⟨q, hq, rfl⟩ := Option.map_eq_some_iff.mp hp
  have hcaught : q.p_sigcatch = 0 := by
    unfold Kernel.boot at hq
    split at hq
    · cases hq
      decide
    · cases hq
  refine Task.Ranged.of_low (show Low 0 by decide) ?_ Point.noConfusion fun _ => Point.noConfusion
  show Low q.p_sigcatch
  rw [hcaught]
  decide

/-- The number of PT_CONTINUE and PT_STEP in a request that is on its way to its process. -/
theorem resume_isSome_iff (h : Ranged word s) {slot : Nat} (hp : s.procs slot = some p)
    (hstat : p.p_stat = .SRUN) (hpoint : p.point = .traced) {req : Int}
    (hreq : req = PT_STEP ∨ req = PT_CONTINUE) (addr data : Int) (user : Option Int) :
    (step word { s with ipc := ⟨p.p_pid, req, addr, data⟩ } (.resume slot user)).isSome ↔
      (NSIG : Int) < data ∨ data % 256 < NSIG := by
  constructor
  · intro hsome
    by_contra hbad
    have hother : req ≠ PT_READ_I ∧ req ≠ PT_READ_D ∧ req ≠ PT_READ_U ∧ req ≠ PT_WRITE_I ∧
        req ≠ PT_WRITE_D ∧ req ≠ PT_WRITE_U := by
      cases hreq with
      | inl h => rw [h]; decide
      | inr h => rw [h]; decide
    have hxmt : System.procxmt word { s with ipc := ⟨p.p_pid, req, addr, data⟩ } slot p user =
        .ret true (System.set { s with ipc := ⟨p.p_pid, 0, addr, data⟩ } slot
          { p with p_ptracesig := (data % 256).toNat }) := by
      unfold System.procxmt
      dsimp only
      rw [if_neg (not_not.mpr rfl), if_neg (by simp [hother]), if_neg (by simp [hother]),
        if_neg (by simp [hother]), if_neg (by simp [hother]), if_pos hreq, if_neg (by omega)]
    have hnone : Task.released { p with p_ptracesig := (data % 256).toNat } = none :=
      Task.Ranged.released_eq_none (show NSIG ≤ (data % 256).toNat by omega)
    rw [step, System.running, hp] at hsome
    dsimp only at hsome
    rw [if_pos hstat, hpoint] at hsome
    dsimp only at hsome
    rw [resume, hxmt] at hsome
    dsimp only at hsome
    rw [set_procs] at hsome
    dsimp only at hsome
    rw [if_neg (by simp), hnone] at hsome
    cases hsome
  · intro hok
    have hadm : Admissible word req addr data := by
      refine ⟨fun _ => hok, fun hwrite => ?_⟩
      cases hreq with
      | inl h => exact absurd (h.symm.trans hwrite) (by decide)
      | inr h => exact absurd (h.symm.trans hwrite) (by decide)
    have hsent : Ranged word { s with ipc := ⟨p.p_pid, req, addr, data⟩ } := h.withIpc hadm
    obtain ⟨t, ht, -⟩ := step_safe hsent (show Admitted word (.resume slot user) from trivial)
    rw [ht]
    rfl

/-- In every run in which the requests of `ptrace` are admissible, no step uses a signal number out of
range, whatever comes next. A process that its tracer continues or steps uses none exactly if
`procxmt` refuses the number or finds 0 or a signal in its low byte. -/
theorem signal_numbers_in_range {events : List Event}
    (hrun : Steps (fun s e t => Admitted word e ∧ s.step word e = some t) boot events s) :
    (∀ e, (s.step word e).isSome) ∧
      ∀ slot p, s.procs slot = some p → p.p_stat = .SRUN → p.point = .traced →
        ∀ req, req = PT_STEP ∨ req = PT_CONTINUE → ∀ addr data user,
          ((step word { s with ipc := ⟨p.p_pid, req, addr, data⟩ } (.resume slot user)).isSome ↔
            (NSIG : Int) < data ∨ data % 256 < NSIG) := by
  have h : Ranged word s := by
    refine hrun.invariant (Ranged word) (fun s e t hs hstep => ?_) (boot_ranged word)
    obtain ⟨t', ht', hr⟩ := step_safe hs hstep.1
    rw [hstep.2] at ht'
    cases ht'
    exact hr
  refine ⟨fun e => ?_, fun slot p hp hstat hpoint req hreq addr data user =>
    resume_isSome_iff h hp hstat hpoint hreq addr data user⟩
  have hsafe : Admitted word e → (s.step word e).isSome := fun he => by
    obtain ⟨t, ht, -⟩ := step_safe h he
    rw [ht]
    rfl
  cases e with
  | ptrace self req pid addr data => rfl
  | _ => exact hsafe trivial

/-- A child of init that asks to be traced, stops for SIGINT and is continued with the number
`data`. -/
def tracing (data : Int) : List Event :=
  [.newproc 0 1 1 false 0, .newproc 1 2 2 false 0, .ptrace 2 PT_TRACE_ME 0 0 0,
    .kill 1 2 SIGINT fun _ => true, .cursig 2, .issignal 2, .ptrace 1 PT_CONTINUE 2 1 data]

theorem signal_numbers_in_range_sigint :
    ∃ s p, Steps (fun s e t => Admitted (fun _ => none) e ∧ s.step (fun _ => none) e = some t) boot
        (tracing SIGINT) s ∧
      s.procs 2 = some p ∧ p.point = .traced ∧
      (step (fun _ => none) { s with ipc := ⟨p.p_pid, PT_CONTINUE, 1, SIGINT⟩ }
        (.resume 2 none)).isSome := by
  have hrun : ((tracing SIGINT).foldlM (step fun _ => none) boot).any fun s =>
      (s.procs 2).any fun p => p.p_stat = .SRUN ∧ p.point = .traced := by
    decide +kernel
  obtain ⟨s, hrun, hs⟩ := (Option.any_eq_true _ _).mp hrun
  obtain ⟨p, hp, hs⟩ := (Option.any_eq_true _ _).mp hs
  obtain ⟨hstat, hpoint⟩ := of_decide_eq_true hs
  have hadmitted : ∀ e ∈ tracing SIGINT, Admitted (fun _ => none) e := by
    intro e he
    simp only [tracing, List.mem_cons, List.not_mem_nil, or_false] at he
    have hcont : Admissible (fun _ => none) PT_CONTINUE 1 SIGINT :=
      ⟨fun _ => .inr (by decide), fun h => absurd h (by decide)⟩
    have htrace : Admissible (fun _ => none) PT_TRACE_ME 0 0 :=
      admissible_of_nonpos (Int.le_refl 0) 0 0
    rcases he with rfl | rfl | rfl | rfl | rfl | rfl | rfl
    · exact trivial
    · exact trivial
    · exact htrace
    · exact trivial
    · exact trivial
    · exact trivial
    · exact hcont
  have hsteps := (Steps.of_foldlM hrun).and_of_forall hadmitted
  have h := signal_numbers_in_range hsteps
  exact ⟨s, p, hsteps, hp, hpoint,
    (h.2 2 p hp hstat hpoint PT_CONTINUE (.inr rfl) 1 SIGINT none).mpr (.inr (by decide))⟩

/-- The number 32 passes the check of `procxmt`, and so do the negative ones. -/
theorem continue_out_of_range :
    (∃ s, (tracing 32).foldlM (step fun _ => none) boot = some s ∧
        s.step (fun _ => none) (.resume 2 none) = none) ∧
      ∃ s, (tracing (-1)).foldlM (step fun _ => none) boot = some s ∧
        s.step (fun _ => none) (.resume 2 none) = none := by
  have hrun : ∀ data, data = 32 ∨ data = -1 →
      ((tracing data).foldlM (step fun _ => none) boot).any fun s =>
        (s.step (fun _ => none) (.resume 2 none)).isNone := by
    rintro data (rfl | rfl) <;> decide +kernel
  obtain ⟨s, hs, hnone⟩ := (Option.any_eq_true _ _).mp (hrun 32 (.inl rfl))
  obtain ⟨t, ht, htnone⟩ := (Option.any_eq_true _ _).mp (hrun (-1) (.inr rfl))
  exact ⟨⟨s, hs, Option.isNone_iff_eq_none.mp hnone⟩, t, ht, Option.isNone_iff_eq_none.mp htnone⟩

end System

end DiscoBsd.Signal.Delivery
