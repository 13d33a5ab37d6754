import Mathlib.Logic.Function.Basic
import DiscoBsd.Clock.Hzto

/-!
# Timeouts of `select`

Any number of processes that call `select` and `pselect`, with ticks, scans and wakeups in any order.
`select_not_early` says that a call that returns without a descriptor and without an error has waited
for its timeout, if each sleep reaches the deadline; `short_sleep_early` says that one that does not may
return before.
-/

namespace DiscoBsd.Clock

open DiscoBsd.Lib

variable {P : Type*}

/-- What a call of `select1` waits for. `start` is the clock in ticks when it was read. -/
structure Waiting where
  ts : Option Timeout
  start : Int
  atv : Option Timeval

/-- How `tsleep` ends. -/
inductive Outcome where
  | timeout
  | wakeup
  | interrupted
  deriving DecidableEq

/-- Where a process is in `select1`: before `selscan`, behind it without a descriptor that is ready, in
`tsleep` with the deadline of the callout, behind `tsleep`, and out of the call at a clock time. -/
inductive Call where
  | idle
  | scan (w : Waiting) (ncoll : Nat)
  | check (w : Waiting) (ncoll : Nat)
  | asleep (w : Waiting) (due : Option Int)
  | ready (w : Waiting) (outcome : Outcome)
  | done (w : Waiting) (error : Option Error) (rval : Nat) (clock : Int)

/-- The processes. `clock` counts the ticks of the time of day, however long it runs. -/
structure Selects (P : Type*) where
  tod : TimeOfDay
  clock : Int
  nselcoll : Nat
  p_select : P → Bool
  call : P → Call

/-- The time of day and the clock after boot. -/
def Selects.boot (r : Rate) (time : Timeval) : Selects P where
  tod := .boot time
  clock := time.tv_sec * r.hz
  nselcoll := 0
  p_select := fun _ => false
  call := fun _ => .idle

inductive SelectAction (P : Type*) where
  | hardclock
  | select (p : P) (ts : Arg Timeout)
  | selscan (p : P) (found : Except Error Nat)
  | tsleep (p : P)
  | selwakeup (p : Option P) (coll : Bool)
  | endtsleep (p : P)
  | signal (p : P)
  | resume (p : P)

/-- The process is woken up, if it is asleep. -/
def Call.wake : Call → Call
  | .asleep w _ => .ready w .wakeup
  | c => c

def Call.sleeping : Call → Bool
  | .asleep _ _ => true
  | _ => false

namespace Selects

variable [DecidableEq P]

def setCall (s : Selects P) (p : P) (p_select : Bool) (c : Call) : Selects P :=
  { s with p_select := Function.update s.p_select p p_select, call := Function.update s.call p c }

/-- From `retry`: `selscan` is next. -/
def retry (s : Selects P) (p : P) (w : Waiting) : Selects P :=
  s.setCall p true (.scan w s.nselcoll)

/-- From `done`. -/
def finish (s : Selects P) (p : P) (w : Waiting) (error : Option Error) (rval : Nat) : Selects P :=
  s.setCall p false (.done w error rval s.clock)

/-- `select1` up to `retry`. -/
def select (r : Rate) (s : Selects P) (p : P) : Arg Timeout → Selects P
  | .null => s.retry p ⟨none, s.clock, none⟩
  | .fault => s.finish p ⟨none, s.clock, none⟩ (some .EFAULT) 0
  | .value ts =>
      match itimerfix r ts.timeval with
      | none => s.finish p ⟨none, s.clock, none⟩ (some .EINVAL) 0
      | some atv =>
          let s := { s with
            tod := { s.tod with
              time := { s.tod.time with tv_usec := int32 (s.tod.lbolt * r.usechz) } } }
          s.retry p ⟨some ts, s.clock, some (timevaladd atv s.tod.time)⟩

/-- `select1` from `splhigh` to the beginning of `tsleep`. -/
def tsleep (r : Rate) (s : Selects P) (p : P) (w : Waiting) (ncoll : Nat) : Selects P :=
  match w.atv with
  | none => if s.p_select p ∧ s.nselcoll = ncoll then s.setCall p false (.asleep w none) else s.retry p w
  | some atv =>
      if expired r s.tod atv then s.finish p w none 0
      else if s.p_select p ∧ s.nselcoll = ncoll then
        s.setCall p false (.asleep w (some (s.clock + max (sleepTicks r atv s.tod.time) 1)))
      else s.retry p w

/-- `selwakeup`. -/
def selwakeup (s : Selects P) (p : Option P) (coll : Bool) : Selects P :=
  let s := if coll then { s with nselcoll := s.nselcoll + 1, call := fun q => (s.call q).wake } else s
  match p with
  | none => s
  | some p =>
      if (s.call p).sleeping then { s with call := Function.update s.call p (s.call p).wake }
      else { s with p_select := Function.update s.p_select p false }

/-- What an action does; `none` where it is not possible. -/
def step (r : Rate) (s : Selects P) : SelectAction P → Option (Selects P)
  | .hardclock => some { s with tod := s.tod.hardclock r, clock := s.clock + 1 }
  | .select p ts =>
      match s.call p with
      | .idle => some (s.select r p ts)
      | .done _ _ _ _ => some (s.select r p ts)
      | _ => none
  | .selscan p found =>
      match s.call p, found with
      | .scan w _, .error e => some (s.finish p w (some e) 0)
      | .scan w ncoll, .ok n =>
          if n = 0 then some (s.setCall p (s.p_select p) (.check w ncoll)) else some (s.finish p w none n)
      | _, _ => none
  | .tsleep p =>
      match s.call p with
      | .check w ncoll => some (s.tsleep r p w ncoll)
      | _ => none
  | .selwakeup p coll => some (s.selwakeup p coll)
  | .endtsleep p =>
      match s.call p with
      | .asleep w (some due) =>
          if due ≤ s.clock then some (s.setCall p (s.p_select p) (.ready w .timeout)) else none
      | _ => none
  | .signal p =>
      match s.call p with
      | .asleep w _ => some (s.setCall p (s.p_select p) (.ready w .interrupted))
      | .ready w .wakeup => some (s.setCall p (s.p_select p) (.ready w .interrupted))
      | _ => none
  | .resume p =>
      match s.call p with
      | .ready w .timeout => some (s.finish p w none 0)
      | .ready w .wakeup => some (s.retry p w)
      | .ready w .interrupted => some (s.finish p w (some .EINTR) 0)
      | _ => none

/-- What keeps a call from coming back early. The seconds of its deadline do not overflow, and no tick falls
between the microseconds and the nanoseconds that it asks for; and where it goes to sleep, the sleep reaches
the deadline. -/
def Safe (r : Rate) (s : Selects P) : SelectAction P → Prop
  | .select _ (.value ts) => ∀ tv, itimerfix r ts.timeval = some tv →
      s.tod.time.tv_sec * 1000000 + s.tod.lbolt * r.usechz + tv.micros < 2 ^ 31 * 1000000 ∧
        (ts.nsec ≤ 1000 * tv.micros ∨ ¬ (r.usechz : Int) ∣ tv.micros)
  | .tsleep p => ∀ w ncoll atv, s.call p = .check w ncoll → w.atv = some atv →
      ¬ expired r s.tod atv → s.p_select p = true → s.nselcoll = ncoll → Covers r s.tod atv
  | _ => True

def SafeStep (r : Rate) (s : Selects P) (a : SelectAction P) (s' : Selects P) : Prop :=
  s.Safe r a ∧ s.step r a = some s'

end Selects

/-- The call has waited for its timeout at a clock time. -/
def Waiting.Meets (r : Rate) (w : Waiting) (clock : Int) : Prop :=
  ∀ ts, w.ts = some ts → ts.nsec ≤ 1000 * (r.usechz * (clock - w.start))

/-! ## The invariant -/

/-- The time of day counts the ticks. -/
structure Keeps (r : Rate) (tod : TimeOfDay) (clock : Int) : Prop where
  adjdelta : tod.adjdelta = 0
  tv_sec : tod.time.tv_sec = int32 (clock / r.hz)
  lbolt : tod.lbolt = clock % r.hz

/-- The deadline in microseconds of the clock: from when on the call has waited for long enough. `k` is the
number of times that the seconds have overflowed. -/
structure Aims (r : Rate) (tod : TimeOfDay) (clock : Int) (w : Waiting) (atv : Timeval)
    (deadline k : Int) : Prop where
  micros : atv.micros + 2 ^ 32 * k * 1000000 = deadline
  usec : 0 ≤ atv.tv_usec ∧ atv.tv_usec < 1000000
  fits : atv.micros < 2 ^ 31 * 1000000
  epoch : (2 ^ 32 * k - 2 ^ 31) * r.hz ≤ clock
  near : deadline ≤ clock * r.usechz + 100000001 * 1000000
  onTick : OnTick r tod
  enough : ∀ c, deadline ≤ c * r.usechz → w.Meets r c
  started : w.start ≤ clock
  tight : deadline ≤ (w.start + 1) * r.usechz ∨ ∀ c, c * r.usechz < deadline → ¬ w.Meets r c

variable {r : Rate} {tod tod' : TimeOfDay} {clock clock' : Int} {w : Waiting} {atv : Timeval}
  {deadline k : Int}

theorem Keeps.inSecond (h : Keeps r tod clock) : tod.InSecond r := by
  have htwo := r.two_le
  unfold TimeOfDay.InSecond
  rw [h.lbolt]
  exact ⟨Int.emod_nonneg _ (by omega), Int.emod_lt_of_pos _ (by omega)⟩

theorem Keeps.hardclock (h : Keeps r tod clock) : Keeps r (tod.hardclock r) (clock + 1) := by
  have htwo := r.two_le
  obtain ⟨hdiv, hmod⟩ := TimeOfDay.succ_div_mod clock (by omega : (0 : Int) < r.hz)
  rw [TimeOfDay.hardclock_eq h.inSecond (by rw [h.adjdelta]; decide) (by rw [h.adjdelta]; decide),
    h.adjdelta, Int.sign_zero, add_zero, h.lbolt, h.tv_sec, int32_add]
  split
  next hcarry =>
    rw [if_pos hcarry] at hdiv hmod
    exact ⟨rfl, by rw [hdiv], by rw [hmod]⟩
  next hcarry =>
    rw [if_neg hcarry] at hdiv hmod
    exact ⟨rfl, by rw [hdiv, h.tv_sec], by rw [hmod]⟩

theorem Keeps.onTick (h : Keeps r tod clock) (htick : OnTick r tod) :
    OnTick r (tod.hardclock r) := by
  rw [TimeOfDay.hardclock_eq h.inSecond (by rw [h.adjdelta]; decide) (by rw [h.adjdelta]; decide)]
  split <;> exact htick

theorem Keeps.micros (h : Keeps r tod clock) :
    clock * r.usechz = clock / r.hz * 1000000 + tod.lbolt * r.usechz := by
  have hsplit := Int.mul_ediv_add_emod clock r.hz
  rw [h.lbolt, ← r.usechz_mul]
  calc clock * r.usechz = (r.hz * (clock / r.hz) + clock % r.hz) * r.usechz := by rw [hsplit]
    _ = clock / r.hz * (r.usechz * r.hz) + clock % r.hz * r.usechz := by ring

/-- What `left` measures, as long as the deadline is to come. -/
theorem Aims.left_eq (haims : Aims r tod clock w atv deadline k) (h : Keeps r tod clock) :
    left r tod atv = deadline - clock * r.usechz ∨ deadline ≤ clock * r.usechz := by
  have htwo := r.two_le
  have hlow : 2 ^ 32 * k - 2 ^ 31 ≤ clock / r.hz := by
    rw [Int.le_ediv_iff_mul_le (by omega)]
    exact haims.epoch
  have hclock := h.micros
  obtain ⟨hpos, -⟩ := lbolt_micros h.inSecond
  have hmicros := haims.micros
  have hfits := haims.fits
  by_cases hsec : clock / r.hz < 2 ^ 32 * k + 2 ^ 31
  · left
    have htv : tod.time.tv_sec = clock / r.hz - 2 ^ 32 * k :=
      calc tod.time.tv_sec = int32 (clock / r.hz - 2 ^ 32 * k + 2 ^ 32 * k) := by
            rw [sub_add_cancel, h.tv_sec]
        _ = int32 (clock / r.hz - 2 ^ 32 * k) := int32_add_mul _ k
        _ = clock / r.hz - 2 ^ 32 * k := int32_eq (by omega) (by omega)
    unfold left
    rw [htv]
    linarith
  · right
    linarith

theorem Aims.expired (haims : Aims r tod clock w atv deadline k) (h : Keeps r tod clock)
    (hexpired : expired r tod atv) : deadline ≤ clock * r.usechz := by
  rcases haims.left_eq h with hleft | hle
  · have hneg := (expired_iff h.inSecond haims.usec.1 haims.usec.2).mp hexpired
    omega
  · exact hle

/-- A sleep that reaches the deadline. -/
theorem Aims.covers (haims : Aims r tod clock w atv deadline k) (h : Keeps r tod clock)
    (hexpired : ¬ Clock.expired r tod atv) :
    (Covers r tod atv → deadline ≤ (clock + max (sleepTicks r atv tod.time) 1) * r.usechz) ∧
      (clock * r.usechz < deadline →
        deadline ≤ (clock + max (sleepTicks r atv tod.time) 1) * r.usechz → Covers r tod atv) := by
  have hpos := r.usechz_pos
  have hsum : (clock + max (sleepTicks r atv tod.time) 1) * r.usechz =
      clock * r.usechz + r.usechz * max (sleepTicks r atv tod.time) 1 := by ring
  rw [expired_iff h.inSecond haims.usec.1 haims.usec.2, not_le] at hexpired
  have hnear := haims.near
  rw [hsum]
  rcases haims.left_eq h with hleft | hle
  · obtain ⟨hlow, hhigh⟩ := lbolt_micros h.inSecond
    have husec := haims.usec
    have hfar : atv.tv_sec - tod.time.tv_sec < 2 ^ 31 := by
      unfold left Timeval.micros at hleft
      omega
    have hiff := hzto_covers h.inSecond haims.onTick husec.1 husec.2 hexpired hfar
    refine ⟨fun hcovers => ?_, fun _ hreach => ?_⟩
    · have hreach := hiff.mpr hcovers
      omega
    · exact hiff.mp (by omega)
  · have hmax : (0 : Int) ≤ r.usechz * max (sleepTicks r atv tod.time) 1 := by positivity
    exact ⟨fun _ => by omega, fun hlt => absurd hle (not_le.mpr hlt)⟩

theorem Aims.mono (haims : Aims r tod clock w atv deadline k) (hclock : clock ≤ clock')
    (htick : OnTick r tod → OnTick r tod') : Aims r tod' clock' w atv deadline k := by
  have hpos := r.usechz_pos
  have hmono : clock * r.usechz ≤ clock' * r.usechz := by gcongr
  exact ⟨haims.micros, haims.usec, haims.fits, haims.epoch.trans hclock,
    haims.near.trans (by linarith), htick haims.onTick, haims.enough, haims.started.trans hclock,
    haims.tight⟩

/-- A call that begins aims at its timeout. -/
theorem aims_start (h : Keeps r tod clock) {ts : Timeout} {tv : Timeval}
    (hfix : itimerfix r ts.timeval = some tv)
    (hfits : tod.time.tv_sec * 1000000 + tod.lbolt * r.usechz + tv.micros < 2 ^ 31 * 1000000)
    (hwhole : ts.nsec ≤ 1000 * tv.micros ∨ ¬ (r.usechz : Int) ∣ tv.micros) :
    ∃ k, Aims r
      { tod with time := { tod.time with tv_usec := int32 (tod.lbolt * r.usechz) } } clock
      ⟨some ts, clock, some (timevaladd tv ⟨tod.time.tv_sec, int32 (tod.lbolt * r.usechz)⟩)⟩
      (timevaladd tv ⟨tod.time.tv_sec, int32 (tod.lbolt * r.usechz)⟩)
      (clock * r.usechz + tv.micros) k := by
  have hpos := r.usechz_pos
  have htwo := r.two_le
  obtain ⟨hlow, hhigh⟩ := lbolt_micros h.inSecond
  have husec : int32 (tod.lbolt * r.usechz) = tod.lbolt * r.usechz :=
    int32_eq (by omega) (by omega)
  obtain ⟨⟨hsec, hsec'⟩, ⟨husec₁, husec₂⟩, hnsec, htight⟩ := itimerfix_spec hfix
  have hrange : -2 ^ 31 ≤ (⟨tod.time.tv_sec, tod.lbolt * r.usechz⟩ : Timeval).tv_sec := by
    rw [h.tv_sec]
    exact le_int32 _
  have hsum : (⟨tod.time.tv_sec, tod.lbolt * r.usechz⟩ : Timeval).micros =
      tod.time.tv_sec * 1000000 + tod.lbolt * r.usechz := rfl
  obtain ⟨hadd, hzero, hlt⟩ := timevaladd_spec hsec (by omega) husec₁ husec₂ hrange hlow hhigh
    (by rw [hsum]; omega)
  obtain ⟨k, hk⟩ := dvd_int32_sub (clock / r.hz)
  rw [husec]
  refine ⟨-k, ?_, ⟨hzero, hlt⟩, ?_, ?_, ?_, ⟨tod.lbolt, h.inSecond.1, h.inSecond.2, rfl⟩, ?_,
    le_refl _, ?_⟩
  · rw [hadd, hsum, h.tv_sec, h.micros]
    linarith
  · rw [hadd, hsum]
    omega
  · rw [← Int.le_ediv_iff_mul_le (by omega)]
    rw [h.tv_sec] at hrange
    omega
  · unfold Timeval.micros
    omega
  · rintro c hc ts' ⟨⟩
    have hdist : r.usechz * (c - clock) = c * r.usechz - clock * r.usechz := by ring
    rcases hwhole with hle | hnot
    · show ts.nsec ≤ 1000 * (r.usechz * (c - clock))
      rw [hdist]
      omega
    · have hne : tv.micros ≠ r.usechz * (c - clock) := fun heq => hnot ⟨_, heq⟩
      show ts.nsec ≤ 1000 * (r.usechz * (c - clock))
      rw [hdist] at hne ⊢
      omega
  · rcases htight with hasked | hshort
    · refine Or.inr fun c hc hmeets => ?_
      have hle := hmeets ts rfl
      have hdist : r.usechz * (c - clock) = c * r.usechz - clock * r.usechz := by ring
      dsimp only at hle
      rw [hdist] at hle
      omega
    · left
      dsimp only
      linarith

/-- What is known of a call in progress; `later` is about its deadline. -/
def Waiting.Good (r : Rate) (tod : TimeOfDay) (clock : Int) (w : Waiting) (later : Int → Prop) :
    Prop :=
  match w.ts, w.atv with
  | none, none => True
  | some _, some atv => ∃ deadline k, Aims r tod clock w atv deadline k ∧ later deadline
  | _, _ => False

def Call.Good (r : Rate) (tod : TimeOfDay) (clock : Int) : Call → Prop
  | .idle => True
  | .scan w _ => w.Good r tod clock fun _ => True
  | .check w _ => w.Good r tod clock fun _ => True
  | .asleep w due => w.Good r tod clock fun deadline => ∃ c, due = some c ∧ deadline ≤ c * r.usechz
  | .ready w outcome => w.Good r tod clock fun deadline =>
      outcome = .timeout → deadline ≤ clock * r.usechz
  | .done w error rval c => error = none → rval = 0 → w.Meets r c

/-- The invariant. -/
structure Selects.Sound (r : Rate) (s : Selects P) : Prop where
  keeps : Keeps r s.tod s.clock
  good : ∀ p, (s.call p).Good r s.tod s.clock

theorem Waiting.Good.mono {later later' : Int → Prop} (h : w.Good r tod clock later)
    (hclock : clock ≤ clock') (htick : OnTick r tod → OnTick r tod')
    (hlater : ∀ deadline, later deadline → later' deadline) : w.Good r tod' clock' later' := by
  obtain ⟨ts, start, atv⟩ := w
  cases ts with
  | none =>
      cases atv with
      | none => trivial
      | some atv => exact h.elim
  | some ts =>
      cases atv with
      | none => exact h.elim
      | some atv =>
          obtain ⟨deadline, k, haims, hdeadline⟩ := h
          exact ⟨deadline, k, haims.mono hclock htick, hlater deadline hdeadline⟩

theorem Call.Good.mono {c : Call} (h : c.Good r tod clock) (hclock : clock ≤ clock')
    (htick : OnTick r tod → OnTick r tod') : c.Good r tod' clock' := by
  have hmono : clock * r.usechz ≤ clock' * r.usechz := by gcongr
  cases c with
  | idle => trivial
  | scan w _ => exact Waiting.Good.mono h hclock htick fun _ _ => trivial
  | check w _ => exact Waiting.Good.mono h hclock htick fun _ _ => trivial
  | asleep w due => exact Waiting.Good.mono h hclock htick fun _ hdue => hdue
  | ready w outcome =>
      exact Waiting.Good.mono h hclock htick fun _ hpast hout => (hpast hout).trans hmono
  | done w error rval c => exact h

theorem Call.Good.wake {c : Call} (h : c.Good r tod clock) : c.wake.Good r tod clock := by
  cases c with
  | asleep w due => exact Waiting.Good.mono h (le_refl _) id fun _ _ => nofun
  | idle => exact h
  | scan w _ => exact h
  | check w _ => exact h
  | ready w outcome => exact h
  | done w error rval c => exact h

/-- A call whose deadline has passed may come back. -/
theorem Waiting.Good.meets (h : w.Good r tod clock fun deadline => deadline ≤ clock * r.usechz) :
    w.Meets r clock := by
  obtain ⟨ts, start, atv⟩ := w
  cases ts with
  | none => exact nofun
  | some ts =>
      cases atv with
      | none => exact h.elim
      | some atv =>
          obtain ⟨deadline, k, haims, hpast⟩ := h
          exact haims.enough clock hpast

namespace Selects

variable [DecidableEq P] {s s' : Selects P} {p : P}

theorem Sound.setCall (h : s.Sound r) {b : Bool} {c : Call} (hc : c.Good r s.tod s.clock) :
    (s.setCall p b c).Sound r := by
  refine ⟨h.keeps, fun q => ?_⟩
  show (Function.update s.call p c q).Good r s.tod s.clock
  by_cases hq : q = p
  · rw [hq, Function.update_self]
    exact hc
  · rw [Function.update_of_ne hq]
    exact h.good q

theorem Sound.retry (h : s.Sound r) (hw : w.Good r s.tod s.clock fun _ => True) :
    (s.retry p w).Sound r :=
  h.setCall hw

theorem Sound.finish (h : s.Sound r) {error : Option Error} {rval : Nat}
    (hw : error = none → rval = 0 → w.Meets r s.clock) : (s.finish p w error rval).Sound r :=
  h.setCall hw

theorem Sound.select (h : s.Sound r) {ts : Arg Timeout} (hsafe : s.Safe r (.select p ts)) :
    (s.select r p ts).Sound r := by
  unfold Selects.select
  cases ts with
  | null => exact h.retry (w := ⟨none, s.clock, none⟩) (by trivial : Waiting.Good r _ _ _ fun _ => True)
  | fault => exact h.finish nofun
  | value ts =>
      dsimp only
      cases hfix : itimerfix r ts.timeval with
      | none => exact h.finish nofun
      | some tv =>
          obtain ⟨hfits, hwhole⟩ := hsafe tv hfix
          obtain ⟨k, haims⟩ := aims_start h.keeps hfix hfits hwhole
          let s₁ : Selects P := { s with
            tod := { s.tod with
              time := { s.tod.time with tv_usec := int32 (s.tod.lbolt * r.usechz) } } }
          have hsound : s₁.Sound r :=
            ⟨⟨h.keeps.adjdelta, h.keeps.tv_sec, h.keeps.lbolt⟩,
              fun q => (h.good q).mono (le_refl _) fun _ => haims.onTick⟩
          exact hsound.retry (by exact ⟨_, k, haims, trivial⟩ :
            Waiting.Good r s₁.tod s₁.clock _ fun _ => True)

theorem Sound.tsleep (h : s.Sound r) {ncoll : Nat} (hcall : s.call p = .check w ncoll)
    (hsafe : s.Safe r (.tsleep p)) : (s.tsleep r p w ncoll).Sound r := by
  have hgood := h.good p
  rw [hcall] at hgood
  unfold Selects.tsleep
  obtain ⟨ts, start, atv⟩ := w
  cases atv with
  | none =>
      dsimp only
      cases ts with
      | some ts => exact (hgood : False).elim
      | none =>
          split
          · exact h.setCall (by trivial : Waiting.Good r _ _ ⟨none, start, none⟩ _)
          · exact h.retry hgood
  | some atv =>
      dsimp only
      cases ts with
      | none => exact (hgood : False).elim
      | some ts =>
          obtain ⟨deadline, k, haims, -⟩ := hgood
          split
          next hexpired =>
            exact h.finish fun _ _ => haims.enough s.clock (haims.expired h.keeps hexpired)
          next hexpired =>
            split
            next hsleep =>
              have hcovers := hsafe _ ncoll atv hcall rfl hexpired hsleep.1 hsleep.2
              exact h.setCall ⟨deadline, k, haims, _, rfl,
                (haims.covers h.keeps hexpired).1 hcovers⟩
            next => exact h.retry ⟨deadline, k, haims, trivial⟩

theorem Sound.selwakeup (h : s.Sound r) (q : Option P) (coll : Bool) :
    (s.selwakeup q coll).Sound r := by
  have hwake : ∀ s : Selects P, s.Sound r → ∀ q : Option P, (match q with
      | none => s
      | some p =>
          if (s.call p).sleeping then
            { s with call := Function.update s.call p (s.call p).wake }
          else { s with p_select := Function.update s.p_select p false }).Sound r := by
    intro s h q
    cases q with
    | none => exact h
    | some p =>
        dsimp only
        split
        · refine ⟨h.keeps, fun q => ?_⟩
          show (Function.update s.call p (s.call p).wake q).Good r s.tod s.clock
          by_cases hq : q = p
          · rw [hq, Function.update_self]
            exact (h.good p).wake
          · rw [Function.update_of_ne hq]
            exact h.good q
        · exact ⟨h.keeps, h.good⟩
  refine hwake _ ?_ q
  split
  · exact ⟨h.keeps, fun p => (h.good p).wake⟩
  · exact h

/-- Every safe step keeps the invariant. -/
theorem Sound.step (h : s.Sound r) {a : SelectAction P} (hstep : SafeStep r s a s') :
    s'.Sound r := by
  obtain ⟨hsafe, hstep⟩ := hstep
  cases a with
  | hardclock =>
      cases hstep
      exact ⟨h.keeps.hardclock, fun p => (h.good p).mono (by dsimp only; omega) h.keeps.onTick⟩
  | select p ts =>
      dsimp only [Selects.step] at hstep
      split at hstep
      · cases hstep
        exact h.select hsafe
      · cases hstep
        exact h.select hsafe
      · cases hstep
  | selscan p found =>
      dsimp only [Selects.step] at hstep
      have hgood := h.good p
      split at hstep
      next hcall =>
        cases hstep
        exact h.finish nofun
      next hcall =>
        rw [hcall] at hgood
        split at hstep
        · cases hstep
          exact h.setCall hgood
        · next hne =>
            cases hstep
            exact h.finish fun _ hzero => absurd hzero hne
      · cases hstep
  | tsleep p =>
      dsimp only [Selects.step] at hstep
      split at hstep
      next hcall =>
        cases hstep
        exact h.tsleep hcall hsafe
      · cases hstep
  | selwakeup q coll =>
      cases hstep
      exact h.selwakeup q coll
  | endtsleep p =>
      dsimp only [Selects.step] at hstep
      have hgood := h.good p
      split at hstep
      next w due hcall =>
        rw [hcall] at hgood
        split at hstep
        next hdue =>
          cases hstep
          refine h.setCall (Waiting.Good.mono hgood (le_refl _) id ?_)
          rintro deadline ⟨c, ⟨⟩, hle⟩ -
          have hmono : due * r.usechz ≤ s.clock * r.usechz := by gcongr
          exact hle.trans hmono
        · cases hstep
      · cases hstep
  | signal p =>
      dsimp only [Selects.step] at hstep
      have hgood := h.good p
      split at hstep
      next hcall =>
        rw [hcall] at hgood
        cases hstep
        exact h.setCall (Waiting.Good.mono hgood (le_refl _) id fun _ _ => nofun)
      next hcall =>
        rw [hcall] at hgood
        cases hstep
        exact h.setCall (Waiting.Good.mono hgood (le_refl _) id fun _ _ => nofun)
      · cases hstep
  | resume p =>
      dsimp only [Selects.step] at hstep
      have hgood := h.good p
      split at hstep
      next hcall =>
        rw [hcall] at hgood
        cases hstep
        exact h.finish fun _ _ =>
          (Waiting.Good.mono hgood (le_refl _) id fun _ hpast => hpast rfl).meets
      next hcall =>
        rw [hcall] at hgood
        cases hstep
        exact h.retry (Waiting.Good.mono hgood (le_refl _) id fun _ _ => trivial)
      next hcall =>
        cases hstep
        exact h.finish nofun
      · cases hstep

omit [DecidableEq P] in
theorem sound_boot (r : Rate) {time : Timeval} (htime : time.Long) :
    (boot r time : Selects P).Sound r := by
  have htwo := r.two_le
  have hne : (r.hz : Int) ≠ 0 := by omega
  refine ⟨⟨rfl, ?_, ?_⟩, fun p => trivial⟩
  · show time.tv_sec = int32 (time.tv_sec * r.hz / r.hz)
    rw [Int.mul_ediv_cancel _ hne, int32_eq htime.1.1 htime.1.2]
  · show (0 : Int) = time.tv_sec * r.hz % r.hz
    rw [Int.mul_emod_left]

/-- Ticks only. -/
theorem exists_ticks (r : Rate) (s : Selects P) (n : Nat) :
    ∃ s', Steps (Steps.Of (step r)) s (List.replicate n .hardclock) s' ∧
      s'.clock = s.clock + n ∧ s'.call = s.call := by
  induction n generalizing s with
  | zero => exact ⟨s, .refl s, by omega, rfl⟩
  | succ n ih =>
      obtain ⟨s', hrun, hclock, hcall⟩ :=
        ih { s with tod := s.tod.hardclock r, clock := s.clock + 1 }
      refine ⟨s', .cons rfl hrun, ?_, hcall⟩
      rw [hclock]
      push_cast
      omega

/-- A sleep that falls short of the deadline ends the call before its timeout. -/
theorem short_sleep_early (h : s.Sound r) {ncoll : Nat} {atv : Timeval}
    (hcall : s.call p = .check w ncoll) (hatv : w.atv = some atv) (hexpired : ¬ expired r s.tod atv)
    (hselect : s.p_select p = true) (hcoll : s.nselcoll = ncoll) (hearly : ¬ w.Meets r s.clock)
    (hcovers : ¬ Covers r s.tod atv) :
    ∃ actions s' c, Steps (Steps.Of (step r)) s actions s' ∧ s'.call p = .done w none 0 c ∧
      ¬ w.Meets r c := by
  have hgood := h.good p
  rw [hcall] at hgood
  obtain ⟨ts, start, atv'⟩ := w
  cases hatv
  cases ts with
  | none => exact (hgood : False).elim
  | some ts =>
      obtain ⟨deadline, k, haims, -⟩ := hgood
      let due := s.clock + max (sleepTicks r atv s.tod.time) 1
      have hcome : s.clock * r.usechz < deadline := by
        by_contra hpast
        exact hearly (haims.enough _ (not_lt.mp hpast))
      have hshort : due * r.usechz < deadline := by
        by_contra hreach
        exact hcovers ((haims.covers h.keeps hexpired).2 hcome (not_lt.mp hreach))
      have hmeets : ¬ Waiting.Meets r ⟨some ts, start, some atv⟩ due := by
        rcases haims.tight with hfirst | htight
        · have hstarted : start ≤ s.clock := haims.started
          have hmono : (start + 1) * r.usechz ≤ due * r.usechz := by
            gcongr
            exact add_le_add hstarted (le_max_right _ _)
          exact absurd (hfirst.trans hmono) (not_le.mpr hshort)
        · exact htight due hshort
      let asleep := s.setCall p false (.asleep ⟨some ts, start, some atv⟩ (some due))
      have hsleep : s.step r (.tsleep p) = some asleep := by
        dsimp only [Selects.step]
        rw [hcall]
        dsimp only [Selects.tsleep]
        rw [if_neg hexpired, if_pos ⟨hselect, hcoll⟩]
      obtain ⟨late, hticks, hclock, hcalls⟩ :=
        exists_ticks r asleep (max (sleepTicks r atv s.tod.time) 1).toNat
      have hlate : late.call p = .asleep ⟨some ts, start, some atv⟩ (some due) := by
        rw [hcalls]
        exact Function.update_self ..
      have hdue : late.clock = due := by
        rw [hclock]
        show s.clock + _ = s.clock + _
        omega
      let woken := late.setCall p (late.p_select p) (.ready ⟨some ts, start, some atv⟩ .timeout)
      have hwake : late.step r (.endtsleep p) = some woken := by
        dsimp only [Selects.step]
        rw [hlate]
        dsimp only
        rw [if_pos (le_of_eq hdue.symm)]
      have hcall' : woken.call p = .ready ⟨some ts, start, some atv⟩ .timeout :=
        Function.update_self ..
      have hresume : woken.step r (.resume p) =
          some (woken.finish p ⟨some ts, start, some atv⟩ none 0) := by
        dsimp only [Selects.step]
        rw [hcall']
      refine ⟨_, _, due, .cons hsleep (hticks.append (.cons hwake (.cons hresume (.refl _)))), ?_,
        hmeets⟩
      show Function.update woken.call p _ p = _
      rw [Function.update_self]
      show Call.done _ none 0 late.clock = _
      rw [hdue]

/-- No call comes back early, if its steps are safe; and one that goes to sleep without being safe
does so in some run. -/
theorem select_not_early (r : Rate) {time : Timeval} (htime : time.Long)
    {actions : List (SelectAction P)} (hrun : Steps (SafeStep r) (boot r time) actions s) :
    (∀ p w c, s.call p = .done w none 0 c → w.Meets r c) ∧
      ∀ p w ncoll atv, s.call p = .check w ncoll → w.atv = some atv → ¬ expired r s.tod atv →
        s.p_select p = true → s.nselcoll = ncoll → ¬ w.Meets r s.clock → ¬ Covers r s.tod atv →
        ∃ actions s' c, Steps (Steps.Of (step r)) s actions s' ∧ s'.call p = .done w none 0 c ∧
          ¬ w.Meets r c := by
  have hsound : s.Sound r :=
    hrun.invariant (fun s => s.Sound r) (fun _ _ _ h hstep => h.step hstep) (sound_boot r htime)
  refine ⟨fun p w c hcall => ?_, fun p w ncoll atv hcall hatv hexpired hselect hcoll hearly hcovers =>
    short_sleep_early hsound hcall hatv hexpired hselect hcoll hearly hcovers⟩
  have hgood := hsound.good p
  rw [hcall] at hgood
  exact hgood rfl rfl

/-- A timeout of two ticks. -/
theorem select_two_ticks : ∃ s : Selects Unit,
    Steps (SafeStep TimeOfDay.rate100) (boot TimeOfDay.rate100 ⟨0, 0⟩)
      [.select () (.value (.select ⟨0, 20000⟩)), .selscan () (.ok 0), .tsleep (), .hardclock,
        .hardclock, .endtsleep (), .resume ()] s ∧
      s.call () = .done ⟨some (.select ⟨0, 20000⟩), 0, some ⟨0, 20000⟩⟩ none 0 2 ∧
      Waiting.Meets TimeOfDay.rate100 ⟨some (.select ⟨0, 20000⟩), 0, some ⟨0, 20000⟩⟩ 2 := by
  have hselect : (boot TimeOfDay.rate100 ⟨0, 0⟩ : Selects Unit).Safe TimeOfDay.rate100
      (.select () (.value (.select ⟨0, 20000⟩))) := by
    rintro tv ⟨⟩
    exact ⟨by decide, Or.inl (by decide)⟩
  let asked : Selects Unit := (boot TimeOfDay.rate100 ⟨0, 0⟩).select TimeOfDay.rate100 ()
    (.value (.select ⟨0, 20000⟩))
  let scanned : Selects Unit :=
    asked.setCall () true (.check ⟨some (.select ⟨0, 20000⟩), 0, some ⟨0, 20000⟩⟩ 0)
  have hsleep : scanned.Safe TimeOfDay.rate100 (.tsleep ()) := by
    rintro w ncoll atv ⟨⟩ ⟨⟩ - - -
    show Covers TimeOfDay.rate100 ⟨⟨0, 0⟩, 0, 0⟩ ⟨0, 20000⟩
    decide
  have hrun : Steps (SafeStep TimeOfDay.rate100) (boot TimeOfDay.rate100 ⟨0, 0⟩ : Selects Unit)
      [.select () (.value (.select ⟨0, 20000⟩)), .selscan () (.ok 0), .tsleep (), .hardclock,
        .hardclock, .endtsleep (), .resume ()] _ :=
    .cons ⟨hselect, rfl⟩ (.cons ⟨trivial, rfl⟩ (.cons ⟨hsleep, rfl⟩ (.cons ⟨trivial, rfl⟩
      (.cons ⟨trivial, rfl⟩ (.cons ⟨trivial, rfl⟩ (.cons ⟨trivial, rfl⟩ (.refl _)))))))
  refine ⟨_, hrun, rfl, ?_⟩
  exact (select_not_early TimeOfDay.rate100 (by decide) hrun).1 () _ 2 rfl

/-- A timeout of a tick and a half ends after one tick. -/
theorem select_early : ∃ s : Selects Unit,
    Steps (Steps.Of (step TimeOfDay.rate100)) (boot TimeOfDay.rate100 ⟨0, 0⟩)
      [.select () (.value (.select ⟨0, 15000⟩)), .selscan () (.ok 0), .tsleep (), .hardclock,
        .endtsleep (), .resume ()] s ∧
      s.call () = .done ⟨some (.select ⟨0, 15000⟩), 0, some ⟨0, 15000⟩⟩ none 0 1 ∧
      ¬ Waiting.Meets TimeOfDay.rate100 ⟨some (.select ⟨0, 15000⟩), 0, some ⟨0, 15000⟩⟩ 1 := by
  refine ⟨_, .cons rfl (.cons rfl (.cons rfl (.cons rfl (.cons rfl (.cons rfl (.refl _)))))), rfl, ?_⟩
  intro hmeets
  exact absurd (hmeets _ rfl) (by decide)

end Selects

end DiscoBsd.Clock
