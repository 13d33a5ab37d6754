import DiscoBsd.Lib.Steps
import Mathlib.Data.BitVec

/-!
# The clock ticks that the Timer0 interrupt accounts for

The Timer0 part of `gba_do_schedule` in `sys/arch/gba/gba/machdep.c`: the fast poll's gate, the catch-up
against Timer3, and the drift correction. Timer3 may count on between the three places where the
interrupt reads it. The main theorem, `ticks_in_step`, says that the ticks accounted for are never more
than one ahead of Timer3, and behind it after an interrupt by no more than `CLOCK_MAXCATCHUP` left, as
long as no catch-up begins with the ticks already ahead or `2 ^ 16` behind.
-/

namespace DiscoBsd.Clock

open DiscoBsd.Lib

def CLOCK_MAXCATCHUP : Nat := 512

def CLOCK_DRIFT_SKIP : Nat := 195

/-- The counters of the clock. `tm3` counts all increments of Timer3, of which its register has the low 16 bits;
`hardclock` and `user` are the calls of `hardclock` outside and inside user code. `left` is what the bound
of the last catch-up left, and `caught` is `tm3` as it was then. -/
structure Counters where
  tm3 : Nat
  gsio_fastpoll_on : Bool
  tm3_seen : BitVec 16
  last_tm3 : BitVec 16
  drift : Nat
  hardclock : Nat
  user : Nat
  skipped : Nat
  left : Nat
  caught : Nat
  deriving DecidableEq

namespace Counters

/-- `REG_TM3CNT_L`. -/
def REG_TM3CNT_L (k : Counters) : BitVec 16 := BitVec.ofNat 16 k.tm3

/-- The ticks that interrupts have accounted for. -/
def accounted (k : Counters) : Nat := k.hardclock + k.user + k.skipped

/-- Timer3 counts on. -/
def count (k : Counters) (d : Nat) : Counters := { k with tm3 := k.tm3 + d }

/-- One tick: a call of `hardclock`, unless it is one to skip. -/
def tick (k : Counters) (usermode : Bool) : Counters :=
  let k := { k with drift := k.drift + 1 }
  if k.drift ≥ CLOCK_DRIFT_SKIP then { k with drift := 0, skipped := k.skipped + 1 }
  else if usermode then { k with user := k.user + 1 }
  else { k with hardclock := k.hardclock + 1 }

/-- The loop over `elapsed`. -/
def ticks (ps : Bool) : Nat → Counters → Counters
  | 0, k => k
  | elapsed + 1, k => ticks ps elapsed (k.tick (decide (elapsed = 0) && ps))

/-- The ticks since the last catch-up; at least the one of this interrupt. -/
def owed (k : Counters) : Nat :=
  let elapsed := (k.REG_TM3CNT_L - k.last_tm3).toNat
  if elapsed = 0 then 1 else elapsed

def elapsed (k : Counters) : Nat :=
  if k.owed > CLOCK_MAXCATCHUP then CLOCK_MAXCATCHUP else k.owed

def catchUp (k : Counters) (ps : Bool) : Counters :=
  ticks ps k.elapsed
    { k with
      last_tm3 := k.last_tm3 + BitVec.ofNat 16 k.elapsed
      left := k.owed - k.elapsed
      caught := k.tm3 }

/-- The Timer0 interrupt. With the fast poll on Timer3 counts `d` between the comparison and the
assignment of `tm3_seen`, and `d'` from there to the catch-up. -/
def timer0 (k : Counters) (ps : Bool) (d d' : Nat) : Counters :=
  if k.gsio_fastpoll_on then
    if k.REG_TM3CNT_L = k.tm3_seen then k
    else
      let k := k.count d
      ({ k with tm3_seen := k.REG_TM3CNT_L }.count d').catchUp ps
  else k.catchUp ps

/-- `cpu_initclocks`. -/
def cpu_initclocks : Counters := ⟨0, false, 0, 0, 0, 0, 0, 0, 0, 0⟩

end Counters

inductive Event where
  | increment
  | timer0 (ps : Bool) (d d' : Nat)
  | gsio_fastpoll (on : Bool)

namespace Counters

def event (k : Counters) : Event → Counters
  | .increment => k.count 1
  | .timer0 ps d d' => k.timer0 ps d d'
  | .gsio_fastpoll on => { k with gsio_fastpoll_on := on }

/-! ## One catch-up -/

theorem accounted_tick (k : Counters) (usermode : Bool) :
    (k.tick usermode).accounted = k.accounted + 1 := by
  rw [tick]
  dsimp only
  split
  · exact (Nat.add_assoc ..).symm
  · split
    · simp only [accounted]
      omega
    · simp only [accounted]
      omega

theorem frame_tick (k : Counters) (usermode : Bool) :
    (k.tick usermode).tm3 = k.tm3 ∧ (k.tick usermode).last_tm3 = k.last_tm3 ∧
      (k.tick usermode).left = k.left ∧ (k.tick usermode).caught = k.caught := by
  rw [tick]
  dsimp only
  split
  · exact ⟨rfl, rfl, rfl, rfl⟩
  · split <;> exact ⟨rfl, rfl, rfl, rfl⟩

theorem accounted_ticks (ps : Bool) (elapsed : Nat) (k : Counters) :
    (ticks ps elapsed k).accounted = k.accounted + elapsed := by
  induction elapsed generalizing k with
  | zero => rfl
  | succ elapsed ih =>
      rw [ticks, ih, accounted_tick]
      omega

theorem frame_ticks (ps : Bool) (elapsed : Nat) (k : Counters) :
    (ticks ps elapsed k).tm3 = k.tm3 ∧ (ticks ps elapsed k).last_tm3 = k.last_tm3 ∧
      (ticks ps elapsed k).left = k.left ∧ (ticks ps elapsed k).caught = k.caught := by
  induction elapsed generalizing k with
  | zero => exact ⟨rfl, rfl, rfl, rfl⟩
  | succ elapsed ih =>
      obtain ⟨htm3, hlast, hleft, hcaught⟩ := frame_tick k (decide (elapsed = 0) && ps)
      obtain ⟨htm3', hlast', hleft', hcaught'⟩ := ih (k.tick (decide (elapsed = 0) && ps))
      rw [ticks]
      exact ⟨htm3'.trans htm3, hlast'.trans hlast, hleft'.trans hleft, hcaught'.trans hcaught⟩

theorem accounted_catchUp (k : Counters) (ps : Bool) :
    (k.catchUp ps).accounted = k.accounted + k.elapsed :=
  accounted_ticks ..

theorem frame_catchUp (k : Counters) (ps : Bool) :
    (k.catchUp ps).tm3 = k.tm3 ∧
      (k.catchUp ps).last_tm3 = k.last_tm3 + BitVec.ofNat 16 k.elapsed ∧
      (k.catchUp ps).left = k.owed - k.elapsed ∧ (k.catchUp ps).caught = k.tm3 :=
  frame_ticks ..

/-! ## The invariant -/

/-- `last_tm3` is the number of ticks accounted for, which is at most one ahead, and the last catch-up
left what its bound left. -/
structure InStep (k : Counters) : Prop where
  last : k.last_tm3 = BitVec.ofNat 16 k.accounted
  ahead : k.accounted ≤ k.tm3 + 1
  behind : k.caught ≤ k.accounted + k.left

/-- A catch-up can begin: the ticks are not ahead, and less than `2 ^ 16` behind. -/
def Ready (k : Counters) : Prop := k.accounted ≤ k.tm3 ∧ k.tm3 < k.accounted + 2 ^ 16

/-- What an event must find. An interrupt that the fast poll drops must find Timer3 as the last catch-up
found it. -/
def Timely (k : Counters) : Event → Prop
  | .timer0 _ d d' =>
      if k.gsio_fastpoll_on then
        if k.REG_TM3CNT_L = k.tm3_seen then k.tm3 = k.caught
        else (k.count (d + d')).Ready
      else k.Ready
  | _ => True

def Step (k : Counters) (e : Event) (k' : Counters) : Prop := k.Timely e ∧ k' = k.event e

theorem owed_eq {k : Counters} (h : k.InStep) (hready : k.Ready) :
    k.owed = max (k.tm3 - k.accounted) 1 := by
  obtain ⟨hle, hlt⟩ := hready
  have hdiff : (k.REG_TM3CNT_L - k.last_tm3).toNat = k.tm3 - k.accounted := by
    rw [h.last, REG_TM3CNT_L, BitVec.toNat_sub, BitVec.toNat_ofNat, BitVec.toNat_ofNat]
    omega
  rw [owed, hdiff]
  split <;> omega

theorem InStep.catchUp {k : Counters} (h : k.InStep) (hready : k.Ready) (ps : Bool) :
    (k.catchUp ps).InStep := by
  obtain ⟨htm3, hlast, hleft, hcaught⟩ := frame_catchUp k ps
  have haccounted := accounted_catchUp k ps
  have howed := owed_eq h hready
  have helapsed : k.elapsed ≤ k.owed := by
    rw [elapsed]
    split <;> omega
  have hle := hready.1
  refine ⟨?_, ?_, ?_⟩
  · rw [hlast, haccounted, h.last, ← BitVec.ofNat_add]
  · rw [haccounted, htm3]
    omega
  · rw [hcaught, haccounted, hleft]
    omega

theorem InStep.count {k : Counters} (h : k.InStep) (d : Nat) : (k.count d).InStep :=
  ⟨h.last, Nat.le_trans h.ahead (by simp only [Counters.count]; omega), h.behind⟩

theorem InStep.timer0 {k : Counters} {ps : Bool} {d d' : Nat} (h : k.InStep)
    (htimely : k.Timely (.timer0 ps d d')) :
    (k.timer0 ps d d').InStep ∧ (k.timer0 ps d d').tm3 = (k.timer0 ps d d').caught := by
  have hdone : ∀ k : Counters, k.InStep → k.Ready →
      (k.catchUp ps).InStep ∧ (k.catchUp ps).tm3 = (k.catchUp ps).caught := by
    intro k h hready
    obtain ⟨htm3, -, -, hcaught⟩ := frame_catchUp k ps
    exact ⟨h.catchUp hready ps, htm3.trans hcaught.symm⟩
  rw [Timely] at htimely
  rw [Counters.timer0]
  split at htimely
  · rename_i hfast
    rw [if_pos hfast]
    split at htimely
    · rename_i hgate
      rw [if_pos hgate]
      exact ⟨h, htimely⟩
    · rename_i hgate
      rw [if_neg hgate]
      have hready : ({ k.count d with tm3_seen := (k.count d).REG_TM3CNT_L }.count d').Ready := by
        obtain ⟨hle, hlt⟩ := htimely
        have hsum : k.tm3 + (d + d') = k.tm3 + d + d' := (Nat.add_assoc ..).symm
        exact ⟨hle.trans_eq hsum, hsum.symm.trans_lt hlt⟩
      have hseen : ({ k.count d with tm3_seen := (k.count d).REG_TM3CNT_L } : Counters).InStep :=
        ⟨(h.count d).last, (h.count d).ahead, (h.count d).behind⟩
      exact hdone _ (hseen.count d') hready
  · rename_i hslow
    rw [if_neg hslow]
    exact hdone k h htimely

theorem InStep.event {k : Counters} {e : Event} (h : k.InStep) (htimely : k.Timely e) :
    (k.event e).InStep := by
  cases e with
  | increment => exact h.count 1
  | timer0 ps d d' => exact (h.timer0 htimely).1
  | gsio_fastpoll on => exact ⟨h.last, h.ahead, h.behind⟩

/-! ## Runs -/

/-- In a run in which every catch-up begins with the ticks not ahead of Timer3 and less than `2 ^ 16`
behind, and the fast poll drops an interrupt only if Timer3 stands still since the last catch-up, the
ticks accounted for are never more than one ahead of Timer3; after any interrupt they are behind by no
more than the bound of the last catch-up left. -/
theorem ticks_in_step {events : List Event} {k : Counters}
    (hrun : Steps Step cpu_initclocks events k) :
    k.accounted ≤ k.tm3 + 1 ∧ ∀ ps d d', k.Timely (.timer0 ps d d') →
      (k.timer0 ps d d').tm3 ≤ (k.timer0 ps d d').accounted + (k.timer0 ps d d').left := by
  have hkept : ∀ k e k', InStep k → Step k e k' → InStep k' := by
    rintro k e k' h ⟨htimely, rfl⟩
    exact h.event htimely
  have h : k.InStep :=
    Steps.invariant InStep hkept hrun ⟨rfl, Nat.zero_le _, Nat.le_refl _⟩
  refine ⟨h.ahead, fun ps d d' htimely => ?_⟩
  obtain ⟨hstep, hcaught⟩ := h.timer0 htimely
  rw [hcaught]
  exact hstep.behind

/-- An interrupt that comes after two increments of Timer3, and one after a third. -/
theorem ticks_in_step_late :
    ∃ k, Steps Step cpu_initclocks [.increment, .increment, .timer0 false 0 0, .increment] k ∧
      k.accounted ≤ k.tm3 + 1 ∧ (k.timer0 true 0 0).tm3 = 3 ∧
        (k.timer0 true 0 0).tm3 ≤ (k.timer0 true 0 0).accounted + (k.timer0 true 0 0).left := by
  have hrun : Steps Step cpu_initclocks [.increment, .increment, .timer0 false 0 0, .increment]
      ((((cpu_initclocks.count 1).count 1).timer0 false 0 0).count 1) :=
    .cons ⟨trivial, rfl⟩ (.cons ⟨trivial, rfl⟩ (.cons ⟨(⟨by decide, by decide⟩ : Ready _), rfl⟩
      (.cons ⟨trivial, rfl⟩ (.refl _))))
  have hready : ((((cpu_initclocks.count 1).count 1).timer0 false 0 0).count 1).Ready :=
    ⟨by decide, by decide⟩
  exact ⟨_, hrun, (ticks_in_step hrun).1, by decide, (ticks_in_step hrun).2 true 0 0 hready⟩

def threeInterrupts : List Event :=
  [.increment, .timer0 false 0 0, .timer0 false 0 0, .timer0 false 0 0]

/-- Three interrupts between two increments of Timer3: the second is one tick ahead, and the third takes
the difference of -1 for 65535. -/
theorem ticks_run_ahead :
    (threeInterrupts.foldl event cpu_initclocks).accounted = 514 ∧
      (threeInterrupts.foldl event cpu_initclocks).tm3 = 1 := by
  have hrun : threeInterrupts.foldl event cpu_initclocks =
      (((cpu_initclocks.count 1).timer0 false 0 0).timer0 false 0 0).timer0 false 0 0 := by
    simp only [threeInterrupts, List.foldl_cons, List.foldl_nil, event]
  have hsecond : ((cpu_initclocks.count 1).timer0 false 0 0).timer0 false 0 0 =
      ⟨1, false, 0, 2, 2, 2, 0, 0, 0, 1⟩ := by decide
  rw [hrun, hsecond, timer0, if_neg (by decide)]
  constructor
  · rw [accounted_catchUp]
    decide
  · exact (frame_catchUp ⟨1, false, 0, 2, 2, 2, 0, 0, 0, 1⟩ false).1

end Counters

end DiscoBsd.Clock
