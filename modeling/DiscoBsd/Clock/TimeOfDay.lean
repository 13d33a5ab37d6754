import Mathlib.Tactic.Linarith
import Mathlib.Tactic.Ring
import Mathlib.Algebra.Order.Group.Unbundled.Int
import Mathlib.Algebra.Order.Ring.Int
import DiscoBsd.Lib.Int32
import DiscoBsd.Lib.Steps

/-!
# The time of day

The seconds, the ticks within the second and the pending adjustment, and what writes them: `hardclock`,
`settimeofday` and `adjtime`. `adjtime` compares its adjustment with the limits of 16 bits, and as an
integer of 32 bits every value is outside of these, so the clock is always stepped.
-/

namespace DiscoBsd.Clock

open DiscoBsd.Lib

/-- The clock rate: `HZ` must be an integer factor of 1000. -/
structure Rate where
  hz : Nat
  factor : hz ∣ 1000
  two_le : 2 ≤ hz

/-- The microseconds of a tick. -/
def Rate.usechz (r : Rate) : Nat := (1000000 + r.hz - 1) / r.hz

structure Timeval where
  tv_sec : Int
  tv_usec : Int
  deriving DecidableEq

/-- Both fields are of type `long`. -/
def Timeval.Long (tv : Timeval) : Prop :=
  (-2 ^ 31 ≤ tv.tv_sec ∧ tv.tv_sec < 2 ^ 31) ∧ -2 ^ 31 ≤ tv.tv_usec ∧ tv.tv_usec < 2 ^ 31

instance (tv : Timeval) : Decidable tv.Long := inferInstanceAs (Decidable (_ ∧ _))

/-- `time`, `lbolt` and `adjdelta`. -/
structure TimeOfDay where
  time : Timeval
  lbolt : Int
  adjdelta : Int
  deriving DecidableEq

/-- A pointer of a system call: null, outside of the user memory, or to a value. -/
inductive Arg (α : Type*) where
  | null
  | fault
  | value (a : α)

inductive Error where
  | EPERM
  | EINTR
  | EBADF
  | EFAULT
  | EINVAL

namespace TimeOfDay

/-- `hardclock`: increment the time of day. -/
def hardclock (r : Rate) (t : TimeOfDay) : TimeOfDay :=
  let t : TimeOfDay :=
    if t.adjdelta ≠ 0 then
      if 0 < t.adjdelta then
        { t with lbolt := int32 (t.lbolt + 1), adjdelta := int32 (t.adjdelta - 1) }
      else { t with lbolt := int32 (t.lbolt - 1), adjdelta := int32 (t.adjdelta + 1) }
    else t
  let t : TimeOfDay := { t with lbolt := int32 (t.lbolt + 1) }
  if r.hz ≤ t.lbolt then
    { t with
      lbolt := t.lbolt - r.hz
      time := { t.time with tv_sec := int32 (t.time.tv_sec + 1) } }
  else t

/-- `setthetime`. -/
def setthetime (r : Rate) (suser : Bool) (tv : Timeval) (t : TimeOfDay) :
    TimeOfDay × Option Error :=
  if suser then ({ t with time := tv, lbolt := tv.tv_usec.tdiv r.usechz }, none)
  else (t, some .EPERM)

/-- `settimeofday` with its first argument. -/
def settimeofday (r : Rate) (suser : Bool) (tv : Arg Timeval) (t : TimeOfDay) :
    TimeOfDay × Option Error :=
  match tv with
  | .null => (t, none)
  | .fault => (t, some .EFAULT)
  | .value tv => t.setthetime r suser tv

/-- The loop of `adjtime`: whole seconds go over to the seconds. -/
def carry (r : Rate) (lbolt tv_sec : Int) : Int × Int :=
  if r.hz ≤ lbolt then carry r (lbolt - r.hz) (int32 (tv_sec + 1)) else (lbolt, tv_sec)
  termination_by lbolt.toNat
  decreasing_by
    have htwo := r.two_le
    omega

/-- `adjtime` on the delta that was copied in. The second component is the old delta. -/
def adjust (r : Rate) (atv : Timeval) (t : TimeOfDay) : TimeOfDay × Timeval :=
  let adjust := int32 (int32 (atv.tv_sec * r.hz) + atv.tv_usec.tdiv r.usechz)
  if 0x7fff < adjust ∨ adjust < 0x8000 then
    let stepped := carry r (int32 (t.lbolt + atv.tv_usec.tdiv r.usechz))
      (int32 (t.time.tv_sec + atv.tv_sec))
    ({ t with time := { t.time with tv_sec := stepped.2 }, lbolt := stepped.1 }, ⟨0, 0⟩)
  else
    ({ t with adjdelta := adjust },
      ⟨t.adjdelta.tdiv r.hz, t.adjdelta.tmod r.hz * r.usechz⟩)

/-- `adjtime`, with the old delta where it is copied out. `delta` is the value to copy in, if that is
possible, and `olddelta` says whether the old one can be copied out, if it is asked for. -/
def adjtime (r : Rate) (suser : Bool) (delta : Option Timeval) (olddelta : Option Bool)
    (t : TimeOfDay) : TimeOfDay × Option Error × Option Timeval :=
  if suser then
    match delta with
    | none => (t, some .EFAULT, none)
    | some atv =>
        let r := t.adjust r atv
        match olddelta with
        | none => (r.1, none, none)
        | some true => (r.1, none, some r.2)
        | some false => (r.1, some .EFAULT, none)
  else (t, some .EPERM, none)

end TimeOfDay

/-- What writes the clock. -/
inductive ClockOp where
  | hardclock
  | settimeofday (suser : Bool) (tv : Arg Timeval)
  | adjtime (suser : Bool) (delta : Option Timeval) (olddelta : Option Bool)

namespace TimeOfDay

def apply (r : Rate) (t : TimeOfDay) : ClockOp → TimeOfDay
  | .hardclock => t.hardclock r
  | .settimeofday suser tv => (t.settimeofday r suser tv).1
  | .adjtime suser delta olddelta => (t.adjtime r suser delta olddelta).1

/-- The ticks of an adjustment. -/
def delta (r : Rate) (atv : Timeval) : Int := atv.tv_sec * r.hz + atv.tv_usec.tdiv r.usechz

/-- `lbolt` counts the ticks within the second. -/
def InSecond (r : Rate) (t : TimeOfDay) : Prop := 0 ≤ t.lbolt ∧ t.lbolt < r.hz

instance (r : Rate) (t : TimeOfDay) : Decidable (t.InSecond r) := inferInstanceAs (Decidable (_ ∧ _))

/-- The clock in ticks. -/
def ticks (r : Rate) (t : TimeOfDay) : Int := t.time.tv_sec * r.hz + t.lbolt

/-- What is asked of an operation. The clock goes on by a tick and by one more or less while an adjustment
is pending; the seconds have 32 bits. An adjustment that can be stored is, and nothing else changes. -/
def Meets (r : Rate) (t : TimeOfDay) (op : ClockOp) (t' : TimeOfDay) : Prop :=
  t'.InSecond r ∧
    match op with
    | .hardclock => t'.adjdelta = t.adjdelta - t.adjdelta.sign ∧
        (2 ^ 32 * r.hz : Int) ∣ t'.ticks r - (t.ticks r + 1 + t.adjdelta.sign)
    | .adjtime true (some atv) _ =>
        |delta r atv| ≤ 0x7fff → t' = { t with adjdelta := delta r atv }
    | _ => True

/-- The arguments that the code handles: a second is less than a second long, a small adjustment is
none at all, and a large one leaves `lbolt` positive. -/
def Careful (r : Rate) (t : TimeOfDay) : ClockOp → Prop
  | .settimeofday true (.value tv) => -(r.usechz : Int) < tv.tv_usec ∧ tv.tv_usec < 1000000
  | .adjtime true (some atv) _ =>
      if |delta r atv| ≤ 0x7fff then delta r atv = 0 ∧ 0 ≤ atv.tv_usec.tdiv r.usechz
      else 0 ≤ t.lbolt + atv.tv_usec.tdiv r.usechz
  | _ => True

end TimeOfDay

/-- The values that are copied in are of type `long`. -/
def ClockOp.Long : ClockOp → Prop
  | .settimeofday _ (.value tv) => tv.Long
  | .adjtime _ (some atv) _ => atv.Long
  | _ => True

/-! ## The rate -/

theorem Rate.usechz_mul (r : Rate) : (r.usechz : Int) * r.hz = 1000000 := by
  obtain ⟨k, hk⟩ := r.factor.trans (by decide : 1000 ∣ 1000000)
  have htwo := r.two_le
  have hdiv : r.usechz = k := by
    unfold Rate.usechz
    refine Nat.div_eq_of_lt_le ?_ ?_
    · rw [hk, Nat.mul_comm]
      omega
    · rw [hk, Nat.mul_comm, Nat.succ_mul]
      omega
  rw [hdiv, mul_comm]
  exact_mod_cast hk.symm

theorem Rate.hz_le (r : Rate) : r.hz ≤ 1000 := Nat.le_of_dvd (by decide) r.factor

theorem Rate.usechz_pos (r : Rate) : (1000 : Int) ≤ r.usechz := by
  have hmul := r.usechz_mul
  have hle := r.hz_le
  by_contra hlt
  have hbound : (r.usechz : Int) * r.hz ≤ 999 * 1000 := by
    gcongr
    · omega
    · exact_mod_cast hle
  omega

namespace TimeOfDay

variable {r : Rate} {t : TimeOfDay}

/-! ## `hardclock` -/

/-- What a tick does to a clock that counts within the second. -/
theorem hardclock_eq (h : t.InSecond r) (hlo : -2 ^ 31 ≤ t.adjdelta) (hhi : t.adjdelta < 2 ^ 31) :
    t.hardclock r =
      if r.hz ≤ t.lbolt + 1 + t.adjdelta.sign then
        { time := { t.time with tv_sec := int32 (t.time.tv_sec + 1) }
          lbolt := t.lbolt + 1 + t.adjdelta.sign - r.hz
          adjdelta := t.adjdelta - t.adjdelta.sign }
      else { t with
        lbolt := t.lbolt + 1 + t.adjdelta.sign
        adjdelta := t.adjdelta - t.adjdelta.sign } := by
  obtain ⟨hzero, hlt⟩ := h
  have hle : (r.hz : Int) ≤ 1000 := by exact_mod_cast r.hz_le
  unfold hardclock
  rcases lt_trichotomy t.adjdelta 0 with hneg | hnone | hpos
  · have hsign : t.adjdelta.sign = -1 := Int.sign_eq_neg_one_of_neg hneg
    have hback : int32 (t.lbolt - 1) = t.lbolt - 1 := int32_eq (by omega) (by omega)
    have hforth : int32 (t.lbolt - 1 + 1) = t.lbolt + 1 + -1 := by
      rw [int32_eq (by omega) (by omega)]
      omega
    have hrest : int32 (t.adjdelta + 1) = t.adjdelta - -1 := by
      rw [int32_eq (by omega) (by omega)]
      omega
    rw [if_pos (ne_of_lt hneg), if_neg (not_lt_of_gt hneg), hsign]
    dsimp only
    rw [hback, hforth, hrest]
  · have hnext : int32 (t.lbolt + 1) = t.lbolt + 1 + 0 := by
      rw [int32_eq (by omega) (by omega)]
      omega
    have hsign : t.adjdelta.sign = 0 := by
      rw [hnone]
      rfl
    rw [if_neg (not_not.mpr hnone), hsign, sub_zero]
    dsimp only
    rw [hnext]
  · have hsign : t.adjdelta.sign = 1 := Int.sign_eq_one_of_pos hpos
    have hfirst : int32 (t.lbolt + 1) = t.lbolt + 1 := int32_eq (by omega) (by omega)
    have hsecond : int32 (t.lbolt + 1 + 1) = t.lbolt + 1 + 1 := int32_eq (by omega) (by omega)
    have hrest : int32 (t.adjdelta - 1) = t.adjdelta - 1 := int32_eq (by omega) (by omega)
    rw [if_pos (ne_of_gt hpos), if_pos hpos, hsign]
    dsimp only
    rw [hfirst, hsecond, hrest]

/-- A tick keeps `lbolt` within the second and takes one tick of the adjustment. -/
theorem hardclock_meets (h : t.InSecond r) (hlo : -2 ^ 31 ≤ t.adjdelta)
    (hhi : t.adjdelta < 2 ^ 31) : Meets r t .hardclock (t.hardclock r) := by
  have htwo : (2 : Int) ≤ r.hz := by exact_mod_cast r.two_le
  have hsign : -1 ≤ t.adjdelta.sign ∧ t.adjdelta.sign ≤ 1 := by
    rcases lt_trichotomy t.adjdelta 0 with hneg | hnone | hpos
    · rw [Int.sign_eq_neg_one_of_neg hneg]
      omega
    · rw [hnone, Int.sign_zero]
      omega
    · rw [Int.sign_eq_one_of_pos hpos]
      omega
  have heq := hardclock_eq h hlo hhi
  obtain ⟨hzero, hlt⟩ := h
  rw [heq]
  unfold Meets InSecond ticks
  split
  · refine ⟨⟨?_, ?_⟩, rfl, ?_⟩
    · dsimp only
      omega
    · dsimp only
      omega
    · obtain ⟨k, hk⟩ := dvd_int32_sub (t.time.tv_sec + 1)
      refine ⟨k, ?_⟩
      dsimp only
      calc int32 (t.time.tv_sec + 1) * r.hz + (t.lbolt + 1 + t.adjdelta.sign - r.hz) -
              (t.time.tv_sec * r.hz + t.lbolt + 1 + t.adjdelta.sign)
            = (int32 (t.time.tv_sec + 1) - (t.time.tv_sec + 1)) * r.hz := by ring
        _ = 2 ^ 32 * r.hz * k := by
            rw [hk]
            ring
  · refine ⟨⟨?_, ?_⟩, rfl, ?_⟩
    · dsimp only
      omega
    · dsimp only
      omega
    · refine ⟨0, ?_⟩
      dsimp only
      ring

/-- Counting on in seconds and ticks. -/
theorem succ_div_mod (n : Int) {hz : Int} (hpos : 0 < hz) :
    ((n + 1) / hz = if hz ≤ n % hz + 1 then n / hz + 1 else n / hz) ∧
      (n + 1) % hz = if hz ≤ n % hz + 1 then n % hz + 1 - hz else n % hz + 1 := by
  have hmod := Int.emod_lt_of_pos n hpos
  have hmod' := Int.emod_nonneg n (ne_of_gt hpos)
  have hsplit := Int.mul_ediv_add_emod n hz
  have hdiv : (n + 1) / hz = if hz ≤ n % hz + 1 then n / hz + 1 else n / hz := by
    rw [Int.ediv_eq_iff_of_pos hpos]
    split <;> constructor <;> linarith
  refine ⟨hdiv, ?_⟩
  rw [Int.emod_def, hdiv]
  split <;> linarith

/-- Without an adjustment, whole seconds go by in whole multiples of `hz` ticks. -/
theorem hardclock_iterate (h : t.InSecond r) (hadj : t.adjdelta = 0)
    (hsec : int32 t.time.tv_sec = t.time.tv_sec) (n : Nat) :
    (hardclock r)^[n] t =
      { t with
        time := { t.time with tv_sec := int32 (t.time.tv_sec + (t.lbolt + n) / r.hz) }
        lbolt := (t.lbolt + n) % r.hz } := by
  have hpos : (0 : Int) < r.hz := by
    have htwo := r.two_le
    omega
  induction n with
  | zero =>
      obtain ⟨hzero, hlt⟩ := h
      rw [Function.iterate_zero, id_eq, Nat.cast_zero, add_zero, Int.ediv_eq_zero_of_lt hzero hlt,
        Int.emod_eq_of_lt hzero hlt, add_zero, hsec]
  | succ n ih =>
      rw [Function.iterate_succ_apply', ih]
      have hmod := Int.emod_lt_of_pos (t.lbolt + n) hpos
      have hmod' := Int.emod_nonneg (t.lbolt + n) (ne_of_gt hpos)
      obtain ⟨hdiv, hrem⟩ := succ_div_mod (t.lbolt + n) hpos
      rw [hardclock_eq (by exact ⟨hmod', hmod⟩) (by dsimp only; omega) (by dsimp only; omega)]
      dsimp only
      rw [hadj, Int.sign_zero, add_zero, sub_zero, Nat.cast_succ, ← add_assoc, hdiv, hrem]
      split
      · rw [int32_add, add_assoc]
      · rfl

/-! ## `settimeofday` and `adjtime` -/

/-- The loop of `adjtime` ends with `lbolt` below a second. -/
theorem carry_eq {lbolt tv_sec : Int} (hlbolt : 0 ≤ lbolt) (hsec : int32 tv_sec = tv_sec) :
    carry r lbolt tv_sec = (lbolt % r.hz, int32 (tv_sec + lbolt / r.hz)) := by
  have htwo : (2 : Int) ≤ r.hz := by exact_mod_cast r.two_le
  fun_induction carry r lbolt tv_sec with
  | case1 lbolt tv_sec hle ih =>
      rw [ih (by omega) (int32_int32 _), Int.sub_emod_right, int32_add]
      congr 2
      rw [Int.sub_ediv_of_dvd _ (dvd_refl _), Int.ediv_self (by omega)]
      ring
  | case2 lbolt tv_sec hlt =>
      rw [Int.emod_eq_of_lt hlbolt (by omega), Int.ediv_eq_zero_of_lt hlbolt (by omega), add_zero,
        hsec]

theorem carry_tv_sec {lbolt tv_sec : Int} (hsec : int32 tv_sec = tv_sec) :
    int32 (carry r lbolt tv_sec).2 = (carry r lbolt tv_sec).2 := by
  fun_induction carry r lbolt tv_sec with
  | case1 lbolt tv_sec hle ih => exact ih (int32_int32 _)
  | case2 lbolt tv_sec hlt => exact hsec

theorem carry_of_lt {lbolt tv_sec : Int} (h : lbolt < r.hz) :
    carry r lbolt tv_sec = (lbolt, tv_sec) := by
  unfold carry
  rw [if_neg (by omega)]

theorem tdiv_usechz_le (r : Rate) {usec : Int} (hzero : 0 ≤ usec) (hmax : usec ≤ 2 ^ 31) :
    0 ≤ usec.tdiv r.usechz ∧ usec.tdiv r.usechz ≤ 2147484 := by
  have hpos := r.usechz_pos
  rw [Int.tdiv_eq_ediv_of_nonneg hzero]
  refine ⟨Int.ediv_nonneg hzero (by omega), Int.le_of_lt_add_one ?_⟩
  rw [Int.ediv_lt_iff_lt_mul (by omega)]
  calc usec < (2147484 + 1) * 1000 := by omega
    _ ≤ (2147484 + 1) * r.usechz := by gcongr

theorem tdiv_usechz_range (r : Rate) {usec : Int} (hlo : -2 ^ 31 ≤ usec) (hhi : usec < 2 ^ 31) :
    -2147484 ≤ usec.tdiv r.usechz ∧ usec.tdiv r.usechz ≤ 2147484 := by
  rcases le_or_gt 0 usec with hzero | hneg
  · have hrange := tdiv_usechz_le r hzero (by omega)
    omega
  · have hrange := tdiv_usechz_le r (by omega : 0 ≤ -usec) (by omega)
    rw [Int.neg_tdiv] at hrange
    omega

/-- The ticks of these microseconds are less than a second. -/
theorem tdiv_usechz_iff (r : Rate) (usec : Int) :
    (0 ≤ usec.tdiv r.usechz ∧ usec.tdiv r.usechz < r.hz) ↔
      -(r.usechz : Int) < usec ∧ usec < 1000000 := by
  have hpos := r.usechz_pos
  have htwo := r.two_le
  rw [← r.usechz_mul, mul_comm]
  rcases le_or_gt 0 usec with hzero | hneg
  · rw [Int.tdiv_eq_ediv_of_nonneg hzero, Int.ediv_lt_iff_lt_mul (by omega)]
    have hquot : 0 ≤ usec / r.usechz := Int.ediv_nonneg hzero (by omega)
    constructor
    · rintro ⟨-, hlt⟩
      exact ⟨by omega, hlt⟩
    · rintro ⟨-, hlt⟩
      exact ⟨hquot, hlt⟩
  · have hquot : 0 ≤ -usec / r.usechz := Int.ediv_nonneg (by omega) (by omega)
    have hsmall : -usec / r.usechz < 1 ↔ -usec < 1 * r.usechz :=
      Int.ediv_lt_iff_lt_mul (by omega)
    have hsecond : (0 : Int) ≤ r.hz * r.usechz := by positivity
    rw [tdiv_of_neg hneg]
    constructor
    · rintro ⟨hle, -⟩
      exact ⟨by omega, by omega⟩
    · rintro ⟨hlt, -⟩
      exact ⟨by omega, by omega⟩

/-- The limits leave no adjustment to be stored: the clock is stepped. -/
theorem adjust_steps (r : Rate) (atv : Timeval) (t : TimeOfDay) :
    (t.adjust r atv).1 =
      { t with
        time := { t.time with
          tv_sec := (carry r (int32 (t.lbolt + atv.tv_usec.tdiv r.usechz))
            (int32 (t.time.tv_sec + atv.tv_sec))).2 }
        lbolt := (carry r (int32 (t.lbolt + atv.tv_usec.tdiv r.usechz))
            (int32 (t.time.tv_sec + atv.tv_sec))).1 } := by
  unfold adjust
  dsimp only
  rw [if_pos (by omega)]

/-- A step leaves `lbolt` within the second when it does not take it below zero. -/
theorem adjust_lbolt (h : t.InSecond r) {atv : Timeval} (hlong : atv.Long) :
    (t.adjust r atv).1.lbolt =
        (if 0 ≤ t.lbolt + atv.tv_usec.tdiv r.usechz then
          (t.lbolt + atv.tv_usec.tdiv r.usechz) % r.hz
        else t.lbolt + atv.tv_usec.tdiv r.usechz) ∧
      (0 ≤ t.lbolt + atv.tv_usec.tdiv r.usechz →
        (t.adjust r atv).1.time.tv_sec =
          int32 (t.time.tv_sec + atv.tv_sec + (t.lbolt + atv.tv_usec.tdiv r.usechz) / r.hz)) := by
  obtain ⟨hzero, hlt⟩ := h
  have hle : (r.hz : Int) ≤ 1000 := by exact_mod_cast r.hz_le
  have hrange := tdiv_usechz_range r hlong.2.1 hlong.2.2
  rw [adjust_steps, int32_eq (by omega) (by omega)]
  dsimp only
  split
  next hpos =>
    rw [carry_eq hpos (int32_int32 _), int32_add]
    exact ⟨rfl, fun _ => rfl⟩
  next hneg =>
    rw [carry_of_lt (by omega)]
    exact ⟨rfl, fun hpos => absurd hpos hneg⟩

theorem adjust_inSecond (h : t.InSecond r) {atv : Timeval} (hlong : atv.Long) :
    (t.adjust r atv).1.InSecond r ↔ 0 ≤ t.lbolt + atv.tv_usec.tdiv r.usechz := by
  have htwo := r.two_le
  unfold InSecond
  rw [(adjust_lbolt h hlong).1]
  split
  next hpos =>
    exact ⟨fun _ => hpos, fun _ => ⟨Int.emod_nonneg _ (by omega), Int.emod_lt_of_pos _ (by omega)⟩⟩
  next hneg => exact ⟨fun hin => absurd hin.1 hneg, fun hpos => absurd hpos hneg⟩

/-- An adjustment is stored where there is none and the code steps by nothing. -/
theorem adjust_stored (h : t.InSecond r) (hadj : t.adjdelta = 0)
    (hsec : int32 t.time.tv_sec = t.time.tv_sec) {atv : Timeval} (hlong : atv.Long) :
    (t.adjust r atv).1 = { t with adjdelta := delta r atv } ↔
      delta r atv = 0 ∧ 0 ≤ atv.tv_usec.tdiv r.usechz := by
  obtain ⟨hlbolt, htime⟩ := adjust_lbolt h hlong
  obtain ⟨hzero, hlt⟩ := h
  have htwo := r.two_le
  constructor
  · intro heq
    have hdelta : t.adjdelta = delta r atv := by
      have hcopy := congrArg TimeOfDay.adjdelta heq
      rwa [adjust_steps] at hcopy
    refine ⟨hdelta.symm.trans hadj, ?_⟩
    by_contra hneg
    rw [heq] at hlbolt
    dsimp only at hlbolt
    split at hlbolt
    next hpos =>
      rw [Int.emod_eq_of_lt hpos (by omega)] at hlbolt
      omega
    next => omega
  · rintro ⟨hdelta, hpos⟩
    have hquot : atv.tv_usec.tdiv r.usechz = -atv.tv_sec * r.hz := by
      unfold delta at hdelta
      linarith
    have hsum : 0 ≤ t.lbolt + atv.tv_usec.tdiv r.usechz := by omega
    have hsame : (t.adjust r atv).1.lbolt = t.lbolt := by
      rw [hlbolt, if_pos hsum, hquot, Int.add_mul_emod_self_right, Int.emod_eq_of_lt hzero hlt]
    have hsec' : (t.adjust r atv).1.time.tv_sec = t.time.tv_sec := by
      rw [htime hsum, hquot, Int.add_mul_ediv_right _ _ (by omega), Int.ediv_eq_zero_of_lt hzero hlt,
        zero_add, add_neg_cancel_right, hsec]
    rw [adjust_steps] at hsame hsec' ⊢
    dsimp only at hsame hsec'
    rw [hsame, hsec', hdelta, ← hadj]

theorem apply_adjtime (r : Rate) (t : TimeOfDay) (atv : Timeval) (olddelta : Option Bool) :
    t.apply r (.adjtime true (some atv) olddelta) = (t.adjust r atv).1 := by
  rcases olddelta with _ | _ | _ <;> rfl

/-- An operation does what is asked of it for the arguments that the code handles, and for no others. -/
theorem meets_iff (h : t.InSecond r) (hadj : t.adjdelta = 0)
    (hsec : int32 t.time.tv_sec = t.time.tv_sec) {op : ClockOp} (hlong : op.Long) :
    Meets r t op (t.apply r op) ↔ Careful r t op := by
  cases op with
  | hardclock =>
      exact iff_of_true (hardclock_meets h (by omega) (by omega)) trivial
  | settimeofday suser tv =>
      cases suser with
      | false =>
          refine iff_of_true ⟨?_, trivial⟩ trivial
          cases tv <;> exact h
      | true =>
          cases tv with
          | null => exact iff_of_true ⟨h, trivial⟩ trivial
          | fault => exact iff_of_true ⟨h, trivial⟩ trivial
          | value tv =>
              show (_ ∧ True) ↔ _
              rw [and_true]
              exact tdiv_usechz_iff r tv.tv_usec
  | adjtime suser atv olddelta =>
      cases suser with
      | false => exact iff_of_true ⟨h, trivial⟩ trivial
      | true =>
          cases atv with
          | none => exact iff_of_true ⟨h, trivial⟩ trivial
          | some atv =>
              rw [apply_adjtime]
              have hin := adjust_inSecond h hlong
              have hstored := adjust_stored h hadj hsec hlong
              unfold Meets Careful
              dsimp only
              split
              next hsmall =>
                rw [hin, hstored]
                constructor
                · rintro ⟨-, hstep⟩
                  exact hstep hsmall
                · rintro ⟨hdelta, hpos⟩
                  have hzero := h.1
                  exact ⟨by omega, fun _ => ⟨hdelta, hpos⟩⟩
              next hlarge => rw [hin, and_iff_left fun hsmall => absurd hsmall hlarge]

/-! ## Runs -/

/-- The clock after it was set at boot. -/
def boot (time : Timeval) : TimeOfDay := ⟨time, 0, 0⟩

/-- An operation with arguments that the code handles. -/
def CarefulStep (r : Rate) (t : TimeOfDay) (op : ClockOp) (t' : TimeOfDay) : Prop :=
  op.Long ∧ Careful r t op ∧ t' = t.apply r op

theorem apply_adjdelta (h : t.InSecond r) (hadj : t.adjdelta = 0) (op : ClockOp) :
    (t.apply r op).adjdelta = 0 := by
  cases op with
  | hardclock =>
      show (t.hardclock r).adjdelta = 0
      rw [hardclock_eq h (by omega) (by omega), hadj]
      split <;> rfl
  | settimeofday suser tv =>
      rcases tv with _ | _ | tv
      · exact hadj
      · exact hadj
      · cases suser <;> exact hadj
  | adjtime suser atv olddelta =>
      cases suser with
      | false => exact hadj
      | true =>
          rcases atv with _ | atv
          · exact hadj
          · rw [apply_adjtime, adjust_steps]
            exact hadj

theorem apply_tv_sec (h : t.InSecond r) (hadj : t.adjdelta = 0)
    (hsec : int32 t.time.tv_sec = t.time.tv_sec) {op : ClockOp} (hlong : op.Long) :
    int32 (t.apply r op).time.tv_sec = (t.apply r op).time.tv_sec := by
  cases op with
  | hardclock =>
      show int32 (t.hardclock r).time.tv_sec = (t.hardclock r).time.tv_sec
      rw [hardclock_eq h (by omega) (by omega)]
      split
      · exact int32_int32 _
      · exact hsec
  | settimeofday suser tv =>
      rcases tv with _ | _ | tv
      · exact hsec
      · exact hsec
      · cases suser with
        | false => exact hsec
        | true => exact int32_eq hlong.1.1 hlong.1.2
  | adjtime suser atv olddelta =>
      cases suser with
      | false => exact hsec
      | true =>
          rcases atv with _ | atv
          · exact hsec
          · rw [apply_adjtime, adjust_steps]
            exact carry_tv_sec (int32_int32 _)

/-- After every run of operations that the code handles `lbolt` is within the second, `hz` ticks are a
second, and the next operation does what is asked of it just when its arguments are handled. -/
theorem clock_run (r : Rate) {time : Timeval} (htime : time.Long) {ops : List ClockOp}
    (hrun : Steps (CarefulStep r) (boot time) ops t) :
    t.InSecond r ∧
      (∀ n : Nat, (hardclock r)^[n * r.hz] t =
        { t with time := { t.time with tv_sec := int32 (t.time.tv_sec + n) } }) ∧
      ∀ op : ClockOp, op.Long → (Meets r t op (t.apply r op) ↔ Careful r t op) := by
  have htwo := r.two_le
  obtain ⟨hin, hadj, hsec⟩ := hrun.invariant
    (fun t => t.InSecond r ∧ t.adjdelta = 0 ∧ int32 t.time.tv_sec = t.time.tv_sec)
    (by
      rintro t op t' ⟨hin, hadj, hsec⟩ ⟨hlong, hcareful, rfl⟩
      exact ⟨((meets_iff hin hadj hsec hlong).mpr hcareful).1, apply_adjdelta hin hadj op,
        apply_tv_sec hin hadj hsec hlong⟩)
    ⟨⟨le_refl 0, by show (0 : Int) < r.hz; omega⟩, rfl, int32_eq htime.1.1 htime.1.2⟩
  refine ⟨hin, fun n => ?_, fun op hlong => meets_iff hin hadj hsec hlong⟩
  rw [hardclock_iterate hin hadj hsec]
  push_cast
  rw [Int.add_mul_emod_self_right, Int.emod_eq_of_lt hin.1 hin.2,
    Int.add_mul_ediv_right _ _ (by omega), Int.ediv_eq_zero_of_lt hin.1 hin.2, zero_add]

/-- The clock rate of the GBA. -/
def rate100 : Rate where
  hz := 100
  factor := by decide
  two_le := by decide

/-- A tick, and then a time of day with microseconds. -/
theorem clock_run_set :
    TimeOfDay.InSecond rate100 ⟨⟨7, 500000⟩, 50, 0⟩ ∧
      Meets rate100 ⟨⟨7, 500000⟩, 50, 0⟩ .hardclock ⟨⟨7, 500000⟩, 51, 0⟩ := by
  have hlong : (⟨7, 500000⟩ : Timeval).Long := by decide
  have hsecond : -(rate100.usechz : Int) < 500000 ∧ (500000 : Int) < 1000000 := by decide
  have hrun : Steps (CarefulStep rate100) (boot ⟨0, 0⟩)
      [.hardclock, .settimeofday true (.value ⟨7, 500000⟩)] ⟨⟨7, 500000⟩, 50, 0⟩ :=
    .cons ⟨trivial, trivial, rfl⟩ (.cons ⟨hlong, hsecond, by decide⟩ (.refl _))
  have hall := clock_run rate100 (by decide) hrun
  exact ⟨hall.1, (hall.2.2 .hardclock trivial).mpr trivial⟩

/-- A positive adjustment is made in one step, a negative one takes `lbolt` below zero, and a time of
day with five million microseconds takes it above `hz`. -/
theorem adjtime_steps :
    (boot ⟨0, 0⟩).apply rate100 (.adjtime true (some ⟨0, 10000⟩) none) = ⟨⟨0, 0⟩, 1, 0⟩ ∧
      ¬ Meets rate100 (boot ⟨0, 0⟩) (.adjtime true (some ⟨0, 10000⟩) none) ⟨⟨0, 0⟩, 1, 0⟩ ∧
      ¬ InSecond rate100 ((boot ⟨0, 0⟩).apply rate100 (.adjtime true (some ⟨0, -10000⟩) none)) ∧
      ¬ InSecond rate100 ((boot ⟨0, 0⟩).apply rate100
        (.settimeofday true (.value ⟨0, 5000000⟩))) := by
  refine ⟨?_, ?_, ?_, by decide⟩
  · rw [apply_adjtime, adjust_steps, carry_of_lt (by decide)]
    decide
  · intro hmeets
    have hlbolt := congrArg TimeOfDay.lbolt (hmeets.2 (by decide))
    exact absurd hlbolt (by decide : (1 : Int) ≠ 0)
  · rw [apply_adjtime, adjust_steps, carry_of_lt (by decide)]
    decide

end TimeOfDay

end DiscoBsd.Clock
