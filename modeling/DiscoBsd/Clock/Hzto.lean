import DiscoBsd.Clock.TimeOfDay

/-!
# The timeout of `select`

How `select1` turns its timeout into a deadline and the deadline into ticks: `itimerfix`, `timevaladd` and
`hzto`. `hzto` reads the microseconds of `time`, which no tick updates, and it rounds down. `hzto_covers`
says when its ticks reach the deadline all the same.
-/

namespace DiscoBsd.Clock

open DiscoBsd.Lib

/-- The argument of `select` or of `pselect`. -/
inductive Timeout where
  | select (tv : Timeval)
  | pselect (tv_sec tv_nsec : Int)

/-- The nanoseconds that are asked for. -/
def Timeout.nsec : Timeout → Int
  | .select tv => tv.tv_sec * 1000000000 + tv.tv_usec * 1000
  | .pselect tv_sec tv_nsec => tv_sec * 1000000000 + tv_nsec

/-- The `struct timeval` that `select1` takes it for. -/
def Timeout.timeval : Timeout → Timeval
  | .select tv => tv
  | .pselect tv_sec tv_nsec =>
      ⟨tv_sec, if tv_sec = 0 ∧ tv_nsec < 1000 then 1 else tv_nsec.tdiv 1000⟩

/-- The microseconds of a time. -/
def Timeval.micros (tv : Timeval) : Int := tv.tv_sec * 1000000 + tv.tv_usec

/-- `itimerfix`. -/
def itimerfix (r : Rate) (tv : Timeval) : Option Timeval :=
  if tv.tv_sec < 0 ∨ 100000000 < tv.tv_sec ∨ tv.tv_usec < 0 ∨ 1000000 ≤ tv.tv_usec then none
  else if tv.tv_sec = 0 ∧ tv.tv_usec ≠ 0 ∧ tv.tv_usec < (1000 / r.hz : Nat) then
    some { tv with tv_usec := (1000 / r.hz : Nat) }
  else some tv

/-- `tvfix`. -/
def tvfix (t1 : Timeval) : Timeval :=
  let t1 : Timeval :=
    if t1.tv_usec < 0 then ⟨int32 (t1.tv_sec - 1), int32 (t1.tv_usec + 1000000)⟩ else t1
  if 1000000 ≤ t1.tv_usec then ⟨int32 (t1.tv_sec + 1), int32 (t1.tv_usec - 1000000)⟩ else t1

/-- `timevaladd`. -/
def timevaladd (t1 t2 : Timeval) : Timeval :=
  tvfix ⟨int32 (t1.tv_sec + t2.tv_sec), int32 (t1.tv_usec + t2.tv_usec)⟩

/-- `hzto`. -/
def hzto (r : Rate) (tv time : Timeval) : Int :=
  let sec := int32 (tv.tv_sec - time.tv_sec)
  if sec ≤ 0x7fffffff / 1000 - 1000 then
    (int32 (int32 (int32 (tv.tv_sec - time.tv_sec) * 1000) +
      (int32 (tv.tv_usec - time.tv_usec)).tdiv 1000)).tdiv (1000 / r.hz : Nat)
  else if sec ≤ (0x7fffffff / r.hz : Nat) then int32 (sec * r.hz)
  else 0x7fffffff

/-- The ticks that `select1` sleeps. -/
def sleepTicks (r : Rate) (tv time : Timeval) : Int :=
  let timo := hzto r tv time
  if timo = 0 then 1 else timo

/-- The test of `select1` for a deadline that has passed. -/
def expired (r : Rate) (t : TimeOfDay) (atv : Timeval) : Prop :=
  atv.tv_sec < t.time.tv_sec ∨
    t.time.tv_sec = atv.tv_sec ∧ atv.tv_usec ≤ int32 (t.lbolt * r.usechz)

instance (r : Rate) (t : TimeOfDay) (atv : Timeval) : Decidable (expired r t atv) :=
  inferInstanceAs (Decidable (_ ∨ _))

/-- The microseconds to the deadline. -/
def left (r : Rate) (t : TimeOfDay) (atv : Timeval) : Int :=
  atv.micros - (t.time.tv_sec * 1000000 + t.lbolt * r.usechz)

/-- The microseconds from the deadline to the next tick. -/
def slack (r : Rate) (t : TimeOfDay) (atv : Timeval) : Int := -left r t atv % r.usechz

/-- The deadlines that a sleep does not fall short of. A deadline is at most a tick away; or the microseconds
of `time` are older than the tick, or they are not and the deadline is at a tick (or less than a millisecond
before one, and its microseconds are not above those of the clock); beyond 24 days, the microseconds
of the deadline do not matter; and a deadline beyond the largest number of ticks does not. -/
def Covers (r : Rate) (t : TimeOfDay) (atv : Timeval) : Prop :=
  left r t atv ≤ r.usechz ∨
    if atv.tv_sec - t.time.tv_sec ≤ 2146483 then
      t.time.tv_usec < t.lbolt * r.usechz ∨
        t.time.tv_usec = t.lbolt * r.usechz ∧
          (slack r t atv = 0 ∨
            slack r t atv < 1000 ∧ atv.tv_usec + slack r t atv ≤ t.lbolt * r.usechz)
    else if atv.tv_sec - t.time.tv_sec ≤ (0x7fffffff / r.hz : Nat) then
      atv.tv_usec ≤ t.lbolt * r.usechz
    else left r t atv ≤ 0x7fffffff * r.usechz

instance (r : Rate) (t : TimeOfDay) (atv : Timeval) : Decidable (Covers r t atv) :=
  inferInstanceAs (Decidable (_ ∨ ite _ _ _))

/-! ## Whole ticks -/

theorem Rate.msec_mul (r : Rate) : ((1000 / r.hz : Nat) : Int) * r.hz = 1000 := by
  exact_mod_cast Nat.div_mul_cancel r.factor

theorem Rate.msec_pos (r : Rate) : (0 : Int) < (1000 / r.hz : Nat) := by
  have hpos : 0 < 1000 / r.hz :=
    Nat.div_pos r.hz_le (by have htwo := r.two_le; omega)
  exact_mod_cast hpos

theorem Rate.usechz_eq (r : Rate) : (r.usechz : Int) = 1000 * (1000 / r.hz : Nat) := by
  have htwo := r.two_le
  have hne : (r.hz : Int) ≠ 0 := by omega
  refine mul_right_cancel₀ hne ?_
  rw [r.usechz_mul, mul_assoc, r.msec_mul]
  rfl

variable {r : Rate} {t : TimeOfDay} {atv : Timeval}

theorem slack_range (r : Rate) (t : TimeOfDay) (atv : Timeval) :
    0 ≤ slack r t atv ∧ slack r t atv < r.usechz := by
  have hpos := r.usechz_pos
  exact ⟨Int.emod_nonneg _ (by omega), Int.emod_lt_of_pos _ (by omega)⟩

theorem exists_ticks (r : Rate) (t : TimeOfDay) (atv : Timeval) :
    ∃ c, r.usechz * c = left r t atv + slack r t atv := by
  refine ⟨-(-left r t atv / r.usechz), ?_⟩
  have hsplit := Int.mul_ediv_add_emod (-left r t atv) r.usechz
  unfold slack
  linarith [mul_neg (r.usechz : Int) (-left r t atv / r.usechz)]

theorem left_le_iff {c k : Int} (hc : r.usechz * c = left r t atv + slack r t atv) :
    left r t atv ≤ r.usechz * k ↔ c ≤ k := by
  have hpos := r.usechz_pos
  obtain ⟨hzero, hlt⟩ := slack_range r t atv
  constructor
  · intro hle
    by_contra hgt
    have hnext : (r.usechz : Int) * (k + 1) ≤ r.usechz * c := by
      gcongr
      omega
    linarith
  · intro hle
    have hmono : (r.usechz : Int) * c ≤ r.usechz * k := by gcongr
    linarith

theorem le_msec_iff {z e g m y : Int} (hzero : 0 ≤ e) (hlt : e < 1000 * m)
    (hy : 1000 * y = z + e + 1000 * g) (hg : g ≤ -m ∨ g = 0 ∨ m ≤ g) :
    y ≤ z.tdiv 1000 ↔ g < 0 ∨ g = 0 ∧ (e = 0 ∨ e < 1000 ∧ z + e ≤ 0) := by
  rcases le_or_gt 0 z with hpos | hneg
  · rw [Int.tdiv_eq_ediv_of_nonneg hpos]
    omega
  · rw [tdiv_of_neg hneg]
    omega

theorem msec_range {z : Int} (hlo : -1000000 ≤ z) (hhi : z ≤ 1000000) :
    -1000 ≤ z.tdiv 1000 ∧ z.tdiv 1000 ≤ 1000 := by
  rcases le_or_gt 0 z with hpos | hneg
  · rw [Int.tdiv_eq_ediv_of_nonneg hpos]
    omega
  · rw [tdiv_of_neg hneg]
    omega

/-! ## The ticks of `hzto` -/

/-- The microseconds of `time` are those of a tick of the second. -/
def OnTick (r : Rate) (t : TimeOfDay) : Prop :=
  ∃ m : Int, 0 ≤ m ∧ m < r.hz ∧ t.time.tv_usec = m * r.usechz

theorem OnTick.range (h : OnTick r t) : 0 ≤ t.time.tv_usec ∧ t.time.tv_usec < 1000000 := by
  obtain ⟨m, hzero, hlt, husec⟩ := h
  have hpos := r.usechz_pos
  have hmul := r.usechz_mul
  rw [husec]
  constructor
  · positivity
  · have hle : m * r.usechz ≤ (r.hz - 1) * r.usechz := by
      gcongr
      omega
    linarith

theorem lbolt_micros (h : t.InSecond r) : 0 ≤ t.lbolt * r.usechz ∧ t.lbolt * r.usechz < 1000000 :=
  OnTick.range (t := { t with time := ⟨0, t.lbolt * r.usechz⟩ }) ⟨t.lbolt, h.1, h.2, rfl⟩

/-- Up to 24 days, in milliseconds. -/
theorem hzto_near (htick : OnTick r t) (hzero : 0 ≤ atv.tv_usec) (hlt : atv.tv_usec < 1000000)
    (hsec : 0 ≤ atv.tv_sec - t.time.tv_sec) (hnear : atv.tv_sec - t.time.tv_sec ≤ 2146483) :
    hzto r atv t.time =
      ((atv.tv_sec - t.time.tv_sec) * 1000 + (atv.tv_usec - t.time.tv_usec).tdiv 1000).tdiv
        (1000 / r.hz : Nat) := by
  obtain ⟨hlow, hhigh⟩ := htick.range
  have hdiff : int32 (atv.tv_sec - t.time.tv_sec) = atv.tv_sec - t.time.tv_sec :=
    int32_eq (by omega) (by omega)
  have husec : int32 (atv.tv_usec - t.time.tv_usec) = atv.tv_usec - t.time.tv_usec :=
    int32_eq (by omega) (by omega)
  have hmsec : int32 ((atv.tv_sec - t.time.tv_sec) * 1000) = (atv.tv_sec - t.time.tv_sec) * 1000 :=
    int32_eq (by omega) (by omega)
  have hquot := msec_range (z := atv.tv_usec - t.time.tv_usec) (by omega) (by omega)
  unfold hzto
  dsimp only
  rw [hdiff, if_pos (by omega), husec, hmsec, int32_eq (by omega) (by omega)]

/-- The sleep reaches the deadline for those that `Covers` describes, and for no others. -/
theorem hzto_covers (hin : t.InSecond r) (htick : OnTick r t) (hzero : 0 ≤ atv.tv_usec)
    (hlt : atv.tv_usec < 1000000) (hleft : 0 < left r t atv)
    (hfar : atv.tv_sec - t.time.tv_sec < 2 ^ 31) :
    left r t atv ≤ r.usechz * max (sleepTicks r atv t.time) 1 ↔ Covers r t atv := by
  have hpos := r.usechz_pos
  have hmsec := r.msec_pos
  obtain ⟨hlow, hhigh⟩ := lbolt_micros hin
  obtain ⟨hslack, hslack'⟩ := slack_range r t atv
  obtain ⟨c, hc⟩ := exists_ticks r t atv
  have hdef : left r t atv =
      (atv.tv_sec - t.time.tv_sec) * 1000000 + atv.tv_usec - t.lbolt * r.usechz := by
    unfold left Timeval.micros
    ring
  have hsec : 0 ≤ atv.tv_sec - t.time.tv_sec := by omega
  have hfirst : left r t atv ≤ r.usechz ↔ c ≤ 1 := by
    have hone := left_le_iff (k := 1) hc
    rwa [mul_one] at hone
  rw [left_le_iff hc]
  unfold Covers
  rw [hfirst]
  by_cases hone : c ≤ 1
  · exact iff_of_true (by omega) (Or.inl hone)
  · rw [or_iff_right hone]
    have hticks : c ≤ max (sleepTicks r atv t.time) 1 ↔ c ≤ hzto r atv t.time := by
      unfold sleepTicks
      dsimp only
      split <;> omega
    rw [hticks]
    split
    next hnear =>
      obtain ⟨m, hm, hm', husec⟩ := htick
      rw [hzto_near ⟨m, hm, hm', husec⟩ hzero hlt hsec hnear, le_tdiv_iff hmsec (by omega)]
      -- what is missing to the deadline, in milliseconds
      have hy : 1000 * (c * (1000 / r.hz : Nat) - (atv.tv_sec - t.time.tv_sec) * 1000) =
          (atv.tv_usec - t.time.tv_usec) + slack r t atv +
            1000 * ((m - t.lbolt) * (1000 / r.hz : Nat)) := by
        have hu := r.usechz_eq
        rw [husec, hu]
        rw [hdef, hu] at hc
        linarith
      have hgap : (m - t.lbolt) * (1000 / r.hz : Nat) ≤ -(1000 / r.hz : Nat) ∨
          (m - t.lbolt) * (1000 / r.hz : Nat) = 0 ∨
          ((1000 / r.hz : Nat) : Int) ≤ (m - t.lbolt) * (1000 / r.hz : Nat) := by
        rcases lt_trichotomy m t.lbolt with hold | heq | hnew
        · have hmono := mul_le_mul_of_nonneg_right (by omega : m - t.lbolt ≤ -1) hmsec.le
          exact Or.inl (by linarith)
        · rw [heq, sub_self, zero_mul]
          exact Or.inr (Or.inl rfl)
        · have hmono := mul_le_mul_of_nonneg_right (by omega : 1 ≤ m - t.lbolt) hmsec.le
          exact Or.inr (Or.inr (by linarith))
      have hms := le_msec_iff hslack (by rw [← r.usechz_eq]; exact hslack') hy hgap
      have hstale : 1000 * ((m - t.lbolt) * (1000 / r.hz : Nat)) =
          t.time.tv_usec - t.lbolt * r.usechz := by
        rw [husec, r.usechz_eq]
        ring
      omega
    next hnear =>
      have hdiff : int32 (atv.tv_sec - t.time.tv_sec) = atv.tv_sec - t.time.tv_sec :=
        int32_eq (by omega) (by omega)
      have hrange : ¬ atv.tv_sec - t.time.tv_sec ≤ 0x7fffffff / 1000 - 1000 := by omega
      unfold hzto
      dsimp only
      rw [hdiff, if_neg hrange]
      split
      next hmid =>
        have hprod : (atv.tv_sec - t.time.tv_sec) * r.hz ≤ 0x7fffffff :=
          calc (atv.tv_sec - t.time.tv_sec) * r.hz
              ≤ (0x7fffffff / r.hz : Nat) * r.hz := by gcongr
            _ ≤ 0x7fffffff := by exact_mod_cast Nat.div_mul_le_self 0x7fffffff r.hz
        have hprod' : 0 ≤ (atv.tv_sec - t.time.tv_sec) * r.hz := by positivity
        rw [int32_eq (by omega) (by omega), ← left_le_iff hc, hdef]
        have hmul := r.usechz_mul
        have hsecs : r.usechz * ((atv.tv_sec - t.time.tv_sec) * r.hz) =
            (atv.tv_sec - t.time.tv_sec) * 1000000 := by
          rw [← hmul]
          ring
        rw [hsecs]
        omega
      next hlarge => rw [← left_le_iff hc, mul_comm]

/-! ## The deadline -/

/-- What `itimerfix` lets pass, and by how much it is more than what was asked for. -/
theorem itimerfix_spec {ts : Timeout} {tv : Timeval} (h : itimerfix r ts.timeval = some tv) :
    (0 ≤ tv.tv_sec ∧ tv.tv_sec ≤ 100000000) ∧ (0 ≤ tv.tv_usec ∧ tv.tv_usec < 1000000) ∧
      ts.nsec < 1000 * (tv.micros + 1) ∧
      (1000 * tv.micros < ts.nsec + 1000 ∨ tv.micros ≤ r.usechz) := by
  have hpos := r.msec_pos
  have hu := r.usechz_eq
  have hle : ((1000 / r.hz : Nat) : Int) ≤ 500 := by
    have hhz : 1000 / r.hz ≤ 1000 / 2 := Nat.div_le_div_left r.two_le (by decide)
    omega
  -- the microseconds are those that were asked for, cut off, or at least one
  have hasked : ts.nsec < 1000 * (ts.timeval.micros + 1) ∧
      (0 ≤ ts.timeval.tv_usec → 1000 * ts.timeval.micros < ts.nsec + 1000 ∨
        ts.timeval.micros ≤ 1) := by
    unfold Timeout.timeval Timeout.nsec Timeval.micros
    cases ts with
    | select tv =>
        dsimp only
        omega
    | pselect tv_sec tv_nsec =>
        dsimp only
        split
        next htiny => omega
        next hlarge =>
          rcases le_or_gt 0 tv_nsec with hzero | hneg
          · rw [Int.tdiv_eq_ediv_of_nonneg hzero]
            omega
          · rw [tdiv_of_neg hneg]
            omega
  unfold itimerfix at h
  unfold Timeval.micros at *
  split at h
  · cases h
  · split at h
    next hsmall =>
      cases h
      dsimp only
      omega
    next hlarge =>
      cases h
      omega

/-- The sum of two times that does not overflow. -/
theorem timevaladd_spec {tv time : Timeval} (htv : 0 ≤ tv.tv_sec) (htv' : tv.tv_sec < 2 ^ 31)
    (husec : 0 ≤ tv.tv_usec) (husec' : tv.tv_usec < 1000000) (hsec : -2 ^ 31 ≤ time.tv_sec)
    (husec₂ : 0 ≤ time.tv_usec) (husec₂' : time.tv_usec < 1000000)
    (hfits : tv.micros + time.micros < 2 ^ 31 * 1000000) :
    (timevaladd tv time).micros = tv.micros + time.micros ∧
      0 ≤ (timevaladd tv time).tv_usec ∧ (timevaladd tv time).tv_usec < 1000000 := by
  unfold Timeval.micros at *
  have hsum : int32 (tv.tv_sec + time.tv_sec) = tv.tv_sec + time.tv_sec :=
    int32_eq (by omega) (by omega)
  have hsum' : int32 (tv.tv_usec + time.tv_usec) = tv.tv_usec + time.tv_usec :=
    int32_eq (by omega) (by omega)
  unfold timevaladd tvfix
  dsimp only
  have hpos : ¬ tv.tv_usec + time.tv_usec < 0 := by omega
  rw [hsum, hsum', if_neg hpos]
  dsimp only
  split
  next hcarry =>
    have hnext : int32 (tv.tv_sec + time.tv_sec + 1) = tv.tv_sec + time.tv_sec + 1 :=
      int32_eq (by omega) (by omega)
    have hrest : int32 (tv.tv_usec + time.tv_usec - 1000000) =
        tv.tv_usec + time.tv_usec - 1000000 := int32_eq (by omega) (by omega)
    dsimp only
    rw [hnext, hrest]
    omega
  next hsmall =>
    dsimp only
    omega

theorem expired_iff (hin : t.InSecond r) (hzero : 0 ≤ atv.tv_usec) (hlt : atv.tv_usec < 1000000) :
    expired r t atv ↔ left r t atv ≤ 0 := by
  obtain ⟨hlow, hhigh⟩ := lbolt_micros hin
  unfold expired left Timeval.micros
  rw [int32_eq (by omega) (by omega)]
  omega

end DiscoBsd.Clock
