import Mathlib.Data.List.Range
import Mathlib.Data.Nat.Basic
import Mathlib.Tactic.IntervalCases

/-!
# The calendar of the real-time clock

`secs_to_ymdhms` takes the lengths of years and months off a number of days, and `ymdhms_to_secs` adds
them up again. `weekday` is the rule of the Gregorian calendar, which the code does not use: it
counts days from a Thursday.
-/

namespace DiscoBsd.Rtc

/-- The fields of a time. -/
structure Fields where
  year : Nat
  mon : Nat
  day : Nat
  hour : Nat
  min : Nat
  sec : Nat
  wday : Nat
  deriving DecidableEq

def is_leap (y : Nat) : Bool := (y % 4 == 0 && y % 100 != 0) || y % 400 == 0

def mdays : List Nat := [31, 28, 31, 30, 31, 30, 31, 31, 30, 31, 30, 31]

def yearLength (y : Nat) : Nat := if is_leap y then 366 else 365

/-- The day that February has more in a leap year. -/
def leapDay (y m : Nat) : Nat := if m == 2 && is_leap y then 1 else 0

/-- The days of the years from 1970 to a year. -/
def daysToYear (year : Nat) : Nat :=
  (List.range' 1970 (year - 1970)).foldl (fun days i => days + yearLength i) 0

/-- The days of the months of a year before a month. -/
def daysToMonth (year mon : Nat) : Nat :=
  (List.range' 1 (mon - 1)).foldl (fun days i => days + mdays.getD (i - 1) 0 + leapDay year i) 0

/-- `ymdhms_to_secs`. -/
def ymdhms_to_secs (year mon day hour min sec : Nat) : Int :=
  let days : Int := daysToYear year + daysToMonth year mon + (day - 1)
  days * 86400 + hour * 3600 + min * 60 + sec

theorem yearLength_pos (y : Nat) : 0 < yearLength y := by
  unfold yearLength
  split <;> decide

/-- The loop over the years, with the days that are left. -/
def findYear (y days : Nat) : Nat × Nat :=
  if days < yearLength y then (y, days) else findYear (y + 1) (days - yearLength y)
termination_by days
decreasing_by
  have hpos := yearLength_pos y
  omega

/-- The loop over the months, on the rest of their lengths. Behind these it would read past the
table. -/
def findMonth (y : Nat) : Nat → Nat → List Nat → Option (Nat × Nat)
  | _, _, [] => none
  | m, days, mday :: rest =>
      let dim := mday + leapDay y m
      if days < dim then some (m, days) else findMonth y (m + 1) (days - dim) rest

/-- `secs_to_ymdhms`. -/
def secs_to_ymdhms (secs : Nat) : Option Fields :=
  let days := secs / 86400
  let rem := secs % 86400
  let (year, days') := findYear 1970 days
  (findMonth year 1 days' mdays).map fun (mon, days'') =>
    { year := year, mon := mon, day := days'' + 1, hour := rem / 3600, min := rem % 3600 / 60,
      sec := rem % 60, wday := (days + 4) % 7 }

/-! ## The rules of the calendar -/

/-- The days of a month. -/
def daysIn (y m : Nat) : Nat :=
  if m = 2 then (if is_leap y then 29 else 28)
  else if m = 4 ∨ m = 6 ∨ m = 9 ∨ m = 11 then 30 else 31

/-- The leap years up to a year. -/
def leaps (y : Nat) : Nat := y / 4 - y / 100 + y / 400

/-- The weekday of a date, where Sunday is 0: a year moves it by one day and a leap day by another,
in years that begin in March, and each month has its shift. -/
def weekday (y m d : Nat) : Nat :=
  let y := if m < 3 then y - 1 else y
  (y + leaps y + [0, 3, 2, 5, 0, 3, 5, 1, 4, 6, 2, 4].getD (m - 1) 0 + d) % 7

/-- A time of a day that there is. -/
structure Fields.Valid (f : Fields) : Prop where
  mon : 1 ≤ f.mon ∧ f.mon ≤ 12
  day : 1 ≤ f.day ∧ f.day ≤ daysIn f.year f.mon
  hour : f.hour < 24
  min : f.min < 60
  sec : f.sec < 60

theorem is_leap_iff (y : Nat) : is_leap y = true ↔ (y % 4 = 0 ∧ y % 100 ≠ 0) ∨ y % 400 = 0 := by
  unfold is_leap
  rw [Bool.or_eq_true, Bool.and_eq_true, beq_iff_eq, bne_iff_ne, beq_iff_eq]

/-! ## Years -/

theorem daysToYear_succ {y : Nat} (hy : 1970 ≤ y) :
    daysToYear (y + 1) = daysToYear y + yearLength y := by
  unfold daysToYear
  obtain ⟨n, rfl⟩ := Nat.exists_eq_add_of_le hy
  rw [Nat.add_assoc, Nat.add_sub_cancel_left, Nat.add_sub_cancel_left, List.range'_concat,
    List.foldl_append, Nat.one_mul]
  rfl

theorem leaps_succ (y : Nat) : leaps (y + 1) = leaps y + if is_leap (y + 1) then 1 else 0 := by
  have hleap := is_leap_iff (y + 1)
  unfold leaps
  split
  · next h =>
      have hdiv := hleap.mp h
      clear h hleap
      omega
  · next h =>
      have hdiv : ¬ (((y + 1) % 4 = 0 ∧ (y + 1) % 100 ≠ 0) ∨ (y + 1) % 400 = 0) :=
        fun hdiv => h (hleap.mpr hdiv)
      clear h hleap
      omega

/-- The days before a year by the rule of the leap years. -/
theorem daysToYear_eq {y : Nat} (hy : 1970 ≤ y) :
    daysToYear y + 719527 = 365 * y + leaps (y - 1) := by
  induction y, hy using Nat.le_induction with
  | base => decide
  | succ y hy ih =>
      obtain ⟨n, rfl⟩ := Nat.exists_eq_add_of_le' (show 1 ≤ y by omega)
      rw [daysToYear_succ hy, Nat.add_sub_cancel, leaps_succ]
      rw [Nat.add_sub_cancel] at ih
      unfold yearLength
      split <;> omega

/-- The loop over the years stops within a year, and its days add up. -/
theorem findYear_spec {y : Nat} (hy : 1970 ≤ y) (days : Nat) :
    1970 ≤ (findYear y days).1 ∧ (findYear y days).2 < yearLength (findYear y days).1 ∧
      daysToYear (findYear y days).1 + (findYear y days).2 = daysToYear y + days := by
  fun_induction findYear y days with
  | case1 y days hin => exact ⟨hy, hin, rfl⟩
  | case2 y days hout ih =>
      obtain ⟨hlow, hin, hsum⟩ := ih (by omega)
      refine ⟨hlow, hin, ?_⟩
      rw [hsum, daysToYear_succ hy]
      omega

/-! ## Months -/

theorem daysToMonth_succ {y m : Nat} (hm : 1 ≤ m) :
    daysToMonth y (m + 1) = daysToMonth y m + mdays.getD (m - 1) 0 + leapDay y m := by
  unfold daysToMonth
  obtain ⟨n, rfl⟩ := Nat.exists_eq_add_of_le' hm
  rw [Nat.add_sub_cancel, Nat.add_sub_cancel, List.range'_concat, List.foldl_append, Nat.one_mul,
    Nat.add_comm 1 n]
  rfl

theorem daysToMonth_year (y : Nat) : daysToMonth y 13 = yearLength y := by
  unfold daysToMonth yearLength leapDay
  cases is_leap y with
  | false => rfl
  | true => rfl

theorem daysIn_eq {y m : Nat} (hm : 1 ≤ m) (hm' : m ≤ 12) :
    daysIn y m = mdays.getD (m - 1) 0 + leapDay y m := by
  unfold daysIn leapDay
  cases is_leap y with
  | false => interval_cases m <;> rfl
  | true => interval_cases m <;> rfl

/-- The loop over the months stops within a month of the table, and its days add up. -/
theorem findMonth_spec {y : Nat} {rest : List Nat} {m days : Nat} (hm : 1 ≤ m) (hm' : m ≤ 13)
    (hrest : rest = mdays.drop (m - 1)) (hdays : daysToMonth y m + days < yearLength y) :
    ∃ m' days', findMonth y m days rest = some (m', days') ∧ 1 ≤ m' ∧ m' ≤ 12 ∧
      days' < daysIn y m' ∧ daysToMonth y m' + days' = daysToMonth y m + days := by
  induction rest generalizing m days with
  | nil =>
      have hend : 12 ≤ m - 1 := List.drop_eq_nil_iff.mp hrest.symm
      obtain rfl : m = 13 := by omega
      rw [daysToMonth_year] at hdays
      omega
  | cons mday rest ih =>
      have hlt : m - 1 < mdays.length := by
        by_contra hge
        rw [List.drop_eq_nil_of_le (Nat.le_of_not_lt hge)] at hrest
        cases hrest
      have hmonth : m ≤ 12 := by
        have hlen : mdays.length = 12 := rfl
        omega
      rw [List.drop_eq_getElem_cons hlt] at hrest
      injection hrest with hmday hrest
      have hdim : daysIn y m = mday + leapDay y m := by
        rw [daysIn_eq hm hmonth, hmday, List.getD_eq_getElem?_getD, List.getElem?_eq_getElem hlt, Option.getD_some]
      rw [findMonth, ← hdim]
      by_cases hin : days < daysIn y m
      · rw [if_pos hin]
        exact ⟨m, days, rfl, hm, hmonth, hin, rfl⟩
      · have hnext : daysToMonth y (m + 1) = daysToMonth y m + daysIn y m := by
          rw [daysToMonth_succ hm, daysIn_eq hm hmonth, Nat.add_assoc]
        have hdrop : rest = mdays.drop (m + 1 - 1) := by
          rw [hrest]
          congr 1
          omega
        rw [if_neg hin]
        obtain ⟨m', days', hfound, hlow, hhigh, hin', hsum⟩ :=
          ih (by omega) (by omega) hdrop (show daysToMonth y (m + 1) + (days - daysIn y m) < _ by omega)
        exact ⟨m', days', hfound, hlow, hhigh, hin', by omega⟩

/-! ## Weekdays -/

/-- The days since 1970 give the weekday, since that began with a Thursday. -/
theorem weekday_eq {y m d : Nat} (hy : 1970 ≤ y) (hm : 1 ≤ m) (hm' : m ≤ 12) :
    (daysToYear y + daysToMonth y m + d + 4) % 7 = weekday y m (d + 1) := by
  have hdays := daysToYear_eq hy
  have hmonth : daysToMonth y m = [0, 31, 59, 90, 120, 151, 181, 212, 243, 273, 304, 334].getD (m - 1) 0 +
      if 3 ≤ m ∧ is_leap y = true then 1 else 0 := by
    unfold daysToMonth leapDay
    cases is_leap y with
    | false => interval_cases m <;> rfl
    | true => interval_cases m <;> rfl
  obtain ⟨n, rfl⟩ := Nat.exists_eq_add_of_le' (show 1 ≤ y by omega)
  have hleaps := leaps_succ n
  rw [Nat.add_sub_cancel] at hdays
  rw [hmonth]
  unfold weekday
  rw [Nat.add_sub_cancel]
  -- before March the leap day of the year is still to come
  generalize is_leap (n + 1) = leap at hleaps ⊢
  cases leap with
  | false => interval_cases m <;> simp at hleaps ⊢ <;> omega
  | true => interval_cases m <;> simp at hleaps ⊢ <;> omega

/-! ## Both ways -/

theorem ymdhms_sums {year mon day : Nat} (hour min sec : Nat) (hday : 1 ≤ day) :
    let days : Int := daysToYear year + daysToMonth year mon + (day - 1)
    0 ≤ days * 86400 ∧ days * 86400 ≤ days * 86400 + hour * 3600 ∧
      days * 86400 + hour * 3600 ≤ days * 86400 + hour * 3600 + min * 60 ∧
      days * 86400 + hour * 3600 + min * 60 ≤ ymdhms_to_secs year mon day hour min sec := by
  unfold ymdhms_to_secs
  dsimp only
  omega

/-- The fields of a number of seconds are a date with its weekday, and stand for as many seconds. -/
theorem secs_to_ymdhms_spec (secs : Nat) : ∃ f, secs_to_ymdhms secs = some f ∧
    ymdhms_to_secs f.year f.mon f.day f.hour f.min f.sec = secs ∧ f.Valid ∧
      f.wday = weekday f.year f.mon f.day := by
  obtain ⟨hyear, hin, hsum⟩ := findYear_spec (Nat.le_refl 1970) (secs / 86400)
  have hzero : daysToYear 1970 = 0 := rfl
  have hfirst : ∀ y, daysToMonth y 1 = 0 := fun _ => rfl
  obtain ⟨m, days, hfound, hlow, hhigh, hday, hmonths⟩ := findMonth_spec (Nat.le_refl 1) (by decide)
    (show mdays = mdays.drop (1 - 1) from rfl) (show daysToMonth (findYear 1970 (secs / 86400)).1 1 +
      (findYear 1970 (secs / 86400)).2 < _ by rw [hfirst, Nat.zero_add]; exact hin)
  rw [hfirst, Nat.zero_add] at hmonths
  have hdays : daysToYear (findYear 1970 (secs / 86400)).1 +
      daysToMonth (findYear 1970 (secs / 86400)).1 m + days = secs / 86400 := by omega
  refine ⟨_, congrArg (Option.map _) hfound, ?_, ⟨⟨hlow, hhigh⟩, ⟨Nat.le_add_left 1 days, hday⟩, ?_, ?_, ?_⟩, ?_⟩
  · show ((daysToYear _ : Nat) + (daysToMonth _ m : Nat) + (((days + 1 : Nat) : Int) - 1)) * 86400 + _ + _ +
      _ = _
    push_cast
    omega
  · show secs % 86400 / 3600 < 24
    omega
  · show secs % 86400 % 3600 / 60 < 60
    omega
  · show secs % 86400 % 60 < 60
    omega
  · rw [← weekday_eq hyear hlow hhigh, hdays]

/-! ## The real-time clock

The block of BCD bytes that the chip keeps, and the two functions that write and read a time in it.
The transfer of the bytes to the chip is left out.
-/

section

/-- The datetime block. -/
structure Block where
  year : UInt8
  month : UInt8
  day : UInt8
  wkd : UInt8
  hour : UInt8
  min : UInt8
  sec : UInt8
  deriving DecidableEq

def UNBCD (x : UInt8) : Nat := (x.toNat &&& 0xF) + (x.toNat >>> 4) * 10

def BCD (x : Nat) : UInt8 := UInt8.ofNat (((x / 10) <<< 4) ||| (x % 10))

/-- `rtc_gettime`: the time of a block, unless that is not plausible. -/
def rtc_gettime (d : Block) : Option Int :=
  let year := 2000 + UNBCD d.year
  let mon := UNBCD d.month
  let day := UNBCD d.day
  let hour := UNBCD (d.hour &&& 0x3F)
  let min := UNBCD d.min
  let sec := UNBCD (d.sec &&& 0x7F)
  if mon < 1 ∨ mon > 12 ∨ day < 1 ∨ day > 31 ∨ hour > 23 ∨ min > 59 ∨ sec > 59 then none
  else some (ymdhms_to_secs year mon day hour min sec)

/-- The block of a time. -/
def Fields.block (f : Fields) : Block where
  year := BCD (f.year - 2000)
  month := BCD f.mon
  day := BCD f.day
  wkd := BCD f.wday
  hour := BCD f.hour
  min := BCD f.min
  sec := BCD f.sec

/-- `rtc_settime`: the block that is written, for a time in the range of the chip. -/
def rtc_settime (secs : Int) : Option Block :=
  if secs < 0 then none
  else (secs_to_ymdhms secs.toNat).bind fun f =>
    if f.year < 2000 ∨ f.year > 2099 then none else some f.block

/-! ## Two digits -/

theorem unbcd_bcd {n : Nat} (hn : n < 100) : UNBCD (BCD n) = n := by
  have hall : ∀ n < 100, UNBCD (BCD n) = n := by decide
  exact hall n hn

theorem unbcd_hour {n : Nat} (hn : n < 24) : UNBCD (BCD n &&& 0x3F) = n := by
  have hall : ∀ n < 24, UNBCD (BCD n &&& 0x3F) = n := by decide
  exact hall n hn

theorem unbcd_sec {n : Nat} (hn : n < 60) : UNBCD (BCD n &&& 0x7F) = n := by
  have hall : ∀ n < 60, UNBCD (BCD n &&& 0x7F) = n := by decide
  exact hall n hn

theorem daysIn_le (y m : Nat) : daysIn y m ≤ 31 := by
  unfold daysIn
  split
  · split <;> decide
  · split <;> decide

/-! ## Both ways -/

/-- A valid time of the years of the chip is read back. -/
theorem gettime_of_valid {f : Fields} (hvalid : f.Valid) (hyear : 2000 ≤ f.year ∧ f.year ≤ 2099) :
    rtc_gettime f.block = some (ymdhms_to_secs f.year f.mon f.day f.hour f.min f.sec) := by
  obtain ⟨⟨hmon, hmon'⟩, ⟨hday, hday'⟩, hhour, hmin, hsec⟩ := hvalid
  have hmonth := daysIn_le f.year f.mon
  have hcentury : 2000 + (f.year - 2000) = f.year := by omega
  unfold rtc_gettime Fields.block
  dsimp only
  rw [unbcd_bcd (show f.year - 2000 < 100 by omega), unbcd_bcd (show f.mon < 100 by omega),
    unbcd_bcd (show f.day < 100 by omega), unbcd_bcd (show f.min < 100 by omega), unbcd_hour hhour,
    unbcd_sec hsec, hcentury, if_neg (by omega)]

/-- Every number of seconds is that of its fields, which are a date with the right weekday, and a time
that was written to the chip is read from it again. -/
theorem calendar_round_trip :
    (∀ secs : Nat, ∃ f, secs_to_ymdhms secs = some f ∧
      ymdhms_to_secs f.year f.mon f.day f.hour f.min f.sec = secs ∧ f.Valid ∧
        f.wday = weekday f.year f.mon f.day) ∧
      ∀ (secs : Int) (d : Block), rtc_settime secs = some d → rtc_gettime d = some secs := by
  refine ⟨secs_to_ymdhms_spec, fun secs d hset => ?_⟩
  unfold rtc_settime at hset
  split at hset
  · cases hset
  · next hpos =>
      obtain ⟨f, hfields, hback, hvalid, -⟩ := secs_to_ymdhms_spec secs.toNat
      rw [hfields, Option.bind_some] at hset
      split at hset
      · cases hset
      · next hyear =>
          obtain rfl := Option.some.inj hset
          rw [gettime_of_valid hvalid (by omega), hback, Int.toNat_of_nonneg (by omega)]

/-- The last second of the leap day of 2024. -/
theorem calendar_round_trip_leap :
    rtc_gettime ⟨0x24, 0x02, 0x29, 0x04, 0x23, 0x59, 0x59⟩ = some 1709251199 :=
  calendar_round_trip.2 1709251199 _ (by decide +kernel)

end

end DiscoBsd.Rtc
