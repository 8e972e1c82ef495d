import Mathlib.Tactic.IntervalCases

/-!
# Timestamps on disk

A time is kept as two packed words: a date with seven bits for the years since 1980, and a time of
day in ticks of two seconds. `from_unix_secs` takes off years and then months, `to_unix_secs` counts
the days in closed form. The two agree wherever the packed year does, and nowhere else
(`fileTime_round_trip`). A year before 1980 wraps around in it (`fileTime_wraps`).
-/

namespace Edos

structure DateTime where
  year : ℤ
  month : ℕ
  day : ℕ
  hour : ℕ
  min : ℕ
  sec : ℕ
  tenth : ℕ

structure FileTime where
  date : ℕ
  time : ℕ
  tenth : ℕ

def isLeapYear (year : ℤ) : Bool := year % 4 = 0 ∧ year % 100 ≠ 0 ∨ year % 400 = 0

/-- Days from 1970-01-01 to the given civil date, of a year after 0. -/
def daysSinceEpoch (year month day : ℤ) : ℤ :=
  let y := if month ≤ 2 then year - 1 else year
  let m := if month ≤ 2 then month + 12 else month
  365 * y + y / 4 - y / 100 + y / 400 + (153 * (m - 3) + 2) / 5 + day - 719469

def DateTime.toFileTime (d : DateTime) : FileTime where
  -- the cast to `u16` wraps
  date := (((d.year - 1980) % 2 ^ 16).toNat &&& 0x7F) <<< 9 ||| (d.month &&& 0x0F) <<< 5 |||
    d.day &&& 0x1F
  time := (d.hour &&& 0x1F) <<< 11 ||| (d.min &&& 0x3F) <<< 5 ||| d.sec / 2 &&& 0x1F
  tenth := d.tenth

def DateTime.toUnixSecs (d : DateTime) : ℕ :=
  let days := daysSinceEpoch d.year d.month d.day
  if days < 0 then 0 else days.toNat * 86400 + d.hour * 3600 + d.min * 60 + d.sec

def FileTime.toDatetime (t : FileTime) : Option DateTime :=
  if t.date = 0 then none
  else some
    { year := (1980 : ℤ) + (t.date >>> 9 : ℕ)
      month := t.date >>> 5 &&& 0x0F
      day := t.date &&& 0x1F
      hour := t.time >>> 11 &&& 0x1F
      min := t.time >>> 5 &&& 0x3F
      sec := (t.time &&& 0x1F) * 2
      tenth := t.tenth }

def daysInYear (year : ℤ) : ℕ := if isLeapYear year then 366 else 365

def months (year : ℤ) : List ℕ :=
  if isLeapYear year then [31, 29, 31, 30, 31, 30, 31, 31, 30, 31, 30, 31]
  else [31, 28, 31, 30, 31, 30, 31, 31, 30, 31, 30, 31]

theorem daysInYear_cases (year : ℤ) :
    daysInYear year = 366 ∧ (year % 4 = 0 ∧ year % 100 ≠ 0 ∨ year % 400 = 0) ∨
      daysInYear year = 365 ∧ ¬(year % 4 = 0 ∧ year % 100 ≠ 0 ∨ year % 400 = 0) := by
  rw [daysInYear, isLeapYear]
  split_ifs with h
  · exact .inl ⟨rfl, of_decide_eq_true h⟩
  · exact .inr ⟨rfl, mt decide_eq_true h⟩

/-- The first loop of `from_unix_secs`. -/
def yearLoop (year : ℤ) (days : ℕ) : ℤ × ℕ :=
  if days < daysInYear year then (year, days) else yearLoop (year + 1) (days - daysInYear year)
termination_by days
decreasing_by
  have hcases := daysInYear_cases year
  omega

/-- The second loop of `from_unix_secs`. -/
def monthLoop : List ℕ → ℕ → ℕ → ℕ × ℕ
  | [], month, days => (month, days)
  | m :: ms, month, days => if days < m then (month, days) else monthLoop ms (month + 1) (days - m)

/-- The date that `from_unix_secs` encodes. -/
def DateTime.ofUnixSecs (secs : ℕ) : DateTime :=
  let totalHours := secs / 60 / 60
  let (year, days) := yearLoop 1970 (totalHours / 24 % 2 ^ 32)
  let (month, days) := monthLoop (months year) 1 days
  ⟨year, month, days + 1, totalHours % 24, secs / 60 % 60, secs % 60, 0⟩

def FileTime.fromUnixSecs (secs : ℕ) : FileTime := (DateTime.ofUnixSecs secs).toFileTime

/-! ## Dates -/

theorem daysSinceEpoch_first (year : ℤ) : daysSinceEpoch year 1 1
    = 365 * (year - 1) + (year - 1) / 4 - (year - 1) / 100 + (year - 1) / 400 - 719162 := by
  simp only [daysSinceEpoch, if_pos (by decide : (1 : ℤ) ≤ 2)]
  omega

/-- **The years**: what is left is a day of the year the loop ends at. -/
theorem yearLoop_spec (year : ℤ) (days : ℕ) :
    ∃ y r, yearLoop year days = (y, r) ∧ year ≤ y ∧ r < daysInYear y ∧
      daysSinceEpoch y 1 1 + r = daysSinceEpoch year 1 1 + days := by
  fun_induction yearLoop year days with
  | case1 year days hlt => exact ⟨year, days, rfl, Int.le_refl year, hlt, rfl⟩
  | case2 year days hge ih =>
    obtain ⟨y, r, heq, hle, hlt, hsum⟩ := ih
    refine ⟨y, r, heq, by omega, hlt, hsum.trans ?_⟩
    have hcases := daysInYear_cases year
    rw [daysSinceEpoch_first, daysSinceEpoch_first]
    omega

/-- **The months**: what is left is a day of the month the loop ends at. -/
theorem monthLoop_spec {year : ℤ} {days : ℕ} (hdays : days < daysInYear year) :
    ∃ month day, monthLoop (months year) 1 days = (month, day) ∧ month < 2 ^ 4 ∧ day < 31 ∧
      daysSinceEpoch year month (day + 1 : ℕ) = daysSinceEpoch year 1 1 + days := by
  have htable : ∀ d < daysInYear year, let r := monthLoop (months year) 1 d
      1 ≤ r.1 ∧ r.1 < 2 ^ 4 ∧ r.2 < 31 ∧ d = r.2 + if r.1 ≤ 2 then 31 * (r.1 - 1)
        else (153 * (r.1 - 3) + 2) / 5 + daysInYear year - 306 := by
    rw [months, daysInYear]
    cases isLeapYear year <;> decide +kernel
  obtain ⟨hone, hmonth, hday, heq⟩ := htable days hdays
  refine ⟨_, _, rfl, hmonth, hday, ?_⟩
  have hcases := daysInYear_cases year
  generalize monthLoop (months year) 1 days = r at *
  rw [daysSinceEpoch_first, daysSinceEpoch]
  split_ifs at heq ⊢ <;> omega

/-! ## Packed words -/

/-- The fields of a packed word, of which the last has five bits. -/
theorem unpack_fields (w a b c : ℕ) {n : ℕ}
    (hn : n = a <<< (w + 5) ||| (b % 2 ^ w) <<< 5 ||| c % 2 ^ 5) :
    n / 2 ^ (w + 5) = a ∧ n / 2 ^ 5 % 2 ^ w = b % 2 ^ w ∧ n % 2 ^ 5 = c % 2 ^ 5 := by
  have hb : b % 2 ^ w < 2 ^ w := Nat.mod_lt b (Nat.two_pow_pos w)
  have hc : c % 2 ^ 5 < 2 ^ 5 := Nat.mod_lt c (by decide)
  rw [Nat.shiftLeft_add, ← Nat.shiftLeft_or_distrib, ← Nat.shiftLeft_add_eq_or_of_lt hc,
    ← Nat.shiftLeft_add_eq_or_of_lt hb, Nat.shiftLeft_eq, Nat.shiftLeft_eq] at hn
  have hhigh : n / 2 ^ 5 = a * 2 ^ w + b % 2 ^ w := by omega
  refine ⟨?_, ?_, by omega⟩
  · rw [add_comm w, pow_add, ← Nat.div_div_eq_div_mul, hhigh, mul_comm,
      Nat.mul_add_div (Nat.two_pow_pos w), Nat.div_eq_of_lt hb, add_zero]
  · rw [hhigh, Nat.mul_add_mod', Nat.mod_mod]

/-- **Packed and unpacked**, a date loses an odd second, and its year comes to be one of the 128
years from 1980 on. -/
theorem toDatetime_toFileTime {d : DateTime} (hmonth : d.month < 2 ^ 4) (hpos : 0 < d.day)
    (hday : d.day < 2 ^ 5) (hhour : d.hour < 2 ^ 5) (hmin : d.min < 2 ^ 6) (hsec : d.sec < 2 ^ 6) :
    d.toFileTime.toDatetime =
      some { d with year := 1980 + (d.year - 1980) % 128, sec := d.sec / 2 * 2 } := by
  have h4 (n : ℕ) : n &&& 0x0F = n % 2 ^ 4 := Nat.and_two_pow_sub_one_eq_mod n 4
  have h5 (n : ℕ) : n &&& 0x1F = n % 2 ^ 5 := Nat.and_two_pow_sub_one_eq_mod n 5
  have h6 (n : ℕ) : n &&& 0x3F = n % 2 ^ 6 := Nat.and_two_pow_sub_one_eq_mod n 6
  have h7 (n : ℕ) : n &&& 0x7F = n % 2 ^ 7 := Nat.and_two_pow_sub_one_eq_mod n 7
  simp only [DateTime.toFileTime, FileTime.toDatetime, h4, h5, h6, h7, Nat.shiftRight_eq_div_pow]
  obtain ⟨hyear', hmonth', hday'⟩ := unpack_fields 4 _ d.month d.day rfl
  obtain ⟨hhour', hmin', hsec'⟩ := unpack_fields 6 _ d.min (d.sec / 2) rfl
  have hyear : (1980 : ℤ) + (((d.year - 1980) % 2 ^ 16).toNat % 2 ^ 7 : ℕ) =
      1980 + (d.year - 1980) % 128 := by omega
  rw [if_neg, hyear', hmonth', hday', hhour', hmin', hsec', hyear, Nat.mod_eq_of_lt hmonth,
    Nat.mod_eq_of_lt hday, Nat.mod_mod, Nat.mod_eq_of_lt hhour, Nat.mod_eq_of_lt hmin,
    Nat.mod_eq_of_lt (by omega : d.sec / 2 < 2 ^ 5)]
  intro hzero
  rw [hzero] at hday'
  omega

/-- What comes back from the disk. -/
theorem toDatetime_fromUnixSecs (s : ℕ) :
    ∃ (year : ℤ) (month day : ℕ), 1970 ≤ year ∧
      daysSinceEpoch year 1 1 ≤ (s / 86400 % 2 ^ 32 : ℕ) ∧
      (s / 86400 % 2 ^ 32 : ℕ) < daysSinceEpoch year 1 1 + daysInYear year ∧
      daysSinceEpoch year month (day + 1 : ℕ) = (s / 86400 % 2 ^ 32 : ℕ) ∧
      (FileTime.fromUnixSecs s).toDatetime = some ⟨1980 + (year - 1980) % 128, month, day + 1,
        s / 60 / 60 % 24, s / 60 % 60, s % 60 / 2 * 2, 0⟩ := by
  have hsecs : s / 60 / 60 / 24 = s / 86400 := by omega
  obtain ⟨year, days, hyear, hle, hdays, hsum⟩ := yearLoop_spec 1970 (s / 60 / 60 / 24 % 2 ^ 32)
  obtain ⟨month, day, hmonths, hmonth, hday, hdate⟩ := monthLoop_spec hdays
  have hepoch : daysSinceEpoch 1970 1 1 = 0 := by decide
  rw [hepoch, hsecs, zero_add] at hsum
  refine ⟨year, month, day, hle, by omega, by omega, hdate.trans hsum, ?_⟩
  rw [FileTime.fromUnixSecs, DateTime.ofUnixSecs, hyear]
  simp only [hmonths]
  refine toDatetime_toFileTime hmonth (Nat.succ_pos day) (Nat.succ_lt_succ hday) ?_ ?_ ?_
  · exact (Nat.mod_lt _ (by decide)).trans (by decide)
  · exact (Nat.mod_lt _ (by decide)).trans (by decide)
  · exact (Nat.mod_lt _ (by decide)).trans (by decide)

/-- **Timestamps survive the disk** to the even second, from 1980 to 2107, and what is before 1980
does not come back as the first instant of that year. -/
theorem fileTime_round_trip {s : ℕ} (huntil : s < 4354819200) :
    (∃ d, (FileTime.fromUnixSecs s).toDatetime = some d ∧
      d.toUnixSecs = if 315532800 ≤ s then s - s % 2 else 315532800) ↔ 315532800 ≤ s := by
  obtain ⟨year, month, day, hle, hfirst, hlast, hdate, heq⟩ := toDatetime_fromUnixSecs s
  have hcases := daysInYear_cases year
  have hdays : s / 86400 % 2 ^ 32 = s / 86400 := by omega
  rw [hdays] at hfirst hlast hdate
  constructor
  · rintro ⟨d, hd, hsecs⟩
    by_contra hbefore
    rw [if_neg hbefore] at hsecs
    rw [daysSinceEpoch_first] at hfirst
    have hyear : 1980 + (year - 1980) % 128 = year + 128 := by omega
    rw [heq, hyear] at hd
    obtain rfl := Option.some.inj hd
    -- the date is of 2098 or later
    have hlate : 40000 ≤ daysSinceEpoch (year + 128) month (day + 1 : ℕ) := by
      rw [daysSinceEpoch]
      split_ifs <;> omega
    rw [DateTime.toUnixSecs] at hsecs
    dsimp only at hsecs
    rw [if_neg (by omega)] at hsecs
    omega
  · intro hfrom
    have hyear : 1980 + (year - 1980) % 128 = year := by
      rw [daysSinceEpoch_first] at hfirst hlast
      have hrange : 1980 ≤ year ∧ year < 2108 := by
        refine ⟨?_, by omega⟩
        by_contra! hlt
        clear hdate heq
        interval_cases year <;> omega
      omega
    rw [hyear] at heq
    refine ⟨_, heq, ?_⟩
    rw [DateTime.toUnixSecs, if_pos hfrom]
    dsimp only
    rw [hdate, if_neg (by omega)]
    omega

theorem fileTime_round_trip_2001 :
    ∃ d, (FileTime.fromUnixSecs 1000000001).toDatetime = some d ∧ d.toUnixSecs = 1000000000 :=
  (fileTime_round_trip (by decide)).mpr (by decide)

/-- The first instant of 1970 comes back as one of 2098. -/
theorem fileTime_wraps : ∃ d, (FileTime.fromUnixSecs 0).toDatetime = some d ∧ d.year = 2098 := by
  have hyear : yearLoop 1970 (0 / 60 / 60 / 24 % 2 ^ 32) = (1970, 0) := by
    rw [yearLoop, if_pos (by decide)]
    rfl
  rw [FileTime.fromUnixSecs, DateTime.ofUnixSecs, hyear]
  exact ⟨_, rfl, rfl⟩

end Edos
