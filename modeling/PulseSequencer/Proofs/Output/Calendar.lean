import Mathlib
import PulseSequencer.Output.Calendar

/-!
# The closed form of a date is the Gregorian calendar

A year is taken to begin in March. Its months then start at days that a linear formula gives, and the day of a leap
year comes last, so that the place of a day is its year, its month and its day in that month. The next day has the
next place, and the closed form gives the date of every place. So it runs through the calendar day by day.
-/

namespace PulseSequencer

namespace Date

/-! ## The calendar -/

/-- Every fourth year is a leap year, except for the centuries that four hundred does not divide. -/
def IsLeap (year : Nat) : Prop := 4 ∣ year ∧ (100 ∣ year → 400 ∣ year)

instance (year : Nat) : Decidable (IsLeap year) :=
  inferInstanceAs (Decidable (4 ∣ year ∧ (100 ∣ year → 400 ∣ year)))

def monthDays (year : Nat) : Nat → Nat
  | 2 => if IsLeap year then 29 else 28
  | 4 | 6 | 9 | 11 => 30
  | _ => 31

structure Valid (d : Date) : Prop where
  month : 1 ≤ d.month ∧ d.month ≤ 12
  day : 1 ≤ d.day ∧ d.day ≤ monthDays d.year d.month

def next (d : Date) : Date :=
  if d.day < monthDays d.year d.month then { d with day := d.day + 1 }
  else if d.month < 12 then { d with month := d.month + 1, day := 1 }
  else { year := d.year + 1, month := 1, day := 1 }

/-! ## Years that begin in March -/

def yearStart (y : Nat) : Nat := 365 * y + y / 4 - y / 100 + y / 400

def monthStart (m : Nat) : Nat := (153 * m + 2) / 5

/-- The date of a day of such a year, days and months being counted from zero. January and February belong to the
year after the one in which it began. -/
def ofMarch (y m i : Nat) : Date where
  year := if m < 10 then y else y + 1
  month := if m < 10 then m + 3 else m - 9
  day := i + 1

def marchDays (y m : Nat) : Nat := monthDays (ofMarch y m 0).year (ofMarch y m 0).month

theorem yearStart_succ (y : Nat) : yearStart (y + 1) = yearStart y + if IsLeap (y + 1) then 366 else 365 := by
  have hless : y / 100 ≤ y / 4 := Nat.div_le_div_left (by decide) (by decide)
  rw [yearStart, yearStart, Nat.succ_div, Nat.succ_div, Nat.succ_div]
  by_cases hera : 400 ∣ y + 1
  · have hcentury : 100 ∣ y + 1 := Nat.dvd_trans (by decide) hera
    have hfour : 4 ∣ y + 1 := Nat.dvd_trans (by decide) hcentury
    have hleap : IsLeap (y + 1) := ⟨hfour, fun _ => hera⟩
    rw [if_pos hfour, if_pos hcentury, if_pos hera, if_pos hleap]
    omega
  · by_cases hcentury : 100 ∣ y + 1
    · have hfour : 4 ∣ y + 1 := Nat.dvd_trans (by decide) hcentury
      have hleap : ¬IsLeap (y + 1) := fun h => hera (h.2 hcentury)
      rw [if_pos hfour, if_pos hcentury, if_neg hera, if_neg hleap]
      omega
    · by_cases hfour : 4 ∣ y + 1
      · have hleap : IsLeap (y + 1) := ⟨hfour, fun h => absurd h hcentury⟩
        rw [if_pos hfour, if_neg hcentury, if_neg hera, if_pos hleap]
        omega
      · have hleap : ¬IsLeap (y + 1) := fun h => hfour h.1
        rw [if_neg hfour, if_neg hcentury, if_neg hera, if_neg hleap]
        omega

theorem marchDays_february (y : Nat) : marchDays y 11 = if IsLeap (y + 1) then 29 else 28 := rfl

/-- February takes what is left of the year. -/
theorem yearStart_succ_eq (y : Nat) : yearStart (y + 1) = yearStart y + monthStart 11 + marchDays y 11 := by
  rw [yearStart_succ, marchDays_february]
  split <;> rfl

theorem monthStart_succ {y m : Nat} (h : m < 11) : monthStart (m + 1) = monthStart m + marchDays y m := by
  interval_cases m <;> rfl

/-- Every era has the same days. -/
theorem yearStart_era (e y : Nat) : yearStart (400 * e + y) = daysPerEra * e + yearStart y := by
  unfold yearStart daysPerEra
  omega

theorem monthDays_pos (year month : Nat) : 0 < monthDays year month := by
  unfold monthDays
  split
  · split <;> decide
  all_goals decide

theorem valid_ofMarch {y m i : Nat} (hm : m < 12) (hi : i < marchDays y m) : (ofMarch y m i).Valid := by
  refine ⟨?_, Nat.le_add_left 1 i, hi⟩
  unfold ofMarch
  dsimp only
  split <;> omega

/-! ## Places -/

/-- The place of the day `days` after the start of 1970. -/
structure FallsOn (days y m i : Nat) : Prop where
  days : days + 719468 = yearStart y + monthStart m + i
  month : m < 12
  day : i < marchDays y m

section
variable {days y m i : Nat}

theorem fallsOn_zero : FallsOn 0 1969 10 0 := ⟨rfl, by decide, by decide⟩

/-- The next day has the next place, and its date is the next one. -/
theorem FallsOn.succ (h : FallsOn days y m i) :
    ∃ y' m' i', FallsOn (days + 1) y' m' i' ∧ ofMarch y' m' i' = (ofMarch y m i).next := by
  obtain ⟨hdays, hm, hi⟩ := h
  by_cases hin : (ofMarch y m i).day < monthDays (ofMarch y m i).year (ofMarch y m i).month
  · refine ⟨y, m, i + 1, ⟨by omega, hm, hin⟩, ?_⟩
    rw [next, if_pos hin]
    rfl
  · have hlast : marchDays y m = i + 1 := Nat.le_antisymm (Nat.not_lt.mp hin) hi
    have hnext : (ofMarch y m i).next = if (ofMarch y m i).month < 12
        then { ofMarch y m i with month := (ofMarch y m i).month + 1, day := 1 }
        else { year := (ofMarch y m i).year + 1, month := 1, day := 1 } := if_neg hin
    rcases Nat.lt_or_eq_of_le (Nat.le_of_lt_succ hm) with hmonth | rfl
    · have hstart := monthStart_succ (y := y) hmonth
      refine ⟨y, m + 1, 0, ⟨by omega, by omega, monthDays_pos _ _⟩, ?_⟩
      rw [hnext]
      interval_cases m <;> rfl
    · have hstart := yearStart_succ_eq y
      refine ⟨y + 1, 0, 0, ⟨?_, by decide, monthDays_pos _ _⟩, ?_⟩
      · rw [show monthStart 0 = 0 from rfl]
        omega
      · rw [hnext]
        rfl

theorem exists_fallsOn (days : Nat) : ∃ y m i, FallsOn days y m i := by
  induction days with
  | zero => exact ⟨1969, 10, 0, fallsOn_zero⟩
  | succ days ih =>
    obtain ⟨y, m, i, h⟩ := ih
    obtain ⟨y', m', i', h', _⟩ := h.succ
    exact ⟨y', m', i', h'⟩

/-! ## The closed form -/

def yearOfEra (n : Nat) : Nat := (n - n / 1460 + n / 36524 - n / 146096) / 365

theorem yearOfEra_mono : Monotone yearOfEra := by
  apply monotone_nat_of_le_succ
  intro n
  apply Nat.div_le_div_right
  omega

/-- As the year never decreases from day to day, its first and its last day tell the days between. -/
theorem yearOfEra_eq {n : Nat} (hy : y < 400) (hfirst : yearStart y ≤ n) (hlast : n < yearStart (y + 1)) :
    yearOfEra n = y := by
  have hends : ∀ y < 400, yearOfEra (yearStart y) = y ∧ yearOfEra (yearStart (y + 1) - 1) = y := by decide +kernel
  obtain ⟨hlow, hhigh⟩ := hends y hy
  have hlow' : yearOfEra (yearStart y) ≤ yearOfEra n := yearOfEra_mono hfirst
  have hhigh' : yearOfEra n ≤ yearOfEra (yearStart (y + 1) - 1) := yearOfEra_mono (Nat.le_sub_one_of_lt hlast)
  omega

theorem monthStart_eq {n : Nat} (hfirst : monthStart m ≤ n) (hlast : n < monthStart (m + 1)) :
    (5 * n + 2) / 153 = m := by
  unfold monthStart at hfirst hlast
  omega

theorem FallsOn.dayOfYear_lt (h : FallsOn days y m i) :
    monthStart m + i < monthStart (m + 1) ∧ yearStart y + (monthStart m + i) < yearStart (y + 1) := by
  obtain ⟨_, hm, hi⟩ := h
  have hyear := yearStart_succ_eq y
  rcases Nat.lt_or_eq_of_le (Nat.le_of_lt_succ hm) with hmonth | rfl
  · have hstart := monthStart_succ (y := y) hmonth
    have hle : monthStart (m + 1) ≤ monthStart 11 := by
      unfold monthStart
      omega
    omega
  · have hlong : marchDays y 11 ≤ 29 := by
      rw [marchDays_february]
      split <;> decide
    have hend : monthStart (11 + 1) = monthStart 11 + 30 := rfl
    omega

theorem ofDays_eq (h : FallsOn days y m i) : ofDays days = ofMarch y m i := by
  obtain ⟨hmonth, hyear⟩ := h.dayOfYear_lt
  obtain ⟨hdays, hm, _⟩ := h
  -- the era of the year `y`, and the year `r` in it
  obtain ⟨e, r, hr, rfl⟩ : ∃ e r, r < 400 ∧ y = 400 * e + r :=
    ⟨y / 400, y % 400, Nat.mod_lt _ (by decide), (Nat.div_add_mod y 400).symm⟩
  rw [Nat.add_assoc, yearStart_era, yearStart_era] at hyear
  rw [yearStart_era] at hdays
  have hyear' : yearStart r + (monthStart m + i) < yearStart (r + 1) := by omega
  have hlength : yearStart (r + 1) ≤ daysPerEra := by
    unfold yearStart daysPerEra
    omega
  have hera : (days + 719468) / daysPerEra = e := by
    rw [hdays, Nat.add_assoc, Nat.add_assoc, Nat.mul_add_div (by decide), Nat.div_eq_of_lt (by omega), Nat.add_zero]
  have hday : (days + 719468) % daysPerEra = yearStart r + (monthStart m + i) := by
    rw [hdays, Nat.add_assoc, Nat.add_assoc, Nat.mul_add_mod, Nat.mod_eq_of_lt (by omega)]
  have hfound := yearOfEra_eq hr (Nat.le_add_right _ _) hyear'
  have hrest : yearStart r + (monthStart m + i) - (365 * r + r / 4 - r / 100) = monthStart m + i := by
    unfold yearStart
    omega
  have hfoundMonth := monthStart_eq (Nat.le_add_right _ i) hmonth
  have hdayOfMonth : monthStart m + i - (153 * m + 2) / 5 = i := Nat.add_sub_cancel_left _ _
  have hsum : r + e * 400 = 400 * e + r := by omega
  unfold yearOfEra at hfound
  simp only [ofDays, hera, hday, hfound, hrest, hfoundMonth, hdayOfMonth, hsum]
  unfold ofMarch
  by_cases hspring : m < 10
  · have hlate : ¬m + 3 ≤ 2 := by omega
    rw [if_pos hspring, if_neg hlate, if_pos hspring, Nat.add_zero]
  · have hearly : m - 9 ≤ 2 := by omega
    rw [if_neg hspring, if_pos hearly, if_neg hspring]

end

theorem ofDays_zero : ofDays 0 = ⟨1970, 1, 1⟩ := ofDays_eq fallsOn_zero

theorem ofDays_succ (days : Nat) : ofDays (days + 1) = (ofDays days).next := by
  obtain ⟨y, m, i, h⟩ := exists_fallsOn days
  obtain ⟨y', m', i', h', hnext⟩ := h.succ
  rw [ofDays_eq h', ofDays_eq h, hnext]

theorem valid_ofDays (days : Nat) : (ofDays days).Valid := by
  obtain ⟨y, m, i, h⟩ := exists_fallsOn days
  rw [ofDays_eq h]
  exact valid_ofMarch h.month h.day

end Date

/-! ## Moments -/

structure Moment where
  date : Date
  hour : Nat
  minute : Nat
  second : Nat
deriving DecidableEq, Repr

namespace Moment

structure Valid (t : Moment) : Prop where
  date : t.date.Valid
  hour : t.hour < 24
  minute : t.minute < 60
  second : t.second < 60

def epoch : Moment := ⟨⟨1970, 1, 1⟩, 0, 0, 0⟩

def next (t : Moment) : Moment :=
  if t.second + 1 < 60 then { t with second := t.second + 1 }
  else if t.minute + 1 < 60 then { t with minute := t.minute + 1, second := 0 }
  else if t.hour + 1 < 24 then { t with hour := t.hour + 1, minute := 0, second := 0 }
  else ⟨t.date.next, 0, 0, 0⟩

def text (t : Moment) : String :=
  t.date.text ++ " " ++ zeroPadded 10 2 t.hour ++ ":" ++ zeroPadded 10 2 t.minute ++ ":" ++ zeroPadded 10 2 t.second

def ofSeconds (seconds : Nat) : Moment where
  date := Date.ofDays (seconds / 86400)
  hour := seconds % 86400 / 3600
  minute := seconds % 86400 % 3600 / 60
  second := seconds % 86400 % 60

theorem valid_ofSeconds (seconds : Nat) : (ofSeconds seconds).Valid := by
  refine ⟨Date.valid_ofDays _, ?_, ?_, ?_⟩
  all_goals
    unfold ofSeconds
    dsimp only
    omega

theorem ofSeconds_succ (seconds : Nat) : ofSeconds (seconds + 1) = (ofSeconds seconds).next := by
  have hdays : ∀ {n}, n = seconds / 86400 + 1 → Date.ofDays n = (Date.ofDays (seconds / 86400)).next := by
    rintro _ rfl
    exact Date.ofDays_succ _
  unfold next ofSeconds
  dsimp only
  split
  · rw [mk.injEq]
    refine ⟨congrArg _ ?_, ?_, ?_, ?_⟩ <;> omega
  · split
    · rw [mk.injEq]
      refine ⟨congrArg _ ?_, ?_, ?_, ?_⟩ <;> omega
    · split
      · rw [mk.injEq]
        refine ⟨congrArg _ ?_, ?_, ?_, ?_⟩ <;> omega
      · rw [mk.injEq]
        refine ⟨hdays ?_, ?_, ?_, ?_⟩ <;> omega

theorem ofSeconds_eq (seconds : Nat) : ofSeconds seconds = next^[seconds] epoch := by
  induction seconds with
  | zero => rfl
  | succ seconds ih => rw [ofSeconds_succ, ih, Function.iterate_succ_apply']

end Moment

/-- Dates follow each other as in the Gregorian calendar, and what is written of a moment is the date and the time of
day that a clock shows which started in 1970. -/
theorem calendar_gregorian : Date.ofDays 0 = ⟨1970, 1, 1⟩ ∧
    (∀ days, (Date.ofDays days).Valid ∧ Date.ofDays (days + 1) = (Date.ofDays days).next) ∧
    ∀ seconds, (Moment.next^[seconds] Moment.epoch).Valid ∧
      timestamp seconds = (Moment.next^[seconds] Moment.epoch).text := by
  refine ⟨Date.ofDays_zero, fun days => ⟨Date.valid_ofDays days, Date.ofDays_succ days⟩, ?_⟩
  intro seconds
  rw [← Moment.ofSeconds_eq]
  exact ⟨Moment.valid_ofSeconds seconds, rfl⟩

end PulseSequencer
