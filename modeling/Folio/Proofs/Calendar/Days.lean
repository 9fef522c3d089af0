import Folio.Calendar
import Mathlib.Order.Monotone.Basic
import Mathlib.Tactic.IntervalCases

/-!
# Days of the calendar

The proleptic Gregorian calendar by its rules: leap years, the lengths of the months, and the number of a
day as the days of all years and months before it. The date of a day is the one that has this number.
-/
namespace Folio.Calendar

/-! ### The calendar -/

def isLeap (year : Int) : Bool := year % 4 = 0 && (year % 100 ≠ 0 || year % 400 = 0)

/-- The day that a leap year has more than others. -/
def leapDay (year : Int) : Nat := if isLeap year then 1 else 0

def monthLength (year : Int) (month : Nat) : Nat :=
  match month with
  | 2 => 28 + leapDay year
  | 4 | 6 | 9 | 11 => 30
  | _ => 31

/-- The days between the first of January of the year 1 and that of another year. -/
def daysBeforeYear (year : Int) : Int := 365 * (year - 1) + (year - 1) / 4 - (year - 1) / 100 + (year - 1) / 400

def daysBeforeMonth (year : Int) : Nat → Nat
  | 0 | 1 => 0
  | month + 2 => daysBeforeMonth year (month + 1) + monthLength year (month + 1)

def dayNumber (d : Date) : Int :=
  daysBeforeYear d.year - daysBeforeYear 1970 + daysBeforeMonth d.year d.month + d.day - 1

structure Date.IsValid (d : Date) : Prop where
  month_pos : 0 < d.month
  month_le : d.month ≤ 12
  day_pos : 0 < d.day
  day_le : d.day ≤ monthLength d.year d.month

instance (d : Date) : Decidable d.IsValid :=
  decidable_of_iff (0 < d.month ∧ d.month ≤ 12 ∧ 0 < d.day ∧ d.day ≤ monthLength d.year d.month)
    ⟨fun h => ⟨h.1, h.2.1, h.2.2.1, h.2.2.2⟩, fun h => ⟨h.1, h.2, h.3, h.4⟩⟩

theorem isLeap_iff {year : Int} : isLeap year = true ↔ year % 4 = 0 ∧ (year % 100 ≠ 0 ∨ year % 400 = 0) := by
  simp [isLeap]

theorem daysBeforeYear_succ (year : Int) :
    daysBeforeYear (year + 1) = daysBeforeYear year + (365 + leapDay year) := by
  unfold daysBeforeYear leapDay
  split
  next h =>
    rw [isLeap_iff] at h
    omega
  next h =>
    rw [isLeap_iff] at h
    omega

/-! ### Eras -/

/-- A day of an era by century, leap-year cycle, year and day of the year. -/
theorem exists_cycles {n : Nat} (h : n < daysPerEra) : ∃ century cycle year day,
    n = 36524 * century + 1461 * cycle + 365 * year + day ∧ century ≤ 3 ∧ cycle ≤ 24 ∧ year ≤ 3 ∧ day ≤ 365 ∧
      (day = 365 → year = 3 ∧ (cycle ≠ 24 ∨ century = 3)) := by
  unfold daysPerEra at h
  let century := min (n / 36524) 3
  let rest := n - 36524 * century
  let year := min (rest % 1461 / 365) 3
  refine ⟨century, rest / 1461, year, rest % 1461 - 365 * year, ?_, ?_, ?_, ?_, ?_, ?_⟩ <;> omega

theorem yearOfEra_cycles {century cycle year day : Nat} (hc : century ≤ 3) (hq : cycle ≤ 24) (hy : year ≤ 3)
    (hd : day ≤ 365) (hlast : day = 365 → year = 3 ∧ (cycle ≠ 24 ∨ century = 3)) :
    yearOfEra (36524 * century + 1461 * cycle + 365 * year + day) = 100 * century + 4 * cycle + year := by
  -- the last day of an era counts as a day of a fifth century, and is taken back
  have hrest : 1461 * cycle + 365 * year + day < 36524 ∨
      century = 3 ∧ 1461 * cycle + 365 * year + day = 36524 := by omega
  have hera : (36524 * century + 1461 * cycle + 365 * year + day) / 36524 = century +
      (36524 * century + 1461 * cycle + 365 * year + day) / 146096 := by
    rcases hrest with hrest | ⟨rfl, hrest⟩
    · have hinside : (36524 * century + 1461 * cycle + 365 * year + day) / 146096 = 0 :=
        Nat.div_eq_of_lt (by omega)
      rw [hinside]
      omega
    · omega
  unfold yearOfEra
  rw [hera]
  rcases Nat.lt_or_ge (24 * century + cycle + 365 * year + day) 1460 with hshort | hlong
  · have hfour : (36524 * century + 1461 * cycle + 365 * year + day) / 1460 = 25 * century + cycle := by omega
    rw [hfour]
    omega
  · have hfour : (36524 * century + 1461 * cycle + 365 * year + day) / 1460 = 25 * century + cycle + 1 := by omega
    rw [hfour]
    omega

/-- A day of an era is less than a year behind the beginning of its year. -/
theorem yearOfEra_spec {n : Nat} (h : n < daysPerEra) : ∃ year day, yearOfEra n = year ∧ year < 400 ∧
    n + year / 100 = 365 * year + year / 4 + day ∧ day ≤ 365 ∧
    (day = 365 → year % 4 = 3 ∧ (year % 100 ≠ 99 ∨ year = 399)) := by
  obtain ⟨century, cycle, year, day, rfl, hc, hq, hy, hd, hlast⟩ := exists_cycles h
  refine ⟨100 * century + 4 * cycle + year, day, yearOfEra_cycles hc hq hy hd hlast, ?_, ?_, hd, ?_⟩ <;> omega

/-! ### Dates -/

/-- The date that is `day` days behind the first of March of a year. -/
def marchDate (year : Int) (day : Nat) : Date :=
  let month := (5 * day + 2) / 153
  { year := year + (if month < 10 then 0 else 1)
    month := if month < 10 then month + 3 else month - 9
    day := day - (153 * month + 2) / 5 + 1 }

theorem dateOf_eq_marchDate (day : Int) : ∃ (year : Int) (n : Nat), dateOf day = marchDate year n ∧
    day + epochDay = 365 * year + year / 4 - year / 100 + year / 400 + n ∧ n ≤ 365 ∧
    (n = 365 → isLeap (year + 1) = true) := by
  have hera : (day + epochDay).fdiv daysPerEra = (day + epochDay) / daysPerEra :=
    Int.fdiv_eq_ediv_of_nonneg _ (by decide)
  have hday : (day + epochDay).fmod daysPerEra = (day + epochDay) % daysPerEra :=
    Int.fmod_eq_emod_of_nonneg _ (by decide)
  obtain ⟨n, hn⟩ := Int.eq_ofNat_of_zero_le (Int.emod_nonneg (day + epochDay) (by decide : (daysPerEra : Int) ≠ 0))
  have hlt : n < daysPerEra := by
    have hmod := Int.emod_lt_of_pos (day + epochDay) (by decide : (0 : Int) < daysPerEra)
    omega
  obtain ⟨year, d, hyear, hle, hsplit, hd, hlast⟩ := yearOfEra_spec hlt
  refine ⟨400 * ((day + epochDay) / daysPerEra) + year, d, ?_, ?_, hd, ?_⟩
  · have hrest : n - (365 * year + year / 4 - year / 100) = d := by omega
    simp only [dateOf, marchDate, hera, hday, hn, Int.toNat_natCast, hyear, hrest]
  · have hwhole := Int.mul_ediv_add_emod (day + epochDay) daysPerEra
    rw [hn] at hwhole
    unfold daysPerEra at hwhole ⊢
    generalize (day + epochDay) / ((146097 : Nat) : Int) = era at hwhole ⊢
    have hfour : (400 * era + year) / 4 = 100 * era + year / 4 := by omega
    have hcentury : (400 * era + year) / 100 = 4 * era + year / 100 := by omega
    have heras : (400 * era + year) / 400 = era := by omega
    rw [hfour, hcentury, heras]
    omega
  · intro hlong
    rw [isLeap_iff]
    have hfour := hlast hlong
    omega

/-- From March to December a date lies in the year itself, in January and February in the next one. -/
theorem marchDate_cases (year : Int) {day : Nat} (h : day ≤ 365) :
    (∃ month d, month < 10 ∧ d < monthLength year (month + 3) ∧ day = (153 * month + 2) / 5 + d ∧
      marchDate year day = ⟨year, month + 3, d + 1⟩) ∨
    (∃ d, d < 31 ∧ day = 306 + d ∧ marchDate year day = ⟨year + 1, 1, d + 1⟩) ∨
    ∃ d, day = 337 + d ∧ marchDate year day = ⟨year + 1, 2, d + 1⟩ := by
  obtain ⟨month, hmonth⟩ : ∃ month, (5 * day + 2) / 153 = month := ⟨_, rfl⟩
  have hcases : month < 10 ∨ month = 10 ∨ month = 11 := by omega
  simp only [marchDate, hmonth, Date.mk.injEq]
  rcases hcases with hlt | rfl | rfl
  · refine .inl ⟨month, day - (153 * month + 2) / 5, hlt, ?_, by omega, by simp [hlt], by simp [hlt], rfl⟩
    interval_cases month <;> simp only [monthLength] <;> omega
  · exact .inr (.inl ⟨day - 306, by omega, by omega, by simp, by simp, by omega⟩)
  · exact .inr (.inr ⟨day - 337, by omega, by simp, by simp, by omega⟩)

theorem daysBeforeMonth_march (year : Int) {month : Nat} (h : month < 10) :
    daysBeforeMonth year (month + 3) = 59 + leapDay year + (153 * month + 2) / 5 := by
  interval_cases month <;> simp only [daysBeforeMonth, monthLength] <;> omega

theorem daysBeforeMonth_december (year : Int) : daysBeforeMonth year 13 = 365 + leapDay year := by
  simp only [daysBeforeMonth, monthLength]
  omega

theorem dayNumber_marchDate (year : Int) {day : Nat} (h : day ≤ 365) : dayNumber (marchDate year day) + epochDay =
    365 * year + year / 4 - year / 100 + year / 400 + day := by
  have hnext : daysBeforeYear (year + 1) = 365 * year + year / 4 - year / 100 + year / 400 := by
    simp [daysBeforeYear]
  have hsucc := daysBeforeYear_succ year
  have hepoch : daysBeforeYear 1970 = 719162 := by decide
  unfold dayNumber epochDay
  rcases marchDate_cases year h with ⟨month, d, hlt, -, hday, hdate⟩ | ⟨d, -, hday, hdate⟩ | ⟨d, hday, hdate⟩
  · simp only [hdate, daysBeforeMonth_march year hlt]
    omega
  · simp only [hdate, daysBeforeMonth]
    omega
  · simp only [hdate, daysBeforeMonth, monthLength]
    omega

theorem isValid_marchDate (year : Int) {day : Nat} (h : day ≤ 365) (hlast : day = 365 → isLeap (year + 1) = true) :
    (marchDate year day).IsValid := by
  rcases marchDate_cases year h with ⟨month, d, hlt, hd, -, hdate⟩ | ⟨d, hd, -, hdate⟩ | ⟨d, hday, hdate⟩
  · rw [hdate]
    exact ⟨Nat.succ_pos _, by dsimp only; omega, Nat.succ_pos d, hd⟩
  · rw [hdate]
    exact ⟨Nat.one_pos, by simp, Nat.succ_pos d, hd⟩
  · rw [hdate]
    refine ⟨Nat.two_pos, by simp, Nat.succ_pos d, ?_⟩
    simp only [monthLength, leapDay]
    split
    next => omega
    next hleap =>
      have hne := mt hlast hleap
      omega

theorem dayNumber_dateOf (day : Int) : dayNumber (dateOf day) = day := by
  obtain ⟨year, n, hdate, hday, hn, -⟩ := dateOf_eq_marchDate day
  have hnumber := dayNumber_marchDate year hn
  rw [hdate]
  omega

/-- The year 0 is a leap year, and 1970 begins 719528 days behind its beginning. -/
example : dateOf (-719528) = ⟨0, 1, 1⟩ ∧ dateOf (-719469) = ⟨0, 2, 29⟩ := by decide

theorem isValid_dateOf (day : Int) : (dateOf day).IsValid := by
  obtain ⟨year, n, hdate, -, hn, hlast⟩ := dateOf_eq_marchDate day
  rw [hdate]
  exact isValid_marchDate year hn hlast

/-! ### Order -/

theorem daysBeforeYear_le {year later : Int} (h : year ≤ later) : daysBeforeYear year ≤ daysBeforeYear later := by
  have hstep : ∀ year, daysBeforeYear year ≤ daysBeforeYear (year + 1) := by
    intro year
    rw [daysBeforeYear_succ]
    omega
  exact monotone_int_of_le_succ hstep h

theorem daysBeforeMonth_succ (year : Int) {month : Nat} (h : 0 < month) :
    daysBeforeMonth year (month + 1) = daysBeforeMonth year month + monthLength year month := by
  obtain ⟨m, rfl⟩ := Nat.exists_eq_succ_of_ne_zero h.ne'
  rfl

theorem daysBeforeMonth_le (year : Int) {month later : Nat} (h : month ≤ later) :
    daysBeforeMonth year month ≤ daysBeforeMonth year later := by
  have hstep : ∀ month, daysBeforeMonth year month ≤ daysBeforeMonth year (month + 1) := by
    intro month
    cases month with
    | zero => exact Nat.le_refl 0
    | succ m => exact Nat.le_add_right _ _
  exact monotone_nat_of_le_succ hstep h

variable {d e : Date}

theorem Date.IsValid.day_le_succ (hd : d.IsValid) :
    daysBeforeMonth d.year d.month + d.day ≤ daysBeforeMonth d.year (d.month + 1) := by
  have hle := hd.day_le
  rw [daysBeforeMonth_succ d.year hd.month_pos]
  omega

theorem Date.IsValid.dayNumber_mem (hd : d.IsValid) :
    daysBeforeYear d.year ≤ dayNumber d + daysBeforeYear 1970 ∧
      dayNumber d + daysBeforeYear 1970 < daysBeforeYear (d.year + 1) := by
  have hmonth := hd.day_le_succ
  have hlast : daysBeforeMonth d.year (d.month + 1) ≤ daysBeforeMonth d.year 13 :=
    daysBeforeMonth_le d.year (Nat.succ_le_succ hd.month_le)
  have hyear := daysBeforeMonth_december d.year
  have hpos := hd.day_pos
  rw [daysBeforeYear_succ, dayNumber]
  omega

def Date.Before (d e : Date) : Prop :=
  d.year < e.year ∨ d.year = e.year ∧ (d.month < e.month ∨ d.month = e.month ∧ d.day < e.day)

theorem before_of_dayNumber_lt (hd : d.IsValid) (he : e.IsValid) (h : dayNumber d < dayNumber e) :
    d.Before e := by
  rcases lt_trichotomy d.year e.year with hyear | hyear | hyear
  · exact .inl hyear
  · refine .inr ⟨hyear, ?_⟩
    rcases lt_trichotomy d.month e.month with hmonth | hmonth | hmonth
    · exact .inl hmonth
    · refine .inr ⟨hmonth, ?_⟩
      rw [dayNumber, dayNumber, hyear, hmonth] at h
      omega
    · have hle : daysBeforeMonth e.year (e.month + 1) ≤ daysBeforeMonth e.year d.month :=
        daysBeforeMonth_le e.year hmonth
      have hend := he.day_le_succ
      have hpos := hd.day_pos
      rw [dayNumber, dayNumber, hyear] at h
      omega
  · have hle := daysBeforeYear_le hyear
    have hstart := hd.dayNumber_mem.1
    have hend := he.dayNumber_mem.2
    omega

/-- The days from the beginning of a year on are those of this year and the later ones. -/
theorem le_year_dateOf_iff {year day : Int} :
    year ≤ (dateOf day).year ↔ daysBeforeYear year - daysBeforeYear 1970 ≤ day := by
  obtain ⟨hstart, hend⟩ := (isValid_dateOf day).dayNumber_mem
  rw [dayNumber_dateOf] at hstart hend
  constructor
  · intro h
    have hle := daysBeforeYear_le h
    omega
  · intro h
    by_contra hlt
    have hle := daysBeforeYear_le (Int.add_one_le_of_lt (Int.not_le.1 hlt))
    omega

end Folio.Calendar
