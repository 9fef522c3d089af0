import Folio.Proofs.Calendar.Days
import Folio.Proofs.Calendar.Padding

/-!
# Reading timestamps

A timestamp is read as a date and a time of day, and these give back the second that it was written for.
From the year 0 to the year 9999 timestamps sort as texts the way their times do.
-/
namespace Folio.Calendar
variable {s t : Instant}

/-! ### The reader -/

def signed (t : Text) : Int × Text :=
  match t with
  | '-' :: rest => (-1, rest)
  | '+' :: rest => (1, rest)
  | _ => (1, t)

def field? (mark : Char) (t : Text) : Option (Nat × Text) := do
  let (digits, rest) ← Text.cutAt? mark t
  return (← number? digits, rest)

/-- The second, counted from the beginning of 1970, that a date and a time of day name in universal time. -/
def seconds? (t : Text) : Option Int := do
  let (sign, t) := signed t
  let (year, t) ← field? '-' t
  let (month, t) ← field? '-' t
  let (day, t) ← field? ' ' t
  let (hour, t) ← field? ':' t
  let (minute, t) ← field? ':' t
  let second ← number? t
  let date : Date := ⟨sign * year, month, day⟩
  if date.IsValid ∧ hour < 24 ∧ minute < 60 ∧ second < 60 then
    some (secondsPerDay * dayNumber date + 3600 * hour + 60 * minute + second)
  else none

theorem field?_padded {mark : Char} (h : mark.isDigit = false) (width n : Nat) (rest : Text) :
    field? mark (padded width n ++ mark :: rest) = some (n, rest) := by
  rw [field?, Text.cutAt?_append (notMem_padded h width n)]
  simp [number?_padded]

theorem signed_padded (width n : Nat) (rest : Text) :
    signed (padded width n ++ rest) = (1, padded width n ++ rest) := by
  obtain ⟨c, digits, hd⟩ := List.exists_cons_of_ne_nil (padded_ne_nil width n)
  have hc : c.isDigit = true := isDigit_of_mem_padded (by rw [hd]; exact List.mem_cons_self)
  rw [hd, List.cons_append]
  unfold signed
  split
  next h =>
    cases h
    cases hc
  next h =>
    cases h
    cases hc
  next => rfl

theorem signed_yearText (year : Int) : ∃ sign, sign * year.natAbs = year ∧
    ∀ rest, signed (yearText year ++ rest) = (sign, padded 4 year.natAbs ++ rest) := by
  unfold yearText
  split
  next => exact ⟨-1, by omega, fun _ => rfl⟩
  next =>
    split
    next => exact ⟨1, by omega, fun _ => rfl⟩
    next => exact ⟨1, by omega, signed_padded 4 _⟩

/-! ### The parts of a timestamp -/

def dateAt (t : Instant) : Date := dateOf ((wholeSeconds t).fdiv secondsPerDay)

def secondOfDay (t : Instant) : Nat := ((wholeSeconds t).fmod secondsPerDay).toNat

theorem timestamp_eq (t : Instant) : timestamp t = yearText (dateAt t).year ++ '-' ::
    (padded 2 (dateAt t).month ++ '-' :: (padded 2 (dateAt t).day ++ ' ' ::
      (padded 2 (secondOfDay t / 3600) ++ ':' :: (padded 2 (secondOfDay t / 60 % 60) ++ ':' ::
        padded 2 (secondOfDay t % 60))))) := by
  simp [timestamp, dateAt, secondOfDay]

theorem secondOfDay_lt (t : Instant) : secondOfDay t < secondsPerDay := by
  have hlt := Int.fmod_lt_of_pos (wholeSeconds t) (by decide : (0 : Int) < secondsPerDay)
  unfold secondOfDay secondsPerDay at *
  omega

/-- A time is as many seconds behind the beginning of its day, also before 1970. -/
theorem wholeSeconds_eq (t : Instant) :
    wholeSeconds t = secondsPerDay * dayNumber (dateAt t) + secondOfDay t := by
  have hsplit := Int.mul_fdiv_add_fmod (wholeSeconds t) secondsPerDay
  have hpos := Int.fmod_nonneg_of_pos (wholeSeconds t) (by decide : (0 : Int) < secondsPerDay)
  rw [dateAt, dayNumber_dateOf, secondOfDay]
  omega

theorem seconds?_timestamp (t : Instant) : seconds? (timestamp t) = some (wholeSeconds t) := by
  obtain ⟨sign, hyear, hsign⟩ := signed_yearText (dateAt t).year
  have hvalid := isValid_dateOf ((wholeSeconds t).fdiv secondsPerDay)
  have hlt := secondOfDay_lt t
  have hclock : secondOfDay t / 3600 < 24 ∧ secondOfDay t / 60 % 60 < 60 ∧ secondOfDay t % 60 < 60 := by
    unfold secondsPerDay at hlt
    omega
  have hsum : (secondOfDay t : Int) =
      3600 * (secondOfDay t / 3600 : Nat) + 60 * (secondOfDay t / 60 % 60 : Nat) + (secondOfDay t % 60 : Nat) := by
    omega
  have hmarks : '-'.isDigit = false ∧ ' '.isDigit = false ∧ ':'.isDigit = false := by decide
  rw [timestamp_eq, seconds?, hsign]
  simp only [field?_padded hmarks.1, field?_padded hmarks.2.1, field?_padded hmarks.2.2, number?_padded,
    Option.bind_eq_bind, Option.bind_some, hyear]
  rw [if_pos ⟨hvalid, hclock⟩, wholeSeconds_eq t, hsum]
  simp only [Int.add_assoc]

/-! ### Order -/

theorem isValid_dateAt (t : Instant) : (dateAt t).IsValid := isValid_dateOf _

theorem month_day_lt_hundred {d : Date} (hd : d.IsValid) : d.month < 10 ^ 2 ∧ d.day < 10 ^ 2 := by
  have hmonth := hd.month_le
  have hday := hd.day_le
  have hlength : monthLength d.year d.month ≤ 31 := by
    unfold monthLength leapDay
    split
    · split <;> decide
    all_goals decide
  omega

/-- Of two times the earlier one has the lesser date, or on the same date the lesser time of day. -/
theorem before_or_secondOfDay_lt (h : wholeSeconds s < wholeSeconds t) :
    (dateAt s).Before (dateAt t) ∨ dateAt s = dateAt t ∧ secondOfDay s < secondOfDay t := by
  have hs := secondOfDay_lt s
  have ht := secondOfDay_lt t
  rw [wholeSeconds_eq, wholeSeconds_eq] at h
  unfold secondsPerDay at h hs ht
  rcases lt_trichotomy (dayNumber (dateAt s)) (dayNumber (dateAt t)) with hday | hday | hday
  · exact .inl (before_of_dayNumber_lt (isValid_dateAt s) (isValid_dateAt t) hday)
  · refine .inr ⟨?_, by omega⟩
    rw [dateAt, dateAt, dayNumber_dateOf, dayNumber_dateOf] at hday
    rw [dateAt, dateAt, hday]
  · omega

/-- The first field in which two times differ is the one that makes the earlier of them earlier. -/
theorem fields_lt (h : wholeSeconds s < wholeSeconds t) :
    (dateAt s).year < (dateAt t).year ∨ (dateAt s).year = (dateAt t).year ∧
      ((dateAt s).month < (dateAt t).month ∨ (dateAt s).month = (dateAt t).month ∧
        ((dateAt s).day < (dateAt t).day ∨ (dateAt s).day = (dateAt t).day ∧
          (secondOfDay s / 3600 < secondOfDay t / 3600 ∨ secondOfDay s / 3600 = secondOfDay t / 3600 ∧
            (secondOfDay s / 60 % 60 < secondOfDay t / 60 % 60 ∨
              secondOfDay s / 60 % 60 = secondOfDay t / 60 % 60 ∧ secondOfDay s % 60 < secondOfDay t % 60)))) := by
  rcases before_or_secondOfDay_lt h with (hyear | ⟨hyear, hmonth | ⟨hmonth, hday⟩⟩) | ⟨hdate, hlt⟩
  · exact .inl hyear
  · exact .inr ⟨hyear, .inl hmonth⟩
  · exact .inr ⟨hyear, .inr ⟨hmonth, .inl hday⟩⟩
  · rw [hdate]
    exact .inr ⟨rfl, .inr ⟨rfl, .inr ⟨rfl, by omega⟩⟩⟩

/-- Of two times in the years of four digits the earlier one has the lesser timestamp. -/
theorem timestamp_lt (hs : 0 ≤ (dateAt s).year) (ht : (dateAt t).year ≤ 9999)
    (h : wholeSeconds s < wholeSeconds t) : timestamp s < timestamp t := by
  have hfields := fields_lt h
  have hclock := secondOfDay_lt t
  unfold secondsPerDay at hclock
  obtain ⟨hmonth, hday⟩ := month_day_lt_hundred (isValid_dateAt t)
  have hyear : ∀ year : Int, 0 ≤ year → year ≤ 9999 → yearText year = padded 4 year.natAbs := by
    intro year hlow hhigh
    rw [yearText, if_neg (by omega), if_neg (by omega)]
  rw [timestamp_eq, timestamp_eq, hyear _ hs (by omega), hyear _ (by omega) ht]
  refine padded_append_lt '-' (by omega) (hfields.imp (by omega) fun ⟨he, hfields⟩ => ⟨by rw [he], ?_⟩)
  refine padded_append_lt '-' hmonth (hfields.imp_right fun ⟨he, hfields⟩ => ⟨he, ?_⟩)
  refine padded_append_lt ' ' hday (hfields.imp_right fun ⟨he, hfields⟩ => ⟨he, ?_⟩)
  refine padded_append_lt ':' (by omega) (hfields.imp_right fun ⟨he, hfields⟩ => ⟨he, ?_⟩)
  refine padded_append_lt ':' (by omega) (hfields.imp_right fun ⟨he, hfields⟩ => ⟨he, ?_⟩)
  exact padded_lt_padded hfields (by omega)

/-- A timestamp tells its second and nothing else. -/
theorem timestamp_eq_timestamp_iff : timestamp s = timestamp t ↔ wholeSeconds s = wholeSeconds t := by
  constructor
  · intro h
    have hs := seconds?_timestamp s
    rw [h, seconds?_timestamp] at hs
    exact (Option.some.inj hs).symm
  · intro h
    rw [timestamp, timestamp, h]

theorem timestamp_lt_timestamp_iff (hs : 0 ≤ (dateAt s).year ∧ (dateAt s).year ≤ 9999)
    (ht : 0 ≤ (dateAt t).year ∧ (dateAt t).year ≤ 9999) :
    timestamp s < timestamp t ↔ wholeSeconds s < wholeSeconds t := by
  constructor
  · intro h
    by_contra hge
    rcases (Int.not_lt.1 hge).lt_or_eq with hlt | heq
    · exact absurd (List.lt_trans h (timestamp_lt ht.1 hs.2 hlt)) (List.lt_irrefl _)
    · rw [timestamp_eq_timestamp_iff.2 heq.symm] at h
      exact absurd h (List.lt_irrefl _)
  · exact timestamp_lt hs.1 ht.2

/-! ### Times with a date -/

/-- The seconds from the beginning of the first year with dates to the end of the last one. -/
theorem isDated_iff : isDated t = true ↔ -8334601228800 ≤ wholeSeconds t ∧ wholeSeconds t ≤ 8210266876799 := by
  have hfirst : daysBeforeYear (-262143) - daysBeforeYear 1970 = -96465292 := by decide
  have hlast : daysBeforeYear 262143 - daysBeforeYear 1970 = 95026237 := by decide
  have hsplit : (wholeSeconds t).fdiv secondsPerDay = wholeSeconds t / 86400 :=
    Int.fdiv_eq_ediv_of_nonneg _ (by decide)
  have hlow : firstYear ≤ (dateAt t).year ↔ -96465292 ≤ wholeSeconds t / 86400 := by
    rw [dateAt, le_year_dateOf_iff, firstYear, hfirst, hsplit]
  have hhigh : 262143 ≤ (dateAt t).year ↔ 95026237 ≤ wholeSeconds t / 86400 := by
    rw [dateAt, le_year_dateOf_iff, hlast, hsplit]
  have hdated : isDated t = true ↔ firstYear ≤ (dateAt t).year ∧ (dateAt t).year ≤ lastYear := by
    simp [isDated, dateAt]
  rw [hdated, hlow, lastYear]
  omega

end Folio.Calendar
