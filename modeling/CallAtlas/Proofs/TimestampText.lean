import CallAtlas.Proofs.Decimal
import Mathlib.Data.List.TakeWhile
import Mathlib.Tactic.IntervalCases
import Mathlib.Tactic.SplitIfs

/-! Instants read back from their text. A day of an era is first told by centuries, four-year cycles, years and
days; date and day are inverse by that, and each part of the text is then read on its own. -/
namespace CallAtlas.Timestamp

/-- A day of an era of 400 years that start in March: whole centuries, whole cycles of four years, whole years
and days. Only the last year of a cycle may have a day more, and that of a century only when the era ends. -/
structure EraParts (dayOfEra century cycle year day : Nat) : Prop where
  century_lt : century < 4
  cycle_lt : cycle < 25
  year_lt : year < 4
  sum : dayOfEra = 36524 * century + 1461 * cycle + 365 * year + day
  day_le : day < 365 ∨ day = 365 ∧ year = 3 ∧ (cycle < 24 ∨ century = 3)

theorem exists_eraParts {dayOfEra : Nat} (inside : dayOfEra < 146097) :
    ∃ century cycle year day, EraParts dayOfEra century cycle year day := by
  obtain ⟨century, ofCentury, century_lt, sum, small⟩ : ∃ century ofCentury, century < 4 ∧
      dayOfEra = 36524 * century + ofCentury ∧ (ofCentury < 36524 ∨ ofCentury = 36524 ∧ century = 3) :=
    ⟨min (dayOfEra / 36524) 3, dayOfEra - 36524 * min (dayOfEra / 36524) 3, by omega, by omega, by omega⟩
  have cycle_lt : ofCentury / 1461 < 25 := by omega
  obtain ⟨year, day, year_lt, rest, few⟩ : ∃ year day, year < 4 ∧
      ofCentury % 1461 = 365 * year + day ∧ (day < 365 ∨ day = 365 ∧ year = 3) :=
    ⟨min (ofCentury % 1461 / 365) 3, ofCentury % 1461 - 365 * min (ofCentury % 1461 / 365) 3, by omega, by omega,
      by omega⟩
  exact ⟨century, ofCentury / 1461, year, day, century_lt, cycle_lt, year_lt, by omega, by omega⟩

namespace EraParts

variable {dayOfEra century cycle year day : Nat}

theorem yearOfEra (parts : EraParts dayOfEra century cycle year day) :
    (dayOfEra - dayOfEra / 1460 + dayOfEra / 36524 - dayOfEra / 146096) / 365 =
      100 * century + 4 * cycle + year := by
  obtain ⟨century_lt, cycle_lt, year_lt, sum, day_le⟩ := parts
  by_cases last : dayOfEra = 146096
  · subst last
    omega
  have centuries : dayOfEra / 36524 = century := by omega
  have whole : dayOfEra / 146096 = 0 := by omega
  have cycles : dayOfEra / 1460 = 25 * century + cycle ∨
      dayOfEra / 1460 = 25 * century + cycle + 1 ∧ 0 < day := by omega
  rw [centuries, whole]
  rcases cycles with cycles | ⟨cycles, later⟩
  · rw [cycles]
    omega
  · rw [cycles]
    omega

theorem daysOfYears (parts : EraParts dayOfEra century cycle year day) :
    365 * (100 * century + 4 * cycle + year) + (100 * century + 4 * cycle + year) / 4 -
      (100 * century + 4 * cycle + year) / 100 + day = dayOfEra := by
  obtain ⟨century_lt, cycle_lt, year_lt, sum, day_le⟩ := parts
  have fours : (100 * century + 4 * cycle + year) / 4 = 25 * century + cycle := by omega
  have hundreds : (100 * century + 4 * cycle + year) / 100 = century := by omega
  omega

end EraParts

/-- The month of the calendar that stands some months after March. -/
def monthOf (march : Nat) : Nat := if march < 10 then march + 3 else march - 9

/-- Days of a year before a month that stands some months after March. -/
def daysBefore (march : Nat) : Nat := (153 * march + 2) / 5

/-- A day by its era, the year of that era, the month counted from March and the day of the month counted
from zero. A year has 365 days, and one more before March of a leap year. -/
structure DateParts (day era : Int) (yearOfEra march dayOfMonth : Nat) : Prop where
  yearOfEra_lt : yearOfEra < 400
  march_lt : march < 12
  sum : day = era * 146097 + (365 * yearOfEra + yearOfEra / 4 - yearOfEra / 100 + daysBefore march + dayOfMonth : Nat) -
    719468
  next : daysBefore march + dayOfMonth < daysBefore (march + 1)
  long : daysBefore march + dayOfMonth < 365 ∨ daysBefore march + dayOfMonth = 365 ∧ (yearOfEra + 1) % 4 = 0 ∧
    ((yearOfEra + 1) % 100 ≠ 0 ∨ (yearOfEra + 1) % 400 = 0)

theorem exists_dateParts (day : Int) : ∃ era yearOfEra march dayOfMonth,
    DateParts day era yearOfEra march dayOfMonth ∧
      dateOfDay day = ((yearOfEra : Int) + era * 400 + (if monthOf march ≤ 2 then 1 else 0), monthOf march,
        dayOfMonth + 1) := by
  obtain ⟨dayOfEra, inside, rest⟩ : ∃ dayOfEra : Nat, dayOfEra < 146097 ∧
      day + 719468 - (day + 719468) / 146097 * 146097 = dayOfEra :=
    ⟨((day + 719468) % 146097).toNat, by omega, by omega⟩
  obtain ⟨century, cycle, year, dayOfYear, parts⟩ := exists_eraParts inside
  have whole := parts.daysOfYears
  have years := parts.yearOfEra
  obtain ⟨century_lt, cycle_lt, year_lt, sum, day_le⟩ := parts
  refine ⟨(day + 719468) / 146097, 100 * century + 4 * cycle + year, (5 * dayOfYear + 2) / 153,
    dayOfYear - daysBefore ((5 * dayOfYear + 2) / 153), ⟨?_, ?_, ?_, ?_, ?_⟩, ?_⟩
  · omega
  · omega
  · simp only [daysBefore]
    omega
  · simp only [daysBefore]
    omega
  · simp only [daysBefore]
    omega
  · have floor : (day + 719468).fdiv 146097 = (day + 719468) / 146097 :=
      Int.fdiv_eq_ediv_of_nonneg _ (by decide)
    have days : dayOfEra - (365 * (100 * century + 4 * cycle + year) + (100 * century + 4 * cycle + year) / 4 -
        (100 * century + 4 * cycle + year) / 100) = dayOfYear := by omega
    simp only [dateOfDay, floor, rest, Int.toNat_natCast, years, days, monthOf, daysBefore]
    rfl

namespace DateParts

variable {day era : Int} {yearOfEra march dayOfMonth : Nat}

theorem dayOfDate_eq (parts : DateParts day era yearOfEra march dayOfMonth) :
    dayOfDate ((yearOfEra : Int) + era * 400 + (if monthOf march ≤ 2 then 1 else 0)) (monthOf march)
      (dayOfMonth + 1) = day := by
  obtain ⟨yearOfEra_lt, march_lt, sum, next, long⟩ := parts
  have shifted : (if monthOf march ≤ 2 then
        (yearOfEra : Int) + era * 400 + (if monthOf march ≤ 2 then 1 else 0) - 1
      else (yearOfEra : Int) + era * 400 + (if monthOf march ≤ 2 then 1 else 0)) = yearOfEra + era * 400 := by
    split <;> omega
  have whole : ((yearOfEra : Int) + era * 400).fdiv 400 = era := by
    rw [Int.fdiv_eq_ediv_of_nonneg _ (by decide)]
    omega
  have rest : (yearOfEra : Int) + era * 400 - era * 400 = yearOfEra := by omega
  have back : (monthOf march + 9) % 12 = march := by
    simp only [monthOf]
    split <;> omega
  simp only [daysBefore] at sum
  simp only [dayOfDate, shifted, whole, rest, back]
  omega

theorem month_bounds (parts : DateParts day era yearOfEra march dayOfMonth) :
    1 ≤ monthOf march ∧ monthOf march ≤ 12 := by
  have bound := parts.march_lt
  simp only [monthOf]
  split <;> omega

/-- The last day of February is there in leap years only. -/
theorem dayOfMonth_lt (parts : DateParts day era yearOfEra march dayOfMonth) :
    dayOfMonth < daysInMonth ((yearOfEra : Int) + era * 400 + (if monthOf march ≤ 2 then 1 else 0))
      (monthOf march) := by
  obtain ⟨yearOfEra_lt, march_lt, sum, next, long⟩ := parts
  by_cases february : march = 11
  · subst february
    simp only [daysBefore] at long
    rcases long with short | ⟨last, four, century⟩
    · simp only [daysInMonth, monthOf]
      norm_num
      split <;> omega
    · have leap : isLeap (yearOfEra + era * 400 + 1) = true := by
        simp only [isLeap, Bool.and_eq_true, Bool.or_eq_true, beq_iff_eq, bne_iff_ne]
        omega
      simp [daysInMonth, monthOf, leap]
      omega
  · simp only [daysBefore] at next
    interval_cases march <;> simp [daysInMonth, monthOf] at * <;> omega

end DateParts

/-- The date of a day is a date of the calendar, and the date of that day. -/
theorem dateOfDay_spec (day : Int) : ∃ year month dayOfMonth, dateOfDay day = (year, month, dayOfMonth) ∧
    dayOfDate year month dayOfMonth = day ∧ 1 ≤ month ∧ month ≤ 12 ∧ 1 ≤ dayOfMonth ∧
      dayOfMonth ≤ daysInMonth year month := by
  obtain ⟨era, yearOfEra, march, dayOfMonth, parts, date⟩ := exists_dateParts day
  exact ⟨_, _, _, date, parts.dayOfDate_eq, parts.month_bounds.1, parts.month_bounds.2, Nat.le_add_left 1 dayOfMonth,
    parts.dayOfMonth_lt⟩

theorem toList_padded (width value : Nat) :
    (padded width value).toList =
      List.replicate (width - (Nat.toDigits 10 value).length) '0' ++ Nat.toDigits 10 value := by
  simp [padded, Nat.toString_eq_repr, ← String.length_toList, Nat.toList_repr]

theorem isDigit_of_mem_padded {width value : Nat} {c : Char} (member : c ∈ (padded width value).toList) :
    Text.isDigit c = true := by
  rw [toList_padded, List.mem_append] at member
  rcases member with zero | digit
  · rw [List.eq_of_mem_replicate zero]
    rfl
  · exact Decimal.isDigit_of_mem digit

theorem digitsValue_padded (width value : Nat) : digitsValue (padded width value).toList = value := by
  rw [digitsValue, Decimal.foldl_digits, toList_padded, Nat.ofDigitChars_append, Nat.ofDigitChars_replicate_zero,
    Nat.mul_zero, Nat.ofDigitChars_ten_toDigits]

theorem length_padded {width value : Nat} (positive : 0 < width) (fits : value < 10 ^ width) :
    (padded width value).toList.length = width := by
  have short : (Nat.toDigits 10 value).length ≤ width := (Nat.length_toDigits_le_iff (by decide) positive).mpr fits
  rw [toList_padded, List.length_append, List.length_replicate]
  omega

theorem exists_padded_eq_cons (width value : Nat) :
    ∃ first more, (padded width value).toList = first :: more ∧ Text.isDigit first = true := by
  have some : (padded width value).toList ≠ [] := by
    rw [toList_padded]
    exact List.append_ne_nil_of_right_ne_nil _ Nat.toDigits_ne_nil
  obtain ⟨first, more, written⟩ := List.exists_cons_of_ne_nil some
  exact ⟨first, more, written, isDigit_of_mem_padded (written ▸ List.mem_cons_self)⟩

theorem isBlank_of_isDigit {c : Char} (digit : Text.isDigit c = true) : Text.isBlank c = false := by
  have range : 48 ≤ c.toNat ∧ c.toNat ≤ 57 := by
    simpa [Text.isDigit, Char.le_def, UInt32.le_iff_toNat_le] using digit
  have ascii : c.toNat < 0x80 := by omega
  simp only [Text.isBlank, ascii, if_true]
  simp
  omega

/-- A digit stands first, so nothing is trimmed. -/
theorem trimStart_padded (width value : Nat) (rest : List Char) :
    Text.trimStart ((padded width value).toList ++ rest) = (padded width value).toList ++ rest := by
  obtain ⟨first, more, written, digit⟩ := exists_padded_eq_cons width value
  rw [written, Text.trimStart, List.cons_append, List.dropWhile_cons_of_neg (by simp [isBlank_of_isDigit digit])]

theorem number?_padded {width value : Nat} (positive : 0 < width) (fits : value < 10 ^ width) (rest : List Char) :
    number? width ((padded width value).toList ++ rest) = some (value, rest) := by
  have length := length_padded positive fits
  have taken : ((padded width value).toList ++ rest).take width = (padded width value).toList := by
    rw [List.take_append_of_le_length length.ge, List.take_of_length_le length.le]
  have digits : (padded width value).toList.takeWhile Text.isDigit = (padded width value).toList :=
    List.takeWhile_eq_self_iff.mpr fun _ => isDigit_of_mem_padded
  have left : ((padded width value).toList ++ rest).drop (padded width value).toList.length = rest :=
    List.drop_left
  obtain ⟨first, more, written, _⟩ := exists_padded_eq_cons width value
  have some : (padded width value).toList.isEmpty = false := by rw [written, List.isEmpty_cons]
  simp [number?, trimStart_padded, taken, digits, left, digitsValue_padded, some]

theorem mark?_cons {mark : Char} (visible : Text.isBlank mark = false) (rest : List Char) :
    mark? mark (mark :: rest) = some rest := by
  simp [mark?, Text.trimStart, visible]

theorem takeWhile_padded {next : Char} (other : Text.isDigit next = false) (width value : Nat) (rest : List Char) :
    ((padded width value).toList ++ next :: rest).takeWhile Text.isDigit = (padded width value).toList := by
  rw [List.takeWhile_append_of_pos fun _ => isDigit_of_mem_padded, List.takeWhile_cons_of_neg (by simp [other]),
    List.append_nil]

theorem dropWhile_padded {next : Char} (other : Text.isDigit next = false) (width value : Nat) (rest : List Char) :
    ((padded width value).toList ++ next :: rest).dropWhile Text.isDigit = next :: rest := by
  rw [List.dropWhile_append_of_pos fun _ => isDigit_of_mem_padded, List.dropWhile_cons_of_neg (by simp [other])]

theorem year?_yearText (year : Int) (rest : List Char) :
    year? ((yearText year).toList ++ '-' :: rest) = some (year, '-' :: rest) := by
  have dash : Text.isDigit '-' = false := by decide
  have signed (value : Nat) : ((padded 4 value).toList ++ '-' :: rest).head?.any Text.isDigit = true := by
    obtain ⟨first, more, written, digit⟩ := exists_padded_eq_cons 4 value
    rw [written]
    exact digit
  unfold yearText
  split_ifs with plain negative
  · have read := number?_padded (by decide) (show year.toNat < 10 ^ 4 by omega) ('-' :: rest)
    obtain ⟨first, more, written, digit⟩ := exists_padded_eq_cons 4 year.toNat
    rw [year?, trimStart_padded]
    rw [written] at read ⊢
    -- A digit is neither of the two signs.
    split
    · next same =>
      cases same
      cases digit
    · next same =>
      cases same
      cases digit
    · simp only [read, Option.map_some, Int.toNat_of_nonneg plain.1]
  · have value : -((-year).toNat : Int) = year := by omega
    have trimmed : Text.trimStart (("-" ++ padded 4 (-year).toNat).toList ++ '-' :: rest) =
      '-' :: ((padded 4 (-year).toNat).toList ++ '-' :: rest) := by simp [Text.trimStart, Text.isBlank]
    simp only [year?, trimmed, signed, takeWhile_padded dash, dropWhile_padded dash, digitsValue_padded, value,
      if_true]
  · have value : (year.toNat : Int) = year := by omega
    have trimmed : Text.trimStart (("+" ++ padded 4 year.toNat).toList ++ '-' :: rest) =
      '+' :: ((padded 4 year.toNat).toList ++ '-' :: rest) := by simp [Text.trimStart, Text.isBlank]
    simp only [year?, trimmed, signed, takeWhile_padded dash, dropWhile_padded dash, digitsValue_padded, value,
      if_true]

theorem fraction?_padded {width value : Nat} (positive : 0 < width) (short : width ≤ 9) (fits : value < 10 ^ width)
    {next : Char} (other : Text.isDigit next = false) (rest : List Char) :
    fraction? ('.' :: ((padded width value).toList ++ next :: rest)) =
      some (value * 10 ^ (9 - width), next :: rest) := by
  have length := length_padded positive fits
  have taken : (((padded width value).toList ++ next :: rest).take 9).takeWhile Text.isDigit =
      (padded width value).toList := by
    rw [List.take_append, List.take_of_length_le (length.trans_le short)]
    rw [length]
    cases same : 9 - width with
    | zero => simpa using fun c => isDigit_of_mem_padded
    | succ count => exact takeWhile_padded other width value (rest.take count)
  obtain ⟨first, more, written, _⟩ := exists_padded_eq_cons width value
  have some : (padded width value).toList.isEmpty = false := by rw [written, List.isEmpty_cons]
  have scaled : digitsValue ((padded width value).toList ++ List.replicate (9 - width) '0') =
      value * 10 ^ (9 - width) := by
    have own := digitsValue_padded width value
    rw [digitsValue, Decimal.foldl_digits] at own ⊢
    rw [Nat.ofDigitChars_append, own, Nat.ofDigitChars_replicate_zero, Nat.mul_comm]
  simp [fraction?, taken, some, length, scaled, dropWhile_padded other]

theorem fraction?_fractionText {nano : Nat} (small : nano < 1000000000) (rest : List Char) :
    fraction? ((fractionText nano).toList ++ 'Z' :: rest) = some (nano, 'Z' :: rest) := by
  have written {width value : Nat} (positive : 0 < width) (short : width ≤ 9) (fits : value < 10 ^ width)
      (whole : value * 10 ^ (9 - width) = nano) :
      fraction? (("." ++ padded width value).toList ++ 'Z' :: rest) = some (nano, 'Z' :: rest) := by
    have read := fraction?_padded positive short fits (show Text.isDigit 'Z' = false by decide) rest
    rw [whole] at read
    simpa using read
  unfold fractionText
  split_ifs with none milli micro
  · simp [fraction?, none]
  · exact written (by decide) (by decide) (by omega) (by omega)
  · exact written (by decide) (by decide) (by omega) (by omega)
  · exact written (by decide) (by decide) small (by omega)

/-- Instants that have a written form: years of at most 262143, seconds of a day, and a leap second only at the end of a
minute. -/
structure Valid (time : Timestamp) : Prop where
  year_ge : -262143 ≤ (dateOfDay time.day).1
  year_le : (dateOfDay time.day).1 ≤ 262142
  second_lt : time.second < 86400
  nano_lt : time.nano < 1000000000 ∨ time.nano < 2000000000 ∧ time.second % 60 = 59

theorem ofLocal_self {time : Timestamp} (valid : time.Valid) :
    ofLocal time.day time.second time.nano 0 = time := by
  have bound := valid.second_lt
  have day : (time.day * 86400 + (time.second : Int) - 0).fdiv 86400 = time.day := by
    rw [Int.fdiv_eq_ediv_of_nonneg _ (by decide)]
    omega
  have second : ((time.day * 86400 + (time.second : Int) - 0).fmod 86400).toNat = time.second := by
    rw [Int.fmod_eq_emod_of_nonneg _ (by decide)]
    omega
  simp only [ofLocal, day, second]

theorem daysInMonth_le (year : Int) (month : Nat) : daysInMonth year month ≤ 31 := by
  unfold daysInMonth
  split_ifs <;> decide

theorem date?_written {year : Int} {month day : Nat} (month_ge : 1 ≤ month) (month_le : month ≤ 12) (day_ge : 1 ≤ day)
    (day_le : day ≤ daysInMonth year month) (year_ge : -262143 ≤ year) (year_le : year ≤ 262142) (rest : List Char) :
    date? ((yearText year).toList ++ '-' :: ((padded 2 month).toList ++ '-' :: ((padded 2 day).toList ++ rest))) =
      some (dayOfDate year month day, rest) := by
  have dash : Text.isBlank '-' = false := by decide
  have short : day < 10 ^ 2 := by
    have bound := daysInMonth_le year month
    omega
  simp [date?, year?_yearText, mark?_cons dash, number?_padded (show 0 < 2 by decide) (show month < 10 ^ 2 by omega),
    number?_padded (show 0 < 2 by decide) short, month_ge, month_le, day_ge, day_le, year_ge, year_le]

theorem time?_written {second nano : Nat} (second_lt : second < 86400)
    (nano_lt : nano < 1000000000 ∨ nano < 2000000000 ∧ second % 60 = 59) (rest : List Char) :
    time? ((padded 2 (second / 3600)).toList ++ ':' :: ((padded 2 (second / 60 % 60)).toList ++
        ':' :: ((padded 2 (second % 60 + nano / 1000000000)).toList ++
          ((fractionText (nano % 1000000000)).toList ++ 'Z' :: rest)))) =
      some (second, nano, 'Z' :: rest) := by
  have colon : Text.isBlank ':' = false := by decide
  have hours := number?_padded (show 0 < 2 by decide) (show second / 3600 < 10 ^ 2 by omega)
  have minutes := number?_padded (show 0 < 2 by decide) (show second / 60 % 60 < 10 ^ 2 by omega)
  have seconds := number?_padded (show 0 < 2 by decide) (show second % 60 + nano / 1000000000 < 10 ^ 2 by omega)
  have fraction := fraction?_fractionText (show nano % 1000000000 < 1000000000 by omega) rest
  simp only [time?, hours, mark?_cons colon, minutes, seconds, fraction, Option.bind_eq_bind, Option.bind_some]
  split_ifs with plain leap
  · simp
    omega
  · simp
    omega
  · omega

/-- Reading the text of an instant gives the instant back. -/
theorem parse?_text {time : Timestamp} (valid : time.Valid) : parse? time.text = some time := by
  obtain ⟨year, month, day, date, back, month_ge, month_le, day_ge, day_le⟩ := dateOfDay_spec time.day
  have year_ge := valid.year_ge
  have year_le := valid.year_le
  rw [date] at year_ge year_le
  have written : time.text.toList = (yearText year).toList ++ '-' :: ((padded 2 month).toList ++
      '-' :: ((padded 2 day).toList ++ 'T' :: ((padded 2 (time.second / 3600)).toList ++
        ':' :: ((padded 2 (time.second / 60 % 60)).toList ++
          ':' :: ((padded 2 (time.second % 60 + time.nano / 1000000000)).toList ++
            ((fractionText (time.nano % 1000000000)).toList ++ ['Z'])))))) := by
    simp [text, localText, date]
  have offset : offset? ['Z'] = some (0, []) := by decide
  simp only [parse?, written, date?_written month_ge month_le day_ge day_le year_ge year_le, separator?,
    time?_written valid.second_lt valid.nano_lt, offset, Option.bind_eq_bind, Option.bind_some, back,
    ofLocal_self valid]
  rfl

end CallAtlas.Timestamp
