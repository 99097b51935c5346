import FerrisScope.CronFields
import FerrisScope.GregorianDates

/-!
# The next run of a cron schedule

A schedule is five sets of bits. The search for the next run starts at the minute after the
given time and goes through the days one by one, for five years; the time is a date of the
range the calendar library has, a second of the day and a fraction.
-/

namespace FerrisScope.CronSchedules
open CronFields GregorianDates HostsFile

structure CronSchedule where
  minutes : ℕ
  hours : ℕ
  doms : ℕ
  months : ℕ
  dows : ℕ
  domRestricted : Bool
  dowRestricted : Bool
  deriving DecidableEq, Repr

def maxLookaheadDays : ℕ := 5 * 366

/-- The words of a text. -/
def splitWhitespace (t : Text) : List Text := (t.splitOnP isWhitespace).filter fun w => !w.isEmpty

def isRestricted (field : Text) : Bool :=
  !(field.splitOn ',').any fun part =>
    isWildcard (((SplitOnce.splitOnce ['/'] (trim part)).map Prod.fst).getD (trim part))

/-- Conversion to a narrower integer type. -/
def narrow (width : ℕ) (bits : ℕ) : Option ℕ := if bits < 2 ^ width then some bits else none

def parseFields (expr : Text) : Option CronSchedule :=
  match splitWhitespace expr with
  | [minute, hour, dom, month, dow] =>
      (parseField minuteBounds minute).bind fun minutes =>
      ((parseField hourBounds hour).bind (narrow 32)).bind fun hours =>
      ((parseField domBounds dom).bind (narrow 32)).bind fun doms =>
      ((parseField monthBounds month).bind (narrow 16)).bind fun months =>
      ((parseField dowBounds dow).bind fun dows => narrow 8 (normalizeDow dows)).map fun dows =>
        ⟨minutes % 2 ^ 64, hours, doms, months, dows, isRestricted dom, isRestricted dow⟩
  | _ => none

local instance : LawfulBEq Text := inferInstanceAs (LawfulBEq (List Char))

def expandMacro (name : Text) : Option Text :=
  if name ∈ ["yearly".toList, "annually".toList] then some "0 0 1 1 *".toList
  else if name = "monthly".toList then some "0 0 1 * *".toList
  else if name = "weekly".toList then some "0 0 * * 0".toList
  else if name ∈ ["daily".toList, "midnight".toList] then some "0 0 * * *".toList
  else if name = "hourly".toList then some "0 * * * *".toList
  else none

def parse (expr : Text) : Option CronSchedule :=
  match trim expr with
  | [] => none
  | '@' :: name => (expandMacro (toAsciiLowercase name)).bind parseFields
  | expr => parseFields expr

/-! ## Dates and times -/

def minYear : ℤ := -262143

def maxYear : ℤ := 262142

structure NaiveDate where
  date : Date
  from_min : minYear ≤ date.year
  to_max : date.year ≤ maxYear

theorem year_le_next (d : Date) : d.year ≤ (next d).year := by
  unfold next
  split_ifs
  · exact le_rfl
  · exact le_rfl
  · exact Int.le_add_one le_rfl

def NaiveDate.succOpt (d : NaiveDate) : Option NaiveDate :=
  if h : (next d.date).year ≤ maxYear then
    some ⟨next d.date, d.from_min.trans (year_le_next d.date), h⟩
  else none

structure NaiveDateTime where
  date : NaiveDate
  secs : ℕ
  /-- Nanoseconds; a leap second has those from a billion on. -/
  frac : ℕ
  secs_lt : secs < 86400
  frac_lt : frac < 2000000000

/-- Minutes since the first day of year 1, its own number apart. -/
def minuteNumber (t : NaiveDateTime) : ℤ := dayNumber t.date.date * 1440 + t.secs / 60

def Before (t t' : NaiveDateTime) : Prop :=
  dayNumber t.date.date < dayNumber t'.date.date ∨
    (dayNumber t.date.date = dayNumber t'.date.date ∧
      (t.secs < t'.secs ∨ (t.secs = t'.secs ∧ t.frac < t'.frac)))

def atMinute (d : NaiveDate) (m : ℕ) (hm : m < 1440) : NaiveDateTime :=
  ⟨d, m * 60, 0, by omega, by decide⟩

/-! ## The search -/

def hasBit (bits n : ℕ) : Bool := decide (bits &&& (1 <<< n) ≠ 0)

def matchesDate (s : CronSchedule) (d : Date) : Bool :=
  if hasBit s.months d.month = false then false
  else
    let domHit := hasBit s.doms d.day
    let dowHit := hasBit s.dows (weekday d)
    if s.domRestricted && s.dowRestricted then domHit || dowHit else domHit && dowHit

def matchesMinute (s : CronSchedule) (m : ℕ) : Bool :=
  hasBit s.hours (m / 60) && hasBit s.minutes (m % 60)

def firstMinute (s : CronSchedule) (fromMinute : ℕ) : Option ℕ :=
  (List.range' fromMinute (1440 - fromMinute)).find? (matchesMinute s)

def search (s : CronSchedule) : ℕ → NaiveDate → ℕ → Option NaiveDateTime
  | 0, _, _ => none
  | rounds + 1, d, fromMinute =>
      match if matchesDate s d.date then firstMinute s fromMinute else none with
      | some m => if hm : m < 1440 then some (atMinute d m hm) else none
      | none => d.succOpt.bind fun d => search s rounds d 0

/-- The date and time have no successor in the library's range, and the addition panics. -/
inductive Overflow where
  | overflowed
  deriving DecidableEq, Repr

def startMinute (after : NaiveDateTime) : Except Overflow (NaiveDate × ℕ) :=
  let m := after.secs / 60 + 1
  if m < 1440 then .ok (after.date, m)
  else match after.date.succOpt with
    | some d => .ok (d, 0)
    | none => .error .overflowed

def nextAfter (s : CronSchedule) (after : NaiveDateTime) : Except Overflow (Option NaiveDateTime) :=
  (startMinute after).map fun start => search s maxLookaheadDays start.1 start.2

/-! ## What it should find -/

/-- Days count by either rule when both are restricted, else by both. -/
def DayMatches (s : CronSchedule) (d : Date) : Prop :=
  if s.domRestricted = true ∧ s.dowRestricted = true then
    s.doms.testBit d.day = true ∨ s.dows.testBit (weekday d) = true
  else s.doms.testBit d.day = true ∧ s.dows.testBit (weekday d) = true

/-- A full minute at which the schedule fires. -/
structure Fires (s : CronSchedule) (t : NaiveDateTime) : Prop where
  full : t.frac = 0 ∧ t.secs % 60 = 0
  month : s.months.testBit t.date.date.month = true
  day : DayMatches s t.date.date
  hour : s.hours.testBit (t.secs / 3600) = true
  minute : s.minutes.testBit (t.secs / 60 % 60) = true

/-- The days from the one of the next minute on, as many as the search goes through. -/
def InHorizon (after t : NaiveDateTime) : Prop :=
  dayNumber t.date.date < (minuteNumber after + 1) / 1440 + maxLookaheadDays

/-- The least firing minute after the given time, or none when there is none in the horizon. -/
def NextCorrect (s : CronSchedule) (after : NaiveDateTime) : Prop :=
  ∃ result, nextAfter s after = .ok result ∧
    (∀ t, result = some t → Fires s t ∧ Before after t ∧
      ∀ t', Fires s t' → Before after t' → ¬ Before t' t) ∧
    (result = none ↔ ¬ ∃ t, Fires s t ∧ Before after t ∧ InHorizon after t)

/-- The last minute of the last date of the range. -/
def LastMinute (t : NaiveDateTime) : Prop :=
  t.date.date.year = maxYear ∧ t.date.date.month = 12 ∧ t.date.date.day = 31 ∧ 86340 ≤ t.secs

/-! ## Days and minutes -/

theorem hasBit_eq (bits n : ℕ) : hasBit bits n = bits.testBit n := by
  rw [hasBit, Nat.one_shiftLeft, Nat.and_two_pow]
  cases bits.testBit n <;> simp

theorem matchesDate_iff {s : CronSchedule} {d : Date} :
    matchesDate s d = true ↔ s.months.testBit d.month = true ∧ DayMatches s d := by
  simp only [matchesDate, hasBit_eq, DayMatches]
  cases s.months.testBit d.month <;> cases s.domRestricted <;> cases s.dowRestricted <;> simp

theorem fires_iff {s : CronSchedule} {t : NaiveDateTime} : Fires s t ↔
    (t.frac = 0 ∧ t.secs % 60 = 0) ∧ matchesDate s t.date.date = true ∧
      matchesMinute s (t.secs / 60) = true := by
  have hhour : t.secs / 3600 = t.secs / 60 / 60 := by omega
  rw [matchesDate_iff, matchesMinute, hasBit_eq, hasBit_eq, Bool.and_eq_true, ← hhour]
  constructor
  · intro h
    exact ⟨h.full, ⟨h.month, h.day⟩, h.hour, h.minute⟩
  · rintro ⟨hfull, ⟨hmonth, hday⟩, hhour, hminute⟩
    exact ⟨hfull, hmonth, hday, hhour, hminute⟩

/-- Full minutes compare as their numbers do. -/
theorem before_iff {t t' : NaiveDateTime} (h : t'.frac = 0 ∧ t'.secs % 60 = 0) :
    Before t t' ↔ minuteNumber t < minuteNumber t' := by
  obtain ⟨hfrac, hsecs⟩ := h
  have hlt := t.secs_lt
  have hlt' := t'.secs_lt
  unfold Before minuteNumber
  omega

theorem minuteNumber_atMinute (d : NaiveDate) {m : ℕ} (hm : m < 1440) :
    minuteNumber (atMinute d m hm) = dayNumber d.date * 1440 + m := by
  unfold minuteNumber atMinute
  push_cast
  omega

theorem NaiveDate.dayNumber_injective {d d' : NaiveDate} (h : dayNumber d.date = dayNumber d'.date) :
    d = d' := by
  have hdate := GregorianDates.dayNumber_injective h
  cases d
  cases d'
  cases hdate
  rfl

/-- A date without a successor is the last one. -/
theorem dayNumber_le_of_succOpt {d : NaiveDate} (h : d.succOpt = none) (d' : NaiveDate) :
    dayNumber d'.date ≤ dayNumber d.date := by
  unfold NaiveDate.succOpt at h
  split_ifs at h with hyear
  have hlt := dayNumber_lt_of_year (lt_of_le_of_lt d'.to_max (not_le.mp hyear))
  rw [dayNumber_next] at hlt
  omega

theorem dayNumber_succOpt {d d' : NaiveDate} (h : d.succOpt = some d') :
    dayNumber d'.date = dayNumber d.date + 1 := by
  unfold NaiveDate.succOpt at h
  split_ifs at h
  cases h
  exact dayNumber_next d.date

theorem firstMinute_eq_some {s : CronSchedule} {fromMinute m : ℕ}
    (h : firstMinute s fromMinute = some m) : matchesMinute s m = true ∧ fromMinute ≤ m ∧ m < 1440 ∧
      ∀ j, fromMinute ≤ j → j < m → matchesMinute s j = false := by
  obtain ⟨hm, hmem, hfirst⟩ := List.find?_range'_eq_some.mp h
  rw [List.mem_range'_1] at hmem
  refine ⟨hm, hmem.1, by omega, fun j hj hlt => ?_⟩
  simpa using hfirst j hj hlt

theorem firstMinute_eq_none {s : CronSchedule} {fromMinute : ℕ}
    (h : firstMinute s fromMinute = none) {m : ℕ} (hfrom : fromMinute ≤ m) (hm : m < 1440) :
    matchesMinute s m = false := by
  have hnone := List.find?_range'_eq_none.mp h m hfrom (by omega)
  simpa using hnone

/-! ## The search goes through every minute -/

/-- The day of the search: its first matching minute, if the day matches. -/
theorem day_eq_some {s : CronSchedule} {d : Date} {fromMinute m : ℕ}
    (h : (if matchesDate s d then firstMinute s fromMinute else none) = some m) :
    matchesDate s d = true ∧ firstMinute s fromMinute = some m := by
  split_ifs at h with hd
  exact ⟨hd, h⟩

/-- A day without a result has no firing minute from the given one on. -/
theorem day_eq_none {s : CronSchedule} {d : NaiveDate} {fromMinute : ℕ}
    (h : (if matchesDate s d.date then firstMinute s fromMinute else none) = none)
    {t : NaiveDateTime} (ht : Fires s t) (hfrom : dayNumber d.date * 1440 + fromMinute ≤ minuteNumber t) :
    dayNumber d.date + 1 ≤ dayNumber t.date.date := by
  have hlt := t.secs_lt
  obtain ⟨-, hdate, hminute⟩ := fires_iff.mp ht
  have hle : dayNumber d.date ≤ dayNumber t.date.date := by
    unfold minuteNumber at hfrom
    omega
  by_contra hnot
  have heq : dayNumber t.date.date = dayNumber d.date := by omega
  rw [NaiveDate.dayNumber_injective heq] at hdate
  rw [if_pos hdate] at h
  have hfrom' : fromMinute ≤ t.secs / 60 := by
    unfold minuteNumber at hfrom
    omega
  rw [firstMinute_eq_none h hfrom' (by omega)] at hminute
  cases hminute

theorem search_eq_some {s : CronSchedule} {rounds : ℕ} {d : NaiveDate} {fromMinute : ℕ}
    {t : NaiveDateTime} (hday : fromMinute ≤ 1440) (h : search s rounds d fromMinute = some t) :
    Fires s t ∧ dayNumber d.date * 1440 + fromMinute ≤ minuteNumber t ∧
      dayNumber t.date.date < dayNumber d.date + rounds ∧
      ∀ t', Fires s t' → dayNumber d.date * 1440 + fromMinute ≤ minuteNumber t' →
        minuteNumber t ≤ minuteNumber t' := by
  induction rounds generalizing d fromMinute with
  | zero => cases h
  | succ rounds ih =>
    rw [search] at h
    split at h
    · next m hm =>
      obtain ⟨hdate, hfirst⟩ := day_eq_some hm
      obtain ⟨hminute, hfrom, hlt, hleast⟩ := firstMinute_eq_some hfirst
      rw [dif_pos hlt] at h
      cases h
      have hdiv : (atMinute d m hlt).secs / 60 = m := Nat.mul_div_cancel m (by decide)
      have hnumber := minuteNumber_atMinute d hlt
      refine ⟨fires_iff.mpr ⟨⟨rfl, Nat.mul_mod_left m 60⟩, hdate, ?_⟩, ?_, ?_, ?_⟩
      · rw [hdiv]
        exact hminute
      · rw [hnumber]
        omega
      · have hday : (atMinute d m hlt).date = d := rfl
        rw [hday]
        omega
      · intro t' ht' hfrom'
        rw [hnumber]
        have hlt' := t'.secs_lt
        have hminute' := (fires_iff.mp ht').2.2
        by_contra hnot
        have hmin : fromMinute ≤ t'.secs / 60 ∧ t'.secs / 60 < m := by
          unfold minuteNumber at hnot hfrom'
          omega
        rw [hleast _ hmin.1 hmin.2] at hminute'
        cases hminute'
    · next hnone =>
      obtain ⟨d', hd', h⟩ := Option.bind_eq_some_iff.mp h
      have hsucc := dayNumber_succOpt hd'
      obtain ⟨hfires, hfrom, hlast, hleast⟩ := ih (Nat.zero_le _) h
      refine ⟨hfires, by omega, by omega, fun t' ht' hfrom' => ?_⟩
      apply hleast t' ht'
      have hnext := day_eq_none hnone ht' hfrom'
      unfold minuteNumber
      omega

theorem search_eq_none {s : CronSchedule} {rounds : ℕ} {d : NaiveDate} {fromMinute : ℕ}
    (h : search s rounds d fromMinute = none) {t : NaiveDateTime} (ht : Fires s t)
    (hfrom : dayNumber d.date * 1440 + fromMinute ≤ minuteNumber t) :
    dayNumber d.date + rounds ≤ dayNumber t.date.date := by
  induction rounds generalizing d fromMinute with
  | zero =>
    have hlt := t.secs_lt
    unfold minuteNumber at hfrom
    omega
  | succ rounds ih =>
    rw [search] at h
    split at h
    · next m hm =>
      obtain ⟨-, hfirst⟩ := day_eq_some hm
      rw [dif_pos (firstMinute_eq_some hfirst).2.2.1] at h
      cases h
    · next hnone =>
      have hnext := day_eq_none hnone ht hfrom
      cases hsucc : d.succOpt with
      | none =>
        have hle := dayNumber_le_of_succOpt hsucc t.date
        omega
      | some d' =>
        rw [hsucc, Option.bind_some] at h
        have hnumber := dayNumber_succOpt hsucc
        have hlater := ih h (by unfold minuteNumber; omega)
        push_cast
        omega

theorem startMinute_ok {after : NaiveDateTime} {d : NaiveDate} {m : ℕ}
    (h : startMinute after = .ok (d, m)) :
    m ≤ 1440 ∧ dayNumber d.date * 1440 + m = minuteNumber after + 1 ∧
      dayNumber d.date = (minuteNumber after + 1) / 1440 := by
  have hlt := after.secs_lt
  unfold startMinute at h
  simp only at h
  split_ifs at h with hm
  · cases h
    unfold minuteNumber
    omega
  · split at h
    · next d' hd' =>
      cases h
      have hnumber := dayNumber_succOpt hd'
      unfold minuteNumber
      omega
    · cases h

theorem nextAfter_of_start (s : CronSchedule) {after : NaiveDateTime} {d : NaiveDate} {m : ℕ}
    (h : startMinute after = .ok (d, m)) :
    nextAfter s after = .ok (search s maxLookaheadDays d m) := by
  rw [nextAfter, h]
  rfl

/-- The minutes after a time are those from its start on. -/
theorem before_iff_start {s : CronSchedule} {after t : NaiveDateTime} {d : NaiveDate} {m : ℕ}
    (h : startMinute after = .ok (d, m)) (ht : Fires s t) :
    Before after t ↔ dayNumber d.date * 1440 + m ≤ minuteNumber t := by
  have hnumber := (startMinute_ok h).2.1
  rw [before_iff ht.full]
  omega

/-- The result of the search is the least firing minute after the given time. -/
theorem search_some_of_start {s : CronSchedule} {after t : NaiveDateTime} {d : NaiveDate} {m : ℕ}
    (hstart : startMinute after = .ok (d, m)) (h : search s maxLookaheadDays d m = some t) :
    Fires s t ∧ Before after t ∧ InHorizon after t ∧
      ∀ t', Fires s t' → Before after t' → ¬ Before t' t := by
  obtain ⟨hm, -, hday⟩ := startMinute_ok hstart
  obtain ⟨hfires, hlater, hlast, hleast⟩ := search_eq_some hm h
  refine ⟨hfires, (before_iff_start hstart hfires).mpr hlater, ?_, fun t' ht' hbefore => ?_⟩
  · unfold InHorizon
    omega
  · rw [before_iff hfires.full, not_lt]
    exact hleast t' ht' ((before_iff_start hstart ht').mp hbefore)

theorem search_none_of_start {s : CronSchedule} {after t : NaiveDateTime} {d : NaiveDate} {m : ℕ}
    (hstart : startMinute after = .ok (d, m)) (h : search s maxLookaheadDays d m = none)
    (ht : Fires s t) (hbefore : Before after t) : ¬ InHorizon after t := by
  have hday := (startMinute_ok hstart).2.2
  have hpast := search_eq_none h ht ((before_iff_start hstart ht).mp hbefore)
  unfold InHorizon
  omega

theorem monthLength_december (y : ℤ) : monthLength y 12 = 31 := rfl

theorem succOpt_eq_none {d : NaiveDate} :
    d.succOpt = none ↔ d.date.year = maxYear ∧ d.date.month = 12 ∧ d.date.day = 31 := by
  have hto := d.to_max
  have hmonth := d.date.month_le
  have hday := d.date.day_le
  have hyear : (next d.date).year = if d.date.day < monthLength d.date.year d.date.month then
      d.date.year else if d.date.month < 12 then d.date.year else d.date.year + 1 := by
    unfold next
    split_ifs <;> rfl
  have hnone : d.succOpt = none ↔ maxYear < (next d.date).year := by
    unfold NaiveDate.succOpt
    split_ifs with h
    · simpa using h
    · simpa using h
  rw [hnone, hyear]
  split_ifs with hshort hdec
  · constructor
    · intro h
      omega
    · rintro ⟨-, hm, hd⟩
      rw [hm, hd, monthLength_december] at hshort
      omega
  · constructor
    · intro h
      omega
    · rintro ⟨-, hm, -⟩
      omega
  · have hm : d.date.month = 12 := by omega
    rw [hm, monthLength_december] at hshort hday
    constructor
    · intro h
      exact ⟨by omega, hm, by omega⟩
    · rintro ⟨hy, -, -⟩
      omega

/-- Only the last minute has no next one. -/
theorem startMinute_error {after : NaiveDateTime} :
    startMinute after = .error .overflowed ↔ LastMinute after := by
  have hlt := after.secs_lt
  have hlast : LastMinute after ↔ after.date.succOpt = none ∧ 86340 ≤ after.secs := by
    rw [LastMinute, succOpt_eq_none]
    tauto
  rw [hlast]
  unfold startMinute
  simp only
  split_ifs with hm
  · constructor
    · intro h
      cases h
    · rintro ⟨-, hsecs⟩
      omega
  · cases hsucc : after.date.succOpt with
    | none => exact ⟨fun _ => ⟨rfl, by omega⟩, fun _ => rfl⟩
    | some d =>
      constructor
      · intro h
        cases h
      · rintro ⟨h, -⟩
        cases h

/-- The search is right from exactly the times that have a next minute. -/
theorem nextAfter_correct_iff (s : CronSchedule) (after : NaiveDateTime) :
    NextCorrect s after ↔ ¬ LastMinute after := by
  rw [← startMinute_error]
  cases hstart : startMinute after with
  | error e =>
    have herror : nextAfter s after = .error e := by
      rw [nextAfter, hstart]
      rfl
    constructor
    · rintro ⟨result, hresult, -⟩
      cases herror.symm.trans hresult
    · intro h
      cases e
      exact absurd rfl h
  | ok start =>
    obtain ⟨d, m⟩ := start
    refine ⟨fun _ => nofun, fun _ => ⟨_, nextAfter_of_start s hstart, ?_, ?_⟩⟩
    · intro t ht
      obtain ⟨hfires, hlater, -, hleast⟩ := search_some_of_start hstart ht
      exact ⟨hfires, hlater, hleast⟩
    · constructor
      · rintro hnone ⟨t, ht, hbefore, hhorizon⟩
        exact search_none_of_start hstart hnone ht hbefore hhorizon
      · intro hno
        cases hsearch : search s maxLookaheadDays d m with
        | none => rfl
        | some t =>
          obtain ⟨hfires, hlater, hhorizon, -⟩ := search_some_of_start hstart hsearch
          exact absurd ⟨t, hfires, hlater, hhorizon⟩ hno

/-- Every minute, from the last second of the range. -/
theorem last_minute_overflows :
    ∃ s, parse "* * * * *".toList = some s ∧
      ∃ after, nextAfter s after = .error .overflowed ∧ ¬ NextCorrect s after := by
  refine ⟨⟨2 ^ 60 - 1, 2 ^ 24 - 1, (2 ^ 31 - 1) * 2, (2 ^ 12 - 1) * 2, 2 ^ 7 - 1, false, false⟩,
    by decide, ⟨⟨⟨262142, 12, 31, by decide, by decide, by decide, by decide⟩, by decide,
    by decide⟩, 86399, 0, by decide, by decide⟩, rfl, ?_⟩
  rintro ⟨result, hresult, -⟩
  cases hresult

end FerrisScope.CronSchedules
