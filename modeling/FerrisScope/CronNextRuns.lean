import FerrisScope.CronSchedules

/-!
# The instant of the next run

A zone takes an instant to the time its clock shows. The clock may jump ahead, so that some
times name no instant, and go back, so that some name two. The search for the next run is in
local times, and its result is taken back to the earliest instant with that time.
-/

namespace FerrisScope.CronNextRuns
open CronSchedules GregorianDates HostsFile

/-- Instants are times of the calendar too, those of the universal clock. -/
structure TimeZone where
  toLocal : NaiveDateTime → Except Overflow NaiveDateTime
  earliest : NaiveDateTime → Option NaiveDateTime
  earliest_local : ∀ {t i}, earliest t = some i → toLocal i = .ok t
  earliest_least : ∀ {t i j}, earliest t = some i → toLocal j = .ok t → ¬ Before j i
  earliest_none : ∀ {t}, earliest t = none → ∀ i, toLocal i ≠ .ok t

def addDays (d : NaiveDate) : ℕ → Option NaiveDate
  | 0 => some d
  | n + 1 => d.succOpt.bind fun d => addDays d n

/-- The addition of one minute or more leaves a leap second. -/
def addMinutes (t : NaiveDateTime) (m : ℕ) : Except Overflow NaiveDateTime :=
  match addDays t.date ((t.secs + m * 60) / 86400) with
  | some d => .ok ⟨d, (t.secs + m * 60) % 86400, t.frac % 1000000000,
      Nat.mod_lt _ (by decide), (Nat.mod_lt _ (by decide)).trans (by decide)⟩
  | none => .error .overflowed

def findMap (tz : TimeZone) (t : NaiveDateTime) : List ℕ → Except Overflow (Option NaiveDateTime)
  | [] => .ok none
  | m :: ms => (addMinutes t m).bind fun u =>
      match tz.earliest u with
      | some i => .ok (some i)
      | none => findMap tz t ms

def resolveLocal (tz : TimeZone) (t : NaiveDateTime) : Except Overflow (Option NaiveDateTime) :=
  match tz.earliest t with
  | some i => .ok (some i)
  | none => findMap tz t (List.range' 1 180)

/-- The zone's part of the answer, from the time its clock shows. -/
def nextRunIn (tz : TimeZone) (s : CronSchedule) (now : NaiveDateTime) :
    Except Overflow (Option NaiveDateTime) :=
  (tz.toLocal now).bind fun localNow =>
  (nextAfter s localNow).bind fun
    | some nextLocal => resolveLocal tz nextLocal
    | none => .ok none

/-- The answer before it is printed. -/
def nextRunRfc3339 (zones : Text → Option TimeZone) (schedule : Text) (timeZone : Option Text)
    (now : NaiveDateTime) : Except Overflow (Option NaiveDateTime) :=
  match parse schedule with
  | none => .ok none
  | some s =>
      match timeZone with
      | none => nextAfter s now
      | some name =>
          match zones name with
          | none => .ok none
          | some tz => nextRunIn tz s now

/-! ## What the answer should come from -/

/-- The least firing minute after the given time, in the horizon of the search. -/
structure NextMinute (s : CronSchedule) (after t : NaiveDateTime) : Prop where
  fires : Fires s t
  later : Before after t
  horizon : InHorizon after t
  least : ∀ t', Fires s t' → Before after t' → ¬ Before t' t

def Full (t : NaiveDateTime) : Prop := t.frac = 0 ∧ t.secs % 60 = 0

/-- The first minute with its number in the range that the zone's clock shows at some instant. -/
structure Shown (tz : TimeZone) (first last : ℤ) (t : NaiveDateTime) : Prop where
  full : Full t
  from_first : first ≤ minuteNumber t
  to_last : minuteNumber t < last
  shown : ∃ i, tz.toLocal i = .ok t
  least : ∀ u, Full u → first ≤ minuteNumber u → minuteNumber u < minuteNumber t →
    ∀ i, tz.toLocal i ≠ .ok u

/-- The minute of the next run, moved over a gap of the zone's clock of three hours at most,
has been on that clock at no instant up to now. -/
def Unshown (tz : TimeZone) (s : CronSchedule) (now : NaiveDateTime) : Prop :=
  ∀ localNow t t', tz.toLocal now = .ok localNow → NextMinute s localNow t →
    Shown tz (minuteNumber t) (minuteNumber t + 181) t' →
    ∀ i, tz.toLocal i = .ok t' → Before now i

/-! ## The order of times -/

theorem yearStart_lt_dayNumber (d : NaiveDate) : yearStart minYear < dayNumber d.date := by
  have hle := yearStart_le d.from_min
  have hday := d.date.day_pos
  unfold dayNumber
  omega

/-- Nanoseconds since the first date of the range, leap seconds laid out for every second. -/
def rank (t : NaiveDateTime) : ℕ :=
  ((dayNumber t.date.date - yearStart minYear).toNat * 86400 + t.secs) * 2000000000 + t.frac

theorem before_iff_rank {t t' : NaiveDateTime} : Before t t' ↔ rank t < rank t' := by
  have hday := yearStart_lt_dayNumber t.date
  have hday' := yearStart_lt_dayNumber t'.date
  have hsecs := t.secs_lt
  have hsecs' := t'.secs_lt
  have hfrac := t.frac_lt
  have hfrac' := t'.frac_lt
  unfold Before rank
  omega

theorem rank_injective : Function.Injective rank := by
  intro t t' h
  have hday := yearStart_lt_dayNumber t.date
  have hday' := yearStart_lt_dayNumber t'.date
  have hsecs := t.secs_lt
  have hsecs' := t'.secs_lt
  have hfrac := t.frac_lt
  have hfrac' := t'.frac_lt
  unfold rank at h
  have hdate : t.date = t'.date := NaiveDate.dayNumber_injective (by omega)
  have hsame : t.secs = t'.secs ∧ t.frac = t'.frac := by omega
  cases t
  cases t'
  simp_all

theorem full_injective {t u : NaiveDateTime} (ht : Full t) (hu : Full u)
    (h : minuteNumber t = minuteNumber u) : t = u := by
  by_contra hne
  rcases lt_or_gt_of_ne (rank_injective.ne hne) with hlt | hlt
  · exact absurd ((before_iff hu).mp (before_iff_rank.mpr hlt)) h.not_lt
  · exact absurd ((before_iff ht).mp (before_iff_rank.mpr hlt)) h.symm.not_lt

/-! ## The search gives the next minute -/

theorem nextAfter_eq_some {s : CronSchedule} {after t : NaiveDateTime} :
    nextAfter s after = .ok (some t) ↔ NextMinute s after t := by
  cases hstart : startMinute after with
  | error e =>
    cases e
    have herror : nextAfter s after = .error .overflowed := by
      rw [nextAfter, hstart]
      rfl
    rw [herror]
    constructor
    · intro h
      cases h
    -- nothing is later than the last minute
    intro h
    obtain ⟨hyear, hmonth, hday, hsecs⟩ := startMinute_error.mp hstart
    have hle := dayNumber_le_of_succOpt (succOpt_eq_none.mpr ⟨hyear, hmonth, hday⟩) t.date
    have hlater := (before_iff h.fires.full).mp h.later
    have hlt := t.secs_lt
    unfold minuteNumber at hlater
    omega
  | ok start =>
    obtain ⟨d, m⟩ := start
    rw [nextAfter_of_start s hstart, Except.ok.injEq]
    constructor
    · intro hsearch
      obtain ⟨hfires, hlater, hhorizon, hleast⟩ := search_some_of_start hstart hsearch
      exact ⟨hfires, hlater, hhorizon, hleast⟩
    · intro h
      cases hsearch : search s maxLookaheadDays d m with
      | none => exact absurd h.horizon (search_none_of_start hstart hsearch h.fires h.later)
      | some t' =>
        obtain ⟨hfires, hlater, -, hleast⟩ := search_some_of_start hstart hsearch
        have hle := hleast t h.fires h.later
        have hge := h.least t' hfires hlater
        rw [before_iff hfires.full, not_lt] at hle
        rw [before_iff h.fires.full, not_lt] at hge
        rw [full_injective hfires.full h.fires.full (le_antisymm hle hge)]

/-! ## The minutes that are probed -/

theorem dayNumber_addDays {d d' : NaiveDate} {n : ℕ} (h : addDays d n = some d') :
    dayNumber d'.date = dayNumber d.date + n := by
  induction n generalizing d with
  | zero =>
    cases h
    simp
  | succ n ih =>
    obtain ⟨d₁, hsucc, h⟩ := Option.bind_eq_some_iff.mp h
    have hstep := dayNumber_succOpt hsucc
    have hrest := ih h
    push_cast
    omega

theorem addDays_eq_none {d : NaiveDate} {n : ℕ} (h : addDays d n = none) (d' : NaiveDate) :
    dayNumber d'.date < dayNumber d.date + n := by
  induction n generalizing d with
  | zero => cases h
  | succ n ih =>
    rw [addDays] at h
    cases hsucc : d.succOpt with
    | none =>
      have hle := dayNumber_le_of_succOpt hsucc d'
      push_cast
      omega
    | some d₁ =>
      rw [hsucc, Option.bind_some] at h
      have hstep := dayNumber_succOpt hsucc
      have hrest := ih h
      push_cast
      omega

theorem addMinutes_ok {t u : NaiveDateTime} {m : ℕ} (ht : Full t) (h : addMinutes t m = .ok u) :
    Full u ∧ minuteNumber u = minuteNumber t + m := by
  obtain ⟨hfrac, hsecs⟩ := ht
  unfold addMinutes at h
  split at h
  · next d hd =>
    cases h
    have hdays := dayNumber_addDays hd
    unfold Full minuteNumber
    simp only
    omega
  · cases h

theorem addMinutes_error {t : NaiveDateTime} {m : ℕ} {e : Overflow} (h : addMinutes t m = .error e)
    (u : NaiveDateTime) : minuteNumber u < minuteNumber t + m := by
  unfold addMinutes at h
  split at h
  · cases h
  · next hnone =>
    have hdays := addDays_eq_none hnone u.date
    have hlt := u.secs_lt
    unfold minuteNumber
    omega

theorem addMinutes_zero {t : NaiveDateTime} (ht : Full t) : addMinutes t 0 = .ok t := by
  cases h : addMinutes t 0 with
  | error e =>
    have hlt := addMinutes_error h t
    omega
  | ok u =>
    obtain ⟨hu, hnumber⟩ := addMinutes_ok ht h
    rw [full_injective hu ht (by omega)]

section Probes
variable {tz : TimeZone} {first last : ℤ} {t u : NaiveDateTime}

theorem shown_first_iff (hu : Full u) (hfirst : minuteNumber u = first) (hlast : first < last)
    (hshown : ∃ i, tz.toLocal i = .ok u) : Shown tz first last t ↔ t = u := by
  constructor
  · intro h
    refine full_injective h.full hu (le_antisymm (not_lt.mp fun hlt => ?_) ?_)
    · obtain ⟨i, hi⟩ := hshown
      exact h.least u hu hfirst.ge hlt i hi
    · exact hfirst.trans_le h.from_first
  · rintro rfl
    exact ⟨hu, hfirst.ge, hfirst.trans_lt hlast, hshown, by omega⟩

/-- A minute that is never shown can be left out of the range. -/
theorem shown_succ_iff (hu : Full u) (hfirst : minuteNumber u = first)
    (hnever : ∀ i, tz.toLocal i ≠ .ok u) : Shown tz first last t ↔ Shown tz (first + 1) last t := by
  constructor
  · intro h
    have hne : minuteNumber t ≠ minuteNumber u := by
      intro heq
      obtain ⟨i, hi⟩ := h.shown
      rw [full_injective h.full hu heq] at hi
      exact hnever i hi
    have hfrom := h.from_first
    refine ⟨h.full, by omega, h.to_last, h.shown, fun v hv hge hlt => ?_⟩
    exact h.least v hv (by omega) hlt
  · intro h
    have hfrom := h.from_first
    refine ⟨h.full, by omega, h.to_last, h.shown, fun v hv hge hlt => ?_⟩
    by_cases hv' : minuteNumber v = minuteNumber u
    · rw [full_injective hv hu hv']
      exact hnever
    · exact h.least v hv (by omega) hlt

theorem findMap_eq_some {i : NaiveDateTime} (ht : Full t) {m n : ℕ} :
    findMap tz t (List.range' m n) = .ok (some i) ↔
      ∃ t', Shown tz (minuteNumber t + m) (minuteNumber t + m + n) t' ∧ tz.earliest t' = some i := by
  induction n generalizing m with
  | zero =>
    constructor
    · intro h
      cases h
    · rintro ⟨t', h, -⟩
      have hfrom := h.from_first
      have hto := h.to_last
      omega
  | succ n ih =>
    rw [List.range'_succ, findMap]
    cases hadd : addMinutes t m with
    | error e =>
      constructor
      · intro h
        cases h
      · rintro ⟨t', h, -⟩
        have hlt := addMinutes_error hadd t'
        have hfrom := h.from_first
        omega
    | ok u =>
      obtain ⟨hu, hnumber⟩ := addMinutes_ok ht hadd
      simp only [Except.bind]
      cases hearliest : tz.earliest u with
      | some j =>
        have hlast : minuteNumber t + m < minuteNumber t + m + (n + 1 : ℕ) := by omega
        simp only [shown_first_iff hu hnumber hlast ⟨j, tz.earliest_local hearliest⟩,
          exists_eq_left, hearliest, Except.ok.injEq]
      | none =>
        simp only [shown_succ_iff hu hnumber (tz.earliest_none hearliest)]
        have hfrom : minuteNumber t + (m + 1 : ℕ) = minuteNumber t + m + 1 := by omega
        have hto : minuteNumber t + m + 1 + n = minuteNumber t + m + (n + 1 : ℕ) := by omega
        rw [ih, hfrom, hto]

end Probes

theorem resolveLocal_eq_some {tz : TimeZone} {t i : NaiveDateTime} (ht : Full t) :
    resolveLocal tz t = .ok (some i) ↔
      ∃ t', Shown tz (minuteNumber t) (minuteNumber t + 181) t' ∧ tz.earliest t' = some i := by
  have hprobes : resolveLocal tz t = findMap tz t (List.range' 0 181) := by
    rw [List.range'_succ, findMap, addMinutes_zero ht]
    rfl
  rw [hprobes, findMap_eq_some ht]
  simp

theorem nextRunIn_eq_some {tz : TimeZone} {s : CronSchedule} {now i : NaiveDateTime} :
    nextRunIn tz s now = .ok (some i) ↔ ∃ localNow t t', tz.toLocal now = .ok localNow ∧
      NextMinute s localNow t ∧ Shown tz (minuteNumber t) (minuteNumber t + 181) t' ∧
        tz.earliest t' = some i := by
  unfold nextRunIn
  constructor
  · intro h
    cases hlocal : tz.toLocal now with
    | error e =>
      rw [hlocal] at h
      cases h
    | ok localNow =>
      rw [hlocal, Except.bind] at h
      cases hnext : nextAfter s localNow with
      | error e =>
        rw [hnext] at h
        cases h
      | ok next =>
        rw [hnext] at h
        cases next with
        | none => cases h
        | some t =>
          have hminute := nextAfter_eq_some.mp hnext
          obtain ⟨t', hshown, ht'⟩ := (resolveLocal_eq_some hminute.fires.full).mp h
          exact ⟨localNow, t, t', rfl, hminute, hshown, ht'⟩
  · rintro ⟨localNow, t, t', hlocal, hminute, hshown, ht'⟩
    rw [hlocal, Except.bind, nextAfter_eq_some.mpr hminute, Except.bind]
    exact (resolveLocal_eq_some hminute.fires.full).mpr ⟨t', hshown, ht'⟩

/-! ## The answer and the clock that goes back -/

theorem nextRunIn_later_iff {tz : TimeZone} {s : CronSchedule} {now : NaiveDateTime} :
    (∀ i, nextRunIn tz s now = .ok (some i) → Before now i) ↔ Unshown tz s now := by
  constructor
  · intro h localNow t t' hlocal hminute hshown i hi
    cases hearliest : tz.earliest t' with
    | none => exact absurd hi (tz.earliest_none hearliest i)
    | some j =>
      have hnow := h j (nextRunIn_eq_some.mpr ⟨localNow, t, t', hlocal, hminute, hshown, hearliest⟩)
      have hleast := tz.earliest_least hearliest hi
      rw [before_iff_rank] at hnow hleast ⊢
      omega
  · intro h i hi
    obtain ⟨localNow, t, t', hlocal, hminute, hshown, hearliest⟩ := nextRunIn_eq_some.mp hi
    exact h localNow t t' hlocal hminute hshown i (tz.earliest_local hearliest)

/-- A clock that never goes back has shown no minute that is still to come. -/
theorem unshown_of_forward {tz : TimeZone} {s : CronSchedule} {now : NaiveDateTime}
    (h : ∀ i t t', tz.toLocal i = .ok t → tz.toLocal now = .ok t' → Before i now → ¬ Before t' t) :
    Unshown tz s now := by
  intro localNow t t' hlocal hminute hshown i hi
  have hlater : Before localNow t' := by
    have hlt := (before_iff hminute.fires.full).mp hminute.later
    exact (before_iff hshown.full).mpr (hlt.trans_le hshown.from_first)
  by_contra hnot
  rw [before_iff_rank, not_lt] at hnot
  rcases hnot.lt_or_eq with hlt | heq
  · exact h i t' localNow hi hlocal (before_iff_rank.mpr hlt) hlater
  · rw [rank_injective heq, hlocal] at hi
    cases hi
    exact lt_irrefl _ (before_iff_rank.mp hlater)

/-- The answer lies ahead exactly when the zone's clock has not shown its minute yet. -/
theorem nextRun_later_iff (zones : Text → Option TimeZone) (schedule : Text)
    (timeZone : Option Text) (now : NaiveDateTime) :
    (∀ i, nextRunRfc3339 zones schedule timeZone now = .ok (some i) → Before now i) ↔
      ∀ s name tz, parse schedule = some s → timeZone = some name → zones name = some tz →
        Unshown tz s now := by
  unfold nextRunRfc3339
  cases hparse : parse schedule with
  | none =>
    refine ⟨fun _ s name tz hs => ?_, fun _ i hi => ?_⟩
    · cases hs
    · cases hi
  | some s =>
    cases timeZone with
    | none =>
      refine ⟨fun _ s name tz _ hname => ?_, fun _ i hi => (nextAfter_eq_some.mp hi).later⟩
      cases hname
    | some name =>
      simp only
      cases hzone : zones name with
      | none =>
        refine ⟨fun _ s' name' tz _ hname hzone' => ?_, fun _ i hi => ?_⟩
        · cases hname
          cases hzone.symm.trans hzone'
        · cases hi
      | some tz =>
        simp only
        rw [nextRunIn_later_iff]
        constructor
        · rintro h s' name' tz' ⟨⟩ ⟨⟩ hzone'
          cases hzone.symm.trans hzone'
          exact h
        · intro h
          exact h s name tz rfl rfl hzone

/-- The least instant with a local time. -/
noncomputable def leastInstant (toLocal : NaiveDateTime → Except Overflow NaiveDateTime)
    (t : NaiveDateTime) (h : ∃ i, toLocal i = .ok t) : NaiveDateTime :=
  Function.argminOn rank {i | toLocal i = .ok t} h

/-- Every map of instants to local times is a zone. -/
noncomputable def TimeZone.ofLocal (toLocal : NaiveDateTime → Except Overflow NaiveDateTime) :
    TimeZone where
  toLocal := toLocal
  earliest t :=
    have := Classical.propDecidable (∃ i, toLocal i = .ok t)
    if h : ∃ i, toLocal i = .ok t then some (leastInstant toLocal t h) else none
  earliest_local {t i} h := by
    split_ifs at h with hshown
    cases h
    exact Function.argminOn_mem rank {i | toLocal i = .ok t} hshown
  earliest_least {t i j} h hj := by
    split_ifs at h with hshown
    cases h
    rw [before_iff_rank]
    exact Function.not_lt_argminOn rank {i | toLocal i = .ok t} hj
  earliest_none {t} h i hi := by
    split_ifs at h with hshown
    exact hshown ⟨i, hi⟩

@[simp] theorem TimeZone.ofLocal_toLocal (f : NaiveDateTime → Except Overflow NaiveDateTime)
    (i : NaiveDateTime) : (TimeZone.ofLocal f).toLocal i = f i := rfl

instance (t t' : NaiveDateTime) : Decidable (Before t t') := inferInstanceAs (Decidable (_ ∨ _))

/-- The last Sunday of October. -/
def october : NaiveDate := ⟨⟨2026, 10, 25, by decide, by decide, by decide, by decide⟩, by decide, by decide⟩

/-- An hour ahead until one o'clock of that day. -/
def london (i : NaiveDateTime) : Except Overflow NaiveDateTime :=
  if Before i (atMinute october 60 (by decide)) then addMinutes i 60 else .ok i

theorem full_atMinute (d : NaiveDate) {m : ℕ} (hm : m < 1440) : Full (atMinute d m hm) :=
  ⟨rfl, Nat.mul_mod_left m 60⟩

theorem addMinutes_atMinute (d : NaiveDate) {m n : ℕ} (hm : m < 1440) (h : m + n < 1440) :
    addMinutes (atMinute d m hm) n = .ok (atMinute d (m + n) h) := by
  have hlast := minuteNumber_atMinute d h
  have hfirst := minuteNumber_atMinute d hm
  cases hadd : addMinutes (atMinute d m hm) n with
  | error e =>
    have hlt := addMinutes_error hadd (atMinute d (m + n) h)
    omega
  | ok u =>
    obtain ⟨hu, hnumber⟩ := addMinutes_ok (full_atMinute d hm) hadd
    rw [full_injective hu (full_atMinute d h) (by omega)]

theorem before_atMinute (d : NaiveDate) {m m' : ℕ} (hm : m < 1440) (hm' : m' < 1440) :
    Before (atMinute d m hm) (atMinute d m' hm') ↔ m < m' := by
  rw [before_iff (full_atMinute d hm'), minuteNumber_atMinute, minuteNumber_atMinute]
  omega

theorem london_atMinute {m : ℕ} (hm : m < 1440) : london (atMinute october m hm) =
    if m < 60 then addMinutes (atMinute october m hm) 60 else .ok (atMinute october m hm) := by
  simp only [london, before_atMinute]

theorem nextMinute_of_succ {s : CronSchedule} {after t : NaiveDateTime} (ht : Fires s t)
    (h : minuteNumber t = minuteNumber after + 1) : NextMinute s after t := by
  have hlt := t.secs_lt
  refine ⟨ht, (before_iff ht.full).mpr (by omega), ?_, fun t' ht' hbefore => ?_⟩
  · rw [InHorizon, ← h]
    unfold minuteNumber maxLookaheadDays
    omega
  · rw [before_iff ht'.full] at hbefore
    rw [before_iff ht.full]
    omega

theorem nextMinute_atMinute {s : CronSchedule} {d : NaiveDate} {m : ℕ} (hm : m + 1 < 1440)
    (hdate : matchesDate s d.date = true) (hminute : matchesMinute s (m + 1) = true) :
    NextMinute s (atMinute d m (Nat.lt_of_succ_lt hm)) (atMinute d (m + 1) hm) := by
  refine nextMinute_of_succ (fires_iff.mpr ⟨full_atMinute d hm, hdate, ?_⟩) ?_
  · rw [atMinute, Nat.mul_div_cancel (m + 1) (by decide)]
    exact hminute
  · rw [minuteNumber_atMinute, minuteNumber_atMinute]
    omega

/-- Half past one for the second time: every minute, and the next one was an hour ago. -/
theorem nextRun_in_past :
    ∃ zones : Text → Option TimeZone, ∃ now i,
      nextRunRfc3339 zones "* * * * *".toList (some "Europe/London".toList) now = .ok (some i) ∧
        ¬ Before now i := by
  have hparse : parse "* * * * *".toList = some ⟨2 ^ 60 - 1, 2 ^ 24 - 1, (2 ^ 31 - 1) * 2,
      (2 ^ 12 - 1) * 2, 2 ^ 7 - 1, false, false⟩ := by
    decide
  let tz := TimeZone.ofLocal london
  have hlocal : tz.toLocal (atMinute october 90 (by decide)) =
      .ok (atMinute october 90 (by decide)) := by
    rw [TimeZone.ofLocal_toLocal, london_atMinute, if_neg (by decide)]
  have hfirst : tz.toLocal (atMinute october 31 (by decide)) =
      .ok (atMinute october 91 (by decide)) := by
    rw [TimeZone.ofLocal_toLocal, london_atMinute, if_pos (by decide),
      addMinutes_atMinute october _ (by decide)]
  cases hearliest : tz.earliest (atMinute october 91 (by decide)) with
  | none => exact absurd hfirst (tz.earliest_none hearliest _)
  | some i =>
    refine ⟨fun _ => some tz, atMinute october 90 (by decide), i, ?_, ?_⟩
    · rw [nextRunRfc3339, hparse]
      simp only [nextRunIn, hlocal, Except.bind]
      rw [nextAfter_eq_some.mpr (nextMinute_atMinute (by decide) (by decide) (by decide))]
      simp only [resolveLocal, hearliest]
    · have hleast := tz.earliest_least hearliest hfirst
      have hpast := (before_atMinute october (by decide : 31 < 1440) (by decide : 90 < 1440)).mpr
        (by decide)
      rw [before_iff_rank] at hleast hpast ⊢
      omega

end FerrisScope.CronNextRuns
