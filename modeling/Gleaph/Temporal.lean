import Gleaph.Cmp

/-!
# Gleaph.Temporal

Civil dates and the exchange with `jiff` (`crates/gql-value/src/temporal.rs`).

`ymd_to_days` and `days_to_ymd` count days in eras of 400 years that start in
March.  The day number of a date leads back to it (`civilDate_civilDays`), and
the next day has the next number (`Valid.next`); so every number is reached.
-/

namespace Gleaph.Temporal

/-! ## Day numbers -/

/-- `if a >= 0 { a } else { a - (k - 1) } / k`. -/
def eraOf (a k : Int) : Int := (if 0 ≤ a then a else a - (k - 1)).tdiv k

/-- The day number before `ymd_to_days` casts it. -/
def civilDays : Int × Nat × Nat → Int
  | (y, m, d) =>
    let (y, m) : Int × Int := if m ≤ 2 then (y - 1, m + 9) else (y, m - 3)
    let era := eraOf y 400
    let yoe := y - era * 400
    let doy := (153 * m + 2) / 5 + d - 1
    let doe := yoe * 365 + yoe / 4 - yoe / 100 + doy
    era * 146097 + doe - 719468

def ymdToDays (date : Int × Nat × Nat) : Option (BitVec 32) :=
  if Valid date then some (.ofInt 32 (civilDays date)) else none

/-- The date of a day of a year that starts in March: the end of `days_to_ymd`. -/
def marchDate (y doy : Int) : Int × Nat × Nat :=
  let mp := (5 * doy + 2) / 153
  let d := doy - (153 * mp + 2) / 5 + 1
  let m := if mp < 10 then mp + 3 else mp - 9
  (if m ≤ 2 then y + 1 else y, m.toNat, d.toNat)

/-- The date of any day number. -/
def civilDate (days : Int) : Int × Nat × Nat :=
  let z := days + 719468
  let era := eraOf z 146097
  let doe := z - era * 146097
  let yoe := (doe - doe / 1460 + doe / 36524 - doe / 146096) / 365
  marchDate (yoe + era * 400) (doe - (365 * yoe + yoe / 4 - yoe / 100))

def daysToYmd (days : BitVec 32) : Int × Nat × Nat := civilDate days.toInt

/-- The next day of the calendar. -/
def nextDate : Int × Nat × Nat → Int × Nat × Nat
  | (y, m, d) =>
    if d < daysInMonth y m then (y, m, d + 1) else if m < 12 then (y, m + 1, 1) else (y + 1, 1, 1)

theorem isLeapYear_iff : isLeapYear y = true ↔ y % 4 = 0 ∧ (y % 100 ≠ 0 ∨ y % 400 = 0) := by
  simp [isLeapYear]
  omega

theorem eraOf_eq (hk : 0 < k) (a : Int) : eraOf a k = a / k := by
  rw [eraOf]
  split
  · exact Int.tdiv_eq_ediv_of_nonneg ‹_›
  have hneg : (-(a - (k - 1))).tdiv k = -(a / k) := by
    rw [Int.tdiv_eq_ediv_of_nonneg (by omega), Int.ediv_eq_iff_of_pos hk]
    have := Int.emod_add_mul_ediv a k
    have := Int.emod_nonneg a hk.ne'
    have := Int.emod_lt_of_pos a hk
    constructor <;> nlinarith
  rw [Int.neg_tdiv] at hneg
  omega

theorem eraOf_400 (a : Int) : eraOf a 400 = a / 400 := eraOf_eq (by decide) a

/-- A year of an era, and a day of that year. -/
def MarchDay (yoe doy : Int) : Prop :=
  (0 ≤ yoe ∧ yoe < 400) ∧ (0 ≤ doy ∧ doy ≤ 365) ∧
    (doy = 365 → yoe % 4 = 3 ∧ (yoe % 100 ≠ 99 ∨ yoe = 399))

theorem MarchDay.yoe_eq (h : MarchDay yoe doy)
    (hdoe : doe = yoe * 365 + yoe / 4 - yoe / 100 + doy) :
    (doe - doe / 1460 + doe / 36524 - doe / 146096) / 365 = yoe := by
  obtain ⟨hyoe, hdoy, hleap⟩ := h
  have hcentury : doe / 36524 - doe / 146096 = yoe / 100 := by
    obtain hc | hc | hc | hc : yoe / 100 = 0 ∨ yoe / 100 = 1 ∨ yoe / 100 = 2 ∨ yoe / 100 = 3 := by
      omega
    all_goals omega
  have hcycle : doe / 1460 =
      yoe / 4 + (yoe / 4 - yoe / 100 + 365 * (yoe % 4) + doy) / 1460 := by omega
  omega

/-- A date as a day of an era, from which it is read back. -/
theorem Valid.march (h : Valid (y, m, d)) : ∃ era yoe doy, MarchDay yoe doy ∧
    civilDays (y, m, d) = era * 146097 + (yoe * 365 + yoe / 4 - yoe / 100 + doy) - 719468 ∧
    marchDate (yoe + era * 400) doy = (y, m, d) := by
  obtain ⟨⟨hm, hm'⟩, hd, hd'⟩ := h
  obtain ⟨y', m', h'⟩ : ∃ y' m' : Int,
      (if m ≤ 2 then (y - 1, (m : Int) + 9) else (y, (m : Int) - 3)) = (y', m') := ⟨_, _, rfl⟩
  obtain ⟨doy, hdoy⟩ : ∃ doy, (153 * m' + 2) / 5 + d - 1 = doy := ⟨_, rfl⟩
  obtain ⟨hbound, hleap, hmp⟩ : (0 ≤ doy ∧ doy ≤ 365) ∧ (doy = 365 → isLeapYear (y' + 1)) ∧
      (5 * doy + 2) / 153 = m' := by
    interval_cases m <;> cases h' <;> simp only [daysInMonth] at hd' <;> grind
  refine ⟨y' / 400, y' % 400, doy, ⟨by omega, hbound, ?_⟩, ?_, ?_⟩
  · intro h
    have := isLeapYear_iff.mp (hleap h)
    omega
  · simp only [civilDays, h', eraOf_400, ← hdoy]
    rw [show y' - y' / 400 * 400 = y' % 400 by omega]
  · rw [mul_comm, Int.emod_add_mul_ediv]
    simp only [marchDate, hmp, Prod.mk.injEq]
    grind

theorem civilDate_civilDays (h : Valid date) : civilDate (civilDays date) = date := by
  obtain ⟨y, m, d⟩ := date
  obtain ⟨era, yoe, doy, hday, hdays, hdate⟩ := h.march
  obtain ⟨doe, hdoe⟩ : ∃ doe, doe = yoe * 365 + yoe / 4 - yoe / 100 + doy := ⟨_, rfl⟩
  have hyoe := hday.yoe_eq hdoe
  obtain ⟨hyoe', hdoy, hleap⟩ := hday
  have hera : (civilDays (y, m, d) + 719468) / 146097 = era := by omega
  have hrest : civilDays (y, m, d) + 719468 - era * 146097 = doe := by omega
  simp only [civilDate, eraOf_eq (show (0 : Int) < 146097 by decide), hera, hrest, hyoe]
  rw [← hdate, hdoe]
  congr 1
  ring

theorem Valid.next (h : Valid date) :
    Valid (nextDate date) ∧ civilDays (nextDate date) = civilDays date + 1 := by
  obtain ⟨y, m, d⟩ := date
  obtain ⟨⟨hm, hm'⟩, hd, hd'⟩ := h
  have hleap := @isLeapYear_iff y
  interval_cases m <;> simp only [Valid, nextDate, civilDays, daysInMonth, eraOf_400] at * <;> grind

/-- Every number is the number of a date: one counts up from the start of its era. -/
theorem exists_civilDays (days : Int) : ∃ date, Valid date ∧ civilDays date = days := by
  have hcount : ∀ n : Nat, ∃ date, Valid date ∧
      civilDays date = (days + 719468) / 146097 * 146097 - 719468 + n := by
    intro n
    induction n with
    | zero =>
      refine ⟨((days + 719468) / 146097 * 400, 3, 1), by simp [Valid, daysInMonth], ?_⟩
      simp only [civilDays, eraOf_400]
      grind
    | succ n ih =>
      obtain ⟨date, hvalid, hdays⟩ := ih
      obtain ⟨hvalid', hnext⟩ := hvalid.next
      exact ⟨_, hvalid', by rw [hnext, hdays]; push_cast; ring⟩
  obtain ⟨date, hvalid, hdays⟩ := hcount ((days + 719468) % 146097).toNat
  exact ⟨date, hvalid, by omega⟩

theorem civilDate_spec (days : Int) :
    Valid (civilDate days) ∧ civilDays (civilDate days) = days := by
  obtain ⟨date, hvalid, rfl⟩ := exists_civilDays days
  rw [civilDate_civilDays hvalid]
  exact ⟨hvalid, rfl⟩

/-- Day numbers and dates are in bijection, in calendar order. -/
theorem ymd_and_days_are_inverse :
    daysToYmd 0 = (1970, 1, 1) ∧
    (∀ days, Valid (daysToYmd days) ∧ ymdToDays (daysToYmd days) = some days) ∧
    (∀ date, Valid date → -2 ^ 31 ≤ civilDays date → civilDays date < 2 ^ 31 →
      ∃ days, ymdToDays date = some days ∧ daysToYmd days = date) ∧
    ∀ days next : BitVec 32, next.toInt = days.toInt + 1 →
      daysToYmd next = nextDate (daysToYmd days) := by
  refine ⟨by decide, fun days => ?_, fun date hvalid hlow hhigh => ?_, fun days next hnext => ?_⟩
  · obtain ⟨hvalid, hdays⟩ := civilDate_spec days.toInt
    refine ⟨hvalid, ?_⟩
    rw [ymdToDays, daysToYmd, if_pos hvalid, hdays, BitVec.ofInt_toInt]
  · refine ⟨_, if_pos hvalid, ?_⟩
    rw [daysToYmd, BitVec.toInt_ofInt_eq_self (by decide) hlow hhigh, civilDate_civilDays hvalid]
  · obtain ⟨hvalid, hdays⟩ := civilDate_spec days.toInt
    obtain ⟨hvalid', hdays'⟩ := hvalid.next
    rw [daysToYmd, daysToYmd, hnext, ← hdays, ← hdays', civilDate_civilDays hvalid',
      civilDate_civilDays hvalid]

/-! ## Local datetimes -/

/-- The date that `jiff` holds is the one it was given. -/
def dateToJiff (crates : Crates) (days : BitVec 32) : Option (Int × Nat × Nat) :=
  let (y, m, d) := daysToYmd days
  let y := (BitVec.ofInt 16 y).toInt
  if crates.dateNew y m d then some (y, m, d) else none

/-- Date and time of day; the date truncates the seconds, the time does not. -/
def datetimeToJiff (crates : Crates) (secs : Int) (sub : Nat) :
    Option ((Int × Nat × Nat) × Int) := do
  let date ← dateToJiff crates (.ofInt 32 (secs.tdiv 86_400))
  let time ← timeToJiff crates ((secs % 86_400).toNat * 1_000_000_000 + sub)
  return (date, time)

def jiffDatetimeToUnix (dt : (Int × Nat × Nat) × Int) : Except String (Int × Int) :=
  match ymdToDays dt.1 with
  | some days => .ok (days.toInt * 86_400 + dt.2 / 1_000_000_000, dt.2 % 1_000_000_000)
  | none => .error "jiff date is valid"

theorem Valid.civilDays_bounds (h : Valid (y, m, d)) (hy : -9999 ≤ y ∧ y ≤ 10000) :
    -2 ^ 31 ≤ civilDays (y, m, d) ∧ civilDays (y, m, d) < 2 ^ 31 := by
  obtain ⟨era, yoe, doy, ⟨hyoe, hdoy, -⟩, hdays, hdate⟩ := h.march
  have hyear := congrArg Prod.fst hdate
  simp only [marchDate] at hyear
  grind

/-- A date that `jiff` accepts comes back with its day number. -/
theorem ymdToDays_dateToJiff (crates : Crates) (day : Int)
    (hyear : -9999 ≤ (civilDate day).1 ∧ (civilDate day).1 ≤ 10000) :
    (∀ date, dateToJiff crates (.ofInt 32 day) = some date →
      (ymdToDays date).map BitVec.toInt = some day) ∧
    ((civilDate day).1 ≤ 9999 → ∃ date, dateToJiff crates (.ofInt 32 day) = some date) := by
  obtain ⟨hvalid, hdays⟩ := civilDate_spec day
  rcases hdate : civilDate day with ⟨y, m, d⟩
  rw [hdate] at hvalid hdays hyear
  obtain ⟨hlow, hhigh⟩ := hvalid.civilDays_bounds hyear
  rw [hdays] at hlow hhigh
  have hint : (BitVec.ofInt 32 day).toInt = day := BitVec.toInt_ofInt_eq_self (by decide) hlow hhigh
  dsimp only at hyear
  have hjiff : dateToJiff crates (.ofInt 32 day) =
      if crates.dateNew y m d then some (y, m, d) else none := by
    rw [dateToJiff, daysToYmd, hint, hdate]
    dsimp only
    rw [BitVec.toInt_ofInt_eq_self (by decide) (by omega) (by omega)]
  rw [hjiff]
  constructor
  · intro date hdate
    split_ifs at hdate
    cases hdate
    rw [ymdToDays, if_pos hvalid, hdays, Option.map_some, hint]
  · intro hy
    exact ⟨_, if_pos ((crates.dateNew_iff y m d).mpr ⟨⟨hyear.1, hy⟩, hvalid⟩)⟩

/-- The year of the next day is the same or the next one. -/
theorem civilDate_succ_year (day : Int) :
    (civilDate (day + 1)).1 = (civilDate day).1 ∨
      (civilDate (day + 1)).1 = (civilDate day).1 + 1 := by
  obtain ⟨hvalid, hdays⟩ := civilDate_spec day
  obtain ⟨hnext, hnumber⟩ := hvalid.next
  rw [← hdays, ← hnumber, civilDate_civilDays hnext, civilDate_civilDays hvalid, nextDate]
  split_ifs <;> simp

/-- A local datetime survives `jiff` exactly if it is from 1970 on, or at
midnight. -/
theorem datetime_survives_jiff (crates : Crates) (secs : Int) (sub : Nat)
    (hsub : sub < 1_000_000_000)
    (hyear : -9999 ≤ (civilDate (secs / 86_400)).1 ∧ (civilDate (secs / 86_400)).1 ≤ 9999) :
    (∃ dt, datetimeToJiff crates secs sub = some dt ∧ jiffDatetimeToUnix dt = .ok (secs, sub)) ↔
      0 ≤ secs ∨ 86_400 ∣ secs := by
  have htime : timeToJiff crates ((secs % 86_400).toNat * 1_000_000_000 + sub) =
      some (((secs % 86_400).toNat * 1_000_000_000 + sub : Nat) : Int) :=
    timeToJiff_eq crates (by simp only [nanosPerDay]; omega)
  have hunix : ∀ date, jiffDatetimeToUnix
      (date, (((secs % 86_400).toNat * 1_000_000_000 + sub : Nat) : Int)) = .ok (secs, sub) ↔
      (ymdToDays date).map BitVec.toInt = some (secs / 86_400) := by
    intro date
    rw [jiffDatetimeToUnix]
    cases ymdToDays date with
    | none => simp
    | some days =>
      simp only [Except.ok.injEq, Prod.mk.injEq, Option.map_some, Option.some.injEq]
      omega
  by_cases hwhen : 0 ≤ secs ∨ 86_400 ∣ secs
  · have hquot : secs.tdiv 86_400 = secs / 86_400 :=
      hwhen.elim Int.tdiv_eq_ediv_of_nonneg Int.tdiv_eq_ediv_of_dvd
    obtain ⟨hback, haccepts⟩ := ymdToDays_dateToJiff crates (secs / 86_400) (by omega)
    obtain ⟨date, hdate⟩ := haccepts hyear.2
    refine iff_of_true ⟨(date, _), ?_, (hunix date).mpr (hback date hdate)⟩ hwhen
    simp only [datetimeToJiff, hquot, hdate, htime]
    rfl
  · refine iff_of_false ?_ hwhen
    rintro ⟨dt, hdt, hback⟩
    -- the day is rounded up, so the next one comes back
    have hquot : secs.tdiv 86_400 = secs / 86_400 + 1 := by
      rw [Int.tdiv_eq_ediv]
      grind
    have hnext := civilDate_succ_year (secs / 86_400)
    obtain ⟨date, hdate, hdt⟩ := Option.bind_eq_some_iff.mp hdt
    rw [htime] at hdt
    cases hdt
    rw [hquot] at hdate
    have hday := (ymdToDays_dateToJiff crates _ (by omega)).1 date hdate
    rw [(hunix date).mp hback] at hday
    simp at hday

/-- The last second of 1969 comes back as the last of the first day of 1970. -/
theorem datetime_before_epoch :
    (civilDate (-1 / 86_400)).1 = 1969 ∧
      (datetimeToJiff Crates.documented (-1) 0).map jiffDatetimeToUnix =
        some (.ok (86_399, 0)) := by
  decide

theorem datetime_survives_jiff_midnight :
    ∃ dt, datetimeToJiff Crates.documented (-86_400) 5 = some dt ∧
      jiffDatetimeToUnix dt = .ok (-86_400, 5) :=
  (datetime_survives_jiff _ _ _ (by decide) (by decide)).mpr (.inr (by decide))

/-! ## Durations -/

inductive SpanUnit where
  | years | months | weeks | days | hours | minutes | seconds | milliseconds | microseconds
  | nanoseconds
  deriving DecidableEq, Repr

/-- `jiff::Span` with its setters, which panic on a value they do not accept, and
its getters. -/
structure Spans where
  Span : Type
  new : Span
  set : SpanUnit → Int → Span → Except String Span
  get : SpanUnit → Span → Int
  get_new : ∀ unit, get unit new = 0
  /-- All fields have one sign: one that is set to this sign, or to zero, leaves
  the others as they are. -/
  get_set : ∀ {unit value span span'}, set unit value span = .ok span' →
    (∀ other, 0 ≤ value * get other span) →
      ∀ other, get other span' = if other = unit then value else get other span

def monthFields (abs : Nat) : List (SpanUnit × Nat) := [(.years, abs / 12), (.months, abs % 12)]

def nanoFields (absNanos : Nat) : List (SpanUnit × Nat) :=
  let rem := absNanos % (86_400 * 1_000_000_000)
  let remHour := rem % (3_600 * 1_000_000_000)
  let remMinute := remHour % (60 * 1_000_000_000)
  let remSecond := remMinute % 1_000_000_000
  let remMilli := remSecond % 1_000_000
  [(.days, absNanos / (86_400 * 1_000_000_000)), (.hours, rem / (3_600 * 1_000_000_000)),
    (.minutes, remHour / (60 * 1_000_000_000)), (.seconds, remMinute / 1_000_000_000),
    (.milliseconds, remSecond / 1_000_000), (.microseconds, remMilli / 1_000),
    (.nanoseconds, remMilli % 1_000)]

variable (spans : Spans)

/-- The setters called in turn, each value times the sign. -/
def setAll (sign : Int) (fields : List (SpanUnit × Nat)) (span : spans.Span) :
    Except String spans.Span :=
  fields.foldlM (fun span field => spans.set field.1 (field.2 * sign) span) span

/-- The sign of the months, and without months that of the nanoseconds. -/
def spanSign (months : BitVec 32) (nanos : BitVec 64) : Int :=
  if months ≠ 0 then months.toInt.sign else nanos.toInt.sign

/-- A part that is zero sets no field. -/
def durationToJiff (months : BitVec 32) (nanos : BitVec 64) : Except String spans.Span :=
  setAll spans (spanSign months nanos)
    ((if months ≠ 0 then monthFields months.toInt.natAbs else []) ++
      if nanos ≠ 0 then nanoFields nanos.toInt.natAbs else []) spans.new

def jiffSpanToDuration (span : spans.Span) : BitVec 32 × BitVec 64 :=
  (.ofInt 32 (spans.get .years span * 12 + spans.get .months span),
    .ofInt 64 (spans.get .weeks span * 7 * 86_400 * 1_000_000_000 +
      spans.get .days span * 86_400 * 1_000_000_000 +
      spans.get .hours span * 3_600 * 1_000_000_000 +
      spans.get .minutes span * 60 * 1_000_000_000 + spans.get .seconds span * 1_000_000_000 +
      spans.get .milliseconds span * 1_000_000 + spans.get .microseconds span * 1_000 +
      spans.get .nanoseconds span))

variable {spans}

/-- Values of one sign are set field by field. -/
theorem get_setAll (hsign : ∀ unit, 0 ≤ sign * spans.get unit span)
    (h : setAll spans sign fields span = .ok span') :
    (∀ unit, 0 ≤ sign * spans.get unit span') ∧ (spans.get · span') =
      fields.foldl (fun get f => Function.update get f.1 (f.2 * sign)) (spans.get · span) := by
  induction fields generalizing span with
  | nil =>
    cases h
    exact ⟨hsign, rfl⟩
  | cons field fields ih =>
    obtain ⟨next, hset, hrest⟩ := bind_inv h
    have hvalue : 0 ≤ sign * (field.2 * sign) := by
      rw [mul_left_comm]
      exact mul_nonneg (by omega) (mul_self_nonneg sign)
    have hget := spans.get_set hset fun unit => by
      rw [mul_assoc]
      exact mul_nonneg (by omega) (hsign unit)
    have hupdate : (spans.get · next) =
        Function.update (spans.get · span) field.1 (field.2 * sign) := by
      funext unit
      rw [hget, Function.update_apply]
    obtain ⟨hlater, heq⟩ := ih (fun unit => by
      rw [hget]
      split_ifs
      · exact hvalue
      · exact hsign unit) hrest
    exact ⟨hlater, by rw [heq, hupdate, List.foldl_cons]⟩

/-- The months come back as they are, the nanoseconds with the sign of the span. -/
theorem jiffSpanToDuration_durationToJiff (h : durationToJiff spans months nanos = .ok span) :
    jiffSpanToDuration spans span = (months, .ofInt 64 (spanSign months nanos * |nanos.toInt|)) := by
  have hget : ∀ unit, spans.get unit span = _ :=
    congrFun (get_setAll (by simp [spans.get_new]) h).2
  simp only [spans.get_new] at hget
  have hmonths := Int.sign_mul_abs months.toInt
  have hfirst : months ≠ 0 → spanSign months nanos = months.toInt.sign := fun h => if_pos h
  obtain ⟨n, hn⟩ : ∃ n : Int, spanSign months nanos = n.sign := by
    rw [spanSign]
    split_ifs
    exacts [⟨_, rfl⟩, ⟨_, rfl⟩]
  have hsign := Int.sign_trichotomy n
  rw [← hn] at hsign
  generalize spanSign months nanos = sign at hget hfirst hsign ⊢
  -- the digits of each part add up to its absolute value
  refine Prod.ext ((congrArg (BitVec.ofInt 32) ?_).trans BitVec.ofInt_toInt)
    (congrArg (BitVec.ofInt 64) ?_) <;>
    by_cases hm : months = 0#32 <;> by_cases hn : nanos = 0#64 <;>
    simp [hget, hm, hn, monthFields, nanoFields, Function.update]
  all_goals
    first
    | (rcases hsign with rfl | rfl | rfl <;> omega)
    | (rw [← hfirst hm] at hmonths; rcases hsign with rfl | rfl | rfl <;> omega)

/-- Only zero and the lowest number are their own negation. -/
theorem neg_eq_self_iff {x : BitVec 64} : -x = x ↔ x = 0 ∨ x = .intMin 64 := by
  rw [show BitVec.intMin 64 = 0x8000000000000000#64 by decide]
  constructor
  · intro h
    bv_omega
  · rintro (rfl | rfl) <;> decide

/-- The sign of the span leaves the nanoseconds as they are, or negates them. -/
theorem ofInt_spanSign_mul_eq_iff :
    BitVec.ofInt 64 (spanSign months nanos * |nanos.toInt|) = nanos ↔
      months = 0 ∨ nanos = 0 ∨ months.toInt.sign = nanos.toInt.sign ∨ nanos = .intMin 64 := by
  have hself : BitVec.ofInt 64 (nanos.toInt.sign * |nanos.toInt|) = nanos := by
    rw [Int.sign_mul_abs, BitVec.ofInt_toInt]
  rw [spanSign]
  split_ifs with hm
  · by_cases heq : months.toInt.sign = nanos.toInt.sign
    · simp [heq, hself]
    by_cases hn : nanos = 0
    · simp [hn]
    have hopposite : months.toInt.sign = -nanos.toInt.sign := by
      have hm' : months.toInt ≠ 0 := fun h => hm (BitVec.eq_of_toInt_eq h)
      have hn' : nanos.toInt ≠ 0 := fun h => hn (BitVec.eq_of_toInt_eq h)
      have := mt Int.sign_eq_zero_iff_zero.mp hm'
      have := mt Int.sign_eq_zero_iff_zero.mp hn'
      have := Int.sign_trichotomy months.toInt
      have := Int.sign_trichotomy nanos.toInt
      omega
    have hne : months ≠ 0#32 := hm
    rw [hopposite, neg_mul, BitVec.ofInt_neg, hself, neg_eq_self_iff, ← hopposite]
    simp [hne, heq]
  · simp [not_not.mp hm, hself]

/-- A duration survives `jiff` exactly if its parts do not have opposite signs,
or the nanoseconds are the lowest of their type, whose negation wraps around. -/
theorem duration_survives_jiff (spans : Spans) (months : BitVec 32) (nanos : BitVec 64)
    (span : spans.Span) (h : durationToJiff spans months nanos = .ok span) :
    jiffSpanToDuration spans span = (months, nanos) ↔
      months = 0 ∨ nanos = 0 ∨ months.toInt.sign = nanos.toInt.sign ∨ nanos = .intMin 64 := by
  rw [jiffSpanToDuration_durationToJiff h, Prod.mk.injEq, eq_self_iff_true, true_and]
  exact ofInt_spanSign_mul_eq_iff

/-- A `jiff` whose setters accept what a predicate says. -/
def Spans.accepting (accepts : SpanUnit → Int → Bool) : Spans where
  Span := SpanUnit → Int
  new := fun _ => 0
  set unit value span :=
    if accepts unit value then .ok (Function.update span unit value) else .error "out of range"
  get unit span := span unit
  get_new _ := rfl
  get_set {unit value span span'} h _ other := by
    split_ifs at h
    rw [← Except.ok.inj h, Function.update_apply]

/-- One month less a nanosecond comes back as a month and a nanosecond, however
little `jiff` accepts. -/
theorem month_less_a_nanosecond :
    let spans := Spans.accepting fun _ value => value.natAbs ≤ 1
    (durationToJiff spans 1 (-1)).map (jiffSpanToDuration spans) = .ok (1, 1) := by
  decide

theorem duration_survives_jiff_negative :
    let spans := Spans.accepting fun _ _ => true
    ∃ span, durationToJiff spans (-13) (-90_000_000_001) = .ok span ∧
      jiffSpanToDuration spans span = (-13, -90_000_000_001) :=
  ⟨_, rfl, (duration_survives_jiff _ _ _ _ rfl).mpr (.inr (.inr (.inl (by decide))))⟩

end Gleaph.Temporal
