import Gleaph.NumericOrder

/-!
# Gleaph.Cmp

Value comparison (`crates/gql-value/src/cmp.rs`) and the zoned-time
normalization it calls (`crates/gql-value/src/temporal.rs`).

`compareValues` answers `none` for incomparable values; an `expect` that fails
is an `Except` error carrying its message.  Records are compared by their
fields in name order: the recursion runs over the fields where they stand and
`fieldComparisons_eq_map` restates it over all of them.

The last section says what the zoned-time normalization computes: the UTC
time of day, except for *late* zoned times, where it falls one day short.
-/

namespace Gleaph

variable {E : Type}

/-! ## Zoned times -/

/-- Nanoseconds since midnight as a `jiff` civil time, again in nanoseconds.
The casts of hour, minute and second to `i8` wrap. -/
def timeToJiff (crates : Crates) (nanos : Nat) : Option Int :=
  let totalSecs := nanos / 1_000_000_000
  let sub : Int := (nanos % 1_000_000_000 : Nat)
  let h := (BitVec.ofNat 8 (totalSecs / 3600)).toInt
  let m := (BitVec.ofNat 8 (totalSecs % 3600 / 60)).toInt
  let s := (BitVec.ofNat 8 (totalSecs % 60)).toInt
  if crates.timeNew h m s sub then some ((h * 3600 + m * 60 + s) * nanosPerSecond + sub) else none

/-- The instant on 1970-01-01, its seconds reduced to one day. -/
def zonedTimeToUtcNanos (crates : Crates) (nanos : Nat) (offsetSecs : Int) : Option Int := do
  let time ← timeToJiff crates nanos
  if crates.offsetFromSeconds offsetSecs then
    let ts := crates.epochTimestamp time offsetSecs
    return ts.1 % 86_400 * nanosPerSecond + ts.2
  else none

def normalizeZonedTimeUtc (crates : Crates) (nanos : BitVec 64) (tzSeconds : BitVec 32) :
    Except String Int :=
  match zonedTimeToUtcNanos crates nanos.toNat tzSeconds.toInt with
  | some utc => .ok utc
  | none => .error "zoned time value is valid"

/-! ## Paths -/

def comparePathElements : PathElement → PathElement → Ordering
  | .vertex a, .vertex b => compare a b
  | .edge a, .edge b => compare a b
  | .vertex _, .edge _ => .lt
  | .edge _, .vertex _ => .gt

/-- Elements in lockstep; when one side runs out, the lengths decide. -/
def comparePathSlices : List PathElement → List PathElement → Ordering
  | l :: left, r :: right => (comparePathElements l r).then (comparePathSlices left right)
  | left, right => compare left.length right.length

/-! ## Values -/

/-- Second count and nanosecond count as a pair (`(s1, n1).cmp(&(s2, n2))`). -/
def compareInstants (s1 s2 : BitVec 64) (n1 n2 : BitVec 32) : Ordering :=
  (compare s1.toInt s2.toInt).then (compare n1.toNat n2.toNat)

/-- One step of a lockstep walk: go on only past an equal pair. -/
def thenCompare (item : Except String (Option Ordering))
    (rest : Unit → Except String (Option Ordering)) : Except String (Option Ordering) :=
  match item with
  | .ok (some .eq) => rest ()
  | other => other

/-- The loop of `compare_record_fields` over fields already in name order; the
left values stand as their comparison functions. -/
def compareSortedFields : List (String × (Value E → Except String (Option Ordering))) →
    List (String × Value E) → Except String (Option Ordering)
  | (leftName, compareLeft) :: left, (rightName, rightValue) :: right =>
    match compareText leftName rightName with
    | .eq => thenCompare (compareLeft rightValue) fun _ => compareSortedFields left right
    | ordering => .ok (some ordering)
  | left, right => .ok (some (compare left.length right.length))

variable [ExtensionValue E]

mutual

/-- Ordering of two values, `none` if they are incomparable. -/
def compareValues (crates : Crates) (left right : Value E) : Except String (Option Ordering) :=
  if left.isNumeric && right.isNumeric then .ok (compareNormalizedNumeric crates left right)
  else
    match left, right with
    | .null, .null => .ok (some .eq)
    | .bool a, .bool b => .ok (some (compare a b))
    | .text a, .text b => .ok (some (compareText a b))
    | .bytes a, .bytes b => .ok (some (compare a b))
    | .date a, .date b => .ok (some (compare a.toInt b.toInt))
    | .time a, .time b => .ok (some (compare a.toNat b.toNat))
    | .localTime a, .localTime b => .ok (some (compare a.toNat b.toNat))
    | .dateTime s1 n1, .dateTime s2 n2 => .ok (some (compareInstants s1 s2 n1 n2))
    | .localDateTime s1 n1, .localDateTime s2 n2 => .ok (some (compareInstants s1 s2 n1 n2))
    | .zonedDateTime s1 n1 _, .zonedDateTime s2 n2 _ => .ok (some (compareInstants s1 s2 n1 n2))
    | .zonedTime n1 t1, .zonedTime n2 t2 => do
      let utc1 ← normalizeZonedTimeUtc crates n1 t1
      let utc2 ← normalizeZonedTimeUtc crates n2 t2
      return some (compare utc1 utc2)
    | .duration m1 n1, .duration m2 n2 =>
      .ok (some ((compare m1.toInt m2.toInt).then (compare n1.toInt n2.toInt)))
    | .list a, .list b => compareValueSlices crates a b
    | .record a, .record b =>
      compareSortedFields (sortByName (fieldComparisons crates a)) (sortByName b)
    | .path a, .path b => .ok (some (comparePathSlices a b))
    | .extension a, .extension b => .ok (ExtensionValue.cmpExt a b)
    | _, _ => .ok none

def compareValueSlices (crates : Crates) :
    List (Value E) → List (Value E) → Except String (Option Ordering)
  | l :: left, r :: right =>
    thenCompare (compareValues crates l r) fun _ => compareValueSlices crates left right
  | left, right => .ok (some (compare left.length right.length))

/-- Each field with the comparison of its value. -/
def fieldComparisons (crates : Crates) :
    List (String × Value E) → List (String × (Value E → Except String (Option Ordering)))
  | [] => []
  | (name, value) :: fields => (name, compareValues crates value) :: fieldComparisons crates fields

end

/-! ## Unfolding numbers and records -/

/-- Two numbers are compared by value, whatever their types. -/
theorem compareValues_of_isNumeric {a b : Value E} (ha : a.isNumeric = true)
    (hb : b.isNumeric = true) :
    compareValues crates a b = .ok (compareNormalizedNumeric crates a b) := by
  rw [compareValues.eq_def, ha, hb]
  rfl

/-- The comparisons of a record are those of its fields. -/
theorem fieldComparisons_eq_map (crates : Crates) (fields : List (String × Value E)) :
    fieldComparisons crates fields = fields.map fun f => (f.1, compareValues crates f.2) := by
  induction fields with
  | nil => rfl
  | cons f fields ih => rw [fieldComparisons, ih, List.map_cons]

/-! ## What zoned-time normalization computes -/

/-- Local nanoseconds since midnight and the offset from UTC in seconds. -/
abbrev ZonedTime := BitVec 64 × BitVec 32

omit [ExtensionValue E]

namespace ZonedTime

/-- A time of day below 24 hours, with an offset `jiff` accepts. -/
def WellFormed (crates : Crates) (z : ZonedTime) : Prop :=
  (z.1.toNat : Int) < nanosPerDay ∧ crates.offsetFromSeconds z.2.toInt = true

/-- Nanoseconds of the instant, counted from the local day's midnight in UTC. -/
def instant (z : ZonedTime) : Int := z.1.toNat - z.2.toInt * nanosPerSecond

/-- UTC nanoseconds since midnight, wrapping across day boundaries. -/
def utc (z : ZonedTime) : Int := z.instant % nanosPerDay

/-- A time in UTC lies within one day. -/
theorem utc_range (z : ZonedTime) : 0 ≤ z.utc ∧ z.utc < nanosPerDay :=
  ⟨Int.emod_nonneg _ (by decide), Int.emod_lt_of_pos _ (by decide)⟩

/-- The instant falls on the previous UTC day, in the last second before a
midnight, after its start. -/
def Late (z : ZonedTime) : Prop := z.instant < 0 ∧ 86_399 * nanosPerSecond < z.utc

instance (z : ZonedTime) : Decidable z.Late := inferInstanceAs (Decidable (_ ∧ _))

end ZonedTime

mutual

/-- Every zoned time occurring in a value. -/
def Value.zonedTimes : Value E → List ZonedTime
  | .zonedTime nanos tzSeconds => [(nanos, tzSeconds)]
  | .list values => zonedTimesOfList values
  | .record fields => zonedTimesOfFields fields
  | _ => []

def zonedTimesOfList : List (Value E) → List ZonedTime
  | [] => []
  | value :: values => value.zonedTimes ++ zonedTimesOfList values

def zonedTimesOfFields : List (String × Value E) → List ZonedTime
  | [] => []
  | (_, value) :: fields => value.zonedTimes ++ zonedTimesOfFields fields

end

/-- The zoned times of an item are among those of the list. -/
theorem mem_zonedTimes_list (hv : v ∈ values) (hz : z ∈ v.zonedTimes) :
    z ∈ (Value.list values).zonedTimes := by
  rw [Value.zonedTimes]
  induction values with
  | nil => cases hv
  | cons w values ih =>
    rw [zonedTimesOfList, List.mem_append]
    rcases List.mem_cons.mp hv with rfl | hv
    · exact Or.inl hz
    · exact Or.inr (ih hv)

/-- And those of a field among those of the record. -/
theorem mem_zonedTimes_record (hf : f ∈ fields) (hz : z ∈ f.2.zonedTimes) :
    z ∈ (Value.record fields).zonedTimes := by
  rw [Value.zonedTimes]
  induction fields with
  | nil => cases hf
  | cons g fields ih =>
    rw [zonedTimesOfFields, List.mem_append]
    rcases List.mem_cons.mp hf with rfl | hf
    · exact Or.inl hz
    · exact Or.inr (ih hf)

private theorem toInt_ofNat_byte (h : k < 128) : (BitVec.ofNat 8 k).toInt = k := by
  rw [BitVec.toInt_eq_toNat_of_lt] <;> rw [BitVec.toNat_ofNat] <;> omega

/-- A time of day below 24 hours passes through `jiff` unchanged. -/
theorem timeToJiff_eq (crates : Crates) {nanos : Nat} (h : (nanos : Int) < nanosPerDay) :
    timeToJiff crates nanos = some nanos := by
  simp only [nanosPerDay] at h
  have hh : nanos / 1_000_000_000 / 3600 < 24 := by omega
  rw [timeToJiff]
  simp only [toInt_ofNat_byte (show nanos / 1_000_000_000 / 3600 < 128 by omega),
    toInt_ofNat_byte (show nanos / 1_000_000_000 % 3600 / 60 < 128 by omega),
    toInt_ofNat_byte (show nanos / 1_000_000_000 % 60 < 128 by omega)]
  rw [if_pos]
  · simp only [nanosPerSecond]
    congr 1
    omega
  · rw [crates.timeNew_iff]
    simp only [nanosPerSecond]
    omega

/-- The normalized time is the UTC time of day, a day short when late: the
seconds wrap to a day, but the fraction keeps the sign of the instant. -/
theorem normalizeZonedTimeUtc_eq {z : ZonedTime} (h : z.WellFormed crates) :
    normalizeZonedTimeUtc crates z.1 z.2 =
      .ok (z.utc - if z.Late then nanosPerDay else 0) := by
  have htotal := crates.epochTimestamp_total z.1.toNat z.2.toInt
  have hsub := crates.epochTimestamp_subsec z.1.toNat z.2.toInt
  have hsign := crates.epochTimestamp_sign z.1.toNat z.2.toInt
  rw [normalizeZonedTimeUtc, zonedTimeToUtcNanos, timeToJiff_eq crates h.1]
  simp only [Option.bind_eq_bind, Option.bind_some, h.2, if_true, pure]
  congr 1
  simp only [ZonedTime.Late, ZonedTime.utc, ZonedTime.instant, nanosPerDay, nanosPerSecond] at *
  split_ifs with hlate <;> omega

/-- Comparing well-formed zoned times does not panic. -/
theorem compareValues_zonedTime [ExtensionValue E] {crates : Crates} (z1 z2 : ZonedTime)
    (h1 : z1.WellFormed crates) (h2 : z2.WellFormed crates) :
    compareValues crates (.zonedTime z1.1 z1.2 : Value E) (.zonedTime z2.1 z2.2) =
      .ok (some (compare (z1.utc - if z1.Late then nanosPerDay else 0)
        (z2.utc - if z2.Late then nanosPerDay else 0))) := by
  rw [compareValues, normalizeZonedTimeUtc_eq h1, normalizeZonedTimeUtc_eq h2]
  rfl

end Gleaph
