import Mathlib

/-!
# Gleaph.Value

The runtime value of the query language (`crates/gql-value/src/enum_.rs`) and
the two seams through which values reach code outside the repository.

The source has one enum variant per integer width and per float format; here
they are `int`, `uint` and `float` indexed by the width or format, so
`Value::Int8(v)` is `.int .w8 v` and `Value::Float64(v)` is
`.float .f64 v.to_bits()`.  Fixed-width fields are bit vectors, floats are
their bit patterns, `Decimal` is the mantissa and scale of `rust_decimal`.

* `ExtensionValue` — the trait of user-defined values (`dyn ExtensionValue`),
  reduced to the two hooks ordering and index keys call.
* `Crates` — the third-party functions the modelled code calls
  (`rust_decimal::Decimal::normalize`, the `jiff` conversions behind zoned
  times), with the documented behaviour the code relies on as fields.
-/

namespace Gleaph

/-! ## Field types -/

/-- Bit widths of the integer variants. -/
inductive IntWidth where
  | w8 | w16 | w32 | w64 | w128 | w256
  deriving DecidableEq, Repr

namespace IntWidth

def bits : IntWidth → Nat
  | w8 => 8
  | w16 => 16
  | w32 => 32
  | w64 => 64
  | w128 => 128
  | w256 => 256

end IntWidth

/-- Binary float formats.  `f256` is the 256-bit format whose high half
carries the sign, 19 exponent bits and the top 108 fraction bits. -/
inductive FloatFormat where
  | f16 | f32 | f64 | f128 | f256
  deriving DecidableEq, Repr

namespace FloatFormat

def fractionBits : FloatFormat → Nat
  | f16 => 10
  | f32 => 23
  | f64 => 52
  | f128 => 112
  | f256 => 236

def exponentBits : FloatFormat → Nat
  | f16 => 5
  | f32 => 8
  | f64 => 11
  | f128 => 15
  | f256 => 19

def exponentBias : FloatFormat → Nat
  | f16 => 15
  | f32 => 127
  | f64 => 1023
  | f128 => 16383
  | f256 => 262143

/-- Sign bit, exponent field, fraction field. -/
def bits (f : FloatFormat) : Nat := 1 + f.exponentBits + f.fractionBits

end FloatFormat

/-- A signed 96-bit mantissa and a decimal scale. -/
structure Decimal where
  mantissa : Int
  scale : Nat
  mantissa_lt : mantissa.natAbs < 2 ^ 96
  scale_le : scale ≤ 28

/-- An element along a path result; ids are opaque bytes. -/
inductive PathElement where
  | vertex (id : List UInt8)
  | edge (id : List UInt8)
  deriving DecidableEq, Repr

/-! ## Values -/

/-- `Value`, over a type `E` of extension values. -/
inductive Value (E : Type) where
  | null
  | bool (value : Bool)
  | int (width : IntWidth) (value : BitVec width.bits)
  | uint (width : IntWidth) (value : BitVec width.bits)
  | float (format : FloatFormat) (value : BitVec format.bits)
  | decimal (value : Decimal)
  | text (value : String)
  | bytes (value : List UInt8)
  /-- Days since 1970-01-01. -/
  | date (days : BitVec 32)
  /-- Nanoseconds since midnight, UTC. -/
  | time (nanos : BitVec 64)
  | localTime (nanos : BitVec 64)
  | dateTime (seconds : BitVec 64) (nanos : BitVec 32)
  | localDateTime (seconds : BitVec 64) (nanos : BitVec 32)
  | zonedDateTime (seconds : BitVec 64) (nanos : BitVec 32) (tzSeconds : BitVec 32)
  /-- Local nanoseconds since midnight and the offset from UTC in seconds. -/
  | zonedTime (nanos : BitVec 64) (tzSeconds : BitVec 32)
  | duration (months : BitVec 32) (nanos : BitVec 64)
  | list (values : List (Value E))
  | path (elements : List PathElement)
  | record (fields : List (String × Value E))
  | extension (value : E)

namespace Value

variable {E : Type}

def isSignedInt : Value E → Bool
  | int _ _ => true
  | _ => false

def isUnsignedInt : Value E → Bool
  | uint _ _ => true
  | _ => false

def isFloat : Value E → Bool
  | float _ _ => true
  | _ => false

def isDecimal : Value E → Bool
  | decimal _ => true
  | _ => false

def isAnyInt (v : Value E) : Bool := v.isSignedInt || v.isUnsignedInt

def isNumeric (v : Value E) : Bool := v.isAnyInt || v.isFloat || v.isDecimal

end Value

/-- Induction on values: lists and records by their members. -/
@[elab_as_elim]
theorem Value.member_induction {E : Type} {P : Value E → Prop}
    (list : ∀ vs, (∀ v ∈ vs, P v) → P (.list vs))
    (record : ∀ fs, (∀ f ∈ fs, P f.2) → P (.record fs))
    (leaf : ∀ v, (∀ vs, v ≠ .list vs) → (∀ fs, v ≠ .record fs) → P v) (v : Value E) : P v := by
  match v with
  | .list vs => exact list vs fun v _ => member_induction list record leaf v
  | .record fs =>
    refine record fs fun f hf => ?_
    have hlt : sizeOf f.2 < 1 + sizeOf fs := by
      have := List.sizeOf_lt_of_mem hf
      have : sizeOf f = 1 + sizeOf f.1 + sizeOf f.2 := rfl
      omega
    exact member_induction list record leaf f.2
  | .null | .bool _ | .int _ _ | .uint _ _ | .float _ _ | .decimal _ | .text _ | .bytes _
  | .date _ | .time _ | .localTime _ | .dateTime _ _ | .localDateTime _ _
  | .zonedDateTime _ _ _ | .zonedTime _ _ | .duration _ _ | .path _ | .extension _ =>
    exact leaf _ (by simp) (by simp)
termination_by sizeOf v

/-! ## Text and field names -/

/-- UTF-8 bytes of a string (`as_bytes`). -/
def asBytes (s : String) : List UInt8 := s.toUTF8.data.toList

/-- String order: bytewise on UTF-8. -/
def compareText (a b : String) : Ordering := compare (asBytes a) (asBytes b)

/-- `sort_by(|a, b| a.0.cmp(&b.0))`: a stable sort by name. -/
def sortByName {β : Type} (fields : List (String × β)) : List (String × β) :=
  fields.mergeSort fun a b => (compareText a.1 b.1).isLE

@[simp] theorem mem_sortByName {β : Type} {fields : List (String × β)} {f : String × β} :
    f ∈ sortByName fields ↔ f ∈ fields :=
  (List.mergeSort_perm fields _).mem_iff

/-- Sorting looks at names only. -/
theorem sortByName_map {β γ : Type} (g : β → γ) (fields : List (String × β)) :
    sortByName (fields.map fun f => (f.1, g f.2)) =
      (sortByName fields).map fun f => (f.1, g f.2) := by
  rw [sortByName, sortByName, List.map_mergeSort]
  exact fun _ _ _ _ => rfl

/-! ## Extension values -/

/-- The ordering hooks of `dyn ExtensionValue`. -/
class ExtensionValue (E : Type) where
  /-- Ordering against another extension value; `none` when not orderable. -/
  cmpExt : E → E → Option Ordering
  /-- Domain and bytes of the sortable index key, for extensions that opt in. -/
  sortableIndexKey : E → Option (String × List UInt8)

/-- The trait's ordering contract: two sortable keys order as the values do. -/
def ExtensionValue.KeysOrdered (E : Type) [ExtensionValue E] : Prop :=
  ∀ (a b : E) (ka kb : String × List UInt8) (o : Ordering),
    sortableIndexKey a = some ka → sortableIndexKey b = some kb → cmpExt a b = some o →
      (compare (asBytes ka.1) (asBytes kb.1)).then (compare ka.2 kb.2) = o

/-- A deployment without extension types. -/
instance : ExtensionValue Empty where
  cmpExt := nofun
  sortableIndexKey := nofun

theorem ExtensionValue.keysOrdered_empty : ExtensionValue.KeysOrdered Empty := nofun

/-! ## Third-party crates -/

/-- Nanoseconds in one second and in one day. -/
abbrev nanosPerSecond : Int := 1_000_000_000

abbrev nanosPerDay : Int := 86_400_000_000_000

/-! ## Civil dates -/

namespace Temporal

/-- Whether a remainder is zero does not depend on the rounding. -/
def isLeapYear (y : Int) : Bool := (y % 4 == 0 && y % 100 != 0) || y % 400 == 0

def daysInMonth (y : Int) : Nat → Nat
  | 1 | 3 | 5 | 7 | 8 | 10 | 12 => 31
  | 4 | 6 | 9 | 11 => 30
  | 2 => if isLeapYear y then 29 else 28
  | _ => 0

/-- The check at the head of `ymd_to_days`: the date exists. -/
def Valid : Int × Nat × Nat → Prop
  | (y, m, d) => (1 ≤ m ∧ m ≤ 12) ∧ d ≠ 0 ∧ d ≤ daysInMonth y m

instance : DecidablePred Valid := fun (_, _, _) => inferInstanceAs (Decidable (_ ∧ _))

end Temporal

/-- Third-party functions reached from values, with their documented
behaviour. -/
structure Crates where
  /-- `rust_decimal::Decimal::normalize`: strips trailing zeros. -/
  decimalNormalize : Decimal → Decimal
  decimalNormalize_value : ∀ d,
    (decimalNormalize d).mantissa * 10 ^ d.scale = d.mantissa * 10 ^ (decimalNormalize d).scale
  /-- `jiff::civil::Time::new(hour, minute, second, subsec).is_ok()`. -/
  timeNew : Int → Int → Int → Int → Bool
  timeNew_iff : ∀ h m s n, timeNew h m s n = true ↔
    (0 ≤ h ∧ h < 24) ∧ (0 ≤ m ∧ m < 60) ∧ (0 ≤ s ∧ s < 60) ∧ (0 ≤ n ∧ n < nanosPerSecond)
  /-- `jiff::civil::Date::new(year, month, day).is_ok()`. -/
  dateNew : Int → Nat → Nat → Bool
  dateNew_iff : ∀ y m d, dateNew y m d = true ↔
    (-9999 ≤ y ∧ y ≤ 9999) ∧ Temporal.Valid (y, m, d)
  /-- `jiff::tz::Offset::from_seconds(seconds).is_ok()`: up to 25:59:59 either way. -/
  offsetFromSeconds : Int → Bool
  offsetFromSeconds_iff : ∀ o, offsetFromSeconds o = true ↔ -93599 ≤ o ∧ o ≤ 93599
  /-- `(as_second, subsec_nanosecond)` of the `jiff::Timestamp` of 1970-01-01
  at a time of day (in nanoseconds) under a fixed offset (in seconds). -/
  epochTimestamp : Int → Int → Int × Int
  /-- The two components add up to the instant, ... -/
  epochTimestamp_total : ∀ n o, (epochTimestamp n o).1 * nanosPerSecond + (epochTimestamp n o).2 =
    n - o * nanosPerSecond
  /-- ... the fraction is below one second either way, ... -/
  epochTimestamp_subsec : ∀ n o, -nanosPerSecond < (epochTimestamp n o).2 ∧
    (epochTimestamp n o).2 < nanosPerSecond
  /-- ... and carries the sign of the instant: both are truncated toward zero. -/
  epochTimestamp_sign : ∀ n o, (0 ≤ n - o * nanosPerSecond → 0 ≤ (epochTimestamp n o).2) ∧
    (n - o * nanosPerSecond ≤ 0 → (epochTimestamp n o).2 ≤ 0)

/-- Trailing zeros of the mantissa go while there is a scale. -/
def Decimal.normalize (d : Decimal) : Decimal :=
  if h : d.scale ≠ 0 ∧ d.mantissa % 10 = 0 then
    Decimal.normalize ⟨d.mantissa / 10, d.scale - 1,
      by have := d.mantissa_lt; omega, by have := d.scale_le; omega⟩
  else d
termination_by d.scale

theorem Decimal.normalize_value (d : Decimal) :
    d.normalize.mantissa * 10 ^ d.scale = d.mantissa * 10 ^ d.normalize.scale := by
  fun_induction Decimal.normalize d with
  | case1 d h ih =>
    obtain ⟨k, hk⟩ := Nat.exists_eq_succ_of_ne_zero h.1
    have hm : d.mantissa = d.mantissa / 10 * 10 := by omega
    simp only [hk, Nat.succ_sub_one] at ih ⊢
    rw [pow_succ, ← mul_assoc, ih, mul_right_comm, ← hm]
  | case2 d h => rfl

/-- The functions above as the crates document them. -/
def Crates.documented : Crates where
  decimalNormalize := Decimal.normalize
  decimalNormalize_value := Decimal.normalize_value
  timeNew h m s n := decide ((0 ≤ h ∧ h < 24) ∧ (0 ≤ m ∧ m < 60) ∧ (0 ≤ s ∧ s < 60) ∧
    (0 ≤ n ∧ n < nanosPerSecond))
  timeNew_iff _ _ _ _ := decide_eq_true_iff
  dateNew y m d := decide ((-9999 ≤ y ∧ y ≤ 9999) ∧ Temporal.Valid (y, m, d))
  dateNew_iff _ _ _ := decide_eq_true_iff
  offsetFromSeconds o := decide (-93599 ≤ o ∧ o ≤ 93599)
  offsetFromSeconds_iff _ := decide_eq_true_iff
  epochTimestamp n o :=
    ((n - o * nanosPerSecond).tdiv nanosPerSecond, (n - o * nanosPerSecond).tmod nanosPerSecond)
  epochTimestamp_total n o := by
    rw [Int.mul_comm]
    exact Int.mul_tdiv_add_tmod _ _
  epochTimestamp_subsec n o := by
    constructor
    · exact Int.lt_tmod_of_pos _ (by decide)
    · exact Int.tmod_lt_of_pos _ (by decide)
  epochTimestamp_sign n o := by
    constructor
    · exact fun h => Int.tmod_nonneg _ h
    intro h
    have h' := Int.tmod_nonneg nanosPerSecond (Int.neg_nonneg_of_nonpos h)
    rw [Int.neg_tmod] at h'
    omega

end Gleaph
