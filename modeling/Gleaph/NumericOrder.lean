import Gleaph.Digits
import Gleaph.Panic
import Gleaph.Value

/-!
# Gleaph.NumericOrder

Exact numeric normalization (`crates/gql-value/src/numeric_order.rs`): every
finite number, whatever its type, becomes a sign, a decimal digit string and
the position of the decimal point, or `none` for zero.

The second half gives the number each value denotes as a rational
(`Value.rat`) and shows that normalization is a canonical representation of
it: the result represents the value (`normalizedNumericParts_represents`) and
comparing representations is comparing rationals (`compareParts_eq`).
-/

namespace Gleaph

open Digits LexCode List

/-! ## Normalization -/

inductive NumericOrderError where
  | nonFiniteFloat
  | unsupportedValue
  deriving DecidableEq, Repr

/-- Sign, digits and the position of the decimal point relative to the first
digit (`point_pos : i32`). -/
structure NormalizedNumeric where
  negative : Bool
  digits : List UInt8
  pointPos : BitVec 32
  deriving DecidableEq, Repr

/-- The `while scale > 0 && digits.ends_with('0')` loop. -/
def stripTrailingZeros (digits : List UInt8) : Nat → List UInt8 × Nat
  | 0 => (digits, 0)
  | scale + 1 =>
    if digits.getLast? = some 48 then stripTrailingZeros digits.dropLast scale
    else (digits, scale + 1)

def partsFromDigitsAndScale (negative : Bool) (digits : List UInt8) (scale : Nat) :
    Except NumericOrderError NormalizedNumeric :=
  let digits := digits.dropWhile (· == 48)
  if digits.isEmpty then .error .unsupportedValue
  else
    let stripped := stripTrailingZeros digits scale
    -- both lengths must fit an `i32`; their difference then does too
    if stripped.1.length < 2 ^ 31 ∧ stripped.2 < 2 ^ 31 then
      .ok ⟨negative, stripped.1, BitVec.ofInt 32 (stripped.1.length - stripped.2)⟩
    else .error .unsupportedValue

def binaryFloatBigParts (negative : Bool) (fraction biasedExponent fractionBits exponentBias : Nat) :
    Except NumericOrderError (Option NormalizedNumeric) :=
  if biasedExponent = 0 ∧ fraction = 0 then .ok none
  else
    let significand := if biasedExponent = 0 then fraction else fraction ||| 1 <<< fractionBits
    let exponent2 : Int :=
      if biasedExponent = 0 then 1 - exponentBias - fractionBits
      else biasedExponent - exponentBias - fractionBits
    if significand = 0 then .ok none
    else if 0 ≤ exponent2 then
      some <$> partsFromDigitsAndScale negative (ofNat (significand <<< exponent2.toNat)) 0
    else
      let scale := (-exponent2).toNat
      some <$> partsFromDigitsAndScale negative (ofNat (significand * 5 ^ scale)) scale

namespace FloatFormat

variable (f : FloatFormat) (x : BitVec f.bits)

/-- The fraction field. -/
def fraction : Nat := x.toNat % 2 ^ f.fractionBits

/-- The biased exponent field. -/
def biasedExponent : Nat :=
  x.toNat / 2 ^ f.fractionBits % 2 ^ f.exponentBits

/-- Whether the exponent field is not all ones (`is_finite`). -/
def isFinite : Bool :=
  f.biasedExponent x != 2 ^ f.exponentBits - 1

end FloatFormat

def signedIntegerParts (signed : Int) : Except NumericOrderError (Option NormalizedNumeric) :=
  if signed = 0 then .ok none
  else some <$> partsFromDigitsAndScale (decide (signed < 0)) (ofNat signed.natAbs) 0

def unsignedIntegerParts (unsigned : Nat) : Except NumericOrderError (Option NormalizedNumeric) :=
  if unsigned = 0 then .ok none
  else some <$> partsFromDigitsAndScale false (ofNat unsigned) 0

variable {E : Type}

/-- Normalized sign, digits and point of a number; `none` for zero. -/
def normalizedNumericParts (crates : Crates) :
    Value E → Except NumericOrderError (Option NormalizedNumeric)
  | .int _ v => signedIntegerParts v.toInt
  | .uint _ v => unsignedIntegerParts v.toNat
  | .decimal d =>
    let decimal := crates.decimalNormalize d
    if decimal.mantissa = 0 then .ok none
    else some <$> partsFromDigitsAndScale (decide (decimal.mantissa < 0))
      (ofNat decimal.mantissa.natAbs) decimal.scale
  | .float f x =>
    if f.isFinite x then
      binaryFloatBigParts x.msb (f.fraction x) (f.biasedExponent x) f.fractionBits f.exponentBias
    else .error .nonFiniteFloat
  | _ => .error .unsupportedValue

/-! ## Comparison -/

/-- Point position first, then the digits over the longer length, a missing
digit read as `'0'`. -/
def cmpMagnitude (left right : NormalizedNumeric) : Ordering :=
  let maxLen := max left.digits.length right.digits.length
  (compare left.pointPos.toInt right.pointPos.toInt).then
    (compare (padTo maxLen left.digits) (padTo maxLen right.digits))

def NormalizedNumeric.cmpNumeric (left right : NormalizedNumeric) : Ordering :=
  match left.negative, right.negative with
  | true, false => .lt
  | false, true => .gt
  | false, false => cmpMagnitude left right
  | true, true => cmpMagnitude right left

/-- The four-way match of `compare_normalized_numeric` on normalized parts. -/
def compareParts : Option NormalizedNumeric → Option NormalizedNumeric → Ordering
  | none, none => .eq
  | none, some right => if right.negative then .gt else .lt
  | some left, none => if left.negative then .lt else .gt
  | some left, some right => left.cmpNumeric right

def compareNormalizedNumeric (crates : Crates) (left right : Value E) : Option Ordering := do
  let left ← (normalizedNumericParts crates left).toOption
  let right ← (normalizedNumericParts crates right).toOption
  return compareParts left right

/-! ## The number a value denotes -/

/-- The rational a finite float denotes. -/
def FloatFormat.rat (f : FloatFormat) (x : BitVec f.bits) : ℚ :=
  (if x.msb then -1 else 1) *
    if f.biasedExponent x = 0 then
      (f.fraction x : ℚ) * 2 ^ (1 - (f.exponentBias : ℤ) - f.fractionBits)
    else
      (2 ^ f.fractionBits + f.fraction x : ℚ) *
        2 ^ ((f.biasedExponent x : ℤ) - f.exponentBias - f.fractionBits)

/-- The rational a value denotes; `none` for non-finite floats and values
that are not numbers. -/
def Value.rat : Value E → Option ℚ
  | .int _ v => some v.toInt
  | .uint _ v => some v.toNat
  | .decimal d => some (d.mantissa / 10 ^ d.scale)
  | .float f x => if f.isFinite x then some (f.rat x) else none
  | _ => none

namespace NormalizedNumeric

/-- The digits read at their point position. -/
def magnitude (p : NormalizedNumeric) : ℚ := Digits.fraction p.digits * 10 ^ p.pointPos.toInt

/-- The signed number. -/
def value (p : NormalizedNumeric) : ℚ := if p.negative then -p.magnitude else p.magnitude

/-- No leading zero, and no trailing zero behind the decimal point. -/
structure Canonical (p : NormalizedNumeric) : Prop where
  isDigit : ∀ d ∈ p.digits, IsDigit d
  head : ∃ d ds, p.digits = d :: ds ∧ d ≠ 48
  pointPos_le : p.pointPos.toInt ≤ p.digits.length
  last : p.pointPos.toInt < p.digits.length → p.digits.getLast? ≠ some 48

/-- A canonical magnitude has its leading digit right behind the point. -/
theorem Canonical.magnitude_bounds {p : NormalizedNumeric} (hp : p.Canonical) :
    10 ^ (p.pointPos.toInt - 1) ≤ p.magnitude ∧ p.magnitude < 10 ^ p.pointPos.toInt := by
  have hpow : (0 : ℚ) < 10 ^ p.pointPos.toInt := zpow_pos (by norm_num) _
  have hlt := fraction_lt_one hp.isDigit
  obtain ⟨d, ds, hds, hd⟩ := hp.head
  have hge : 1 / 10 ≤ Digits.fraction p.digits := by
    rw [hds]
    exact fraction_ge_of_head (hds ▸ hp.isDigit) hd
  constructor
  · rw [magnitude, zpow_sub_one₀ (by norm_num), mul_comm]
    exact mul_le_mul_of_nonneg_right (by linarith) hpow.le
  · calc p.magnitude < 1 * 10 ^ p.pointPos.toInt := mul_lt_mul_of_pos_right hlt hpow
      _ = 10 ^ p.pointPos.toInt := one_mul _

theorem Canonical.magnitude_pos {p : NormalizedNumeric} (hp : p.Canonical) : 0 < p.magnitude :=
  lt_of_lt_of_le (zpow_pos (by norm_num) _) hp.magnitude_bounds.1

/-- The further the point, the larger the number. -/
theorem Canonical.magnitude_lt {p q : NormalizedNumeric} (hp : p.Canonical) (hq : q.Canonical)
    (h : p.pointPos.toInt < q.pointPos.toInt) : p.magnitude < q.magnitude :=
  calc p.magnitude < 10 ^ p.pointPos.toInt := hp.magnitude_bounds.2
    _ ≤ 10 ^ (q.pointPos.toInt - 1) := zpow_le_zpow_right₀ (by norm_num) (by omega)
    _ ≤ q.magnitude := hq.magnitude_bounds.1

end NormalizedNumeric

open NormalizedNumeric

/-! ## Comparing representations -/

/-- With the point in the same place, the longer digit string has a scale. -/
theorem NormalizedNumeric.Canonical.decides_digits {p q : NormalizedNumeric} (hp : p.Canonical)
    (hq : q.Canonical) (h : p.pointPos.toInt = q.pointPos.toInt) :
    Decides (p.digits ++ [0]) (q.digits ++ [0])
      (compare (Digits.fraction p.digits) (Digits.fraction q.digits)) := by
  have hple := hp.pointPos_le
  have hqle := hq.pointPos_le
  exact decides_terminated hp.isDigit hq.isDigit (fun _ => hp.last (by omega))
    (fun _ => hq.last (by omega))

theorem cmpMagnitude_eq {p q : NormalizedNumeric} (hp : p.Canonical) (hq : q.Canonical) :
    cmpMagnitude p q = compare p.magnitude q.magnitude := by
  rw [cmpMagnitude, compare_padTo (le_max_left ..) (le_max_right ..) hp.isDigit hq.isDigit]
  rcases lt_trichotomy p.pointPos.toInt q.pointPos.toInt with h | h | h
  · rw [compare_lt_iff_lt.mpr h, compare_lt_iff_lt.mpr (hp.magnitude_lt hq h)]
    rfl
  · have hpow : (0 : ℚ) < 10 ^ q.pointPos.toInt := zpow_pos (by norm_num) _
    rw [compare_eq_iff_eq.mpr h, magnitude, magnitude, h]
    exact compare_congr (mul_lt_mul_iff_left₀ hpow).symm (mul_lt_mul_iff_left₀ hpow).symm
  · rw [compare_gt_iff_gt.mpr h, compare_gt_iff_gt.mpr (hq.magnitude_lt hp h)]
    rfl

/-- What it means for normalized parts to represent a number. -/
def Represents : Option NormalizedNumeric → ℚ → Prop
  | none, x => x = 0
  | some p, x => p.Canonical ∧ p.value = x

/-- Comparing representations is comparing the numbers. -/
theorem compareParts_eq {l r : Option NormalizedNumeric} (hl : Represents l x) (hr : Represents r y) :
    compareParts l r = compare x y := by
  cases l with
  | none =>
    cases r with
    | none =>
      rw [show x = 0 from hl, show y = 0 from hr]
      exact (compare_eq_iff_eq.mpr rfl).symm
    | some q =>
      obtain ⟨hq, rfl⟩ := hr
      have hpos := hq.magnitude_pos
      rw [show x = 0 from hl, compareParts, value]
      split_ifs
      · exact (compare_gt_iff_gt.mpr (by linarith)).symm
      · exact (compare_lt_iff_lt.mpr hpos).symm
  | some p =>
    obtain ⟨hp, rfl⟩ := hl
    have hpos := hp.magnitude_pos
    cases r with
    | none =>
      rw [show y = 0 from hr, compareParts, value]
      split_ifs
      · exact (compare_lt_iff_lt.mpr (by linarith)).symm
      · exact (compare_gt_iff_gt.mpr hpos).symm
    | some q =>
      obtain ⟨hq, rfl⟩ := hr
      have hpos' := hq.magnitude_pos
      rw [compareParts, cmpNumeric, value,
        value]
      cases p.negative <;> cases q.negative
      · exact cmpMagnitude_eq hp hq
      · exact (compare_gt_iff_gt.mpr (by simp; linarith)).symm
      · exact (compare_lt_iff_lt.mpr (by simp; linarith)).symm
      simp only [if_true]
      rw [cmpMagnitude_eq hq hp]
      exact compare_congr neg_lt_neg_iff.symm neg_lt_neg_iff.symm

/-! ## Normalization represents the value -/

theorem stripTrailingZeros_spec (hd : d ≠ 48) (ds : List UInt8) (scale : Nat) :
    ∃ ds' scale', stripTrailingZeros (d :: ds) scale = (d :: ds', scale') ∧
      ds' <+: ds ∧ Digits.fraction (d :: ds') = Digits.fraction (d :: ds) ∧
      (ds'.length : ℤ) - scale' = ds.length - scale ∧
      (0 < scale' → (d :: ds').getLast? ≠ some 48) := by
  induction scale generalizing ds with
  | zero => exact ⟨ds, 0, rfl, prefix_refl ds, rfl, rfl, fun h => absurd h (by decide)⟩
  | succ scale ih =>
    rw [stripTrailingZeros]
    split_ifs with hlast
    · -- the popped digit is not the leading one, which is not a zero
      rcases eq_nil_or_concat' ds with rfl | ⟨es, e, rfl⟩
      · exact absurd (by simpa using hlast) hd
      rw [← cons_append, getLast?_concat] at hlast
      cases hlast
      obtain ⟨ds', scale', heq, hpre, hfrac, hlen, hl⟩ := ih es
      refine ⟨ds', scale', ?_, hpre.trans (prefix_append es _), ?_, ?_, hl⟩
      · rw [← heq, ← cons_append, dropLast_concat]
      · rw [hfrac, ← cons_append, fraction_append_zero]
      rw [length_append, length_singleton]
      push_cast
      omega
    · exact ⟨ds, scale + 1, rfl, prefix_refl ds, rfl, rfl, fun _ => hlast⟩

/-- The text of `m` and a scale, both short enough for an `i32`, become parts
that represent `± m / 10 ^ scale`. -/
theorem represents_of_parts (hm : m ≠ 0) (hlt : m < 2 ^ j) (hj : j < 2 ^ 31) (hs : scale < 2 ^ 31)
    (negative : Bool) :
    ∃ r, some <$> partsFromDigitsAndScale negative (ofNat m) scale = .ok r ∧
      Represents r (if negative then -(m / 10 ^ scale : ℚ) else m / 10 ^ scale) := by
  obtain ⟨d, ds, hds, hd⟩ := ofNat_head hm
  obtain ⟨ds', scale', hstrip, hpre, hfrac, hlen, hlast⟩ := stripTrailingZeros_spec hd ds scale
  have hfit : (d :: ds').length < 2 ^ 31 ∧ scale' < 2 ^ 31 := by
    have htext := length_ofNat_le (by rintro rfl; omega)
      (hlt.trans_le (Nat.pow_le_pow_left (by decide : 2 ≤ 10) j))
    rw [hds, length_cons] at htext
    have := hpre.length_le
    rw [length_cons]
    omega
  rw [partsFromDigitsAndScale, hds, dropWhile_cons_of_neg (by simpa using hd)]
  simp only [isEmpty_cons, Bool.false_eq_true, if_false, hstrip, if_pos hfit]
  refine ⟨_, rfl, ?_⟩
  have hpos : (BitVec.ofInt 32 (((d :: ds').length : ℤ) - scale')).toInt =
      ((d :: ds').length : ℤ) - scale' := by
    apply BitVec.toInt_ofInt_eq_self (by decide) <;> omega
  have hmag : Digits.fraction (d :: ds') * 10 ^ (((d :: ds').length : ℤ) - scale') =
      m / 10 ^ scale := by
    have hm' := fraction_ofNat m
    rw [hds, ← hfrac, ← zpow_natCast] at hm'
    rw [← hm', ← zpow_natCast (10 : ℚ) scale, mul_div_assoc, ← zpow_sub₀ (by norm_num)]
    congr 2
    simp only [length_cons]
    push_cast
    omega
  have hdigits : ∀ e ∈ d :: ds', IsDigit e := by
    intro e he
    apply isDigit_ofNat m
    rw [hds]
    exact ((cons_prefix_cons.mpr ⟨rfl, hpre⟩).subset) he
  refine ⟨⟨hdigits, ⟨d, ds', rfl, hd⟩, ?_, ?_⟩, ?_⟩
  · show (BitVec.ofInt 32 _).toInt ≤ ((d :: ds').length : ℤ)
    rw [hpos]
    omega
  · intro hlt
    have hlt' : ((d :: ds').length : ℤ) - scale' < (d :: ds').length := hpos ▸ hlt
    exact hlast (by omega)
  · rw [value, magnitude, hpos, hmag]

/-- The same for a signed number. -/
theorem represents_of_signed {i : Int} (hi : i ≠ 0) (hlt : i.natAbs < 2 ^ j) (hj : j < 2 ^ 31)
    (hs : scale < 2 ^ 31) :
    ∃ r, some <$> partsFromDigitsAndScale (decide (i < 0)) (ofNat i.natAbs) scale = .ok r ∧
      Represents r (i / 10 ^ scale) := by
  obtain ⟨r, hok, hr⟩ := represents_of_parts (Int.natAbs_ne_zero.mpr hi) hlt hj hs (decide (i < 0))
  refine ⟨r, hok, ?_⟩
  rw [Nat.cast_natAbs] at hr
  split_ifs at hr with hneg
  · rw [abs_of_neg (by simpa using hneg)] at hr
    push_cast at hr
    rwa [neg_div, neg_neg] at hr
  · rwa [abs_of_nonneg (by simpa using hneg)] at hr

/-- A binary significand scaled by a power of two is represented exactly. -/
theorem binaryFloatBigParts_represents {fraction : Nat} (hfrac : fraction < 2 ^ fb)
    (he : e + fb < 2 ^ 24) (hbias : bias + fb < 2 ^ 24) (negative : Bool) :
    ∃ r, binaryFloatBigParts negative fraction e fb bias = .ok r ∧
      Represents r ((if negative then -1 else 1) *
        if e = 0 then (fraction : ℚ) * 2 ^ (1 - (bias : ℤ) - fb)
        else (2 ^ fb + fraction : ℚ) * 2 ^ ((e : ℤ) - bias - fb)) := by
  -- both branches denote `significand * 2 ^ exponent2`
  have key : ∀ (s : Nat) (k : Int), s ≠ 0 → s < 2 ^ (fb + 1) → k < 2 ^ 24 → -k < 2 ^ 25 → ∃ r,
      (if 0 ≤ k then some <$> partsFromDigitsAndScale negative (ofNat (s <<< k.toNat)) 0
        else some <$> partsFromDigitsAndScale negative (ofNat (s * 5 ^ (-k).toNat)) (-k).toNat) =
        .ok r ∧ Represents r ((if negative then -1 else 1) * ((s : ℚ) * 2 ^ k)) := by
    intro s k hs hlt hup hlow
    have hsign : ∀ x : ℚ, (if negative then -1 else 1) * x = if negative then -x else x := by
      intro x
      split_ifs <;> ring
    rw [hsign]
    by_cases hk : 0 ≤ k
    · have hlt' : s * 2 ^ k.toNat < 2 ^ (fb + 1 + k.toNat) := by
        rw [pow_add]
        gcongr
      rw [if_pos hk, Nat.shiftLeft_eq]
      have hr := represents_of_parts (by positivity) hlt' (by omega) (show 0 < 2 ^ 31 by decide) negative
      rw [pow_zero, div_one] at hr
      push_cast at hr
      rwa [← zpow_natCast, Int.toNat_of_nonneg hk] at hr
    have hlt' : s * 5 ^ (-k).toNat < 2 ^ (fb + 1 + 3 * (-k).toNat) := by
      rw [pow_add, pow_mul]
      have : 0 < (-k).toNat := by omega
      gcongr
      decide
    rw [if_neg hk]
    have hr := represents_of_parts (by positivity) hlt' (by omega)
      (show (-k).toNat < 2 ^ 31 by omega) negative
    have hval : ((s * 5 ^ (-k).toNat : Nat) : ℚ) / 10 ^ (-k).toNat = (s : ℚ) * 2 ^ k := by
      obtain ⟨n, rfl⟩ : ∃ n : ℕ, k = -n := ⟨(-k).toNat, by omega⟩
      rw [neg_neg, Int.toNat_natCast, zpow_neg, zpow_natCast,
        show (10 : ℚ) = 5 * 2 by norm_num, mul_pow]
      push_cast
      field_simp
    rwa [hval] at hr
  have hsucc : 2 ^ (fb + 1) = 2 ^ fb + 2 ^ fb := by rw [pow_succ, mul_two]
  rw [binaryFloatBigParts]
  by_cases hz : e = 0 ∧ fraction = 0
  · rw [if_pos hz]
    exact ⟨_, rfl, by simp [Represents, hz]⟩
  rw [if_neg hz]
  by_cases he : e = 0
  · have hs : fraction ≠ 0 := fun hf => hz ⟨he, hf⟩
    simp only [if_pos he, if_neg hs]
    exact key _ _ hs (by omega) (by omega) (by omega)
  have hor : fraction ||| 1 <<< fb = 2 ^ fb + fraction := by
    rw [Nat.or_comm, ← Nat.shiftLeft_add_eq_or_of_lt hfrac, Nat.one_shiftLeft]
  have hs : 2 ^ fb + fraction ≠ 0 := by positivity
  simp only [if_neg he, hor, if_neg hs]
  have hr := key _ (e - bias - fb) hs (by omega) (by omega) (by omega)
  push_cast at hr
  exact hr

/-- Normalization is total and exact on numbers: the parts represent the
number the value denotes. -/
theorem normalizedNumericParts_total (crates : Crates) {v : Value E} (h : v.rat = some x) :
    ∃ r, normalizedNumericParts crates v = .ok r ∧ Represents r x := by
  cases v with
  | int w i =>
    cases h
    rw [normalizedNumericParts, signedIntegerParts]
    split_ifs with hi
    · exact ⟨_, rfl, by rw [hi]; exact Int.cast_zero⟩
    have hlt : i.toInt.natAbs < 2 ^ w.bits := by
      have := i.two_mul_toInt_lt
      have := i.le_two_mul_toInt
      zify
      rw [abs_lt]
      constructor <;> omega
    simpa using represents_of_signed hi hlt (by cases w <;> decide) (show 0 < 2 ^ 31 by decide)
  | uint w n =>
    cases h
    rw [normalizedNumericParts, unsignedIntegerParts]
    split_ifs with hn
    · exact ⟨_, rfl, by rw [hn]; exact Nat.cast_zero⟩
    simpa using represents_of_parts hn n.isLt (by cases w <;> decide) (show 0 < 2 ^ 31 by decide) false
  | decimal d =>
    cases h
    have hval : (d.mantissa : ℚ) / 10 ^ d.scale = (crates.decimalNormalize d).mantissa /
        10 ^ (crates.decimalNormalize d).scale := by
      rw [div_eq_div_iff (by positivity) (by positivity)]
      exact_mod_cast (crates.decimalNormalize_value d).symm
    rw [hval, normalizedNumericParts]
    split_ifs with hm
    · exact ⟨_, rfl, by simp [Represents, hm]⟩
    have hscale := (crates.decimalNormalize d).scale_le
    exact represents_of_signed hm (crates.decimalNormalize d).mantissa_lt (by decide) (by omega)
  | float f x =>
    rw [Value.rat] at h
    split_ifs at h with hfin
    cases h
    rw [normalizedNumericParts, if_pos hfin]
    apply binaryFloatBigParts_represents (Nat.mod_lt _ (Nat.two_pow_pos _))
    · have hexp : f.biasedExponent x < 2 ^ f.exponentBits := Nat.mod_lt _ (Nat.two_pow_pos _)
      cases f <;> simp only [FloatFormat.exponentBits, FloatFormat.fractionBits] at hexp ⊢ <;> omega
    · cases f <;> decide
  | _ => cases h

/-- Only numbers are normalized. -/
theorem normalizedNumericParts_represents (h : normalizedNumericParts crates v = .ok r) :
    ∃ x, v.rat = some x ∧ Represents r x := by
  cases hx : v.rat with
  | some x =>
    obtain ⟨r', hr, hrep⟩ := normalizedNumericParts_total crates hx
    cases h.symm.trans hr
    exact ⟨x, rfl, hrep⟩
  | none =>
    cases v with
    | float f x =>
      rw [Value.rat] at hx
      split_ifs at hx with hfin
      rw [normalizedNumericParts, if_neg hfin] at h
      cases h
    | _ => first | cases h | cases hx

/-! ## Equal numbers, equal parts -/

theorem NormalizedNumeric.Canonical.eq_of_value {p q : NormalizedNumeric} (hp : p.Canonical)
    (hq : q.Canonical) (h : p.value = q.value) : p = q := by
  have hpos := hp.magnitude_pos
  have hpos' := hq.magnitude_pos
  obtain ⟨hneg, hmag⟩ : p.negative = q.negative ∧ p.magnitude = q.magnitude := by
    rw [value, value] at h
    cases hn : p.negative <;> cases hn' : q.negative <;> simp [hn, hn'] at h ⊢ <;> linarith
  have hpoint : p.pointPos.toInt = q.pointPos.toInt :=
    le_antisymm (not_lt.mp fun hlt => (hq.magnitude_lt hp hlt).ne hmag.symm)
      (not_lt.mp fun hlt => (hp.magnitude_lt hq hlt).ne hmag)
  have hfrac : Digits.fraction p.digits = Digits.fraction q.digits := by
    rw [magnitude, magnitude, hpoint] at hmag
    exact mul_right_cancel₀ (zpow_ne_zero _ (by norm_num)) hmag
  have hdigits := (hp.decides_digits hq hpoint).eq_iff.mpr (compare_eq_iff_eq.mpr hfrac)
  cases p
  cases q
  simp_all [BitVec.toInt_inj]

/-- Parts are determined by the number they represent. -/
theorem Represents.unique {l r : Option NormalizedNumeric} (hl : Represents l x)
    (hr : Represents r x) : l = r := by
  have hcmp := (compareParts_eq hl hr).trans (compare_eq_iff_eq.mpr rfl)
  cases l with
  | none =>
    cases r with
    | none => rfl
    | some q =>
      rw [compareParts] at hcmp
      split_ifs at hcmp
  | some p =>
    cases r with
    | none =>
      rw [compareParts] at hcmp
      split_ifs at hcmp
    | some q => rw [hl.1.eq_of_value hr.1 (hl.2.trans hr.2.symm)]

/-- Mixed numeric comparison is comparison of the exact rationals, and numbers
that are equal have the same normalized parts. -/
theorem normalized_parts_compare_exactly (crates : Crates) (a b : Value E) (x y : ℚ)
    (ha : a.rat = some x) (hb : b.rat = some y) :
    compareNormalizedNumeric crates a b = some (compare x y) ∧
      (x = y → normalizedNumericParts crates a = normalizedNumericParts crates b) := by
  obtain ⟨l, hl, hlx⟩ := normalizedNumericParts_total crates ha
  obtain ⟨r, hr, hry⟩ := normalizedNumericParts_total crates hb
  constructor
  · rw [← compareParts_eq hlx hry]
    simp [compareNormalizedNumeric, hl, hr, Except.toOption]
  · rintro rfl
    rw [hl, hr, hlx.unique hry]

/-- A half, as a float and as a decimal with a trailing zero. -/
theorem normalized_parts_compare_exactly_half :
    normalizedNumericParts Crates.documented (.float .f16 0x3800#_ : Value Empty) =
      normalizedNumericParts Crates.documented (.decimal ⟨50, 2, by decide, by decide⟩ : Value Empty) := by
  refine (normalized_parts_compare_exactly _ _ _ (1 / 2) (1 / 2) ?_ ?_).2 rfl
  · rw [Value.rat, if_pos (by decide), FloatFormat.rat, if_neg (by decide), if_neg (by decide),
      show FloatFormat.f16.fraction 0x3800#_ = 0 by decide,
      show FloatFormat.f16.biasedExponent 0x3800#_ = 14 by decide]
    norm_num [FloatFormat.fractionBits, FloatFormat.exponentBias]
  · norm_num [Value.rat]

end Gleaph
