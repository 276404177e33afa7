import Gleaph.IndexKey.Order

/-!
# Gleaph.IndexKey.Range

The half-open key intervals of ordered comparisons are exact: a stored key
lies in the interval of `property OP literal` just when the stored value is of
the literal's comparison domain and compares to it as `OP` asks.

`lexSuccPrefix_spec` says what the lexicographic successor bounds; a domain's
interval is then the set of keys that extend its floor
(`inInterval_floor_iff`), and each one-sided cut is that set cut at the bound
key (`oneSidedDomainInterval_iff`).  Keys of one domain are never proper
prefixes of one another, so no key extending the bound is gained or lost.
-/

namespace Gleaph

open LexCode List

/-! ## The lexicographic successor -/

/-- `low ≤ key < high`. -/
def InInterval (low high key : List UInt8) : Prop :=
  (compare low key).isLE = true ∧ compare key high = .lt

/-- Below the successor of `k` are the words below `k` and its extensions;
without a successor those are all words. -/
theorem lexSuccPrefix_spec (k x : List UInt8) :
    (∀ s, lexSuccPrefix k = some s → (compare x s = .lt ↔ compare x k = .lt ∨ k <+: x)) ∧
      (lexSuccPrefix k = none → compare x k = .lt ∨ k <+: x) := by
  induction k generalizing x with
  | nil => exact ⟨nofun, fun _ => Or.inr nil_prefix⟩
  | cons b bs ih =>
    rw [lexSuccPrefix]
    cases x with
    | nil =>
      refine ⟨fun s hs => ?_, fun _ => Or.inl List.compare_nil_cons⟩
      have hlt : compare [] s = .lt := by
        cases s with
        | nil =>
          split at hs
          · cases hs
          · split_ifs at hs
            cases hs
        | cons c s => exact List.compare_nil_cons
      simp [hlt, List.compare_nil_cons]
    | cons c xs =>
      obtain ⟨ihsome, ihnone⟩ := ih xs
      cases hsucc : lexSuccPrefix bs with
      | some s' =>
        refine ⟨fun s hs => ?_, nofun⟩
        cases hs
        rw [List.compare_cons_cons, List.compare_cons_cons, Ordering.then_eq_lt,
          Ordering.then_eq_lt, ihsome s' hsucc, cons_prefix_cons,
          Std.compare_eq_iff_eq, eq_comm (a := b)]
        tauto
      | none =>
        have hrest := ihnone hsucc
        have htail : ¬ compare xs [] = .lt := by
          cases xs with
          | nil => decide
          | cons y ys => rw [List.compare_cons_nil]; decide
        by_cases hb : b < 255
        · refine ⟨fun s hs => ?_, fun hs => absurd hs (by simp [if_pos hb])⟩
          simp only [if_pos hb, Option.some.injEq] at hs
          subst hs
          have hb1 : (b + 1).toNat = b.toNat + 1 := by
            have := UInt8.lt_iff_toNat_lt.mp hb
            rw [UInt8.toNat_add]
            exact Nat.mod_eq_of_lt (Nat.succ_lt_succ this)
          have hle : compare c (b + 1) = .lt ↔ compare c b = .lt ∨ c = b := by
            rw [compare_uint8, compare_uint8, Nat.compare_eq_lt, Nat.compare_eq_lt, hb1,
              ← UInt8.toNat_inj]
            omega
          rw [List.compare_cons_cons, List.compare_cons_cons, Ordering.then_eq_lt,
            Ordering.then_eq_lt, cons_prefix_cons, Std.compare_eq_iff_eq,
            Std.compare_eq_iff_eq, hle, eq_comm (a := b)]
          tauto
        · refine ⟨fun s hs => absurd hs (by simp [if_neg hb]), fun _ => ?_⟩
          have hb255 : b.toNat = 255 := by
            have := b.toNat_lt
            rw [UInt8.lt_iff_toNat_lt] at hb
            have : (255 : UInt8).toNat = 255 := rfl
            omega
          have hc : compare c b = .lt ∨ c = b := by
            rw [compare_uint8, Nat.compare_eq_lt, ← UInt8.toNat_inj]
            have := c.toNat_lt
            omega
          rw [List.compare_cons_cons, Ordering.then_eq_lt, List.cons_prefix_cons,
            Std.compare_eq_iff_eq, eq_comm (a := b)]
          tauto

theorem compare_lexSuccBytes (hk : lexSuccPrefix k = some s) (x : List UInt8) :
    compare x (lexSuccBytes k) = .lt ↔ compare x k = .lt ∨ k <+: x := by
  rw [lexSuccBytes, hk]
  exact (lexSuccPrefix_spec k x).1 s hk

/-- An extension of a word with a successor has one. -/
theorem lexSuccPrefix_append (hp : lexSuccPrefix p = some s) (t : List UInt8) :
    ∃ s', lexSuccPrefix (p ++ t) = some s' := by
  induction p generalizing s with
  | nil => cases hp
  | cons b p ih =>
    rw [lexSuccPrefix] at hp
    rw [cons_append, lexSuccPrefix]
    cases hpt : lexSuccPrefix (p ++ t) with
    | some s' => exact ⟨_, rfl⟩
    | none =>
      cases hp' : lexSuccPrefix p with
      | some s' =>
        obtain ⟨s'', hs''⟩ := ih hp'
        rw [hpt] at hs''
        cases hs''
      | none => exact ⟨s, by rw [hp'] at hp; exact hp⟩

/-- A prefix is not above. -/
theorem isLE_of_isPrefix {p x : List UInt8} (h : p <+: x) : (compare p x).isLE = true := by
  obtain ⟨t, rfl⟩ := h
  have hp := Decides.refl p [] t
  rw [append_nil] at hp
  rw [hp]
  cases t with
  | nil => rfl
  | cons a t => rfl

/-- Between a word and its successor lie its extensions. -/
theorem inInterval_floor_iff {p s : List UInt8} (hp : lexSuccPrefix p = some s) (x : List UInt8) :
    InInterval p (lexSuccBytes p) x ↔ p <+: x := by
  rw [InInterval, compare_lexSuccBytes hp]
  constructor
  · rintro ⟨hle, hlt | hpre⟩
    · exact absurd hle (Std.OrientedCmp.not_isLE_of_lt hlt)
    · exact hpre
  · exact fun h => ⟨isLE_of_isPrefix h, Or.inr h⟩

/-! ## One-sided cuts -/

/-- Whether an ordering satisfies the operator. -/
def CmpOp.holds : CmpOp → Ordering → Bool
  | .eq, o => o.isEq
  | .ne, o => o.isNe
  | .lt, o => o.isLT
  | .le, o => o.isLE
  | .gt, o => o.isGT
  | .ge, o => o.isGE

section Cut

/-- The clamped successor bounds a domain's keys as the successor does. -/
theorem compare_clampedSucc (hp : lexSuccPrefix p = some c) (hkv : p <+: kv) (kw : List UInt8) :
    InInterval p (clampedSucc (lexSuccBytes p) kv) kw ↔
      p <+: kw ∧ (compare kw kv = .lt ∨ kv <+: kw) := by
  obtain ⟨t, rfl⟩ := hkv
  obtain ⟨s, hs⟩ := lexSuccPrefix_append hp t
  have hsucc := compare_lexSuccBytes hs kw
  have hfloor := inInterval_floor_iff hp kw
  rw [InInterval] at hfloor ⊢
  rw [clampedSucc]
  split_ifs with hgt
  · -- the successor lies past the ceiling: the whole domain is below it
    rw [hfloor]
    refine ⟨fun h => ⟨h, ?_⟩, And.left⟩
    rw [← hsucc]
    have hceil := (hfloor.mpr h).2
    exact Std.TransCmp.lt_of_lt_of_isLE hceil
      (by rw [Std.OrientedCmp.gt_iff_lt] at hgt; rw [hgt]; rfl)
  · rw [hsucc]
    constructor
    · rintro ⟨hle, h⟩
      refine ⟨hfloor.mp ⟨hle, ?_⟩, h⟩
      exact Std.TransCmp.lt_of_lt_of_isLE (hsucc.mpr h) (Ordering.isLE_iff_ne_gt.mpr hgt)
    · rintro ⟨hpre, h⟩
      exact ⟨isLE_of_isPrefix hpre, h⟩

private theorem isGE_iff {x y : List UInt8} :
    (compare x y).isGE = true ↔ (compare y x).isLE = true := by
  rw [show compare x y = (compare y x).swap from Std.OrientedCmp.eq_swap, Ordering.isGE_swap]

/-- A cut at `kv` takes the domain's keys that compare to `kv` as asked. -/
theorem oneSidedDomainInterval_iff (hdom : comparisonDomainInterval kv = some (p, lexSuccBytes p))
    (hp : lexSuccPrefix p = some c) (hkv : p <+: kv) (hfree : p <+: kw → kv <+: kw → kw = kv)
    {op : CmpOp} (h : oneSidedDomainInterval kv op = .ok (low, high)) :
    InInterval low high kw ↔ p <+: kw ∧ op.holds (compare kw kv) = true := by
  have hfloor := fun x => inInterval_floor_iff hp x
  have hclamp := compare_clampedSucc hp hkv kw
  have hple : (compare p kv).isLE = true := isLE_of_isPrefix hkv
  have hvceil : compare kv (lexSuccBytes p) = .lt := ((hfloor kv).mpr hkv).2
  rw [oneSidedDomainInterval, hdom] at h
  cases op with
  | eq | ne => cases h
  | ge =>
    cases h
    rw [CmpOp.holds, isGE_iff]
    constructor
    · rintro ⟨hle, hlt⟩
      exact ⟨(hfloor kw).mp ⟨Std.TransCmp.isLE_trans hple hle, hlt⟩, hle⟩
    · rintro ⟨hpre, hle⟩
      exact ⟨hle, ((hfloor kw).mpr hpre).2⟩
  | le =>
    cases h
    rw [hclamp, CmpOp.holds]
    refine and_congr_right fun hpre => ?_
    constructor
    · rintro (hlt | hext)
      · rw [hlt]
        rfl
      · rw [hfree hpre hext, Std.compare_eq_iff_eq.mpr rfl]
        rfl
    intro hle
    cases hc : compare kw kv with
    | lt => exact Or.inl rfl
    | eq =>
      rw [Std.compare_eq_iff_eq.mp hc]
      exact Or.inr (prefix_refl kv)
    | gt =>
      rw [hc] at hle
      cases hle
  | lt =>
    cases h
    rw [CmpOp.holds, Ordering.isLT_iff_eq_lt]
    constructor
    · rintro ⟨hle, hlt⟩
      exact ⟨(hfloor kw).mp ⟨hle, Std.TransCmp.lt_trans hlt hvceil⟩, hlt⟩
    · rintro ⟨hpre, hlt⟩
      exact ⟨isLE_of_isPrefix hpre, hlt⟩
  | gt =>
    cases h
    rw [CmpOp.holds, Ordering.isGT_iff_eq_gt]
    -- the bound itself lies below its clamped successor
    have hbelow := (compare_clampedSucc hp hkv kv).mpr
      ⟨hkv, Or.inr (prefix_refl kv)⟩
    constructor
    · rintro ⟨hle, hlt⟩
      have hvw := Std.TransCmp.lt_of_lt_of_isLE hbelow.2 hle
      refine ⟨(hfloor kw).mp ⟨Std.TransCmp.isLE_trans hple ?_, hlt⟩, ?_⟩
      · rw [hvw]
        rfl
      · exact Std.OrientedCmp.gt_iff_lt.mpr hvw
    rintro ⟨hpre, hgt⟩
    refine ⟨?_, ((hfloor kw).mpr hpre).2⟩
    rw [← isGE_iff, Ordering.isGE_iff_ne_lt]
    intro hlt
    rcases (hclamp.mp ⟨isLE_of_isPrefix hpre, hlt⟩).2 with hlt' | hext
    · rw [hgt] at hlt'
      cases hlt'
    · rw [hfree hpre hext, Std.compare_eq_iff_eq.mpr rfl] at hgt
      cases hgt

end Cut

/-! ## Comparison domains -/

/-- The classes of values that one ordered interval can range over. -/
inductive ComparisonDomain where
  | numeric | text | bytes
  | date | time | localTime | dateTime | localDateTime | zonedDateTime | zonedTime
  deriving DecidableEq, Repr

namespace ComparisonDomain

/-- The bytes every key of the domain starts with. -/
def floor : ComparisonDomain → List UInt8
  | numeric => [indexKeyNumeric]
  | text => [indexKeyText]
  | bytes => [indexKeyBytes]
  | date => [indexKeyTemporal, 1]
  | time => [indexKeyTemporal, 2]
  | localTime => [indexKeyTemporal, 3]
  | dateTime => [indexKeyTemporal, 4]
  | localDateTime => [indexKeyTemporal, 5]
  | zonedDateTime => [indexKeyTemporal, 6]
  | zonedTime => [indexKeyTemporal, 7]

theorem exists_lexSuccPrefix_floor (d : ComparisonDomain) : ∃ s, lexSuccPrefix d.floor = some s := by
  cases d <;> exact ⟨_, rfl⟩

theorem comparisonDomainInterval_floor (d : ComparisonDomain) (t : List UInt8) :
    comparisonDomainInterval (d.floor ++ t) = some (d.floor, lexSuccBytes d.floor) := by
  cases d <;> rfl

end ComparisonDomain

section Values

variable {E : Type} [ExtensionValue E]

/-- The comparison domain of a value: none for null, Booleans, durations and
composite or extension values. -/
def Value.comparisonDomain : Value E → Option ComparisonDomain
  | .int _ _ | .uint _ _ | .float _ _ | .decimal _ => some .numeric
  | .text _ => some .text
  | .bytes _ => some .bytes
  | .date _ => some .date
  | .time _ => some .time
  | .localTime _ => some .localTime
  | .dateTime _ _ => some .dateTime
  | .localDateTime _ _ => some .localDateTime
  | .zonedDateTime _ _ _ => some .zonedDateTime
  | .zonedTime _ _ => some .zonedTime
  | _ => none

/-- Tag and, for temporal values, subtype. -/
def Value.keyHead : Value E → List UInt8
  | .null => [endMarker]
  | .bool _ => [indexKeyBool]
  | .int _ _ | .uint _ _ | .float _ _ | .decimal _ => [indexKeyNumeric]
  | .text _ => [indexKeyText]
  | .bytes _ => [indexKeyBytes]
  | .date _ => [indexKeyTemporal, 1]
  | .time _ => [indexKeyTemporal, 2]
  | .localTime _ => [indexKeyTemporal, 3]
  | .dateTime _ _ => [indexKeyTemporal, 4]
  | .localDateTime _ _ => [indexKeyTemporal, 5]
  | .zonedDateTime _ _ _ => [indexKeyTemporal, 6]
  | .zonedTime _ _ => [indexKeyTemporal, 7]
  | .duration _ _ => [indexKeyTemporal, 8]
  | .list _ => [indexKeyList]
  | .record _ => [indexKeyRecord]
  | .path _ => [indexKeyPath]
  | .extension _ => [indexKeyExtension]

theorem keyHead_isPrefix {v : Value E} (h : encodeValueKey crates v = .ok k) : v.keyHead <+: k := by
  cases v with
  | int w x | uint w x | float f x | decimal d | list vs | record fs =>
    obtain ⟨k', -, rfl⟩ := map_eq_ok.mp h
    exact ⟨k', rfl⟩
  | extension x =>
    rw [encodeValueKey] at h
    split at h <;> cases h
    exact ⟨_, rfl⟩
  | _ =>
    cases h
    exact ⟨_, rfl⟩

/-- A domain's keys are those that extend its floor. -/
theorem floor_prefix_iff {v : Value E} (h : encodeValueKey crates v = .ok k) (d : ComparisonDomain) :
    d.floor <+: k ↔ v.comparisonDomain = some d := by
  obtain ⟨t, rfl⟩ := keyHead_isPrefix h
  cases v <;> cases d <;>
    simp [Value.keyHead, Value.comparisonDomain, ComparisonDomain.floor, indexKeyNumeric,
      indexKeyText, indexKeyBytes, indexKeyTemporal, indexKeyBool, indexKeyList, indexKeyRecord,
      indexKeyPath, indexKeyExtension, endMarker]

omit [ExtensionValue E] in
theorem isNumeric_of_domain {v : Value E} (h : v.comparisonDomain = some .numeric) :
    v.isNumeric = true := by
  cases v with
  | int w x | uint w x | float f x | decimal d => rfl
  | _ => cases h

/-- Values of one domain that have keys are comparable. -/
theorem exists_compareValues {v w : Value E} (hv : encodeValueKey crates v = .ok kv)
    (hw : encodeValueKey crates w = .ok kw) (hdv : v.comparisonDomain = some d)
    (hdw : w.comparisonDomain = some d) (hzv : ∀ z ∈ v.zonedTimes, z.WellFormed crates)
    (hzw : ∀ z ∈ w.zonedTimes, z.WellFormed crates) :
    ∃ o, compareValues crates w v = .ok (some o) := by
  by_cases hd : d = .numeric
  · subst hd
    have hnv := isNumeric_of_domain hdv
    have hnw := isNumeric_of_domain hdw
    rw [encodeValueKey_of_isNumeric hnv] at hv
    rw [encodeValueKey_of_isNumeric hnw] at hw
    obtain ⟨kv', hkv', -⟩ := map_eq_ok.mp hv
    obtain ⟨kw', hkw', -⟩ := map_eq_ok.mp hw
    obtain ⟨r, hr, -⟩ := encodeNumericKey_eq_ok hkv'
    obtain ⟨l, hl, -⟩ := encodeNumericKey_eq_ok hkw'
    refine ⟨compareParts l r, ?_⟩
    rw [compareValues_of_isNumeric hnw hnv]
    simp [compareNormalizedNumeric, hl, hr, Except.toOption]
  · cases w with
    | zonedTime n2 t2 =>
      cases hdw
      cases v with
      | zonedTime n1 t1 =>
        have hw' : ZonedTime.WellFormed crates (n2, t2) := hzw _ (mem_singleton.mpr rfl)
        have hv' : ZonedTime.WellFormed crates (n1, t1) := hzv _ (mem_singleton.mpr rfl)
        exact ⟨_, compareValues_zonedTime (n2, t2) (n1, t1) hw' hv'⟩
      | _ => cases hdv
    | int w x | uint w x | float f x | decimal x => exact absurd (Option.some.inj hdw).symm hd
    | _ => cases hdw <;> cases v <;> cases hdv <;> exact ⟨_, rfl⟩

/-! ## Exact ranges -/

/-- The interval of `property op v` holds exactly the keys of the stored
values `w` in `v`'s domain that compare to `v` as asked. -/
def RangeExact (crates : Crates) (v w : Value E) : Prop :=
  ∀ (op : CmpOp) (kv kw low high : List UInt8),
    valueToIndexKeyBytes crates v = .ok (some kv) → valueToIndexKeyBytes crates w = .ok (some kw) →
    rangeBounds crates v op = .ok (low, high) ∨ rangeBoundsForEncodedKey kv op = .ok (low, high) →
    (InInterval low high kw ↔ (∃ d, v.comparisonDomain = some d ∧ w.comparisonDomain = some d) ∧
      ∃ o, compareValues crates w v = .ok (some o) ∧ op.holds o = true)

theorem rangeExact_of_agree {v w : Value E}
    (hzv : ∀ z ∈ v.zonedTimes, z.WellFormed crates) (hzw : ∀ z ∈ w.zonedTimes, z.WellFormed crates)
    (hz : ∀ z1 ∈ w.zonedTimes, ∀ z2 ∈ v.zonedTimes, ZonedTime.Agree crates z1 z2) :
    RangeExact crates v w := by
  intro op kv kw low high hv hw hb
  -- both entry points cut at the value's key
  have hcut : oneSidedDomainInterval kv op = .ok (low, high) := by
    rcases hb with h | h
    · rwa [rangeBounds, encodedRangeBoundKey, hv] at h
    rw [rangeBoundsForEncodedKey] at h
    split_ifs at h
    exact h
  replace hv := encodeValueKey_of_valueToIndexKeyBytes hv
  replace hw := encodeValueKey_of_valueToIndexKeyBytes hw
  obtain ⟨d, hd⟩ : ∃ d, v.comparisonDomain = some d := by
    obtain ⟨t, rfl⟩ := keyHead_isPrefix hv
    have hnone : comparisonDomainInterval (v.keyHead ++ t) ≠ none := by
      intro hn
      rw [oneSidedDomainInterval, hn] at hcut
      split_ifs at hcut
    cases v with
    | null | bool x | duration m n | list vs | record fs | path es | extension x =>
      exact absurd rfl hnone
    | _ => exact ⟨_, rfl⟩
  obtain ⟨c, hc⟩ := d.exists_lexSuccPrefix_floor
  have hpre : d.floor <+: kv := (floor_prefix_iff hv d).mpr hd
  have hdom : comparisonDomainInterval kv = some (d.floor, lexSuccBytes d.floor) := by
    obtain ⟨t, rfl⟩ := hpre
    exact d.comparisonDomainInterval_floor t
  -- keys of the domain decide as the comparison of their values
  have hdec : w.comparisonDomain = some d →
      ∃ o, compareValues crates w v = .ok (some o) ∧ Decides kw kv o := by
    intro hdw
    obtain ⟨o, ho⟩ := exists_compareValues hv hw hd hdw hzv hzw
    refine ⟨o, ho, ?_⟩
    by_cases hnum : w.isNumeric = true ∧ v.isNumeric = true
    · exact keyOrdered_numeric hnum.1 hnum.2 kw kv o hw hv ho
    refine keyOrdered_leaf ?_ ?_ ?_ hnum hz kw kv o hw hv ho
    · rintro x y rfl
      cases hdw
    · rintro vs rfl
      cases hdw
    · rintro fs rfl
      cases hdw
  have hfree : d.floor <+: kw → kv <+: kw → kw = kv := by
    intro hpw hext
    obtain ⟨o, -, ho⟩ := hdec ((floor_prefix_iff hw d).mp hpw)
    exact ho.eq_of_isPrefix hext
  rw [oneSidedDomainInterval_iff hdom hc hpre hfree hcut, floor_prefix_iff hw]
  constructor
  · rintro ⟨hdw, hop⟩
    obtain ⟨o, ho, hko⟩ := hdec hdw
    exact ⟨⟨d, hd, hdw⟩, o, ho, hko.compare_eq ▸ hop⟩
  rintro ⟨⟨d', hd', hdw⟩, o, ho, hop⟩
  obtain rfl : d = d' := Option.some.inj (hd.symm.trans hd')
  obtain ⟨o', ho', hko⟩ := hdec hdw
  obtain rfl : o' = o := Option.some.inj (Except.ok.inj (ho'.symm.trans ho))
  exact ⟨hdw, hko.compare_eq ▸ hop⟩

/-- On two zoned times the ranges are exact only if comparison and UTC order
agree. -/
theorem compare_utc_of_rangeExact {z1 z2 : ZonedTime} (h1 : z1.WellFormed crates)
    (h2 : z2.WellFormed crates)
    (h : RangeExact crates (.zonedTime z2.1 z2.2 : Value E) (.zonedTime z1.1 z1.2)) :
    ¬ z1.Clash z2 := by
  have hkeys : compare _ _ = _ :=
    ((decides_zonedTime h1 h2).prepend [indexKeyTemporal, 7]).compare_eq
  have hcmp := compareValues_zonedTime (E := E) z1 z2 h1 h2
  have hpre : ComparisonDomain.floor .zonedTime <+:
      [indexKeyTemporal, 7] ++ beBytes 8 (zonedTimeKeyUtc z1.1 z1.2).toNat := ⟨_, rfl⟩
  -- what one operator's interval says
  have hop : ∀ op low high, oneSidedDomainInterval
      ([indexKeyTemporal, 7] ++ beBytes 8 (zonedTimeKeyUtc z2.1 z2.2).toNat) op = .ok (low, high) →
      (op.holds (compare z1.utc z2.utc) = true ↔
        op.holds (compare (z1.utc - if z1.Late then nanosPerDay else 0)
          (z2.utc - if z2.Late then nanosPerDay else 0)) = true) := by
    intro op low high hcut
    obtain ⟨c, hc⟩ := ComparisonDomain.zonedTime.exists_lexSuccPrefix_floor
    have hkeyiff := oneSidedDomainInterval_iff
      (ComparisonDomain.zonedTime.comparisonDomainInterval_floor _) hc ⟨_, rfl⟩
      (fun _ => ((decides_zonedTime h1 h2).prepend [indexKeyTemporal, 7]).eq_of_isPrefix) hcut
    have hiff := hkeyiff.symm.trans (h op _ _ low high rfl rfl (Or.inl hcut))
    rw [← hkeys]
    constructor
    · intro ho
      obtain ⟨-, o, ho', hholds⟩ := hiff.mp ⟨hpre, ho⟩
      rw [hcmp] at ho'
      cases ho'
      exact hholds
    · intro ho
      exact (hiff.mpr ⟨⟨_, rfl, rfl⟩, _, hcmp, ho⟩).2
  have hlt := hop .lt _ _ rfl
  have hgt := hop .gt _ _ rfl
  simp only [CmpOp.holds, Ordering.isLT_iff_eq_lt, Ordering.isGT_iff_eq_gt, compare_lt_iff_lt,
    compare_gt_iff_gt] at hlt hgt
  exact ((ZonedTime.compare_utc_iff z1 z2).mp (compare_congr hlt.symm hgt.symm)).1

/-- Over values whose zoned times lie in `S`, every range interval holds
exactly the values of the literal's domain that satisfy the comparison, if and
only if no two zoned times of `S` clash. -/
theorem range_bounds_exact_iff_no_clash (S : Set ZonedTime) (hS : ∀ z ∈ S, z.WellFormed crates) :
    (∀ v w : Value E, v.ZonedTimesIn S → w.ZonedTimesIn S → RangeExact crates v w) ↔
      ∀ z1 ∈ S, ∀ z2 ∈ S, ¬ z1.Clash z2 := by
  constructor
  · intro h z1 hz1 z2 hz2
    have hin : ∀ z ∈ S, (Value.zonedTime z.1 z.2 : Value E).ZonedTimesIn S := by
      intro z hz z' hz'
      rwa [mem_singleton.mp hz']
    exact compare_utc_of_rangeExact (hS z1 hz1) (hS z2 hz2) (h _ _ (hin z2 hz2) (hin z1 hz1))
  · intro h v w hv hw
    exact rangeExact_of_agree (fun z hz => hS z (hv z hz)) (fun z hz => hS z (hw z hz))
      fun z1 h1 z2 h2 => ⟨hS z1 (hw z1 h1), hS z2 (hv z2 h2), h z1 (hw z1 h1) z2 (hv z2 h2),
        h z2 (hv z2 h2) z1 (hw z1 h1)⟩

end Values

/-- Asking for times before noon misses half a second before midnight, which
compares below noon. -/
theorem range_bounds_late_time_before_noon : ∃ low high kw,
    rangeBounds Crates.documented (.zonedTime noonTime.1 noonTime.2 : Value Empty) .lt =
      .ok (low, high) ∧
    valueToIndexKeyBytes Crates.documented (.zonedTime lateTime.1 lateTime.2 : Value Empty) =
      .ok (some kw) ∧
    lateTime.WellFormed Crates.documented ∧ noonTime.WellFormed Crates.documented ∧
    compareValues Crates.documented (.zonedTime lateTime.1 lateTime.2 : Value Empty)
      (.zonedTime noonTime.1 noonTime.2) = .ok (some .lt) ∧
    ¬ InInterval low high kw := by
  refine ⟨_, _, _, rfl, rfl, lateTime_wellFormed _, noonTime_wellFormed _, ?_, ?_⟩
  · rw [compareValues_zonedTime _ _ (lateTime_wellFormed _) (noonTime_wellFormed _)]
    decide
  · unfold InInterval
    decide

/-- Ranges over stored values whose only zoned time is noon in UTC. -/
theorem range_bounds_exact_iff_no_clash_noon :
    noonTime.WellFormed Crates.documented ∧
    ∀ v w : Value Empty, v.ZonedTimesIn {noonTime} → w.ZonedTimesIn {noonTime} →
      RangeExact Crates.documented v w :=
  ⟨noonTime_wellFormed _, (range_bounds_exact_iff_no_clash {noonTime}
    fun _ hz => Set.mem_singleton_iff.mp hz ▸ noonTime_wellFormed _).mpr no_clash_noonTime⟩

end Gleaph
