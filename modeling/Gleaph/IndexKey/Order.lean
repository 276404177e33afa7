import Gleaph.IndexKey
import Gleaph.Panic

/-!
# Gleaph.IndexKey.Order

Index keys order as the values they encode.

Each layer of the encoding is a `LexCode.Decides` code for the comparison of
what it encodes, and the layers compose:

* **leaf atoms** — escaped strings, sign-flipped words, numeric magnitudes
  (complemented when negative), paths;
* **walkers** — list items and record fields, each behind a marker, thread the
  atoms through a run of parts;
* `decides_of_compareValues` assembles them over the value tree.

Zoned times are the exception: the key takes the UTC time of day, the
comparison takes `normalizeZonedTimeUtc`, and the two orders part on a late
zoned time (`Clash`).
-/

namespace Gleaph

open LexCode ExtensionValue List

/-! ## Leaf atoms -/

open Decides

/-- Escaped and terminated strings decide as the strings. -/
theorem decides_escaped (x y : List UInt8) :
    Decides (pushEscapedIndexBytes x) (pushEscapedIndexBytes y) (compare x y) := by
  induction x generalizing y with
  | nil =>
    cases y with
    | nil => exact refl _
    | cons b y =>
      -- the terminator against an escaped zero, or against the byte itself
      by_cases hb : b = 0
      · subst hb
        exact (of_letter_ne (a := (0 : UInt8)) (b := 255) (by decide)).prepend [0]
      have hlt : compare (0 : UInt8) b = .lt := by
        rw [compare_uint8, Nat.compare_eq_lt]
        exact Nat.pos_of_ne_zero fun h => hb (UInt8.toNat_inj.mp h)
      simp only [pushEscapedIndexBytes, pushEscapedIndexPayload, List.flatMap_cons, if_neg hb,
        List.compare_nil_cons, ← hlt]
      exact of_letter_ne (by rw [hlt]; decide)
  | cons a x ih =>
    cases y with
    | nil =>
      by_cases ha : a = 0
      · subst ha
        exact (of_letter_ne (a := (255 : UInt8)) (b := 0) (by decide)).prepend [0]
      have hgt : compare a (0 : UInt8) = .gt := by
        rw [compare_uint8, Nat.compare_eq_gt]
        exact Nat.pos_of_ne_zero fun h => ha (UInt8.toNat_inj.mp h)
      simp only [pushEscapedIndexBytes, pushEscapedIndexPayload, List.flatMap_cons, if_neg ha,
        List.compare_cons_nil, ← hgt]
      exact of_letter_ne (by rw [hgt]; decide)
    | cons b y =>
      have hletter : ∀ c : UInt8, ∃ t, (if c = 0 then [0, 255] else [c]) = c :: t := by
        intro c
        by_cases hc : c = 0
        · exact ⟨[255], by rw [if_pos hc, hc]⟩
        · exact ⟨[], if_neg hc⟩
      have hcons : ∀ c z, pushEscapedIndexBytes (c :: z) =
          (if c = 0 then [0, 255] else [c]) ++ pushEscapedIndexBytes z := by
        intro c z
        simp [pushEscapedIndexBytes, pushEscapedIndexPayload]
      rw [hcons, hcons, List.compare_cons_cons]
      obtain ⟨t, ht⟩ := hletter a
      obtain ⟨u, hu⟩ := hletter b
      have hrest : compare a b = .eq → Decides (t ++ pushEscapedIndexBytes x)
          (u ++ pushEscapedIndexBytes y) (compare x y) := by
        intro hab
        obtain rfl := Std.compare_eq_iff_eq.mp hab
        obtain rfl : t = u := List.cons_inj_right a |>.mp (ht.symm.trans hu)
        exact (ih y).prepend t
      rw [ht, hu]
      exact (letter a b).append_of_eq hrest

/-- The bytes of a signed number, sign bit flipped, order as the numbers. -/
theorem decides_signedOrderI64 (x y : BitVec 64) :
    Decides (encodeSignedOrderI64 x) (encodeSignedOrderI64 y) (compare x.toInt y.toInt) :=
  signed 8 (by decide) x y

/-- Big-endian bytes order as the numbers. -/
theorem decides_u64 (x y : BitVec 64) :
    Decides (beBytes 8 x.toNat) (beBytes 8 y.toNat) (compare x.toNat y.toNat) :=
  Decides.beBytes 8 x.isLt y.isLt

/-- Seconds first, then nanoseconds. -/
theorem decides_instants (s1 s2 : BitVec 64) (n1 n2 : BitVec 32) :
    Decides (encodeSignedOrderI64 s1 ++ beBytes 4 n1.toNat)
      (encodeSignedOrderI64 s2 ++ beBytes 4 n2.toNat) (compareInstants s1 s2 n1 n2) :=
  (decides_signedOrderI64 s1 s2).append (.beBytes 4 n1.isLt n2.isLt)

/-! ## Numbers -/

/-- Magnitudes decide by the point position, then by the padded digits. -/
theorem decides_numericMagnitude (hp : p.Canonical) (hq : q.Canonical) :
    Decides (numericMagnitude p) (numericMagnitude q) (cmpMagnitude p q) := by
  have hpoint := signed 4 (by decide) p.pointPos q.pointPos
  rw [numericMagnitude, numericMagnitude, append_assoc, append_assoc, cmpMagnitude]
  refine hpoint.append_of_eq fun hpos => ?_
  rw [Digits.compare_padTo (le_max_left ..) (le_max_right ..) hp.isDigit hq.isDigit]
  exact hp.decides_digits hq (compare_eq_iff_eq.mp hpos)

private theorem compare_complement (a b : UInt8) :
    compare (~~~a) (~~~b) = (compare a b).swap := by
  rw [← Std.OrientedCmp.eq_swap, compare_uint8, compare_uint8, UInt8.toNat_not, UInt8.toNat_not]
  have ha := a.toNat_lt
  have hb := b.toNat_lt
  have hsize : UInt8.size = 256 := rfl
  exact compare_congr (by omega) (by omega)

/-- Numeric keys decide as the numbers they represent. -/
theorem decides_numericKeyOfParts (hl : Represents l x) (hr : Represents r y) :
    Decides (numericKeyOfParts l) (numericKeyOfParts r) (compareParts l r) := by
  -- the sign byte decides unless the signs agree
  have hsign : ∀ (a b : UInt8) (u v : List UInt8), compare a b ≠ .eq →
      Decides (a :: u) (b :: v) (compare a b) := fun _ _ _ _ => of_letter_ne
  cases l with
  | none =>
    cases r with
    | none => exact refl _
    | some q =>
      rw [numericKeyOfParts, numericKeyOfParts, compareParts]
      cases q.negative <;> exact hsign _ _ _ _ (by decide)
  | some p =>
    cases r with
    | none =>
      rw [numericKeyOfParts, numericKeyOfParts, compareParts]
      cases p.negative <;> exact hsign _ _ _ _ (by decide)
    | some q =>
      have hpq := decides_numericMagnitude hl.1 hr.1
      have hqp := decides_numericMagnitude hr.1 hl.1
      rw [numericKeyOfParts, numericKeyOfParts, compareParts, NormalizedNumeric.cmpNumeric]
      cases p.negative <;> cases q.negative
      · exact hpq.prepend [2]
      · exact hsign 2 0 _ _ (by decide)
      · exact hsign 0 2 _ _ (by decide)
      have h := (hpq.map_swap compare_complement).prepend [0]
      rwa [cmpMagnitude_eq hl.1 hr.1, ← Std.OrientedCmp.eq_swap,
        ← cmpMagnitude_eq hr.1 hl.1] at h

/-! ## Paths -/

/-- A path element's tag and id order as the elements. -/
theorem decides_pathElement (l r : PathElement) :
    Decides (encodePathElement l) (encodePathElement r) (comparePathElements l r) := by
  cases l with
  | vertex a =>
    cases r with
    | vertex b => exact (decides_escaped a b).prepend [pathKeyVertex]
    | edge b => exact of_letter_ne (a := pathKeyVertex) (b := pathKeyEdge) (by decide)
  | edge a =>
    cases r with
    | vertex b => exact of_letter_ne (a := pathKeyEdge) (b := pathKeyVertex) (by decide)
    | edge b => exact (decides_escaped a b).prepend [pathKeyEdge]

/-- Paths order by their elements, the shorter first. -/
theorem decides_pathSlices (left right : List PathElement) :
    Decides (left.flatMap encodePathElement ++ [endMarker])
      (right.flatMap encodePathElement ++ [endMarker]) (comparePathSlices left right) := by
  -- the end marker is below both element tags
  have hend : ∀ e : PathElement, ∃ tag rest, encodePathElement e = tag :: rest ∧
      compare endMarker tag = .lt ∧ compare tag endMarker = .gt := by
    intro e
    cases e with
    | vertex a | edge a => exact ⟨_, _, rfl, rfl, rfl⟩
  induction left generalizing right with
  | nil =>
    cases right with
    | nil => exact refl _
    | cons r right =>
      obtain ⟨tag, rest, htag, hlt, -⟩ := hend r
      rw [comparePathSlices, flatMap_cons, htag]
      · rw [Nat.compare_eq_lt.mpr (by simp), ← hlt]
        exact of_letter_ne (by rw [hlt]; decide)
      · simp
  | cons l left ih =>
    cases right with
    | nil =>
      obtain ⟨tag, rest, htag, -, hgt⟩ := hend l
      rw [comparePathSlices, flatMap_cons, htag]
      · rw [Nat.compare_eq_gt.mpr (by simp), ← hgt]
        exact of_letter_ne (by rw [hgt]; decide)
      · simp
    | cons r right =>
      rw [comparePathSlices, flatMap_cons, flatMap_cons, append_assoc,
        append_assoc]
      exact (decides_pathElement l r).append (ih right)

/-! ## Zoned times -/

/-- A well-formed zoned time's key is its UTC time of day: the `i64`
arithmetic does not overflow. -/
theorem zonedTimeKeyUtc_eq {z : ZonedTime} (h : z.WellFormed crates) :
    zonedTimeKeyUtc z.1 z.2 = z.utc := by
  obtain ⟨hn, ho⟩ := h
  rw [crates.offsetFromSeconds_iff] at ho
  simp only [nanosPerDay] at hn
  have hnanos : z.1.toInt = z.1.toNat := BitVec.toInt_eq_toNat_of_lt (by omega)
  have hgiga : (1_000_000_000#64).toInt = 1_000_000_000 := by decide
  have hmul : (z.2.signExtend 64 * 1_000_000_000#64).toInt = z.2.toInt * 1_000_000_000 := by
    rw [BitVec.toInt_mul, BitVec.toInt_signExtend_of_le (by decide), hgiga]
    apply Int.bmod_eq_of_le <;> omega
  have hsub : (z.1 - z.2.signExtend 64 * 1_000_000_000#64).toInt = z.instant := by
    rw [BitVec.toInt_sub, hnanos, hmul]
    apply Int.bmod_eq_of_le <;> omega
  rw [zonedTimeKeyUtc, hsub, ZonedTime.utc]

/-- Keys of well-formed zoned times decide by the UTC time of day. -/
theorem decides_zonedTime {z1 z2 : ZonedTime} (h1 : z1.WellFormed crates)
    (h2 : z2.WellFormed crates) :
    Decides (beBytes 8 (zonedTimeKeyUtc z1.1 z1.2).toNat)
      (beBytes 8 (zonedTimeKeyUtc z2.1 z2.2).toNat) (compare z1.utc z2.utc) := by
  obtain ⟨h1n, h1d⟩ := z1.utc_range
  obtain ⟨h2n, h2d⟩ := z2.utc_range
  have hcmp : compare z1.utc.toNat z2.utc.toNat = compare z1.utc z2.utc :=
    compare_congr (by omega) (by omega)
  simp only [nanosPerDay] at h1d h2d
  rw [zonedTimeKeyUtc_eq h1, zonedTimeKeyUtc_eq h2, ← hcmp]
  exact Decides.beBytes 8 (by omega) (by omega)

/-- A late zoned time whose UTC time of day is not below that of one that is
not late: the comparison puts it first, its key does not. -/
def ZonedTime.Clash (z1 z2 : ZonedTime) : Prop := z1.Late ∧ ¬ z2.Late ∧ z2.utc ≤ z1.utc

/-- Without a clash either way, comparison and key order agree on two zoned
times; with one, they do not. -/
theorem ZonedTime.compare_utc_iff (z1 z2 : ZonedTime) :
    compare (z1.utc - if z1.Late then nanosPerDay else 0)
        (z2.utc - if z2.Late then nanosPerDay else 0) = compare z1.utc z2.utc ↔
      ¬ z1.Clash z2 ∧ ¬ z2.Clash z1 := by
  obtain ⟨h1n, h1d⟩ := z1.utc_range
  obtain ⟨h2n, h2d⟩ := z2.utc_range
  unfold ZonedTime.Clash
  generalize hd : nanosPerDay = day at *
  by_cases hl1 : z1.Late <;> by_cases hl2 : z2.Late <;>
    simp only [hl1, hl2, if_true, if_false, true_and, false_and, not_true, not_false_iff, and_true,
      not_le, sub_zero, iff_true]
  · exact compare_congr (by omega) (by omega)
  · rw [compare_lt_iff_lt.mpr (show z1.utc - day < z2.utc by omega), eq_comm, compare_lt_iff_lt]
  · rw [compare_gt_iff_gt.mpr (show z2.utc - day < z1.utc by omega), eq_comm, compare_gt_iff_gt]

/-! ## Walkers -/

section Values

variable {E : Type} [ExtensionValue E]

/-- Whenever the comparison answers, the keys decide the same. -/
def KeyOrdered (crates : Crates) (a b : Value E) : Prop :=
  ∀ ka kb o, encodeValueKey crates a = .ok ka → encodeValueKey crates b = .ok kb →
    compareValues crates a b = .ok (some o) → Decides ka kb o

theorem encodeListItems_cons_ok {v : Value E} (h : encodeListItems crates (v :: vs) = .ok k) :
    ∃ kv kr, encodeValueKey crates v = .ok kv ∧ encodeListItems crates vs = .ok kr ∧
      k = [itemMarker] ++ (kv ++ kr) := by
  rw [encodeListItems] at h
  obtain ⟨kv, hv, h⟩ := bind_inv h
  obtain ⟨kr, hr, h⟩ := bind_inv h
  cases h
  exact ⟨kv, kr, hv, hr, rfl⟩

theorem encodeSortedFields_cons_ok (h : encodeSortedFields ((name, value) :: fields) = .ok k) :
    ∃ kv kr, value = .ok kv ∧ encodeSortedFields fields = .ok kr ∧
      k = [itemMarker] ++ (pushEscapedIndexBytes (asBytes name) ++ (kv ++ kr)) := by
  rw [encodeSortedFields] at h
  obtain ⟨kv, hv, h⟩ := bind_inv h
  obtain ⟨kr, hr, h⟩ := bind_inv h
  cases h
  exact ⟨kv, kr, hv, hr, by simp⟩

/-- The end marker sorts below a further item. -/
private theorem decides_end_item (k : List UInt8) :
    Decides [endMarker] ([itemMarker] ++ k) .lt :=
  of_letter_ne (a := endMarker) (b := itemMarker) (by decide)

private theorem decides_item_end (k : List UInt8) :
    Decides ([itemMarker] ++ k) [endMarker] .gt :=
  of_letter_ne (a := itemMarker) (b := endMarker) (by decide)

/-- Two parts in lockstep: decided by the first, or equal there and decided by
the rest. -/
private theorem decides_step {x y u v : List UInt8} (h : thenCompare item rest = .ok (some o))
    (hitem : ∀ o, item = .ok (some o) → Decides x y o)
    (hrest : rest () = .ok (some o) → Decides u v o) : Decides (x ++ u) (y ++ v) o := by
  unfold thenCompare at h
  split at h
  · exact (hitem .eq rfl).append (hrest h)
  next hne =>
  refine (hitem o h).append_of_ne ?_ u v
  rintro rfl
  exact hne h

/-- Lists order by their items, the shorter first, if the items' keys are in
order. -/
theorem decides_listItems {left right : List (Value E)}
    (h : ∀ l ∈ left, ∀ r ∈ right, KeyOrdered crates l r) (hl : encodeListItems crates left = .ok kl)
    (hr : encodeListItems crates right = .ok kr)
    (hc : compareValueSlices crates left right = .ok (some o)) : Decides kl kr o := by
  induction left generalizing right kl kr with
  | nil =>
    cases hl
    cases right with
    | nil =>
      cases hr
      cases hc
      exact refl _
    | cons r right =>
      obtain ⟨ky, kr', -, -, rfl⟩ := encodeListItems_cons_ok hr
      cases hc
      exact decides_end_item _
  | cons l left ih =>
    obtain ⟨kx, kl', hx, hl', rfl⟩ := encodeListItems_cons_ok hl
    cases right with
    | nil =>
      cases hr
      cases hc
      exact decides_item_end _
    | cons r right =>
      obtain ⟨ky, kr', hy, hr', rfl⟩ := encodeListItems_cons_ok hr
      rw [compareValueSlices] at hc
      refine (decides_step hc ?_ ?_).prepend [itemMarker]
      · exact fun o ho => h l (by simp) r (by simp) kx ky o hx hy ho
      · exact fun hrest => ih (fun l' hl' r' hr' => h l' (by simp [hl']) r' (by simp [hr']))
          hl' hr' hrest

/-- Records order by name and value of each field in turn. -/
theorem decides_sortedFields {left right : List (String × Value E)}
    (h : ∀ l ∈ left, ∀ r ∈ right, KeyOrdered crates l.2 r.2)
    (hl : encodeSortedFields (left.map fun f => (f.1, encodeValueKey crates f.2)) = .ok kl)
    (hr : encodeSortedFields (right.map fun f => (f.1, encodeValueKey crates f.2)) = .ok kr)
    (hc : compareSortedFields (left.map fun f => (f.1, compareValues crates f.2)) right =
      .ok (some o)) : Decides kl kr o := by
  induction left generalizing right kl kr with
  | nil =>
    cases hl
    cases right with
    | nil =>
      cases hr
      cases hc
      exact refl _
    | cons r right =>
      obtain ⟨ky, kr', -, -, rfl⟩ := encodeSortedFields_cons_ok hr
      cases hc
      exact decides_end_item _
  | cons l left ih =>
    obtain ⟨kx, kl', hx, hl', rfl⟩ := encodeSortedFields_cons_ok hl
    cases right with
    | nil =>
      cases hr
      cases hc
      exact decides_item_end _
    | cons r right =>
      obtain ⟨ky, kr', hy, hr', rfl⟩ := encodeSortedFields_cons_ok hr
      have hname := decides_escaped (asBytes l.1) (asBytes r.1)
      rw [map_cons, compareSortedFields] at hc
      refine prepend [itemMarker] ?_
      unfold compareText at hc
      split at hc
      next heq =>
        rw [heq] at hname
        refine hname.append (decides_step hc ?_ ?_)
        · exact fun o ho => h l (by simp) r (by simp) kx ky o hx hy ho
        · exact fun hrest => ih
            (fun l' hl' r' hr' => h l' (by simp [hl']) r' (by simp [hr'])) hl' hr' hrest
      next hne =>
        cases hc
        exact hname.append_of_ne hne _ _

theorem encodeFields_eq_map (crates : Crates) (fields : List (String × Value E)) :
    encodeFields crates fields = fields.map fun f => (f.1, encodeValueKey crates f.2) := by
  induction fields with
  | nil => rfl
  | cons f fields ih => rw [encodeFields, ih, map_cons]

/-! ## Assembling -/

/-- A numeric key is made from the parts of the normal form. -/
theorem encodeNumericKey_eq_ok (h : encodeNumericKey crates v = .ok k) :
    ∃ parts, normalizedNumericParts crates v = .ok parts ∧ k = numericKeyOfParts parts := by
  rw [encodeNumericKey] at h
  split at h <;> cases h
  next parts hparts => exact ⟨parts, hparts, rfl⟩

/-- All numbers share one tag. -/
theorem encodeValueKey_of_isNumeric {v : Value E} (h : v.isNumeric = true) :
    encodeValueKey crates v = (indexKeyNumeric :: ·) <$> encodeNumericKey crates v := by
  cases v with
  | int w x | uint w x | float f x | decimal d => rfl
  | _ => cases h

/-- So numbers of different types are ordered among each other. -/
theorem keyOrdered_numeric {a b : Value E} (ha : a.isNumeric = true) (hb : b.isNumeric = true) :
    KeyOrdered crates a b := by
  intro ka kb o hka hkb hc
  rw [compareValues_of_isNumeric ha hb] at hc
  rw [encodeValueKey_of_isNumeric ha] at hka
  rw [encodeValueKey_of_isNumeric hb] at hkb
  obtain ⟨ka', hka', rfl⟩ := map_eq_ok.mp hka
  obtain ⟨kb', hkb', rfl⟩ := map_eq_ok.mp hkb
  obtain ⟨l, hl, rfl⟩ := encodeNumericKey_eq_ok hka'
  obtain ⟨r, hr, rfl⟩ := encodeNumericKey_eq_ok hkb'
  obtain ⟨x, -, hx⟩ := normalizedNumericParts_represents hl
  obtain ⟨y, -, hy⟩ := normalizedNumericParts_represents hr
  have ho : compareParts l r = o := by
    simpa [compareNormalizedNumeric, hl, hr, Except.toOption] using hc
  rw [← ho]
  exact (decides_numericKeyOfParts hx hy).prepend [indexKeyNumeric]

/-- Two zoned times on which comparison and key agree. -/
def ZonedTime.Agree (crates : Crates) (z1 z2 : ZonedTime) : Prop :=
  z1.WellFormed crates ∧ z2.WellFormed crates ∧ ¬ z1.Clash z2 ∧ ¬ z2.Clash z1

theorem decides_i32 (x y : BitVec 32) :
    Decides (encodeSignedOrderI64 (x.signExtend 64)) (encodeSignedOrderI64 (y.signExtend 64))
      (compare x.toInt y.toInt) := by
  have h := decides_signedOrderI64 (x.signExtend 64) (y.signExtend 64)
  rwa [BitVec.toInt_signExtend_of_le (by decide), BitVec.toInt_signExtend_of_le (by decide)] at h

/-- Extension values are ordered as their type orders them. -/
theorem keyOrdered_extension (hext : KeysOrdered E) (x y : E) :
    KeyOrdered crates (.extension x) (.extension y) := by
  intro ka kb o hka hkb hc
  have ho : cmpExt x y = some o := Except.ok.inj hc
  rw [encodeValueKey] at hka hkb
  split at hka <;> cases hka
  next kx hx =>
  split at hkb <;> cases hkb
  next ky hy =>
  rw [← hext x y kx ky o hx hy ho]
  exact ((decides_escaped _ _).append (decides_escaped _ _)).prepend [indexKeyExtension]

/-- Everything that is neither a list, a record, an extension nor a number. -/
theorem keyOrdered_leaf {a b : Value E}
    (hext : ∀ x y, a = .extension x → b = .extension y → KeyOrdered crates a b)
    (hlist : ∀ vs, a ≠ .list vs) (hrecord : ∀ fs, a ≠ .record fs)
    (hnum : ¬ (a.isNumeric = true ∧ b.isNumeric = true))
    (hz : ∀ z1 ∈ a.zonedTimes, ∀ z2 ∈ b.zonedTimes, ZonedTime.Agree crates z1 z2) :
    KeyOrdered crates a b := by
  intro ka kb o hka hkb hc
  have hc' := hc
  rw [compareValues.eq_def, if_neg (by simpa using hnum)] at hc
  split at hc
  case h_1 =>
    cases hka; cases hkb; cases hc
    exact refl _
  case h_2 x y =>
    cases hka; cases hkb; cases hc
    refine prepend [indexKeyBool] ?_
    cases x <;> cases y <;> exact letter _ _
  case h_3 x y =>
    cases hka; cases hkb; cases hc
    exact (decides_escaped (asBytes x) (asBytes y)).prepend [indexKeyText]
  case h_4 x y =>
    cases hka; cases hkb; cases hc
    exact (decides_escaped x y).prepend [indexKeyBytes]
  case h_5 x y =>
    cases hka; cases hkb; cases hc
    exact (decides_i32 x y).prepend [indexKeyTemporal, 1]
  case h_6 x y =>
    cases hka; cases hkb; cases hc
    exact (decides_u64 x y).prepend [indexKeyTemporal, 2]
  case h_7 x y =>
    cases hka; cases hkb; cases hc
    exact (decides_u64 x y).prepend [indexKeyTemporal, 3]
  case h_8 s1 n1 s2 n2 =>
    cases hka; cases hkb; cases hc
    exact (decides_instants s1 s2 n1 n2).prepend [indexKeyTemporal, 4]
  case h_9 s1 n1 s2 n2 =>
    cases hka; cases hkb; cases hc
    exact (decides_instants s1 s2 n1 n2).prepend [indexKeyTemporal, 5]
  case h_10 s1 n1 _ s2 n2 _ =>
    cases hka; cases hkb; cases hc
    exact (decides_instants s1 s2 n1 n2).prepend [indexKeyTemporal, 6]
  case h_11 n1 t1 n2 t2 =>
    obtain ⟨h1, h2, h12, h21⟩ := hz (n1, t1) (mem_singleton.mpr rfl) (n2, t2) (mem_singleton.mpr rfl)
    cases hka
    cases hkb
    rw [compareValues_zonedTime _ _ h1 h2] at hc'
    cases hc'
    rw [(ZonedTime.compare_utc_iff (n1, t1) (n2, t2)).mpr ⟨h12, h21⟩]
    exact (decides_zonedTime h1 h2).prepend [indexKeyTemporal, 7]
  case h_12 m1 n1 m2 n2 =>
    cases hka; cases hkb; cases hc
    exact ((decides_i32 m1 m2).append (decides_signedOrderI64 n1 n2)).prepend [indexKeyTemporal, 8]
  case h_13 vs ws => exact absurd rfl (hlist vs)
  case h_14 fs gs => exact absurd rfl (hrecord fs)
  case h_15 x y =>
    cases hka; cases hkb; cases hc
    exact (decides_pathSlices x y).prepend [indexKeyPath]
  case h_16 x y => exact hext x y rfl rfl ka kb o hka hkb hc'
  case h_17 => cases hc

/-- Keys order as values wherever the comparison answers and the zoned times
in the two values agree. -/
theorem keyOrdered_of_agree (hext : KeysOrdered E) (a b : Value E)
    (hz : ∀ z1 ∈ a.zonedTimes, ∀ z2 ∈ b.zonedTimes, ZonedTime.Agree crates z1 z2) :
    KeyOrdered crates a b := by
  induction a using Value.member_induction generalizing b with
  | list vs ih =>
    intro ka kb o hka hkb hc
    cases b with
    | list ws =>
      obtain ⟨ka', hka', rfl⟩ := map_eq_ok.mp hka
      obtain ⟨kb', hkb', rfl⟩ := map_eq_ok.mp hkb
      rw [compareValues] at hc
      refine (decides_listItems (fun v hv w hw => ih v hv w ?_) hka' hkb' hc).prepend [indexKeyList]
      exact fun z1 h1 z2 h2 => hz z1 (mem_zonedTimes_list hv h1) z2 (mem_zonedTimes_list hw h2)
    | _ => cases hc
  | record fs ih =>
    intro ka kb o hka hkb hc
    cases b with
    | record gs =>
      rw [encodeValueKey, encodeFields_eq_map, sortByName_map] at hka hkb
      obtain ⟨ka', hka', rfl⟩ := map_eq_ok.mp hka
      obtain ⟨kb', hkb', rfl⟩ := map_eq_ok.mp hkb
      rw [compareValues, fieldComparisons_eq_map, sortByName_map] at hc
      refine (decides_sortedFields (fun f hf g hg => ih f (mem_sortByName.mp hf) g.2 ?_)
        hka' hkb' hc).prepend [indexKeyRecord]
      exact fun z1 h1 z2 h2 => hz z1 (mem_zonedTimes_record (mem_sortByName.mp hf) h1)
        z2 (mem_zonedTimes_record (mem_sortByName.mp hg) h2)
    | _ => cases hc
  | leaf a hlist hrecord =>
    by_cases hnum : a.isNumeric = true ∧ b.isNumeric = true
    · exact keyOrdered_numeric hnum.1 hnum.2
    refine keyOrdered_leaf ?_ hlist hrecord hnum hz
    rintro x y rfl rfl
    exact keyOrdered_extension hext x y

/-! ## Order preservation -/

/-- Every zoned time in the value lies in `S`. -/
def Value.ZonedTimesIn (S : Set ZonedTime) (v : Value E) : Prop := ∀ z ∈ v.zonedTimes, z ∈ S

theorem encodeValueKey_of_valueToIndexKeyBytes {v : Value E} {k : List UInt8}
    (h : valueToIndexKeyBytes crates v = .ok (some k)) : encodeValueKey crates v = .ok k := by
  rw [valueToIndexKeyBytes.eq_def] at h
  split at h
  · cases h
  obtain ⟨k', hk, hsome⟩ := map_eq_ok.mp h
  cases hsome
  exact hk

/-- Over values whose zoned times lie in `S`, index keys order as the
comparison, with equal keys exactly for equal values, if and only if no two
zoned times of `S` clash. -/
theorem index_key_order_iff_no_clash (hext : ExtensionValue.KeysOrdered E) (S : Set ZonedTime)
    (hS : ∀ z ∈ S, z.WellFormed crates) :
    (∀ a b : Value E, a.ZonedTimesIn S → b.ZonedTimesIn S → ∀ (ka kb : List UInt8) (o : Ordering),
      valueToIndexKeyBytes crates a = .ok (some ka) →
      valueToIndexKeyBytes crates b = .ok (some kb) →
      compareValues crates a b = .ok (some o) → compare ka kb = o ∧ (ka = kb ↔ o = .eq)) ↔
    ∀ z1 ∈ S, ∀ z2 ∈ S, ¬ z1.Clash z2 := by
  constructor
  · intro h z1 hz1 z2 hz2
    -- the two zoned times themselves, as values
    have hin : ∀ z ∈ S, (Value.zonedTime z.1 z.2 : Value E).ZonedTimesIn S := by
      intro z hz z' hz'
      rwa [mem_singleton.mp hz']
    have hkeys := (decides_zonedTime (hS z1 hz1) (hS z2 hz2)).prepend [indexKeyTemporal, 7]
    have hord := (h _ _ (hin z1 hz1) (hin z2 hz2) _ _ _ rfl rfl
      (compareValues_zonedTime z1 z2 (hS z1 hz1) (hS z2 hz2))).1
    exact ((ZonedTime.compare_utc_iff z1 z2).mp (hord.symm.trans hkeys.compare_eq)).1
  · intro h a b ha hb ka kb o hka hkb hc
    have hdec := keyOrdered_of_agree hext a b
      (fun z1 h1 z2 h2 => ⟨hS z1 (ha z1 h1), hS z2 (hb z2 h2), h z1 (ha z1 h1) z2 (hb z2 h2),
        h z2 (hb z2 h2) z1 (ha z1 h1)⟩) ka kb o
      (encodeValueKey_of_valueToIndexKeyBytes hka) (encodeValueKey_of_valueToIndexKeyBytes hkb) hc
    exact ⟨hdec.compare_eq, hdec.eq_iff⟩

end Values

/-- 00:00:00.5 at offset +00:00:01, half a second before UTC midnight. -/
def lateTime : ZonedTime := (500_000_000#64, 1#32)

/-- Noon, UTC. -/
def noonTime : ZonedTime := (43_200_000_000_000#64, 0#32)

theorem lateTime_wellFormed (crates : Crates) : lateTime.WellFormed crates :=
  ⟨by decide, (crates.offsetFromSeconds_iff _).mpr (by decide)⟩

theorem noonTime_wellFormed (crates : Crates) : noonTime.WellFormed crates :=
  ⟨by decide, (crates.offsetFromSeconds_iff _).mpr (by decide)⟩

theorem no_clash_noonTime :
    ∀ z1 ∈ ({noonTime} : Set ZonedTime), ∀ z2 ∈ ({noonTime} : Set ZonedTime), ¬ z1.Clash z2 := by
  intro z1 h1 z2 h2 h
  rw [Set.mem_singleton_iff.mp h1, Set.mem_singleton_iff.mp h2] at h
  exact h.2.1 h.1

/-- Half a second before midnight compares below noon, but its key sorts above. -/
theorem index_key_order_late_time_before_noon : ∃ ka kb,
    valueToIndexKeyBytes Crates.documented (.zonedTime lateTime.1 lateTime.2 : Value Empty) =
      .ok (some ka) ∧
    valueToIndexKeyBytes Crates.documented (.zonedTime noonTime.1 noonTime.2 : Value Empty) =
      .ok (some kb) ∧
    lateTime.WellFormed Crates.documented ∧ noonTime.WellFormed Crates.documented ∧
    compareValues Crates.documented (.zonedTime lateTime.1 lateTime.2 : Value Empty)
      (.zonedTime noonTime.1 noonTime.2) = .ok (some .lt) ∧
    compare ka kb = .gt := by
  refine ⟨_, _, rfl, rfl, lateTime_wellFormed _, noonTime_wellFormed _, ?_, by decide⟩
  rw [compareValues_zonedTime _ _ (lateTime_wellFormed _) (noonTime_wellFormed _)]
  decide

/-- Zoned times without a clash: noon in UTC alone. -/
theorem index_key_order_iff_no_clash_noon :
    noonTime.WellFormed Crates.documented ∧
    ∀ a b : Value Empty, a.ZonedTimesIn {noonTime} → b.ZonedTimesIn {noonTime} →
      ∀ (ka kb : List UInt8) (o : Ordering),
      valueToIndexKeyBytes Crates.documented a = .ok (some ka) →
      valueToIndexKeyBytes Crates.documented b = .ok (some kb) →
      compareValues Crates.documented a b = .ok (some o) →
      compare ka kb = o ∧ (ka = kb ↔ o = .eq) :=
  ⟨noonTime_wellFormed _, (index_key_order_iff_no_clash ExtensionValue.keysOrdered_empty {noonTime}
    fun _ hz => Set.mem_singleton_iff.mp hz ▸ noonTime_wellFormed _).mpr no_clash_noonTime⟩

end Gleaph
