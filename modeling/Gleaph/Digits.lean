import Gleaph.LexCode

/-!
# Gleaph.Digits

Decimal digit strings as ASCII bytes, read as the fraction after a decimal
point: `fraction "125" = 0.125`.

Read this way, trailing zeros do not matter (`fraction_padTo`), the text of a
natural number is the number scaled by its length (`fraction_ofNat`), and
strings of one length compare byte by byte as their fractions do
(`compare_eq_compare_fraction`).  A digit string closed by a byte below every
digit is an order-preserving code once useless trailing zeros are excluded
(`decides_terminated`).
-/

namespace Gleaph.Digits

open LexCode List

/-- An ASCII decimal digit. -/
def IsDigit (d : UInt8) : Prop := 48 ≤ d.toNat ∧ d.toNat ≤ 57

/-- Decimal text of a natural number (`to_string`). -/
def ofNat (n : Nat) : List UInt8 :=
  if n = 0 then [48] else (Nat.digits 10 n).reverse.map fun d => UInt8.ofNat (48 + d)

/-- The string filled up with `'0'` to length `n`. -/
def padTo (n : Nat) (ds : List UInt8) : List UInt8 :=
  ds ++ List.replicate (n - ds.length) 48

/-- The digits read after a decimal point. -/
def fraction : List UInt8 → ℚ
  | [] => 0
  | d :: ds => ((d.toNat : ℚ) - 48 + fraction ds) / 10

/-! ## Bounds -/

/-- A fraction of digits is not negative. -/
theorem fraction_nonneg (h : ∀ d ∈ ds, IsDigit d) : 0 ≤ fraction ds := by
  induction ds with
  | nil => exact le_refl _
  | cons d ds ih =>
    have hd : (48 : ℚ) ≤ d.toNat := by exact_mod_cast (h d (by simp)).1
    have := ih fun e he => h e (mem_cons_of_mem d he)
    rw [fraction]
    linarith

/-- And it is below one. -/
theorem fraction_lt_one (h : ∀ d ∈ ds, IsDigit d) : fraction ds < 1 := by
  induction ds with
  | nil => exact zero_lt_one
  | cons d ds ih =>
    have hd : (d.toNat : ℚ) ≤ 57 := by exact_mod_cast (h d (by simp)).2
    have := ih fun e he => h e (mem_cons_of_mem d he)
    rw [fraction]
    linarith

/-- A nonzero leading digit puts the fraction in the upper nine tenths. -/
theorem fraction_ge_of_head (h : ∀ e ∈ d :: ds, IsDigit e) (hd : d ≠ 48) :
    1 / 10 ≤ fraction (d :: ds) := by
  have h49 : (49 : ℚ) ≤ d.toNat := by
    have hne : d.toNat ≠ 48 := fun he => hd (UInt8.toNat_inj.mp he)
    have := (h d (by simp)).1
    exact_mod_cast (by omega : 49 ≤ d.toNat)
  have := fraction_nonneg fun e he => h e (mem_cons_of_mem d he)
  rw [fraction]
  linarith

/-- A nonzero last digit makes the fraction positive. -/
theorem fraction_pos_of_getLast (h : ∀ d ∈ ds, IsDigit d) (hne : ds ≠ [])
    (hlast : ds.getLast hne ≠ 48) : 0 < fraction ds := by
  induction ds with
  | nil => exact absurd rfl hne
  | cons d ds ih =>
    have htail : ∀ e ∈ ds, IsDigit e := fun e he => h e (mem_cons_of_mem d he)
    cases ds with
    | nil =>
      have := fraction_ge_of_head h (by simpa using hlast)
      linarith
    | cons e es =>
      have hpos := ih htail (by simp) (by simpa using hlast)
      have hd : (48 : ℚ) ≤ d.toNat := by exact_mod_cast (h d (by simp)).1
      rw [fraction]
      linarith

/-! ## Trailing digits -/

/-- Later digits count for less by the number of digits before them. -/
theorem fraction_append (as bs : List UInt8) :
    fraction (as ++ bs) = fraction as + fraction bs / 10 ^ as.length := by
  induction as with
  | nil => simp [fraction]
  | cons a as ih =>
    rw [cons_append, fraction, ih, fraction, length_cons, pow_succ]
    field_simp
    ring

theorem fraction_append_zero (ds : List UInt8) : fraction (ds ++ [48]) = fraction ds := by
  simp [fraction_append, fraction]

/-- Padding with zeros does not change the fraction. -/
theorem fraction_padTo (n : Nat) (ds : List UInt8) : fraction (padTo n ds) = fraction ds := by
  rw [padTo]
  induction n - ds.length with
  | zero => simp
  | succ k ih =>
    rw [replicate_succ', ← append_assoc, fraction_append_zero, ih]

theorem length_padTo (h : ds.length ≤ n) : (padTo n ds).length = n := by
  simp [padTo]
  omega

theorem isDigit_padTo (h : ∀ d ∈ ds, IsDigit d) (n : Nat) : ∀ d ∈ padTo n ds, IsDigit d := by
  intro d hd
  rcases mem_append.mp hd with hd | hd
  · exact h d hd
  · rw [eq_of_mem_replicate hd]
    exact ⟨by decide, by decide⟩

/-! ## The text of a number -/

private theorem toNat_ascii (h : d < 10) : (UInt8.ofNat (48 + d)).toNat = 48 + d := by
  rw [UInt8.toNat_ofNat', Nat.mod_eq_of_lt (by omega)]

/-- The decimal form of a number has digits only. -/
theorem isDigit_ofNat (n : Nat) : ∀ d ∈ ofNat n, IsDigit d := by
  intro d hd
  unfold ofNat at hd
  split_ifs at hd with hn
  · rw [mem_singleton.mp hd]
    exact ⟨by decide, by decide⟩
  obtain ⟨k, hk, rfl⟩ := mem_map.mp hd
  have hk10 : k < 10 := Nat.digits_lt_base (by decide) (mem_reverse.mp hk)
  rw [IsDigit, toNat_ascii hk10]
  omega

private theorem fraction_reverse_map (l : List Nat) (h : ∀ d ∈ l, d < 10) :
    fraction (l.reverse.map fun d => UInt8.ofNat (48 + d)) * 10 ^ l.length =
      (Nat.ofDigits 10 l : Nat) := by
  induction l with
  | nil => simp [fraction]
  | cons d l ih =>
    have ih' := ih fun e he => h e (mem_cons_of_mem d he)
    rw [reverse_cons, map_append, map_singleton, fraction_append, fraction, fraction,
      toNat_ascii (h d (by simp)), Nat.ofDigits_cons, length_map, length_reverse, length_cons]
    rw [Nat.cast_add, Nat.cast_add, Nat.cast_mul, ← ih', pow_succ]
    push_cast
    field_simp
    ring

/-- As a fraction it is the number, shifted behind the point. -/
theorem fraction_ofNat (n : Nat) : fraction (ofNat n) * 10 ^ (ofNat n).length = n := by
  unfold ofNat
  split_ifs with hn
  · simp [hn, fraction]
  have h := fraction_reverse_map (Nat.digits 10 n) fun d hd => Nat.digits_lt_base (by decide) hd
  rwa [Nat.ofDigits_digits, ← length_reverse, ← length_map (f := fun d => UInt8.ofNat (48 + d))] at h

/-- A number below `10 ^ k` has at most `k` digits. -/
theorem length_ofNat_le (hk : k ≠ 0) (h : n < 10 ^ k) : (ofNat n).length ≤ k := by
  unfold ofNat
  split_ifs
  · exact Nat.one_le_iff_ne_zero.mpr hk
  · rwa [length_map, length_reverse, Nat.digits_length_le_iff (by decide)]

/-- The text of a positive number does not start with a zero. -/
theorem ofNat_head (hn : n ≠ 0) : ∃ d ds, ofNat n = d :: ds ∧ d ≠ 48 := by
  have hne : Nat.digits 10 n ≠ [] := Nat.digits_ne_nil_iff_ne_zero.mpr hn
  have hlast := Nat.getLast_digit_ne_zero 10 hn
  have hlt : (Nat.digits 10 n).getLast hne < 10 :=
    Nat.digits_lt_base (by decide) (getLast_mem hne)
  refine ⟨UInt8.ofNat (48 + (Nat.digits 10 n).getLast hne),
    ((Nat.digits 10 n).dropLast.reverse).map fun d => UInt8.ofNat (48 + d), ?_, ?_⟩
  · rw [ofNat, if_neg hn]
    conv_lhs => rw [← dropLast_append_getLast hne]
    rw [reverse_append]
    rfl
  intro he
  have h48 := congrArg UInt8.toNat he
  rw [toNat_ascii hlt] at h48
  have : (48 : UInt8).toNat = 48 := rfl
  omega

/-! ## Order -/

/-- A leading integer and a fraction below one compare lexicographically. -/
private theorem compare_add_fraction (a b : Nat) (hx : 0 ≤ x) (hx' : x < 1) (hy : 0 ≤ y)
    (hy' : y < 1) :
    compare (((a : ℚ) - 48 + x) / 10) (((b : ℚ) - 48 + y) / 10) =
      (compare a b).then (compare x y) := by
  rcases Nat.lt_trichotomy a b with h | h | h
  · have h1 : (a : ℚ) + 1 ≤ b := by exact_mod_cast h
    rw [Nat.compare_eq_lt.mpr h, compare_lt_iff_lt.mpr (by linarith)]
    rfl
  · subst h
    rw [Nat.compare_eq_eq.mpr rfl]
    rcases lt_trichotomy x y with h | h | h
    · rw [compare_lt_iff_lt.mpr h, compare_lt_iff_lt.mpr (by linarith)]
      rfl
    · rw [h, compare_eq_iff_eq.mpr rfl, compare_eq_iff_eq.mpr rfl]
      rfl
    · rw [compare_gt_iff_gt.mpr h, compare_gt_iff_gt.mpr (by linarith)]
      rfl
  · have h1 : (b : ℚ) + 1 ≤ a := by exact_mod_cast h
    rw [Nat.compare_eq_gt.mpr h, compare_gt_iff_gt.mpr (by linarith)]
    rfl

/-- Fractions compare by their first digits, and on a tie by the rest. -/
theorem compare_fraction_cons (ha : ∀ d ∈ a :: as, IsDigit d) (hb : ∀ d ∈ b :: bs, IsDigit d) :
    compare (fraction (a :: as)) (fraction (b :: bs)) =
      (compare a b).then (compare (fraction as) (fraction bs)) := by
  have ha' := forall_mem_of_forall_mem_cons ha
  have hb' := forall_mem_of_forall_mem_cons hb
  rw [fraction, fraction, compare_add_fraction _ _ (fraction_nonneg ha') (fraction_lt_one ha')
    (fraction_nonneg hb') (fraction_lt_one hb'), compare_uint8]

/-- Digit strings of one length compare as their fractions. -/
theorem compare_eq_compare_fraction (hlen : as.length = bs.length) (ha : ∀ d ∈ as, IsDigit d)
    (hb : ∀ d ∈ bs, IsDigit d) : compare as bs = compare (fraction as) (fraction bs) := by
  induction as generalizing bs with
  | nil =>
    obtain rfl := length_eq_zero_iff.mp hlen.symm
    exact (compare_eq_iff_eq.mpr rfl).symm
  | cons a as ih =>
    cases bs with
    | nil => simp at hlen
    | cons b bs =>
      rw [List.compare_cons_cons, compare_fraction_cons ha hb, ih (by simpa using hlen)
        (forall_mem_of_forall_mem_cons ha) (forall_mem_of_forall_mem_cons hb)]

/-- Padded digits compare as the fractions they denote. -/
theorem compare_padTo (han : as.length ≤ n) (hbn : bs.length ≤ n) (ha : ∀ d ∈ as, IsDigit d)
    (hb : ∀ d ∈ bs, IsDigit d) :
    compare (padTo n as) (padTo n bs) = compare (fraction as) (fraction bs) := by
  rw [compare_eq_compare_fraction (by rw [length_padTo han, length_padTo hbn])
    (isDigit_padTo ha n) (isDigit_padTo hb n), fraction_padTo, fraction_padTo]

/-- Closed by a zero byte, digit strings decide as their fractions, when the
longer one does not end in `'0'`. -/
theorem decides_terminated (ha : ∀ d ∈ as, IsDigit d) (hb : ∀ d ∈ bs, IsDigit d)
    (hal : bs.length < as.length → as.getLast? ≠ some 48)
    (hbl : as.length < bs.length → bs.getLast? ≠ some 48) :
    Decides (as ++ [0]) (bs ++ [0]) (compare (fraction as) (fraction bs)) := by
  have hlow : ∀ {d : UInt8}, IsDigit d → compare (0 : UInt8) d = .lt := by
    intro d hd
    rw [compare_uint8, Nat.compare_eq_lt]
    have := hd.1
    show 0 < d.toNat
    omega
  have hpos : ∀ {d : UInt8} {ds : List UInt8}, (∀ e ∈ d :: ds, IsDigit e) →
      (d :: ds).getLast? ≠ some 48 → 0 < fraction (d :: ds) := by
    intro d ds h hlast
    refine fraction_pos_of_getLast h (by simp) fun he => hlast ?_
    rw [getLast?_eq_some_getLast (by simp), he]
  have htail : ∀ {d : UInt8} {ds es : List UInt8}, es.length < ds.length →
      (d :: ds).getLast? ≠ some 48 → ds.getLast? ≠ some 48 := by
    intro d ds es hlt h
    cases ds with
    | nil => simp at hlt
    | cons c cs => simpa using h
  induction as generalizing bs with
  | nil =>
    cases bs with
    | nil => exact Decides.refl _
    | cons b bs =>
      have hlt := hlow (hb b (by simp))
      rw [show fraction [] = 0 from rfl, compare_lt_iff_lt.mpr (hpos hb (hbl (by simp))), ← hlt]
      exact Decides.of_letter_ne (by rw [hlt]; decide)
  | cons a as ih =>
    cases bs with
    | nil =>
      have hgt : compare a (0 : UInt8) = .gt := by
        rw [← Ordering.swap_eq_lt, ← Std.OrientedCmp.eq_swap]
        exact hlow (ha a (by simp))
      rw [show fraction [] = 0 from rfl, compare_gt_iff_gt.mpr (hpos ha (hal (by simp))), ← hgt]
      exact Decides.of_letter_ne (by rw [hgt]; decide)
    | cons b bs =>
      rw [compare_fraction_cons ha hb]
      apply Decides.cons
      apply ih (forall_mem_of_forall_mem_cons ha) (forall_mem_of_forall_mem_cons hb)
      · intro hlt
        exact htail hlt (hal (by simpa using hlt))
      · intro hlt
        exact htail hlt (hbl (by simpa using hlt))

end Gleaph.Digits
