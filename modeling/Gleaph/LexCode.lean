import Gleaph.Bytes

/-!
# Gleaph.LexCode

Order-preserving, self-delimiting codes over lists compared
lexicographically.

The one notion is `Decides x y o`: however the words `x` and `y` are
continued, comparing them gives `o`, and only when `o` is `.eq` does the
comparison go on into the continuations.  It packs three facts that are
always needed together — the order of the two words, that equal order means
equal words, and that neither word is a proper prefix of the other — and it
composes: concatenating codes composes their orders with `Ordering.then`
(`Decides.append`).

The combinators are over an arbitrary ordered alphabet; the last sections
give the fixed-width codes of the byte alphabet: big-endian words, and signed
words with the sign bit flipped.
-/

namespace Gleaph.LexCode

open List

variable {α : Type} [Ord α]

/-- However continued, `x` and `y` compare as `o`, falling through to the
continuations exactly when `o = .eq`. -/
def Decides (x y : List α) (o : Ordering) : Prop :=
  ∀ s t : List α, compare (x ++ s) (y ++ t) = o.then (compare s t)

/-! ## Building codes -/

/-- The empty words decide nothing. -/
theorem Decides.nil : Decides ([] : List α) [] .eq := by
  intro s t
  rfl

/-- One letter decides by its own order. -/
theorem Decides.letter (a b : α) : Decides [a] [b] (compare a b) := by
  intro s t
  simp

variable {o : Ordering} {x y : List α}

/-- Codes concatenate: the first difference wins. -/
theorem Decides.append (h : Decides x y o) (h' : Decides x' y' o') :
    Decides (x ++ x') (y ++ y') (o.then o') := by
  intro s t
  rw [append_assoc, append_assoc, h, h', Ordering.then_assoc]

/-- A letter in front of a code. -/
theorem Decides.cons (a b : α) (h : Decides x y o) :
    Decides (a :: x) (b :: y) ((compare a b).then o) :=
  (Decides.letter a b).append h

/-- Once decided, what follows does not matter. -/
theorem Decides.append_of_ne (h : Decides x y o) (ho : o ≠ .eq) (u v : List α) :
    Decides (x ++ u) (y ++ v) o := by
  intro s t
  rw [append_assoc, append_assoc, h]
  cases o with
  | eq => exact absurd rfl ho
  | lt => rfl
  | gt => rfl

/-- Codes concatenate even if the second is a code only after equal firsts. -/
theorem Decides.append_of_eq (h : Decides x y o) (h' : o = .eq → Decides x' y' o') :
    Decides (x ++ x') (y ++ y') (o.then o') := by
  cases o with
  | eq => exact h.append (h' rfl)
  | lt | gt => exact h.append_of_ne (by decide) x' y'

/-- Distinct leading letters decide, whatever follows. -/
theorem Decides.of_letter_ne (h : compare a b ≠ .eq) : Decides (a :: x) (b :: y) (compare a b) :=
  (Decides.letter a b).append_of_ne h x y

/-- The words themselves compare as decided. -/
theorem Decides.compare_eq (h : Decides x y o) :
    compare x y = o := by
  have h' := h [] []
  rw [List.append_nil, List.append_nil, List.compare_nil_nil] at h'
  rw [h']
  cases o <;> rfl

section Lawful

variable [Std.LawfulEqOrd α]

/-- A word against itself decides `.eq`. -/
theorem Decides.refl (x : List α) : Decides x x .eq := by
  induction x with
  | nil => exact Decides.nil
  | cons a x ih =>
    have h := ih.cons a a
    rw [Std.compare_eq_iff_eq.mpr rfl] at h
    exact h

variable {o : Ordering} {x y : List α}

/-- The same prefix in front of two codes changes nothing. -/
theorem Decides.prepend (p : List α) (h : Decides x y o) :
    Decides (p ++ x) (p ++ y) o :=
  (Decides.refl p).append h

/-! ## Reading codes back -/

/-- Deciding `.eq` means being the same word. -/
theorem Decides.eq_iff (h : Decides x y o) :
    x = y ↔ o = .eq := by
  rw [← h.compare_eq, Std.compare_eq_iff_eq]

/-- Words that decide are not proper prefixes of one another. -/
theorem Decides.eq_of_isPrefix (h : Decides x y o) (hp : y <+: x) :
    x = y := by
  obtain ⟨t, rfl⟩ := hp
  have h' := h [] t
  rw [append_nil, Std.compare_eq_iff_eq.mpr rfl] at h'
  cases t with
  | nil => exact append_nil y
  | cons a t => cases o <;> cases h'

/-- Two words that decide otherwise split at a first differing letter. -/
theorem Decides.split (h : Decides x y o) (ho : o ≠ .eq) :
    ∃ p a u b v, x = p ++ a :: u ∧ y = p ++ b :: v ∧ compare a b = o := by
  induction x generalizing y with
  | nil =>
    cases y with
    | nil => exact absurd (h.compare_eq.symm.trans List.compare_nil_nil) ho
    | cons b v =>
      -- the empty word continued by `b :: v` is `b :: v`
      have h1 := h (b :: v) []
      rw [nil_append, append_nil, Std.compare_eq_iff_eq.mpr rfl] at h1
      cases o with
      | eq => exact absurd rfl ho
      | lt => contradiction
      | gt => contradiction
  | cons a u ih =>
    cases y with
    | nil =>
      have h1 := h [] (a :: u)
      rw [nil_append, append_nil, Std.compare_eq_iff_eq.mpr rfl] at h1
      cases o with
      | eq => exact absurd rfl ho
      | lt => contradiction
      | gt => contradiction
    | cons b v =>
      cases hab : compare a b with
      | eq =>
        obtain rfl := Std.compare_eq_iff_eq.mp hab
        have h' : Decides u v o := by
          intro s t
          have := h s t
          rw [List.cons_append, List.cons_append, List.compare_cons_cons, hab] at this
          simpa using this
        obtain ⟨p, c, u', d, v', hx, hy, hcd⟩ := ih h'
        exact ⟨a :: p, c, u', d, v', by rw [hx]; rfl, by rw [hy]; rfl, hcd⟩
      | lt | gt =>
        refine ⟨[], a, u, b, v, rfl, rfl, ?_⟩
        have h' := h.compare_eq
        rw [List.compare_cons_cons, hab] at h'
        rw [hab, ← h']
        rfl

/-- Relabelling the alphabet against the order turns a code around. -/
theorem Decides.map_swap {f : α → α} (hf : ∀ a b, compare (f a) (f b) = (compare a b).swap)
    (h : Decides x y o) :
    Decides (x.map f) (y.map f) o.swap := by
  by_cases ho : o = .eq
  · subst ho
    rw [h.eq_iff.mpr rfl]
    exact Decides.refl _
  obtain ⟨p, a, u, b, v, rfl, rfl, hab⟩ := h.split ho
  subst hab
  rw [map_append, map_append, map_cons, map_cons, ← hf]
  refine (Decides.of_letter_ne ?_).prepend _
  rw [hf]
  intro hsw
  exact ho (by simpa using hsw)

end Lawful

/-! ## Fixed-width words -/

/-- Comparisons agree when the strict orders do. -/
theorem compare_congr {β γ : Type} [LinearOrder β] [LinearOrder γ] {a b : β} {c d : γ}
    (hlt : a < b ↔ c < d) (hgt : b < a ↔ d < c) : compare a b = compare c d := by
  rcases lt_trichotomy a b with h | h | h
  · rw [compare_lt_iff_lt.mpr h, compare_lt_iff_lt.mpr (hlt.mp h)]
  · have hcd : c = d :=
      le_antisymm (not_lt.mp fun h' => (hgt.mpr h').ne' h) (not_lt.mp fun h' => (hlt.mpr h').ne h)
    rw [compare_eq_iff_eq.mpr h, compare_eq_iff_eq.mpr hcd]
  · rw [compare_gt_iff_gt.mpr h, compare_gt_iff_gt.mpr (hgt.mp h)]

/-- Splitting off the high part of two numbers splits their comparison. -/
theorem compare_divMod (a b k : Nat) :
    compare a b = (compare (a / k) (b / k)).then (compare (a % k) (b % k)) := by
  rcases Nat.lt_trichotomy (a / k) (b / k) with h | h | h
  · have hab : a < b := by
      by_contra hge
      exact absurd (Nat.div_le_div_right (c := k) (Nat.le_of_not_lt hge)) (by omega)
    rw [Nat.compare_eq_lt.mpr h, Nat.compare_eq_lt.mpr hab]
    rfl
  · have ha := Nat.div_add_mod a k
    have hb := Nat.div_add_mod b k
    rw [h] at ha
    rw [Nat.compare_eq_eq.mpr h]
    rcases Nat.lt_trichotomy (a % k) (b % k) with h' | h' | h'
    · rw [Nat.compare_eq_lt.mpr h', Nat.compare_eq_lt.mpr (by omega)]
      rfl
    · rw [Nat.compare_eq_eq.mpr h', Nat.compare_eq_eq.mpr (by omega)]
      rfl
    · rw [Nat.compare_eq_gt.mpr h', Nat.compare_eq_gt.mpr (by omega)]
      rfl
  · have hab : b < a := by
      by_contra hge
      exact absurd (Nat.div_le_div_right (c := k) (Nat.le_of_not_lt hge)) (by omega)
    rw [Nat.compare_eq_gt.mpr h, Nat.compare_eq_gt.mpr hab]
    rfl

/-- Bytes compare as the numbers they hold. -/
theorem compare_uint8 (x y : UInt8) : compare x y = compare x.toNat y.toNat := by
  simp only [compare, compareOfLessAndEq, UInt8.lt_iff_toNat_lt, ← UInt8.toNat_inj]

theorem compare_uint8_ofNat (ha : a < 256) (hb : b < 256) :
    compare (UInt8.ofNat a) (UInt8.ofNat b) = compare a b := by
  rw [compare_uint8, UInt8.toNat_ofNat', UInt8.toNat_ofNat', Nat.mod_eq_of_lt ha,
    Nat.mod_eq_of_lt hb]

/-- Big-endian words of one width decide as the numbers. -/
theorem Decides.beBytes (w : Nat) (ha : a < 256 ^ w) (hb : b < 256 ^ w) :
    Decides (beBytes w a) (beBytes w b) (compare a b) := by
  induction w generalizing a b with
  | zero =>
    obtain rfl : a = 0 := by simpa using ha
    obtain rfl : b = 0 := by simpa using hb
    exact Decides.nil
  | succ w ih =>
    have hpos : 0 < 256 ^ w := Nat.pow_pos (by decide)
    have hlead : ∀ n < 256 ^ (w + 1), n / 256 ^ w < 256 := fun n hn => by
      rw [Nat.div_lt_iff_lt_mul hpos, Nat.mul_comm, ← Nat.pow_succ]
      exact hn
    have h := (ih (Nat.mod_lt a hpos) (Nat.mod_lt b hpos)).cons
      (UInt8.ofNat (a / 256 ^ w)) (UInt8.ofNat (b / 256 ^ w))
    rw [compare_uint8_ofNat (hlead a ha) (hlead b hb), ← compare_divMod,
      beBytes_mod w w a (Nat.le_refl w), beBytes_mod w w b (Nat.le_refl w)] at h
    exact h

/-! ## Signed words -/

private theorem xor_two_pow_of_lt (h : n < 2 ^ k) : n ^^^ 2 ^ k = 2 ^ k + n := by
  have hor := Nat.two_pow_add_eq_or_of_lt h 1
  rw [Nat.mul_one] at hor
  rw [hor]
  apply Nat.eq_of_testBit_eq
  intro i
  rw [Nat.testBit_xor, Nat.testBit_or, Nat.testBit_two_pow]
  by_cases hi : k = i
  · subst hi
    simp [Nat.testBit_lt_two_pow h]
  · simp [hi]

/-- Flipping the sign bit shifts a signed word into the unsigned range. -/
theorem toNat_xor_intMin (x : BitVec (k + 1)) :
    ((x ^^^ BitVec.intMin (k + 1)).toNat : Int) = x.toInt + 2 ^ k := by
  have hx := x.isLt
  have hmin : 2 ^ (k + 1 - 1) % 2 ^ (k + 1) = 2 ^ k :=
    Nat.mod_eq_of_lt (Nat.pow_lt_pow_right (by decide) (by omega))
  have hcast : ((2 ^ k : Nat) : Int) = 2 ^ k := by push_cast; rfl
  rw [Nat.pow_succ] at hx
  rw [BitVec.toNat_xor, BitVec.toNat_intMin, BitVec.toInt_eq_toNat_cond, hmin, Nat.pow_succ]
  by_cases h : x.toNat < 2 ^ k
  · rw [xor_two_pow_of_lt h, if_pos (by omega)]
    omega
  obtain ⟨m, hm⟩ : ∃ m, x.toNat = 2 ^ k + m := ⟨x.toNat - 2 ^ k, by omega⟩
  have hlt : m < 2 ^ k := by omega
  rw [if_neg (by omega), hm, ← xor_two_pow_of_lt hlt, Nat.xor_assoc, Nat.xor_self, Nat.xor_zero,
    xor_two_pow_of_lt hlt]
  omega

/-- Big-endian words with the sign bit flipped decide as signed integers. -/
theorem Decides.signed {k : Nat} (w : Nat) (hw : 2 ^ (k + 1) = 256 ^ w) (x y : BitVec (k + 1)) :
    Decides (Gleaph.beBytes w (x ^^^ BitVec.intMin (k + 1)).toNat)
      (Gleaph.beBytes w (y ^^^ BitVec.intMin (k + 1)).toNat) (compare x.toInt y.toInt) := by
  have hcmp : compare (x ^^^ BitVec.intMin (k + 1)).toNat (y ^^^ BitVec.intMin (k + 1)).toNat =
      compare x.toInt y.toInt := by
    have hx := toNat_xor_intMin x
    have hy := toNat_xor_intMin y
    exact compare_congr (by omega) (by omega)
  rw [← hcmp]
  exact Decides.beBytes w (hw ▸ BitVec.isLt _) (hw ▸ BitVec.isLt _)

end Gleaph.LexCode
