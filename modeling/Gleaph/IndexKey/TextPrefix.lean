import Gleaph.IndexKey.Range

/-!
# Gleaph.IndexKey.TextPrefix

The key interval of `property STARTS WITH pattern` is exact.

The interval runs from the escaped pattern without its terminator up to the
same bytes followed by 255, so it holds the keys that extend the escaped
pattern by anything but a 255 (`inInterval_append_iff`).  Escaping keeps
prefixes in both directions, and no text continues with a 255: its bytes are
UTF-8, and an escaped zero starts with a zero.
-/

namespace Gleaph

open List

/-! ## Strings as bytes -/

theorem asBytes_eq (s : String) : asBytes s = s.toList.flatMap String.utf8EncodeChar := by
  have h : s.toUTF8 = s.toList.utf8Encode := by
    rw [String.toUTF8, ← String.toByteArray_ofList, String.ofList_toList]
  rw [asBytes, h]
  simp [List.utf8Encode]

/-- UTF-8 never uses the byte 255. -/
theorem ne_exclusiveEnd_of_mem_asBytes (h : b ∈ asBytes s) : b ≠ textPrefixExclusiveEnd := by
  rw [asBytes_eq, mem_flatMap] at h
  obtain ⟨c, -, hb⟩ := h
  rw [Ne, ← UInt8.toNat_inj, textPrefixExclusiveEnd]
  unfold String.utf8EncodeChar at hb
  simp only at hb
  split_ifs at hb <;> simp only [mem_cons, not_mem_nil, or_false] at hb <;>
    rcases hb with rfl | rfl | rfl | rfl <;>
    simp only [UInt8.toNat_ofNat', UInt8.reduceToNat] <;> omega

/-- A string starts with another as its bytes do. -/
theorem asBytes_isPrefix_iff (p t : String) : asBytes p <+: asBytes t ↔ p.toList <+: t.toList := by
  constructor
  · rintro ⟨rest, h⟩
    rw [asBytes_eq, asBytes_eq] at h
    refine List.isPrefix_of_utf8Encode_append_eq_utf8Encode rest.toByteArray ?_
    rw [List.utf8Encode, List.utf8Encode, ← h]
    simp
  · rintro ⟨rest, h⟩
    rw [asBytes_eq, asBytes_eq, ← h, flatMap_append]
    exact prefix_append _ _

/-! ## Escaping keeps prefixes -/

/-- Between `p` and `p` followed by `b` lie the extensions of `p` by a word below `b`. -/
theorem inInterval_append_iff (p : List UInt8) (b : UInt8) (x : List UInt8) :
    InInterval p (p ++ [b]) x ↔ ∃ t, x = p ++ t ∧ compare t [b] = .lt := by
  induction p generalizing x with
  | nil => simp [InInterval, isLE_of_isPrefix]
  | cons a p ih =>
    cases x with
    | nil => simp [InInterval, List.compare_cons_nil]
    | cons c x =>
      have hstep : InInterval (a :: p) (a :: p ++ [b]) (c :: x) ↔
          c = a ∧ InInterval p (p ++ [b]) x := by
        rw [InInterval, InInterval, cons_append, List.compare_cons_cons, List.compare_cons_cons]
        constructor
        · rintro ⟨hle, hlt⟩
          have hac : compare a c = .eq := by
            have hswap : compare c a = (compare a c).swap := Std.OrientedCmp.eq_swap
            cases hac : compare a c with
            | lt => simp [hswap, hac] at hlt
            | eq => rfl
            | gt => simp [hac] at hle
          obtain rfl := Std.compare_eq_iff_eq.mp hac
          simp only [hac, Ordering.eq_then] at hle hlt
          exact ⟨rfl, hle, hlt⟩
        · rintro ⟨rfl, h⟩
          simpa using h
      rw [hstep, ih]
      simp [and_assoc]

theorem escapedByte_inj {a b : UInt8} {u v : List UInt8}
    (h : (if a = 0 then [0, 255] else [a]) ++ u = (if b = 0 then [0, 255] else [b]) ++ v) :
    a = b ∧ u = v := by
  split_ifs at h with ha hb hb <;> simp_all

/-- A key of bytes `y` extends the escaped `x` below 255 just when `y` extends `x`. -/
theorem escaped_extends_iff (x y : List UInt8) (hy : ∀ b ∈ y, b ≠ textPrefixExclusiveEnd) :
    (∃ t, pushEscapedIndexBytes y = pushEscapedIndexPayload x ++ t ∧
      compare t [textPrefixExclusiveEnd] = .lt) ↔ x <+: y := by
  induction x generalizing y with
  | nil =>
    -- the key starts with a zero or with a byte of `y`
    refine iff_of_true ⟨_, rfl, ?_⟩ nil_prefix
    cases y with
    | nil => decide
    | cons b y =>
      by_cases hb : b = 0
      · subst hb
        rfl
      · have hlt : compare b textPrefixExclusiveEnd = .lt := by
          have hne := mt UInt8.toNat_inj.mp (hy b mem_cons_self)
          have hmax : b.toNat < 256 := b.toNat_lt
          rw [LexCode.compare_uint8, Nat.compare_eq_lt]
          have h255 : textPrefixExclusiveEnd.toNat = 255 := rfl
          omega
        simp [pushEscapedIndexPayload, hb, List.compare_cons_cons, hlt]
  | cons a x ih =>
    cases y with
    | nil =>
      refine iff_of_false ?_ (by simp)
      rintro ⟨t, h, -⟩
      by_cases ha : a = 0
      · simp [pushEscapedIndexBytes, pushEscapedIndexPayload, ha] at h
      · simp only [pushEscapedIndexBytes, pushEscapedIndexPayload, flatMap_cons, if_neg ha] at h
        exact ha (cons.inj h).1.symm
    | cons b y =>
      rw [cons_prefix_cons, ← ih y fun c hc => hy c (mem_cons_of_mem b hc)]
      constructor
      · rintro ⟨t, h, ht⟩
        simp only [pushEscapedIndexBytes, pushEscapedIndexPayload, flatMap_cons, append_assoc] at h
        obtain ⟨rfl, hrest⟩ := escapedByte_inj h
        exact ⟨rfl, t, hrest, ht⟩
      · rintro ⟨rfl, t, h, ht⟩
        refine ⟨t, ?_, ht⟩
        simp only [pushEscapedIndexBytes, pushEscapedIndexPayload, flatMap_cons, append_assoc] at h ⊢
        rw [h]

/-! ## The interval of a pattern -/

variable {E : Type} [ExtensionValue E]

/-- The text domain for the empty text, else the key without its terminator up
to the same followed by 255. -/
theorem textPrefixRangeBoundsForEncodedKey_text (p : List UInt8) :
    textPrefixRangeBoundsForEncodedKey (indexKeyText :: pushEscapedIndexBytes p) =
      if p = [] then .ok ([indexKeyText], lexSuccBytes [indexKeyText])
      else .ok (indexKeyText :: pushEscapedIndexPayload p,
        indexKeyText :: pushEscapedIndexPayload p ++ [textPrefixExclusiveEnd]) := by
  have hterm : pushEscapedIndexBytes p = [endMarker, endMarker] ↔ p = [] := by
    cases p with
    | nil => simp [pushEscapedIndexBytes, pushEscapedIndexPayload, endMarker]
    | cons a p =>
      by_cases ha : a = 0 <;>
        simp [pushEscapedIndexBytes, pushEscapedIndexPayload, ha, endMarker]
  have hlen : ¬ (indexKeyText ≠ indexKeyText ∨ (pushEscapedIndexBytes p).length < 2) := by
    simp [pushEscapedIndexBytes]
  rw [textPrefixRangeBoundsForEncodedKey, if_neg hlen, if_congr hterm rfl rfl]
  simp [pushEscapedIndexBytes]

/-- The interval holds the text keys whose bytes start with the pattern's. -/
theorem inInterval_text_iff {p : List UInt8} {value : Value E}
    (hkey : encodeValueKey crates value = .ok key)
    (h : textPrefixRangeBoundsForEncodedKey (indexKeyText :: pushEscapedIndexBytes p) =
      .ok (low, high)) :
    InInterval low high key ↔ ∃ text, value = .text text ∧ p <+: asBytes text := by
  have hdom : [indexKeyText] <+: key ↔ ∃ text, value = .text text := by
    rw [show [indexKeyText] = ComparisonDomain.text.floor from rfl, floor_prefix_iff hkey]
    cases value <;> simp [Value.comparisonDomain]
  rw [textPrefixRangeBoundsForEncodedKey_text] at h
  split_ifs at h with hp <;> cases h
  · subst hp
    obtain ⟨s, hs⟩ := ComparisonDomain.text.exists_lexSuccPrefix_floor
    rw [inInterval_floor_iff (p := [indexKeyText]) hs, hdom]
    simp
  · have hext := fun text => escaped_extends_iff p (asBytes text) fun _ =>
      ne_exclusiveEnd_of_mem_asBytes
    rw [inInterval_append_iff]
    constructor
    · rintro ⟨t, rfl, ht⟩
      obtain ⟨text, rfl⟩ := hdom.mp ⟨pushEscapedIndexPayload p ++ t, rfl⟩
      simp only [encodeValueKey, Except.ok.injEq, cons_append, cons.injEq, true_and] at hkey
      exact ⟨text, rfl, (hext text).mp ⟨t, hkey, ht⟩⟩
    · rintro ⟨text, rfl, hpre⟩
      obtain ⟨t, hsplit, ht⟩ := (hext text).mpr hpre
      cases hkey
      exact ⟨t, by rw [hsplit]; rfl, ht⟩

/-- The interval of a pattern holds a value's key just when the value is a text
that starts with the pattern. -/
theorem text_prefix_range_bounds_exact (crates : Crates) (pattern : String) (value : Value E)
    (hkey : valueToIndexKeyBytes crates value = .ok (some key)) :
    ∃ low high patternKey, textPrefixRangeBounds crates (.text pattern : Value E) = .ok (low, high) ∧
      valueToIndexKeyBytes crates (.text pattern : Value E) = .ok (some patternKey) ∧
      textPrefixRangeBoundsForEncodedKey patternKey = .ok (low, high) ∧
      (InInterval low high key ↔ ∃ text, value = .text text ∧ pattern.toList <+: text.toList) := by
  have hbounds : ∃ low high, textPrefixRangeBoundsForEncodedKey
      (indexKeyText :: pushEscapedIndexBytes (asBytes pattern)) = .ok (low, high) := by
    rw [textPrefixRangeBoundsForEncodedKey_text]
    split_ifs <;> exact ⟨_, _, rfl⟩
  obtain ⟨low, high, hbounds⟩ := hbounds
  have hin := inInterval_text_iff (encodeValueKey_of_valueToIndexKeyBytes hkey) hbounds
  refine ⟨low, high, _, hbounds, rfl, hbounds, ?_⟩
  simpa only [asBytes_isPrefix_iff] using hin

/-- The key of `a` and a NUL lies in the interval of `a`. -/
theorem text_prefix_range_bounds_exact_nul : ∃ low high,
    textPrefixRangeBounds Crates.documented (.text "a" : Value Empty) = .ok (low, high) ∧
    InInterval low high (indexKeyText :: pushEscapedIndexBytes (asBytes "a\x00")) := by
  obtain ⟨low, high, -, hbounds, -, -, hin⟩ := text_prefix_range_bounds_exact Crates.documented "a"
    (.text "a\x00" : Value Empty) rfl
  exact ⟨low, high, hbounds, hin.mpr ⟨_, rfl, by decide⟩⟩

end Gleaph
