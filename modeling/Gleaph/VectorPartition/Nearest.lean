import Mathlib

/-!
# Gleaph.VectorPartition.Nearest

The centroid a vector is nearest to
(`crates/vector-canister/src/facade/store/search.rs`,
`crates/graph-kernel/src/vector_index.rs`,
`crates/ic-stable-vector-page-store/src/kernel.rs`).

Components and scales are rationals, so that distances are exact; the square root
of the cosine metric is a parameter.  The stored encoding is `F32`.
-/

namespace Gleaph.VectorPartition

/-! ## Vectors -/

/-- The components of an embedding or of a centroid in the work area. -/
abbrev F32Vector (dims : Nat) := { v : List ℚ // v.length = dims }

/-- `i8` components, one per dimension, and their scale. -/
structure QuantizedI8Vector (dims : Nat) where
  bytes : List Int
  scale : ℚ
  length_eq : bytes.length = dims
  scale_nonneg : 0 ≤ scale

/-- `f32::round`, which takes halves away from zero. -/
def roundHalfAway (x : ℚ) : Int :=
  if 0 ≤ x then ⌊x + 1 / 2⌋ else ⌈x - 1 / 2⌉

/-- The largest absolute component, the scale of a quantized vector. -/
def maxAbs (v : List ℚ) : ℚ :=
  v.foldl (fun scale x => max scale |x|) 0

/-- The scale only grows in the scan. -/
theorem maxAbs_nonneg (v : List ℚ) : 0 ≤ maxAbs v := by
  suffices h : ∀ start, start ≤ v.foldl (fun scale x => max scale |x|) start from h 0
  induction v with
  | nil => exact fun start => le_refl start
  | cons x v ih => exact fun start => (le_max_left start |x|).trans (ih _)

/-- Components are scaled to -127 .. 127; a zero vector has only zeros. -/
def quantizeF32ToI8 (v : F32Vector dims) : QuantizedI8Vector dims where
  bytes := v.1.map fun x =>
    if maxAbs v.1 = 0 then 0
    else max (-127) (min 127 (roundHalfAway (127 * x / maxAbs v.1)))
  scale := maxAbs v.1
  length_eq := by simp [v.2]
  scale_nonneg := maxAbs_nonneg v.1

def decodeI8ToF32 (c : QuantizedI8Vector dims) : F32Vector dims :=
  ⟨c.bytes.map fun b => b * c.scale / 127, by simp [c.length_eq]⟩

/-- The value a centroid is stored under. -/
def encodeCentroidI8 (v : F32Vector dims) : List Int × ℚ :=
  ((quantizeF32ToI8 v).bytes, (quantizeF32ToI8 v).scale)

/-- A value of another width or with a negative scale is refused. -/
def splitCentroidI8 (dims : Nat) (value : List Int × ℚ) : Option (QuantizedI8Vector dims) :=
  if h : value.1.length = dims ∧ 0 ≤ value.2 then some ⟨value.1, value.2, h.1, h.2⟩ else none

@[simp] theorem splitCentroidI8_encode (v : F32Vector dims) :
    splitCentroidI8 dims (encodeCentroidI8 v) = some (quantizeF32ToI8 v) :=
  dif_pos ⟨(quantizeF32ToI8 v).length_eq, (quantizeF32ToI8 v).scale_nonneg⟩

inductive VectorMetric where
  | l2Squared
  | cosine
  deriving DecidableEq

/-- A vector of norm zero has no direction. -/
def normalizeF32 (sqrt : ℚ → ℚ) (v : F32Vector dims) : Option (F32Vector dims) :=
  let normSq := (v.1.map fun x => x * x).sum
  if normSq = 0 then none else some ⟨v.1.map (· * (1 / sqrt normSq)), by simp [v.2]⟩

/-- The form a row of the metric is stored in. -/
def prepareForMetric (sqrt : ℚ → ℚ) (metric : VectorMetric) (v : F32Vector dims) :
    Option (F32Vector dims) :=
  if metric = .cosine then normalizeF32 sqrt v else some v

/-! ## Nearest centroids -/

/-- The squared distance of a centroid to a query. -/
def distance (c : QuantizedI8Vector dims) (query : List ℚ) : ℚ :=
  ((c.bytes.zip query).map fun (b, q) => (b * (c.scale / 127) - q) ^ 2).sum

/-- The loop of `l2_squared_i8_f32_early_exit`, which gives up when a partial sum
exceeds the threshold. -/
def l2Loop (k : ℚ) (threshold : WithTop ℚ) : List (Int × ℚ) → ℚ → Option ℚ
  | [], sum => some sum
  | (b, q) :: rest, sum =>
    let sum := sum + (b * k - q) ^ 2
    if threshold < sum then none else l2Loop k threshold rest sum

/-- The loop computes the whole sum, or the whole sum exceeds the threshold too. -/
theorem l2Loop_cases (k : ℚ) (threshold : WithTop ℚ) (pairs : List (Int × ℚ)) (start : ℚ) :
    let total := start + (pairs.map fun (b, q) => (b * k - q) ^ 2).sum
    l2Loop k threshold pairs start = some total ∨
      l2Loop k threshold pairs start = none ∧ threshold < (total : WithTop ℚ) := by
  induction pairs generalizing start with
  | nil => exact .inl (by simp [l2Loop])
  | cons pair pairs ih =>
    simp only [l2Loop, List.map_cons, List.sum_cons, ← add_assoc]
    split
    case isTrue h =>
      refine .inr ⟨rfl, h.trans_le (WithTop.coe_le_coe.mpr (le_add_of_nonneg_right ?_))⟩
      exact List.sum_nonneg (by simpa using fun a b q _ h => h ▸ sq_nonneg _)
    case isFalse => exact ih _

/-- One centroid of the scan of `assign_partition`. -/
def assignStep (query : List ℚ) (best : Nat × WithTop ℚ) (entry : QuantizedI8Vector dims × Nat) :
    Nat × WithTop ℚ :=
  match l2Loop (entry.1.scale / 127) best.2 (entry.1.bytes.zip query) 0 with
  | none => best
  | some d => if (d : WithTop ℚ) < best.2 then (entry.2, (d : WithTop ℚ)) else best

/-- The lowest of the nearest centroids. -/
def assignPartition (centroids : List (QuantizedI8Vector dims)) (query : List ℚ) : Nat :=
  (centroids.zipIdx.foldl (assignStep query) (0, ⊤)).1

/-- The early exit does not change the choice. -/
theorem assignStep_eq (query : List ℚ) (best : Nat × WithTop ℚ)
    (entry : QuantizedI8Vector dims × Nat) :
    assignStep query best entry =
      if (distance entry.1 query : WithTop ℚ) < best.2
      then (entry.2, (distance entry.1 query : WithTop ℚ)) else best := by
  have hcases := l2Loop_cases (entry.1.scale / 127) best.2 (entry.1.bytes.zip query) 0
  simp only [zero_add] at hcases
  rcases hcases with hsome | ⟨hnone, hlt⟩
  · rw [assignStep, hsome]
    rfl
  · rw [assignStep, hnone]
    exact (if_neg (lt_asymm hlt)).symm

/-- Number `p` is the first of the centroids with the least distance. -/
def IsNearest (centroids : List (QuantizedI8Vector dims)) (query : List ℚ) (p : Nat) : Prop :=
  ∃ c, centroids[p]? = some c ∧ ∀ q c', centroids[q]? = some c' →
    distance c query ≤ distance c' query ∧ (q < p → distance c query < distance c' query)

theorem IsNearest.unique (h : IsNearest centroids query p) (h' : IsNearest centroids query p') :
    p = p' := by
  obtain ⟨c, hc, hmin⟩ := h
  obtain ⟨c', hc', hmin'⟩ := h'
  rcases lt_trichotomy p p' with hlt | heq | hgt
  · exact absurd ((hmin' p c hc).2 hlt) (not_lt.mpr (hmin p' c' hc').1)
  · exact heq
  · exact absurd ((hmin p' c' hc').2 hgt) (not_lt.mpr (hmin' p c hc).1)

theorem IsNearest.lt_length (h : IsNearest centroids query p) : p < centroids.length := by
  obtain ⟨c, hc, -⟩ := h
  exact (List.getElem?_eq_some_iff.mp hc).1

/-- A further centroid is chosen exactly if it is nearer than all before it. -/
theorem IsNearest.concat (h : IsNearest centroids query p) (hp : centroids[p]? = some best) :
    IsNearest (centroids ++ [c]) query
      (if distance c query < distance best query then centroids.length else p) := by
  obtain ⟨best', hbest', hmin⟩ := h
  obtain rfl : best = best' := Option.some.inj (hp.symm.trans hbest')
  have hlt := (List.getElem?_eq_some_iff.mp hp).1
  have hcases : ∀ q c', (centroids ++ [c])[q]? = some c' →
      centroids[q]? = some c' ∧ q < centroids.length ∨ q = centroids.length ∧ c' = c := by
    intro q c' hq
    rcases lt_trichotomy q centroids.length with hq' | rfl | hq'
    · exact .inl ⟨by rwa [List.getElem?_append_left hq'] at hq, hq'⟩
    · exact .inr ⟨rfl, by simpa [eq_comm] using hq⟩
    · exact absurd (List.getElem?_eq_some_iff.mp hq).1 (by simp; omega)
  split
  case isTrue hnear =>
    refine ⟨c, by simp, fun q c' hq => ?_⟩
    rcases hcases q c' hq with ⟨hq, hlen⟩ | ⟨rfl, rfl⟩
    · have := (hmin q c' hq).1
      exact ⟨(hnear.trans_le this).le, fun _ => hnear.trans_le this⟩
    · exact ⟨le_refl _, fun h => absurd h (lt_irrefl _)⟩
  case isFalse hfar =>
    refine ⟨best, by rwa [List.getElem?_append_left hlt], fun q c' hq => ?_⟩
    rcases hcases q c' hq with ⟨hq, -⟩ | ⟨rfl, rfl⟩
    · exact hmin q c' hq
    · exact ⟨not_lt.mp hfar, fun h => absurd h (by omega)⟩

/-- Behind any number of centroids the scan holds the nearest of them. -/
theorem foldl_assignStep (query : List ℚ) (centroids : List (QuantizedI8Vector dims))
    (h : centroids ≠ []) :
    ∃ p c, centroids[p]? = some c ∧ IsNearest centroids query p ∧
      centroids.zipIdx.foldl (assignStep query) (0, ⊤) = (p, (distance c query : WithTop ℚ)) := by
  -- centroids are compared in order, so the induction is on the last one
  induction centroids using List.reverseRecOn with
  | nil => exact absurd rfl h
  | append_singleton init c ih =>
    rw [List.zipIdx_append, List.foldl_append]
    simp only [List.zipIdx_singleton, List.foldl_cons, List.foldl_nil, assignStep_eq, zero_add]
    rcases eq_or_ne init [] with rfl | hne
    · refine ⟨0, c, rfl, ⟨c, rfl, fun q c' hq => ?_⟩, by simp⟩
      obtain ⟨rfl, rfl⟩ : q = 0 ∧ c = c' := by simpa [List.getElem?_singleton] using hq
      exact ⟨le_refl _, fun h => absurd h (Nat.not_lt_zero _)⟩
    · obtain ⟨p, best, hp, hnear, hfold⟩ := ih hne
      have hconcat := hnear.concat (c := c) hp
      rw [hfold]
      simp only [WithTop.coe_lt_coe]
      split at hconcat
      case isTrue hlt => exact ⟨_, c, by simp, hconcat, by rw [if_pos hlt]⟩
      case isFalse hlt =>
        refine ⟨p, best, ?_, hconcat, by rw [if_neg hlt]⟩
        rw [List.getElem?_append_left (List.getElem?_eq_some_iff.mp hp).1, hp]

/-- The choice is the nearest centroid. -/
theorem isNearest_assignPartition {centroids : List (QuantizedI8Vector dims)}
    (h : centroids ≠ []) (query : List ℚ) :
    IsNearest centroids query (assignPartition centroids query) := by
  obtain ⟨p, c, -, hnear, hfold⟩ := foldl_assignStep query centroids h
  rwa [assignPartition, hfold]

theorem assignPartition_eq_iff {centroids : List (QuantizedI8Vector dims)} (h : centroids ≠ []) :
    assignPartition centroids query = p ↔ IsNearest centroids query p :=
  ⟨fun heq => heq ▸ isNearest_assignPartition h query,
    fun hnear => (isNearest_assignPartition h query).unique hnear⟩

/-- Padding is not compared. -/
theorem distance_padded (c : QuantizedI8Vector dims) (v : F32Vector dims) (padding : List ℚ) :
    distance c (v.1 ++ padding) = distance c v.1 := by
  have hzip : c.bytes.zip (v.1 ++ padding) = c.bytes.zip v.1 := by
    conv_lhs => rw [← List.append_nil c.bytes]
    rw [List.zip_append (c.length_eq.trans v.2.symm), List.zip_nil_left, List.append_nil]
  rw [distance, hzip, distance]

theorem assignPartition_padded {centroids : List (QuantizedI8Vector dims)} (v : F32Vector dims)
    (padding : List ℚ) :
    assignPartition centroids (v.1 ++ padding) = assignPartition centroids v.1 := by
  refine congrArg Prod.fst (List.foldl_ext _ _ _ fun best entry _ => ?_)
  simp only [assignStep_eq, distance_padded]

end Gleaph.VectorPartition
