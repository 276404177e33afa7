import Mathlib

/-!
# Gleaph.Prefix

What the first elements of a ranked list tell about the whole list.

A ranked list is read from its front: `n` elements are asked for, some are
thrown away, and the first `k` of the rest are kept (`filter_take_eq_iff`), or
each element is turned into some results and the first `k` of these are kept
(`take_flatMap_eq_iff`, `isPrefix_of_flatMap`).
-/

namespace Gleaph.Prefix

open List

variable {α β : Type}

/-! ## Elements that pass -/

variable {k : Nat} {l : List α} {p : α → Bool}

/-- What passes among the first `n` elements is the first `k` of all that pass, exactly
if it is as many. -/
theorem filter_take_eq_iff : (l.take n).filter p = (l.filter p).take k ↔
    (l.take n).countP p = min k (l.countP p) := by
  have hfront : (l.take n).filter p <+: l.filter p := List.IsPrefix.filter p <| take_prefix n l
  rw [countP_eq_length_filter, countP_eq_length_filter]
  conv_lhs => rw [prefix_iff_eq_take.mp hfront]
  rw [take_eq_take_iff, Nat.min_eq_left hfront.length_le]

/-! ## Results of several elements -/

section Results

variable {f : α → List β} {front whole : List α}

/-- Elements without results do not show. -/
theorem flatMap_filter_isEmpty (f : α → List β) (l : List α) :
    (l.filter fun x => !(f x).isEmpty).flatMap f = l.flatMap f := by
  induction l with
  | nil => rfl
  | cons x l ih =>
    rw [filter_cons, flatMap_cons, ← ih]
    cases hf : f x <;> simp [hf]

/-- The results of the front are the first `k` of all exactly if they are so many. -/
theorem take_flatMap_eq_iff (h : front <+: whole) (hk : k ≤ (whole.flatMap f).length) :
    (whole.flatMap f).take k = front.flatMap f ↔ (front.flatMap f).length = k := by
  have hprefix : front.flatMap f <+: whole.flatMap f := by
    obtain ⟨rest, rfl⟩ := h
    rw [flatMap_append]
    exact prefix_append _ _
  conv_lhs => rw [prefix_iff_eq_take.mp hprefix]
  rw [take_eq_take_iff, Nat.min_eq_left hk, Nat.min_eq_left hprefix.length_le, eq_comm]

/-- Where results tell whose they are, the first results are those of the front. -/
theorem isPrefix_of_flatMap (hne : ∀ x ∈ front, f x ≠ [])
    (hown : ∀ x ∈ front, ∀ y ∈ whole, ∀ r ∈ f x, r ∈ f y → x = y) (hne' : ∀ y ∈ whole, f y ≠ [])
    (h : front.flatMap f <+: whole.flatMap f) : front <+: whole := by
  induction front generalizing whole with
  | nil => exact nil_prefix
  | cons x front ih =>
    obtain ⟨r, rs, hr⟩ := exists_cons_of_ne_nil (hne x mem_cons_self)
    cases whole with
    | nil => simp [hr] at h
    | cons y whole =>
      obtain ⟨t, ts, ht⟩ := exists_cons_of_ne_nil (hne' y mem_cons_self)
      have hrt : r = t := by
        rw [flatMap_cons, flatMap_cons, hr, ht, cons_append, cons_append] at h
        exact (cons_prefix_cons.mp h).1
      obtain rfl : x = y :=
        hown x mem_cons_self y mem_cons_self r (by simp [hr]) (by simp [ht, hrt])
      rw [flatMap_cons, flatMap_cons, prefix_append_right_inj] at h
      refine cons_prefix_cons.mpr ⟨rfl, ih (fun z hz => hne z (mem_cons_of_mem _ hz))
        (fun z hz w hw => hown z (mem_cons_of_mem _ hz) w (mem_cons_of_mem _ hw))
        (fun z hz => hne' z (mem_cons_of_mem _ hz)) h⟩

end Results

end Gleaph.Prefix
