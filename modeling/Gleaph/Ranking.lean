import Mathlib

/-!
# Gleaph.Ranking

The `k` least elements of a multiset over a linear order, in order, and how
they are kept up to date one element at a time.

`topK k s` depends on `s` only through the `k` elements it already keeps: one
more element is inserted and the overflow cut off (`topK_cons`), a full list
is replaced in its last place or not at all (`take_orderedInsert_of_full`),
and elements ranked behind a full list never enter it (`topK_add_of_behind`).
-/

namespace Gleaph.Ranking

open List

variable {α : Type} [LinearOrder α]

/-- The first `k` elements in order. -/
def topK (k : Nat) (s : Multiset α) : List α := (s.sort (· ≤ ·)).take k

/-! ## Ordered insertion -/

theorem take_orderedInsert (k : Nat) (x : α) (l : List α) :
    (l.orderedInsert (· ≤ ·) x).take k = ((l.take k).orderedInsert (· ≤ ·) x).take k := by
  induction l generalizing k with
  | nil => simp
  | cons y l ih =>
    cases k with
    | zero => simp
    | succ k =>
      by_cases h : x ≤ y
      · simp only [take_succ_cons, orderedInsert_cons, if_pos h]
        cases k with
        | zero => simp
        | succ k => simp [take_take]
      · simp [if_neg h, ih k]

/-- An element behind every other goes to the end. -/
theorem orderedInsert_eq_append {x : α} (h : ∀ y ∈ l, y < x) :
    l.orderedInsert (· ≤ ·) x = l ++ [x] := by
  induction l with
  | nil => rfl
  | cons y l ih =>
    have hy : ¬ x ≤ y := not_le.mpr (h y (by simp))
    simp only [orderedInsert_cons, if_neg hy, cons_append]
    rw [ih fun z hz => h z (by simp [hz])]

/-- Inserting before the last element leaves it last. -/
theorem orderedInsert_append_singleton (h : x ≤ w) (l : List α) :
    (l ++ [w]).orderedInsert (· ≤ ·) x = l.orderedInsert (· ≤ ·) x ++ [w] := by
  induction l with
  | nil => simp [h]
  | cons y l ih =>
    by_cases hy : x ≤ y
    · simp [hy]
    · simp [hy, ih]

/-- A full sorted list either gives up its last element or does not change. -/
theorem take_orderedInsert_of_full {x w : α} (hsorted : (l ++ [w]).Pairwise (· ≤ ·)) (hne : x ≠ w) :
    ((l ++ [w]).orderedInsert (· ≤ ·) x).take (l.length + 1) =
      if x < w then l.orderedInsert (· ≤ ·) x else l ++ [w] := by
  by_cases hlt : x < w
  · rw [if_pos hlt, orderedInsert_append_singleton hlt.le]
    have hlen : (l.orderedInsert (· ≤ ·) x).length = l.length + 1 :=
      orderedInsert_length _ _ _
    rw [← hlen, take_left]
  have hw : w < x := lt_of_le_of_ne (not_lt.mp hlt) hne.symm
  have hall : ∀ y ∈ l ++ [w], y < x := by
    intro y hy
    simp only [mem_append, mem_singleton] at hy
    cases hy with
    | inl hy => exact lt_of_le_of_lt ((pairwise_append.mp hsorted).2.2 y hy w (by simp)) hw
    | inr hy => exact hy ▸ hw
  have hlen : (l ++ [w]).length = l.length + 1 := by simp
  rw [if_neg hlt, orderedInsert_eq_append hall, ← hlen, take_left]

/-! ## The top list -/

theorem sort_cons (x : α) (s : Multiset α) :
    (x ::ₘ s).sort (· ≤ ·) = (s.sort (· ≤ ·)).orderedInsert (· ≤ ·) x := by
  have hperm : ((x ::ₘ s).sort (· ≤ ·)).Perm ((s.sort (· ≤ ·)).orderedInsert (· ≤ ·) x) := by
    rw [← Multiset.coe_eq_coe, Multiset.sort_eq, Multiset.coe_eq_coe.mpr (perm_orderedInsert _ x _),
      ← Multiset.cons_coe, Multiset.sort_eq]
  exact hperm.eq_of_pairwise (fun a b _ _ => le_antisymm) (Multiset.pairwise_sort _ _)
    ((Multiset.pairwise_sort s _).orderedInsert x _)

/-- One more element: insert it and cut off. -/
theorem topK_cons (k : Nat) (x : α) (s : Multiset α) :
    topK k (x ::ₘ s) = ((topK k s).orderedInsert (· ≤ ·) x).take k := by
  rw [topK, topK, sort_cons, take_orderedInsert]

theorem pairwise_topK (k : Nat) (s : Multiset α) : (topK k s).Pairwise (· ≤ ·) :=
  (Multiset.pairwise_sort s _).sublist (take_sublist k _)

theorem mem_of_mem_topK {s : Multiset α} (h : x ∈ topK k s) : x ∈ s :=
  Multiset.mem_sort (· ≤ ·) |>.mp (mem_of_mem_take h)

theorem length_topK (k : Nat) (s : Multiset α) : (topK k s).length = min k s.card := by
  rw [topK, length_take, Multiset.length_sort]

/-- Elements ranked behind a full top list leave it as it is. -/
theorem topK_add_of_behind {s t : Multiset α} (hfull : (topK k s).length = k)
    (h : ∀ x ∈ topK k s, ∀ y ∈ t, x < y) : topK k (s + t) = topK k s := by
  induction t using Multiset.induction with
  | empty => rw [add_zero]
  | cons y t ih =>
    have ih' := ih fun x hx z hz => h x hx z (Multiset.mem_cons_of_mem hz)
    rw [Multiset.add_cons, topK_cons, ih',
      orderedInsert_eq_append fun x hx => h x hx y (Multiset.mem_cons_self y t)]
    exact take_left' hfull

end Gleaph.Ranking
