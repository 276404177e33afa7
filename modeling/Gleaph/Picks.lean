import Mathlib

/-!
# Gleaph.Picks

The ways to pick an item of each of several lists, in order (`picks`), and how
often each way comes when the lists have an item several times (`count_picks`).

* `coe_flatMap_picks` — picks for every combination of sources are, as a
  multiset, picks from all sources together;
* `bind_eq_bind_iff` — a larger multiset leads to the same results exactly if
  what it has more leads to none.
-/

namespace Gleaph

open List

variable {α β : Type}

/-- The ways to pick an item of each list, the last item changing fastest. -/
def picks : List (List α) → List (List α)
  | [] => [[]]
  | items :: rest => items.flatMap fun item => (picks rest).map (item :: ·)

/-- Choosing from one more list extends each row by each of its items. -/
theorem picks_concat (lists : List (List α)) (items : List α) :
    picks (lists ++ [items]) = (picks lists).flatMap fun row => items.map (row ++ [·]) := by
  induction lists with
  | nil => simp [picks, map_eq_flatMap]
  | cons first lists ih =>
    simp [picks, ih, flatMap_assoc, flatMap_map, map_flatMap, Function.comp_def]

/-- A row has one item from each list. -/
theorem length_of_mem_picks {lists : List (List α)} (h : row ∈ picks lists) :
    row.length = lists.length := by
  induction lists generalizing row with
  | nil => simp_all [picks]
  | cons items lists ih =>
    simp only [picks, mem_flatMap, mem_map] at h
    obtain ⟨item, -, rest, hrest, rfl⟩ := h
    simp [ih hrest]

/-- Smaller lists give some of the rows, in the same order. -/
theorem picks_sublist {lists lists' : List (List α)} (h : Forall₂ List.Sublist lists lists') :
    picks lists <+ picks lists' := by
  induction h with
  | nil => exact .refl _
  | cons hitems _ ih => exact (hitems.flatMap _).trans (.flatMap_right _ fun item _ => ih.map _)

/-- Picks for every combination of sources are picks from all sources together. -/
theorem coe_flatMap_picks (sources : List α) (items : α → List β) (n : Nat) :
    (((picks (replicate n sources)).flatMap fun combo => picks (combo.map items) : List (List β)) :
        Multiset (List β)) =
      picks (replicate n (sources.flatMap items)) := by
  induction n with
  | zero => rfl
  | succ n ih =>
    simp only [replicate_succ, picks, ← Multiset.coe_bind, ← Multiset.map_coe, Multiset.bind_assoc,
      Multiset.bind_map, map_cons] at ih ⊢
    refine Multiset.bind_congr fun source _ => ?_
    rw [Multiset.bind_bind]
    refine Multiset.bind_congr fun item _ => ?_
    rw [← ih, Multiset.map_bind]

/-- From lists of one item there is one row. -/
theorem picks_replicate_singleton (item : α) (n : Nat) :
    picks (replicate n [item]) = [replicate n item] := by
  induction n with
  | zero => rfl
  | succ n ih => simp [replicate_succ, picks, ih]

variable [DecidableEq α]

/-- How often a row is picked from copies of one list is the product of how
often its items stand there. -/
theorem count_picks (row : List α) (items : List α) :
    Multiset.count row (picks (replicate row.length items)) = (row.map (items.count ·)).prod := by
  have hcons : ∀ (items : List α) (rest : List (List α)) (item : α) (row : List α),
      Multiset.count (item :: row) (items.flatMap fun item => rest.map (item :: ·)) =
        items.count item * Multiset.count row rest := by
    intro items rest item row
    induction items with
    | nil => simp
    | cons first items ih =>
      rw [flatMap_cons, ← Multiset.coe_add, Multiset.count_add, ih, count_cons, add_mul, add_comm]
      congr 1
      by_cases hfirst : first = item
      · subst hfirst
        simpa using Multiset.count_map_eq_count' (first :: ·) rest cons_injective row
      · simp [hfirst]
  induction row with
  | nil => rfl
  | cons item row ih => rw [length_cons, replicate_succ, picks, hcons, ih, map_cons, prod_cons]

/-- The rows over copies of one list are those of its items, with as many of
them. -/
theorem mem_picks_replicate {row items : List α} : row ∈ picks (replicate n items) ↔
    row.length = n ∧ ∀ item ∈ row, item ∈ items := by
  by_cases hlen : row.length = n
  · subst hlen
    rw [← Multiset.mem_coe, ← Multiset.count_pos, count_picks, Nat.pos_iff_ne_zero, Ne,
      prod_eq_zero_iff]
    simp [count_eq_zero]
  · exact iff_of_false (fun h => hlen (by simpa using length_of_mem_picks h)) fun h => hlen h.1

/-- There is a row if there is an item. -/
theorem picks_replicate_ne_nil {items : List α} (h : items ≠ []) (n : Nat) :
    picks (replicate n items) ≠ [] := by
  obtain ⟨item, hitem⟩ := exists_mem_of_ne_nil items h
  refine ne_nil_of_mem (mem_picks_replicate.mpr
    ⟨length_replicate, fun other hother => ?_⟩ : replicate n item ∈ _)
  rwa [eq_of_mem_replicate hother]

/-- A larger collection gives the same results exactly if what it has more gives none. -/
theorem bind_eq_bind_iff {few many : Multiset α} (hle : few ≤ many) {f : α → Multiset β} :
    many.bind f = few.bind f ↔ ∀ a, few.count a < many.count a → f a = 0 := by
  obtain ⟨more, rfl⟩ := Multiset.le_iff_exists_add.mp hle
  simp only [Multiset.add_bind, Multiset.count_add, add_eq_left, Nat.lt_add_right_iff_pos,
    Multiset.count_pos, Multiset.eq_zero_iff_forall_notMem, Multiset.mem_bind]
  grind

end Gleaph
