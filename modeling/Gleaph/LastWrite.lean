import Mathlib

/-!
# Gleaph.LastWrite

A map written by a list of changes: the last change on a key decides.

`applyAll_apply` reads a key after the changes; `lastOn_of_suffix` says that a
last part of the changes on a key, if there is one, decides it already.
-/

namespace Gleaph

namespace LastWrite

variable {κ β : Type} [DecidableEq κ]

/-- The changes on one key, in order. -/
def on (k : κ) (changes : List (κ × β)) : List (κ × β) := changes.filter fun change => change.1 = k

/-- The value of the last change on a key. -/
def lastOn (k : κ) (changes : List (κ × β)) : Option β := (on k changes).getLast?.map (·.2)

/-- The map after the changes. -/
def applyAll (m : κ → β) (changes : List (κ × β)) : κ → β :=
  changes.foldl (fun m change => Function.update m change.1 change.2) m

@[simp] theorem on_nil (k : κ) : on k ([] : List (κ × β)) = [] := rfl

/-- The changes on a key, of two logs in turn. -/
@[simp] theorem on_append (k : κ) (changes changes' : List (κ × β)) :
    on k (changes ++ changes') = on k changes ++ on k changes' := List.filter_append ..

/-- No change on a key: none of the changes names it. -/
theorem on_eq_nil {k : κ} : on k changes = [] ↔ ∀ change ∈ changes, change.1 ≠ k := by
  simp [on, List.filter_eq_nil_iff]

/-- A key without a change has no last one. -/
theorem lastOn_eq_none {k : κ} : lastOn k changes = none ↔ on k changes = [] := by
  simp [lastOn]

/-- A key has the value of its last change, or its old one. -/
theorem applyAll_apply (m : κ → β) (changes : List (κ × β)) (k : κ) :
    applyAll m changes k = (lastOn k changes).getD (m k) := by
  induction changes using List.reverseRecOn with
  | nil => rfl
  | append_singleton changes change ih =>
    rw [applyAll, List.foldl_append]
    by_cases hk : change.1 = k
    · subst hk
      simp [lastOn, on]
    · simpa [applyAll, lastOn, on, hk, Ne.symm hk] using ih

/-- A key without a change keeps its value. -/
theorem applyAll_of_on_eq_nil {m : κ → β} (h : on k changes = []) : applyAll m changes k = m k := by
  rw [applyAll_apply, lastOn_eq_none.mpr h]
  rfl

/-- A non-empty end of the changes on a key has the last of them. -/
theorem lastOn_of_suffix {k : κ} (h : on k changes' <:+ on k changes) (hne : on k changes' ≠ []) :
    lastOn k changes = lastOn k changes' := by
  obtain ⟨front, hfront⟩ := h
  simp only [lastOn, ← hfront, List.getLast?_append_of_ne_nil _ hne]

end LastWrite

end Gleaph
