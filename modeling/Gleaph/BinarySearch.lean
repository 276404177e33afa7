import Gleaph.Panic

/-!
# Gleaph.BinarySearch

Binary search for the first index at which a test fails, where the test may
fail itself.
-/

namespace Gleaph

variable {ε : Type}

/-- Halve `[lo, hi)` until it is empty, going right where the test holds. -/
def lowerBound (test : Nat → Except ε Bool) (lo hi : Nat) : Except ε Nat :=
  if lo < hi then do
    let mid := (lo + hi) / 2
    if ← test mid then lowerBound test (mid + 1) hi else lowerBound test lo mid
  else .ok lo
termination_by hi - lo
decreasing_by
  all_goals omega

/-- Where the test answers and holds up to some point only, the search finds
that point. -/
theorem lowerBound_spec {test : Nat → Except ε Bool} [DecidablePred p] (hle : lo ≤ hi)
    (htest : ∀ i, lo ≤ i → i < hi → test i = .ok (decide (p i)))
    (hmono : ∀ i j, i ≤ j → j < hi → p j → p i) :
    ∃ r, lowerBound test lo hi = .ok r ∧ lo ≤ r ∧ r ≤ hi ∧ (∀ i, lo ≤ i → i < r → p i) ∧
      (r < hi → ¬ p r) := by
  induction h : hi - lo using Nat.strongRecOn generalizing lo hi with
  | ind n ih =>
    rw [lowerBound]
    by_cases hlt : lo < hi
    · have hmid := htest ((lo + hi) / 2) (by omega) (by omega)
      by_cases hp : p ((lo + hi) / 2)
      · -- it holds in the middle, and so before it: the point is behind the middle
        obtain ⟨r, hr, hlo, hhi, hbelow, hstop⟩ := ih (hi - ((lo + hi) / 2 + 1)) (by omega)
          (show (lo + hi) / 2 + 1 ≤ hi by omega) (fun i hi1 hi2 => htest i (by omega) hi2) hmono
          rfl
        refine ⟨r, ?_, by omega, hhi, ?_, hstop⟩
        · simp [if_pos hlt, hmid, hp, decide_true, ok_bind, hr]
        intro i hi1 hi2
        by_cases hi3 : i ≤ (lo + hi) / 2
        · exact hmono i _ hi3 (by omega) hp
        · exact hbelow i (by omega) hi2
      · -- it fails in the middle, which may be the point itself
        obtain ⟨r, hr, hlo, hhi, hbelow, hstop⟩ := ih ((lo + hi) / 2 - lo) (by omega)
          (show lo ≤ (lo + hi) / 2 by omega) (fun i hi1 hi2 => htest i hi1 (by omega))
          (fun i j hij hj => hmono i j hij (by omega)) rfl
        refine ⟨r, ?_, hlo, by omega, hbelow, ?_⟩
        · simp [if_pos hlt, hmid, hp, decide_false, ok_bind, hr]
        intro _ hpr
        by_cases hmid' : r < (lo + hi) / 2
        · exact hstop hmid' hpr
        · have heq : r = (lo + hi) / 2 := by omega
          exact hp (heq ▸ hpr)
    · exact ⟨lo, by rw [if_neg hlt], Nat.le_refl lo, hle, fun i hi1 hi2 => absurd hi1 (by omega),
        fun h => absurd h hlt⟩

end Gleaph
