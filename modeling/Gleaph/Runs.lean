import Mathlib

/-!
# Gleaph.Runs

Runs of a state machine, event by event.

`AllSteps step ok s events` says that every event meets the condition `ok` in
the state it finds; `foldl_invariant` carries an invariant that single such
steps keep over the whole run, `foldl_keeps` one that all steps keep.
-/

namespace Gleaph

variable {σ ε : Type}

/-- Every event of the run meets the condition in the state it finds. -/
def AllSteps (step : σ → ε → σ) (ok : σ → ε → Prop) : σ → List ε → Prop
  | _, [] => True
  | s, event :: events => ok s event ∧ AllSteps step ok (step s event) events

instance AllSteps.decidable [∀ s event, Decidable (ok s event)] :
    ∀ (s : σ) (events : List ε), Decidable (AllSteps step ok s events)
  | _, [] => .isTrue trivial
  | s, event :: events =>
    @instDecidableAnd _ _ _ (AllSteps.decidable (step s event) events)

/-- What single steps keep holds at the end of the run. -/
theorem foldl_invariant {Inv : σ → Prop}
    (hstep : ∀ s event, Inv s → ok s event → Inv (step s event)) (hinit : Inv s)
    (hrun : AllSteps step ok s events) : Inv (events.foldl step s) := by
  induction events generalizing s with
  | nil => exact hinit
  | cons event events ih => exact ih (hstep s event hinit hrun.1) hrun.2

/-- What every step keeps holds at the end of every run. -/
theorem foldl_keeps {step : σ → ε → σ} {Inv : σ → Prop}
    (hstep : ∀ s event, Inv s → Inv (step s event)) (hinit : Inv s) (events : List ε) :
    Inv (events.foldl step s) :=
  List.foldlRecOn events step hinit fun s hs event _ => hstep s event hs

/-- A run in two parts. -/
theorem allSteps_append :
    AllSteps step ok s (events ++ later) ↔
      AllSteps step ok s events ∧ AllSteps step ok (events.foldl step s) later := by
  induction events generalizing s with
  | nil => simp [AllSteps]
  | cons head events ih => simp [AllSteps, ih, and_assoc]

end Gleaph
