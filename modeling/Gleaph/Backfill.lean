import Mathlib

/-!
# Gleaph.Backfill

A copy that is filled from a snapshot while changes arrive: what it holds of
one subject.

The source's value after `n` changes is `history n`; the copy has applied the
first `applied` of them, and each takes the old value out and puts the new one
in.  A snapshot that was taken after `e` changes is filled in only as long as no
change of the subject was applied (`touched`), but `e` may be anything: the
snapshot may be ahead of the copy.  `Backfilled` says what the copy then holds:
the current value, and perhaps the one the snapshot has brought ahead of its
time.  Once the copy has caught up with the snapshot it is the source's
(`Backfilled.eq`).
-/

namespace Gleaph

variable {β : Type}

/-- What the copy holds of one subject. -/
structure Backfilled (history : Nat → Option β) (touched : Prop) (applied : Nat)
    (seeded : Option Nat) (held : Set β) : Prop where
  untouched : ¬touched → ∀ n ≤ applied, history n = history 0
  filled : ¬touched → ∀ v, v ∈ held ↔ ∃ e, seeded = some e ∧ history e = some v
  current : touched → ∀ v, history applied = some v → v ∈ held
  ahead : touched → ∀ v ∈ held, history applied = some v ∨
    ∃ e, seeded = some e ∧ applied < e ∧ history e = some v

namespace Backfilled

variable {touched : Prop}

/-- Nothing has happened yet. -/
theorem empty (htouched : ¬touched) (hheld : ∀ v, v ∉ held) :
    Backfilled history touched 0 none held where
  untouched := fun _ n hn => by rw [Nat.le_zero.mp hn]
  filled := fun _ v => by simp [hheld v]
  current := fun h => absurd h htouched
  ahead := fun h => absurd h htouched

/-- The snapshot is filled in for a subject without an applied change. -/
theorem seed (h : Backfilled history touched applied none held) (htouched : ¬touched)
    (hheld : ∀ v, v ∈ held' ↔ v ∈ held ∨ history e = some v) :
    Backfilled history touched applied (some e) held' where
  untouched := h.untouched
  filled := fun _ v => by simp [hheld v, h.filled htouched v]
  current := fun ht => absurd ht htouched
  ahead := fun ht => absurd ht htouched

/-- The snapshot leaves a touched subject alone. -/
theorem skip (h : Backfilled history touched applied none held) (htouched : touched) (e : Nat) :
    Backfilled history touched applied (some e) held where
  untouched := fun ht => absurd htouched ht
  filled := fun ht => absurd htouched ht
  current := h.current
  ahead := by
    intro ht v hv
    rcases h.ahead ht v hv with hcurrent | ⟨e', he', -⟩
    · exact .inl hcurrent
    · cases he'

/-- The next change is one of the subject. -/
theorem change (h : Backfilled history touched applied seeded held)
    (hheld : ∀ v, v ∈ held' ↔ (v ∈ held ∧ history applied ≠ some v) ∨
      history (applied + 1) = some v) {touched' : Prop} (htouched' : touched') :
    Backfilled history touched' (applied + 1) seeded held' where
  untouched := fun ht => absurd htouched' ht
  filled := fun ht => absurd htouched' ht
  current := fun _ v hv => (hheld v).mpr (.inr hv)
  ahead := by
    intro _ v hv
    rcases (hheld v).mp hv with ⟨hv, hold⟩ | hnew
    · -- what is left came with the snapshot, from after this change
      have hseed : ∃ e, seeded = some e ∧ applied < e ∧ history e = some v := by
        by_cases ht : touched
        · exact (h.ahead ht v hv).resolve_left hold
        obtain ⟨e, he, hvalue⟩ := (h.filled ht v).mp hv
        refine ⟨e, he, ?_, hvalue⟩
        by_contra hle
        rw [h.untouched ht e (not_lt.mp hle), ← h.untouched ht applied le_rfl] at hvalue
        exact hold hvalue
      obtain ⟨e, he, hlt, hvalue⟩ := hseed
      rcases Nat.lt_or_ge (applied + 1) e with hlt' | hge
      · exact .inr ⟨e, he, hlt', hvalue⟩
      · obtain rfl : e = applied + 1 := by omega
        exact .inl hvalue
    · exact .inl hnew

/-- The next change is one of another subject. -/
theorem pass (h : Backfilled history touched applied seeded held)
    (hsame : history (applied + 1) = history applied) :
    Backfilled history touched (applied + 1) seeded held where
  untouched := by
    intro ht n hn
    rcases Nat.lt_or_ge n (applied + 1) with hlt | hge
    · exact h.untouched ht n (by omega)
    obtain rfl : n = applied + 1 := by omega
    rw [hsame]
    exact h.untouched ht applied le_rfl
  filled := h.filled
  current := fun ht v hv => h.current ht v (hsame ▸ hv)
  ahead := by
    intro ht v hv
    rcases h.ahead ht v hv with hcurrent | ⟨e, he, hlt, hvalue⟩
    · exact .inl (hsame ▸ hcurrent)
    rcases Nat.lt_or_ge (applied + 1) e with hlt' | hge
    · exact .inr ⟨e, he, hlt', hvalue⟩
    · obtain rfl : e = applied + 1 := by omega
      exact .inl hvalue

/-- Only the history up to what was applied and filled in matters. -/
theorem congr (h : Backfilled history touched applied seeded held) (happlied : applied ≤ length)
    (hseeded : ∀ e, seeded = some e → e ≤ length) (hsame : ∀ n ≤ length, history' n = history n) :
    Backfilled history' touched applied seeded held where
  untouched := by
    intro ht n hn
    rw [hsame n (hn.trans happlied), hsame 0 (Nat.zero_le _)]
    exact h.untouched ht n hn
  filled := by
    intro ht v
    rw [h.filled ht v]
    refine exists_congr fun e => and_congr_right fun he => ?_
    rw [hsame e (hseeded e he)]
  current := fun ht v hv => h.current ht v (hsame applied happlied ▸ hv)
  ahead := by
    intro ht v hv
    rw [hsame applied happlied]
    refine (h.ahead ht v hv).imp_right ?_
    rintro ⟨e, he, hlt, hvalue⟩
    exact ⟨e, he, hlt, (hsame e (hseeded e he)).trans hvalue⟩

/-- A copy that has caught up with its snapshot is the source's. -/
theorem eq (h : Backfilled history touched applied (some e) held) (he : e ≤ applied) (v : β) :
    v ∈ held ↔ history applied = some v := by
  by_cases ht : touched
  · refine ⟨fun hv => ?_, h.current ht v⟩
    rcases h.ahead ht v hv with hcurrent | ⟨e', he', hlt, -⟩
    · exact hcurrent
    · cases he'
      omega
  · rw [h.filled ht v, h.untouched ht applied le_rfl, ← h.untouched ht e he]
    simp

end Backfilled

end Gleaph
