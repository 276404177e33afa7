import Gleaph.Panic

/-!
# Gleaph.MessageSizing

How many entries of a list go into one message.

`adaptiveFittingPrefix` measures encoded prefixes of the list: it estimates a
count from a sample (or takes the caller's hint) and reduces it until the
prefix is within the hard limit.  The encoding is the caller's: `measure n` is
the length of the message with the first `n` entries.

The result is a proper count (`adaptiveFittingPrefix_count`): at least one
entry and no more than there are.
-/

namespace Gleaph

/-- The limit of a message, the size to aim at and how many entries to sample.
-/
structure SizingPolicy where
  hardLimitBytes : Nat
  targetBytes : Nat
  sampleEntries : Nat

namespace SizingPolicy

def maxSafeInterCanisterRequestPayloadBytes : Nat := 2 * 1024 * 1024

def interCanisterMessageHeadroomBytes : Nat := 500 * 1024

/-- Aim below the limit, to leave room for the envelope. -/
def interCanister : SizingPolicy where
  hardLimitBytes := maxSafeInterCanisterRequestPayloadBytes
  targetBytes := maxSafeInterCanisterRequestPayloadBytes - interCanisterMessageHeadroomBytes
  sampleEntries := 96

/-- No zero sizes, and no target above the limit. -/
def normalized (policy : SizingPolicy) : SizingPolicy where
  hardLimitBytes := max policy.hardLimitBytes 1
  targetBytes := min (max policy.targetBytes 1) (max policy.hardLimitBytes 1)
  sampleEntries := max policy.sampleEntries 1

end SizingPolicy

/-- How many entries fit, and the length of their message. -/
structure FittedPrefix where
  entryCount : Nat
  encodedBytes : Nat

inductive FitError (ε : Type) where
  /-- The caller could not build or encode the candidate. -/
  | measure (error : ε)
  /-- Even one entry, or the envelope alone, is over the limit. -/
  | noEntryFits (encodedBytes hardLimitBytes : Nat)

variable {ε : Type}

/-- From the bytes that the sample adds to the empty message, the count that
meets the target. -/
def estimateCount (length : Nat) (policy : SizingPolicy) (baseBytes sampleCount sampleBytes : Nat) :
    Nat :=
  if sampleBytes ≤ baseBytes then max (min sampleCount length) 1
  else
    max 1 (min length
      ((policy.targetBytes - baseBytes) * sampleCount / (sampleBytes - baseBytes)))

/-- The count that meets the target if all entries are alike. -/
def proportionalCount (count targetBytes measuredBytes : Nat) : Nat :=
  if measuredBytes = 0 then max (count * 2) (count + 1) else count * targetBytes / measuredBytes

/-- `measure` with its failure as a `FitError`. -/
def measureCandidate (measure : Nat → Except ε Nat) (count : Nat) : Except (FitError ε) Nat :=
  match measure count with
  | .ok bytes => .ok bytes
  | .error e => .error (.measure e)

/-- Reduce the candidate until it is within the hard limit.  Every round makes
it smaller, so that `fuel = candidate` is enough (`shrinkToFit_fuel`). -/
def shrinkToFit (policy : SizingPolicy) (measure : Nat → Except ε Nat) :
    (fuel candidate bytes : Nat) → Except (FitError ε) FittedPrefix
  | 0, _, bytes => .error (.noEntryFits bytes policy.hardLimitBytes)
  | fuel + 1, candidate, bytes =>
    if bytes ≤ policy.hardLimitBytes then .ok ⟨candidate, bytes⟩
    else if candidate = 1 then .error (.noEntryFits bytes policy.hardLimitBytes)
    else do
      let next := max (min (proportionalCount candidate policy.targetBytes bytes)
        (candidate - 1)) 1
      let bytes ← measureCandidate measure next
      shrinkToFit policy measure fuel next bytes

/-- A first candidate from a fresh sample. -/
def sampleCandidate (length : Nat) (policy : SizingPolicy) (measure : Nat → Except ε Nat) :
    Except (FitError ε) Nat := do
  let sample := max (min policy.sampleEntries length) 1
  let base ← measureCandidate measure 0
  if policy.hardLimitBytes < base then .error (.noEntryFits base policy.hardLimitBytes)
  else do
    let sampleBytes ← measureCandidate measure sample
    .ok (estimateCount length policy base sample sampleBytes)

/-- The caller's hint, or an estimate. -/
def firstCandidate (length : Nat) (hint : Option Nat) (policy : SizingPolicy)
    (measure : Nat → Except ε Nat) : Except (FitError ε) Nat :=
  match hint with
  | some entryCount => .ok (max 1 (min length entryCount))
  | none => sampleCandidate length policy measure

/-- `none` only if there is no entry. -/
def adaptiveFittingPrefix (length : Nat) (hint : Option Nat) (policy : SizingPolicy)
    (measure : Nat → Except ε Nat) : Except (FitError ε) (Option FittedPrefix) :=
  if length = 0 then .ok none
  else do
    let policy := policy.normalized
    let candidate ← firstCandidate length hint policy measure
    let bytes ← measureCandidate measure candidate
    -- a hint that no longer fits is given up for a fresh sample
    if hint.isSome ∧ policy.hardLimitBytes < bytes then do
      let candidate ← sampleCandidate length policy measure
      let bytes ← measureCandidate measure candidate
      some <$> shrinkToFit policy measure candidate candidate bytes
    else some <$> shrinkToFit policy measure candidate candidate bytes

/-! ## The count -/

/-- Fuel beyond the candidate is not used. -/
theorem shrinkToFit_fuel {measure : Nat → Except ε Nat} (hpos : 0 < candidate)
    (hfuel : candidate ≤ fuel) :
    shrinkToFit policy measure fuel candidate bytes =
      shrinkToFit policy measure candidate candidate bytes := by
  induction candidate using Nat.strongRecOn generalizing fuel bytes with
  | ind candidate ih =>
    obtain ⟨fuel, rfl⟩ := Nat.exists_eq_succ_of_ne_zero (Nat.ne_of_gt (hpos.trans_le hfuel))
    obtain ⟨rest, rfl⟩ := Nat.exists_eq_succ_of_ne_zero hpos.ne'
    simp only [shrinkToFit]
    split_ifs with hfits hone
    · rfl
    · rfl
    · refine bind_congr fun bytes => ?_
      set next := max (min (proportionalCount (rest + 1) policy.targetBytes _) (rest + 1 - 1)) 1
      -- both sides go on with less than the candidate
      have hnext : 0 < next ∧ next ≤ rest := by omega
      rw [ih next (by omega) hnext.1 (by omega), ← ih next (by omega) hnext.1 hnext.2]

/-- Shrinking ends at one entry or more, and never grows the count. -/
theorem shrinkToFit_count {measure : Nat → Except ε Nat} (hpos : 0 < candidate)
    (h : shrinkToFit policy measure fuel candidate bytes = .ok fitted) :
    0 < fitted.entryCount ∧ fitted.entryCount ≤ candidate := by
  induction fuel generalizing candidate bytes with
  | zero => cases h
  | succ fuel ih =>
    simp only [shrinkToFit] at h
    split at h
    · cases h
      exact ⟨hpos, le_rfl⟩
    split at h
    · cases h
    obtain ⟨bytes, -, h⟩ := bind_inv h
    obtain ⟨hone, hle⟩ := ih (by omega) h
    exact ⟨hone, by omega⟩

/-- An estimate is at least one and at most the number of entries. -/
theorem sampleCandidate_count {measure : Nat → Except ε Nat} (hpos : 0 < length)
    (h : sampleCandidate length policy measure = .ok candidate) :
    0 < candidate ∧ candidate ≤ length := by
  obtain ⟨base, -, h⟩ := bind_inv h
  split at h
  · cases h
  obtain ⟨sampleBytes, -, h⟩ := bind_inv h
  cases h
  unfold estimateCount
  split <;> omega

/-- A fitted prefix has at least one entry, and no more than the list. -/
theorem adaptiveFittingPrefix_count {measure : Nat → Except ε Nat}
    (h : adaptiveFittingPrefix length hint policy measure = .ok (some fitted)) :
    0 < fitted.entryCount ∧ fitted.entryCount ≤ length := by
  unfold adaptiveFittingPrefix at h
  split at h
  · cases h
  next hlength =>
    have hlength : 0 < length := Nat.pos_of_ne_zero hlength
    have hshrink : ∀ {candidate bytes : Nat}, 0 < candidate ∧ candidate ≤ length →
        some <$> shrinkToFit policy.normalized measure candidate candidate bytes =
          .ok (some fitted) → 0 < fitted.entryCount ∧ fitted.entryCount ≤ length := by
      intro candidate bytes hcandidate h
      obtain ⟨fitted', hfit, heq⟩ := map_eq_ok.mp h
      cases heq
      obtain ⟨hone, hle⟩ := shrinkToFit_count hcandidate.1 hfit
      exact ⟨hone, hle.trans hcandidate.2⟩
    obtain ⟨candidate, hcandidate, h⟩ := bind_inv h
    obtain ⟨bytes, -, h⟩ := bind_inv h
    split at h
    · obtain ⟨candidate, hcandidate, h⟩ := bind_inv h
      obtain ⟨bytes, -, h⟩ := bind_inv h
      exact hshrink (sampleCandidate_count hlength hcandidate) h
    refine hshrink ?_ h
    cases hint with
    | none => exact sampleCandidate_count hlength hcandidate
    | some entryCount =>
      cases hcandidate
      omega

end Gleaph
