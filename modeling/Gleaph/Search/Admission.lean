import Gleaph.Search.Dispatch

/-!
# Gleaph.Search.Admission

Whether the vector canister takes the requests of the deepening loop.

The canister admits requests of at most `maxVectorSearchTopK` subjects, the
loop doubles its requests up to `maxVectorSearchFilterCandidates`.  So all
requests are admitted exactly if the loop ends with the last round within the
canister's bound or before; otherwise losing one of 1024 candidates turns the
search into an error.
-/

namespace Gleaph.Search.DeepeningSearch

open SearchRequest

variable {E : Type} {s : DeepeningSearch E}

/-! ## Admitted requests -/

/-- A request the vector canister takes, whatever it says of the query. -/
def Accepted (s : DeepeningSearch E) (size : Nat) : Prop :=
  ∃ hits, searchImpl s.index (.ok ()) size s.candidateSubjects = .ok hits

/-- The last round whose request is within the canister's bound. -/
def CriticalRound (s : DeepeningSearch E) (r : Nat) : Prop :=
  s.requestSize r ≤ maxVectorSearchTopK ∧ maxVectorSearchTopK < s.requestSize (r + 1)

/-- An error of the plan's execution or of the query itself. -/
def Raised (s : DeepeningSearch E) (e : SearchError) : Prop :=
  (∃ hits, s.dispatch hits = .error e) ∨
  (∃ hits result, s.dispatch hits = .ok result ∧ result.receipt = none ∧ e = .noReceipt) ∨
  ∃ e', s.queryCheck = .error e' ∧ e = .vector e'

variable {cumulative : ChainReceiptTotals}

/-- A round within the bound raises only errors of the plan and the query. -/
theorem raised_of_round (hle : s.requestSize r ≤ maxVectorSearchTopK)
    (h : s.round r cumulative = .error e) : s.Raised e := by
  unfold round at h
  cases hhits : s.roundHits r with
  | error e' =>
    simp only [hhits, error_bind, Except.error.injEq] at h
    unfold roundHits at hhits
    split at hhits
    · cases hhits
    rw [searchImpl_within (s.requestSize_pos r) hle] at hhits
    cases hcheck : s.queryCheck with
    | ok _ => simp [hcheck] at hhits
    | error check =>
      simp only [hcheck, error_bind, Except.error.injEq] at hhits
      exact .inr (.inr ⟨check, hcheck, by rw [← h, ← hhits]⟩)
  | ok hits =>
    rw [hhits, ok_bind] at h
    cases hresult : s.dispatch hits with
    | error e' =>
      simp only [hresult, error_bind, Except.error.injEq] at h
      exact .inl ⟨hits, by rw [hresult, h]⟩
    | ok result =>
      rw [hresult, ok_bind] at h
      unfold conclude at h
      cases hposition : s.position with
      | leading => simp [hposition] at h
      | nonLeading =>
        simp only [hposition, searchChainReceiptTotals] at h
        cases hreceipt : result.receipt with
        | none =>
          simp only [hreceipt, error_bind, Except.error.injEq] at h
          exact .inr (.inl ⟨hits, result, hresult, hreceipt, h.symm⟩)
        | some entries => simp [hreceipt] at h

theorem not_accepted (h : maxVectorSearchTopK < size) : ¬ s.Accepted size := by
  rintro ⟨hits, hhits⟩
  simp [searchImpl, h] at hhits

theorem requestSize_mono (s : SearchRequest) (h : r ≤ r') : s.requestSize r ≤ s.requestSize r' := by
  have hpow : 2 ^ min r 63 ≤ 2 ^ min r' 63 := Nat.pow_le_pow_right (by decide) (by omega)
  have hmul : s.topK * 2 ^ min r 63 ≤ s.topK * 2 ^ min r' 63 := Nat.mul_le_mul_left _ hpow
  unfold SearchRequest.requestSize deepeningRequestSize
  omega

/-! ## Whole runs -/

/-- The request of the round behind those that deepen is sent. -/
theorem requestSize_mem_requests (hdeepens : ∀ i ≤ r, s.Deepens i)
    (hle : s.requestSize r ≤ maxVectorSearchTopK) (hfrom : first ≤ r + 1)
    (hfuel : r + 1 < fuel + first) :
    s.requestSize (r + 1) ∈ (s.rounds fuel first (s.totalsBefore first)).requests := by
  induction fuel generalizing first with
  | zero => omega
  | succ fuel ih =>
    rcases Nat.lt_or_ge r first with hlast | hmore
    · obtain rfl : first = r + 1 := by omega
      have hsent : s.requestSize (r + 1) ∈ s.roundRequests (r + 1) := by
        rw [roundRequests, if_neg, List.mem_singleton]
        intro hempty
        have henough := (hdeepens r le_rfl).enough
        rw [candidates_of_allowlistIsEmpty hempty] at henough
        exact absurd henough (Nat.not_le.mpr (s.requestSize_pos r))
      rw [rounds]
      split
      · exact hsent
      · exact hsent
      · exact List.mem_append_left _ hsent
    · rw [rounds, again_of_deepens (hdeepens first hmore) ((requestSize_mono _ hmore).trans hle)]
      exact List.mem_append_right _ (ih (by omega) (by omega))

section

variable (hends : ∀ r, s.CriticalRound r → ∃ i ≤ r, ¬ s.Deepens i)
  (hbefore : ∀ i < r, s.Deepens i) (hle : s.requestSize r ≤ maxVectorSearchTopK)

include hends hbefore

/-- A round that deepens leaves the next one within the bound. -/
theorem requestSize_succ_le (h : s.Deepens r) (hle : s.requestSize r ≤ maxVectorSearchTopK) :
    (∀ i < r + 1, s.Deepens i) ∧ s.requestSize (r + 1) ≤ maxVectorSearchTopK := by
  have hall : ∀ i < r + 1, s.Deepens i := by
    intro i hi
    rcases Nat.lt_succ_iff_lt_or_eq.mp hi with hlt | rfl
    · exact hbefore i hlt
    · exact h
  refine ⟨hall, Nat.not_lt.mp fun hbeyond => ?_⟩
  obtain ⟨i, hi, hnot⟩ := hends r ⟨hle, hbeyond⟩
  exact hnot (hall i (by omega))

include hle

/-- From a round within the bound on, every request is admitted. -/
theorem accepted_of_rounds
    (hsize : size ∈ (s.rounds fuel r (s.totalsBefore r)).requests) : s.Accepted size := by
  have hround : ∀ r, s.requestSize r ≤ maxVectorSearchTopK → size ∈ s.roundRequests r →
      s.Accepted size := by
    intro r hle hmem
    unfold roundRequests at hmem
    split at hmem
    · cases hmem
    · rw [List.mem_singleton.mp hmem]
      exact ⟨_, by rw [searchImpl_within (s.requestSize_pos r) hle]; rfl⟩
  induction fuel generalizing r with
  | zero => simp [rounds] at hsize
  | succ fuel ih =>
    rw [rounds] at hsize
    split at hsize
    · exact hround r hle hsize
    · exact hround r hle hsize
    next hagain =>
    obtain ⟨hdeepens, rfl⟩ := deepens_of_again hagain
    obtain ⟨hall, hnext⟩ := requestSize_succ_le hends hbefore hdeepens hle
    rcases List.mem_append.mp hsize with hnow | hlater
    · exact hround r hle hnow
    · exact ih hall hnext hlater

/-- From a round within the bound on, only the plan and the query raise errors. -/
theorem raised_of_rounds
    (h : (s.rounds fuel r (s.totalsBefore r)).result = some (.error e)) : s.Raised e := by
  induction fuel generalizing r with
  | zero => cases h
  | succ fuel ih =>
    rw [rounds] at h
    split at h
    next hround =>
      cases h
      exact raised_of_round hle hround
    · cases h
    next hagain =>
      obtain ⟨hdeepens, rfl⟩ := deepens_of_again hagain
      obtain ⟨hall, hnext⟩ := requestSize_succ_le hends hbefore hdeepens hle
      exact ih hall hnext h

end

/-- The vector canister takes every request of a search, the loop ends within its
rounds, and what it returns is rows unless running the plan or the query itself fails:
exactly if some round up to the last one within the canister's bound does not deepen. -/
theorem deepening_requests_are_admitted (s : DeepeningSearch E) :
    ((∀ size ∈ s.run.requests, s.Accepted size) ∧
      s.run.requests.length ≤ deepeningMaxRounds ∧
      ∃ outcome, s.run.result = some outcome ∧ ∀ e, outcome = .error e → s.Raised e) ↔
    ∀ r, s.CriticalRound r → ∃ i ≤ r, ¬ s.Deepens i := by
  constructor
  · rintro ⟨haccepted, -⟩ r ⟨hwithin, hbeyond⟩
    by_contra hdeepens
    simp only [not_exists, not_and, not_not] at hdeepens
    have hrounds := mayStart_lt (hdeepens r le_rfl).allowed
    exact not_accepted hbeyond (haccepted _
      (requestSize_mem_requests hdeepens hwithin (Nat.zero_le _) (by omega)))
  · intro hends
    have hfirst : s.requestSize 0 ≤ maxVectorSearchTopK := by
      rw [s.requestSize_zero]
      exact s.topK_le
    have hsome : s.run.result.isSome := rounds_isSome (r := 0) (by decide) (by omega)
    obtain ⟨outcome, houtcome⟩ := Option.isSome_iff_exists.mp hsome
    refine ⟨fun size hsize => accepted_of_rounds (r := 0) hends (by simp) hfirst hsize,
      length_requests_rounds _ _ _, outcome, houtcome, ?_⟩
    rintro e rfl
    exact raised_of_rounds (r := 0) hends (by simp) hfirst houtcome

/-- A leading search of which only the first `authorized` candidates may be seen. -/
def ofAuthorized (request : SearchRequest) (authorized : Nat) : DeepeningSearch Empty :=
  { request with
    position := .leading
    dispatch := fun hits => .ok { rowCount := min authorized hits.length, rows := none } }

/-- With 1023 of the 1024 nearest subjects authorized the second round asks
for 2048 and the search fails. -/
theorem deepening_request_over_bound_is_refused :
    (ofAuthorized (requestFor 1024 1024 (by decide) (by decide)) 1023).run.result =
      some (.error (.vector .invalidSearchTopK)) := by
  have hdeepens : (ofAuthorized (requestFor 1024 1024 (by decide) (by decide)) 1023).Deepens 0 := by
    refine ⟨rfl, ?_, by decide, _, rfl, ?_⟩
    · simp [SearchRequest.candidates, SearchRequest.candidateSubjects, ofAuthorized, requestFor,
        VectorIndex.candidates, SearchRequest.requestSize, deepeningRequestSize,
        maxVectorSearchFilterCandidates]
    · exact lt_of_le_of_lt (Nat.min_le_left _ _) (by decide)
  have hsecond : (ofAuthorized (requestFor 1024 1024 (by decide) (by decide)) 1023).round 1
      ((ofAuthorized (requestFor 1024 1024 (by decide) (by decide)) 1023).totalsBefore 1) =
        .error (.vector .invalidSearchTopK) := rfl
  have hrounds : deepeningMaxRounds = 8 + 1 + 1 := rfl
  rw [run, hrounds, rounds, show ({} : ChainReceiptTotals) = totalsBefore _ 0 from rfl,
    again_of_deepens hdeepens (by decide)]
  dsimp only
  rw [rounds, hsecond]

end Gleaph.Search.DeepeningSearch
