import Gleaph.Panic
import Gleaph.Gql.Row

/-!
# Gleaph.Search.Deepening

The deepening loop of a vector search
(`crates/router/src/gql_search.rs`, `dispatch_deepening_search`).

Each round asks the vector canister for more of the nearest subjects, runs the
plan over them and decides from what came back whether to stop.  The loop
does not depend on what running the plan means, so it is modelled over any
`dispatch`; `Gleaph.Search.Leading` and `Gleaph.Search.Join` supply the two
positions of a `SEARCH`.

`rounds` counts its rounds down so that it is structural; `rounds_isSome`
shows that the budget of `deepeningMaxRounds` rounds is never used up without
a result.  `Deepens` says of a round, by what the index, the plan and the
instruction counter answer, that another one follows it; a loop that ends has
ended with the first round that does not deepen (`last_of_run`).
-/

namespace Gleaph.Search

/-! ## The vector canister -/

/-- `VectorSubject::Vertex`. -/
structure Subject where
  shard : Nat
  vertex : Nat
  deriving DecidableEq, Repr

/-- `VectorSearchHit`; the distance is a 32-bit float. -/
structure Hit where
  subject : Subject
  distance : BitVec 32
  deriving DecidableEq, Repr

def maxVectorSearchTopK : Nat := 1024

def maxVectorSearchFilterCandidates : Nat := 4096

/-- The errors of a search, of the checks that read the request. -/
inductive VectorCanisterError where
  | invalidSearchTopK
  | invalidSearchCandidates
  | dimensionMismatch
  | byteWidthMismatch
  | invalidQueryVector
  deriving DecidableEq, Repr

/-- The content of an index as one query sees it: the live subjects, nearest
first. -/
structure VectorIndex where
  ranked : List Hit
  distinct : (ranked.map (·.subject)).Nodup

/-- Hits with one vertex each. -/
theorem nodup_vertices (stored : Nat) :
    (((List.range stored).map fun i => (⟨⟨0, i⟩, 0⟩ : Hit)).map (·.subject)).Nodup := by
  rw [List.map_map]
  exact List.nodup_range.map fun i j hij => congrArg Subject.vertex hij

/-- The subjects a request may return. -/
def VectorIndex.candidates (index : VectorIndex) : Option (List Subject) → List Hit
  | none => index.ranked
  | some subjects => index.ranked.filter (·.subject ∈ subjects)

def validateCandidateAllowlist (subjects : List Subject) : Except VectorCanisterError Unit :=
  if maxVectorSearchFilterCandidates < subjects.length ∨ ¬ subjects.Nodup then
    .error .invalidSearchCandidates
  else .ok ()

def checkAllowlist : Option (List Subject) → Except VectorCanisterError Unit
  | none => .ok ()
  | some subjects => validateCandidateAllowlist subjects

/-- `search_impl`.  `queryCheck` are the checks of the query against the
definition, which no round changes. -/
def searchImpl (index : VectorIndex) (queryCheck : Except VectorCanisterError Unit) (topK : Nat)
    (subjects : Option (List Subject)) : Except VectorCanisterError (List Hit) := do
  if topK = 0 ∨ maxVectorSearchTopK < topK then throw .invalidSearchTopK
  checkAllowlist subjects
  queryCheck
  return (index.candidates subjects).take topK

/-! ## Results -/

/-- `SearchChainReceiptRecord`. -/
structure ChainReceiptRecord where
  shard : Nat
  dispatched : Nat
  chainSurvivors : Nat
  deriving DecidableEq, Repr

structure ChainReceiptTotals where
  dispatched : Nat := 0
  chainSurvivors : Nat := 0
  deriving DecidableEq, Repr

/-- `GqlQueryResult`, without the parts of a mutation.  The row batch is a
list of rows: its encoding loses nothing. -/
structure QueryResult (E : Type) where
  rowCount : Nat
  rows : Option (List (Row E))
  truncated : Option Bool := none
  receipt : Option (List ChainReceiptRecord) := none

/-- Errors of the router's search path. -/
inductive SearchError where
  | vector (error : VectorCanisterError)
  | duplicateHit (subject : Subject)
  | nonFiniteValue
  | noTail
  | shardNotRegistered
  | noReceipt
  | query (error : QueryError)
  | payload
  deriving DecidableEq, Repr

variable {E : Type}

def QueryResult.withTruncated (result : QueryResult E) (truncated : Bool) : QueryResult E :=
  { result with truncated := some truncated }

def capResultRows (cap : Nat) (result : QueryResult E) : QueryResult E :=
  match result.rows with
  | none => result
  | some rows =>
    if rows.length ≤ cap then result
    else { result with rows := some (rows.take cap), rowCount := (rows.take cap).length }

def searchChainReceiptTotals (result : QueryResult E) : Except SearchError ChainReceiptTotals :=
  match result.receipt with
  | none => .error .noReceipt
  | some entries =>
    .ok ⟨(entries.map (·.dispatched)).sum, (entries.map (·.chainSurvivors)).sum⟩

/-! ## Sizes and budget -/

def deepeningRequestSize (topK round : Nat) : Nat :=
  min (min (topK * 2 ^ min round 63) (2 ^ 64 - 1)) maxVectorSearchFilterCandidates

def maxQueryCallInstructions : Nat := 5_000_000_000

def vectorSearchRoundInstructionEstimate : Nat := 500_000_000

def deepeningMaxRounds : Nat := maxQueryCallInstructions / vectorSearchRoundInstructionEstimate

/-- `deepening_may_start_round`; `used` is the message's instruction counter. -/
def deepeningMayStartRound (used nextRound : Nat) : Bool :=
  nextRound < deepeningMaxRounds &&
    used + vectorSearchRoundInstructionEstimate < maxQueryCallInstructions

/-! ## Classifying a round -/

inductive DeepeningStop where
  | converged | candidatesExhausted | sparsity | budgetExhausted
  deriving DecidableEq, Repr

def deepeningStop (authorizedRows topK : Nat) (candidatesExhausted nextRoundAllowed : Bool) :
    Option DeepeningStop :=
  if topK ≤ authorizedRows then some .converged
  else if !nextRoundAllowed then some .budgetExhausted
  else if candidatesExhausted then some .candidatesExhausted
  else none

def nonLeadingDeepeningStop (totals : ChainReceiptTotals) (topK : Nat)
    (candidatesExhausted nextRoundAllowed : Bool) : Option DeepeningStop :=
  if topK ≤ totals.chainSurvivors then some .converged
  else if !nextRoundAllowed then some .budgetExhausted
  else if candidatesExhausted then some .candidatesExhausted
  else if totals.chainSurvivors < totals.dispatched then none
  else some .sparsity

inductive SearchPosition where
  | leading | nonLeading
  deriving DecidableEq, Repr

/-- A finished round: its result, or the totals to go on with. -/
inductive RoundEnd (E : Type) where
  | again (cumulative : ChainReceiptTotals)
  | stop (result : QueryResult E)

/-- The end of a round at a leading position. -/
def concludeLeading (topK : Nat) (cumulative : ChainReceiptTotals)
    (candidatesExhausted nextRoundAllowed : Bool) (result : QueryResult E) : RoundEnd E :=
  match deepeningStop result.rowCount topK candidatesExhausted nextRoundAllowed with
  | none => .again cumulative
  | some .converged => .stop ((capResultRows topK result).withTruncated false)
  | some _ => .stop (result.withTruncated true)

/-- The end of a round at a later position; `totals` are those of the round. -/
def concludeNonLeading (topK : Nat) (cumulative totals : ChainReceiptTotals)
    (candidatesExhausted nextRoundAllowed : Bool) (result : QueryResult E) : RoundEnd E :=
  match nonLeadingDeepeningStop ⟨cumulative.dispatched + totals.dispatched,
      cumulative.chainSurvivors + totals.chainSurvivors⟩ topK candidatesExhausted
      nextRoundAllowed with
  | none =>
    .again ⟨cumulative.dispatched + totals.dispatched,
      cumulative.chainSurvivors + totals.chainSurvivors⟩
  | some .budgetExhausted => .stop (result.withTruncated true)
  | some _ => .stop (result.withTruncated false)

/-! ## The loop -/

/-- A candidate allowlist as the router resolves it. -/
structure Allowlist where
  subjects : List Subject
  distinct : subjects.Nodup
  bounded : subjects.length ≤ maxVectorSearchFilterCandidates

/-- A search the router has admitted. -/
structure SearchRequest where
  index : VectorIndex
  queryCheck : Except VectorCanisterError Unit
  topK : Nat
  topK_pos : 0 < topK
  topK_le : topK ≤ maxVectorSearchTopK
  allowlist : Option Allowlist
  /-- The instruction counter after a round. -/
  used : Nat → Nat

/-- An admitted search and what the loop calls. -/
structure DeepeningSearch (E : Type) extends SearchRequest where
  position : SearchPosition
  /-- Running the plan over the hits of a round. -/
  dispatch : List Hit → Except SearchError (QueryResult E)

namespace SearchRequest

variable (s : SearchRequest)

def candidateSubjects : Option (List Subject) := s.allowlist.map (·.subjects)

/-- The subjects the search may return, nearest first. -/
def candidates : List Hit := s.index.candidates s.candidateSubjects

def requestSize (round : Nat) : Nat := deepeningRequestSize s.topK round

theorem topK_le_requestSize (r : Nat) : s.topK ≤ s.requestSize r := by
  have hle := s.topK_le
  have hmul : s.topK ≤ s.topK * 2 ^ min r 63 := Nat.le_mul_of_pos_right _ (Nat.two_pow_pos _)
  unfold maxVectorSearchTopK at hle
  unfold requestSize deepeningRequestSize maxVectorSearchFilterCandidates
  omega

theorem requestSize_pos (r : Nat) : 0 < s.requestSize r :=
  s.topK_pos.trans_le (s.topK_le_requestSize r)

theorem requestSize_zero : s.requestSize 0 = s.topK := by
  have hle := s.topK_le
  unfold maxVectorSearchTopK at hle
  simp only [requestSize, deepeningRequestSize, maxVectorSearchFilterCandidates, Nat.zero_min,
    pow_zero, Nat.mul_one]
  omega

theorem nodup_subjects : (s.candidates.map (·.subject)).Nodup := by
  unfold candidates VectorIndex.candidates
  split
  · exact s.index.distinct
  · exact s.index.distinct.sublist (List.filter_sublist.map _)

end SearchRequest

namespace DeepeningSearch

variable (s : DeepeningSearch E)

/-- An empty allowlist skips the vector canister. -/
def allowlistIsEmpty : Bool := s.candidateSubjects == some []

/-- The hits of a round. -/
def roundHits (round : Nat) : Except SearchError (List Hit) :=
  if s.allowlistIsEmpty then .ok []
  else
    match searchImpl s.index s.queryCheck (s.requestSize round) s.candidateSubjects with
    | .ok hits => .ok hits
    | .error e => .error (.vector e)

/-- The requests a round sends to the vector canister. -/
def roundRequests (round : Nat) : List Nat :=
  if s.allowlistIsEmpty then [] else [s.requestSize round]

/-- The decision after a round. -/
def conclude (round : Nat) (cumulative : ChainReceiptTotals) (hits : List Hit)
    (result : QueryResult E) : Except SearchError (RoundEnd E) :=
  let exhausted := decide (hits.length < s.requestSize round)
  let nextAllowed := deepeningMayStartRound (s.used round) (round + 1)
  match s.position with
  | .leading => .ok (concludeLeading s.topK cumulative exhausted nextAllowed result)
  | .nonLeading => do
    let totals ← searchChainReceiptTotals result
    return concludeNonLeading s.topK cumulative totals exhausted nextAllowed result

/-- One round. -/
def round (round : Nat) (cumulative : ChainReceiptTotals) : Except SearchError (RoundEnd E) := do
  let hits ← s.roundHits round
  let result ← s.dispatch hits
  s.conclude round cumulative hits result

/-- What the loop did: the requests it sent and its result, `none` when the
countdown ran out first. -/
structure Outcome (E : Type) where
  requests : List Nat
  result : Option (Except SearchError (QueryResult E))

/-- The loop from a round on. -/
def rounds : Nat → Nat → ChainReceiptTotals → Outcome E
  | 0, _, _ => ⟨[], none⟩
  | fuel + 1, round, cumulative =>
    match s.round round cumulative with
    | .error e => ⟨s.roundRequests round, some (.error e)⟩
    | .ok (.stop result) => ⟨s.roundRequests round, some (.ok result)⟩
    | .ok (.again cumulative) =>
      let later := rounds fuel (round + 1) cumulative
      ⟨s.roundRequests round ++ later.requests, later.result⟩

/-- `dispatch_deepening_search`. -/
def run : Outcome E := s.rounds deepeningMaxRounds 0 {}

/-- The receipt of a round, added up; a leading search keeps none. -/
def roundTotals (round : Nat) : ChainReceiptTotals :=
  match s.position, s.dispatch (s.candidates.take (s.requestSize round)) with
  | .nonLeading, .ok result =>
    ⟨((result.receipt.getD []).map (·.dispatched)).sum,
      ((result.receipt.getD []).map (·.chainSurvivors)).sum⟩
  | _, _ => {}

/-- The receipts of the rounds before a round. -/
def totalsBefore : Nat → ChainReceiptTotals
  | 0 => {}
  | round + 1 =>
    ⟨(totalsBefore round).dispatched + (s.roundTotals round).dispatched,
      (totalsBefore round).chainSurvivors + (s.roundTotals round).chainSurvivors⟩

/-! ## What a round tells -/

section Round

variable {s}

theorem checkAllowlist_ok (s : SearchRequest) : checkAllowlist s.candidateSubjects = .ok () := by
  unfold SearchRequest.candidateSubjects
  cases s.allowlist with
  | none => rfl
  | some list =>
    have hbounded := list.bounded
    simp [checkAllowlist, validateCandidateAllowlist, list.distinct, Nat.not_lt.mpr hbounded]

/-- A request within the bound is answered unless the query is refused. -/
theorem searchImpl_within {s : SearchRequest} (hpos : 0 < size) (hle : size ≤ maxVectorSearchTopK)
    (check : Except VectorCanisterError Unit) :
    searchImpl s.index check size s.candidateSubjects =
      (do check; return s.candidates.take size) := by
  have hadmitted : ¬ (size = 0 ∨ maxVectorSearchTopK < size) := by omega
  simp [searchImpl, if_neg hadmitted, checkAllowlist_ok, SearchRequest.candidates]

theorem candidates_of_allowlistIsEmpty (h : s.allowlistIsEmpty = true) : s.candidates = [] := by
  have hnone : s.candidateSubjects = some [] := by simpa [allowlistIsEmpty] using h
  simp [SearchRequest.candidates, hnone, VectorIndex.candidates]

/-- The hits of a round are the nearest candidates. -/
theorem roundHits_eq_ok (h : s.roundHits r = .ok hits) :
    hits = s.candidates.take (s.requestSize r) ∧
      (s.allowlistIsEmpty = true ∨ s.queryCheck = .ok ()) := by
  unfold roundHits at h
  split at h
  next hempty =>
    cases h
    exact ⟨by rw [candidates_of_allowlistIsEmpty hempty, List.take_nil], .inl hempty⟩
  split at h
  next hsearch =>
    cases h
    unfold searchImpl at hsearch
    split at hsearch
    · simp at hsearch
    obtain ⟨-, -, hsearch⟩ := bind_inv hsearch
    obtain ⟨⟨⟩, hcheck, hsearch⟩ := bind_inv hsearch
    exact ⟨(Except.ok.inj hsearch).symm, .inr hcheck⟩
  · cases h

theorem round_eq_ok (h : s.round r cumulative = .ok roundEnd) :
    ∃ hits result, s.roundHits r = .ok hits ∧ s.dispatch hits = .ok result ∧
      s.conclude r cumulative hits result = .ok roundEnd := by
  obtain ⟨hits, hhits, h⟩ := bind_inv h
  obtain ⟨result, hresult, h⟩ := bind_inv h
  exact ⟨hits, result, hhits, hresult, h⟩

/-! ## Rounds that another follows -/

/-- The rows of a round, or the survivors of all rounds so far, are fewer than were
asked for; of a joined search, candidates have been lost as well. -/
def Short (s : DeepeningSearch E) (r : Nat) (result : QueryResult E) : Prop :=
  match s.position with
  | .leading => result.rowCount < s.topK
  | .nonLeading => result.receipt.isSome ∧
    (s.totalsBefore (r + 1)).chainSurvivors < s.topK ∧
    (s.totalsBefore (r + 1)).chainSurvivors < (s.totalsBefore (r + 1)).dispatched

/-- Another round follows: the query is accepted, the index has as many candidates as
were asked for, the budget allows it, and the plan over them leaves some to be found. -/
structure Deepens (s : DeepeningSearch E) (r : Nat) : Prop where
  accepted : s.queryCheck = .ok ()
  enough : s.requestSize r ≤ s.candidates.length
  allowed : deepeningMayStartRound (s.used r) (r + 1) = true
  short : ∃ result, s.dispatch (s.candidates.take (s.requestSize r)) = .ok result ∧ s.Short r result

/-- The first round that no other follows. -/
def Last (s : DeepeningSearch E) (r : Nat) : Prop := (∀ i < r, s.Deepens i) ∧ ¬ s.Deepens r

theorem Last.unique (h : s.Last r) (h' : s.Last r') : r = r' := by
  rcases Nat.lt_trichotomy r r' with hlt | heq | hlt
  · exact absurd (h'.1 r hlt) h.2
  · exact heq
  · exact absurd (h.1 r' hlt) h'.2

theorem concludeLeading_again_iff {topK : Nat} {cumulative next : ChainReceiptTotals}
    {exhausted allowed : Bool} {result : QueryResult E} :
    concludeLeading topK cumulative exhausted allowed result = .again next ↔
      exhausted = false ∧ allowed = true ∧ result.rowCount < topK ∧ next = cumulative := by
  unfold concludeLeading deepeningStop
  cases exhausted <;> cases allowed <;> by_cases hrows : topK ≤ result.rowCount <;>
    simp [hrows, eq_comm]
  omega

theorem nonLeadingDeepeningStop_eq_none_iff {totals : ChainReceiptTotals} :
    nonLeadingDeepeningStop totals topK exhausted allowed = none ↔
      exhausted = false ∧ allowed = true ∧ totals.chainSurvivors < topK ∧
        totals.chainSurvivors < totals.dispatched := by
  unfold nonLeadingDeepeningStop
  cases exhausted <;> cases allowed <;> split_ifs <;> simp_all

theorem concludeNonLeading_again_iff {topK : Nat} {cumulative totals next : ChainReceiptTotals}
    {exhausted allowed : Bool} {result : QueryResult E} :
    concludeNonLeading topK cumulative totals exhausted allowed result = .again next ↔
      exhausted = false ∧ allowed = true ∧
      next = ⟨cumulative.dispatched + totals.dispatched,
        cumulative.chainSurvivors + totals.chainSurvivors⟩ ∧
      next.chainSurvivors < topK ∧ next.chainSurvivors < next.dispatched := by
  unfold concludeNonLeading
  generalize (⟨cumulative.dispatched + totals.dispatched,
    cumulative.chainSurvivors + totals.chainSurvivors⟩ : ChainReceiptTotals) = sums
  have hnone := @nonLeadingDeepeningStop_eq_none_iff topK exhausted allowed sums
  cases hstop : nonLeadingDeepeningStop sums topK exhausted allowed with
  | none =>
    obtain ⟨hexhausted, hallowed, hshort, hloss⟩ := hnone.mp hstop
    simp only [RoundEnd.again.injEq]
    exact ⟨fun h => h ▸ ⟨hexhausted, hallowed, rfl, hshort, hloss⟩, fun h => h.2.2.1.symm⟩
  | some stop =>
    refine iff_of_false (by cases stop <;> simp) ?_
    rintro ⟨hexhausted, hallowed, rfl, hshort, hloss⟩
    rw [hnone.mpr ⟨hexhausted, hallowed, hshort, hloss⟩] at hstop
    cases hstop

/-- When the decision after a round is to go on. -/
theorem conclude_again_iff
    (hresult : s.dispatch (s.candidates.take (s.requestSize r)) = .ok result) :
    s.conclude r (s.totalsBefore r) (s.candidates.take (s.requestSize r)) result =
        .ok (.again next) ↔
      s.requestSize r ≤ s.candidates.length ∧
      deepeningMayStartRound (s.used r) (r + 1) = true ∧ s.Short r result ∧
      next = s.totalsBefore (r + 1) := by
  have hexhausted : (s.candidates.take (s.requestSize r)).length < s.requestSize r ↔
      ¬ s.requestSize r ≤ s.candidates.length := by
    rw [List.length_take]
    omega
  unfold conclude Short
  cases hposition : s.position with
  | leading =>
    have htotals : s.totalsBefore (r + 1) = s.totalsBefore r := by
      simp [totalsBefore, roundTotals, hposition]
    dsimp only
    rw [Except.ok.injEq, concludeLeading_again_iff, decide_eq_false_iff_not, hexhausted, not_not,
      htotals]
  | nonLeading =>
    cases hreceipt : result.receipt with
    | none => simp [searchChainReceiptTotals, hreceipt]
    | some entries =>
      have htotals : s.totalsBefore (r + 1) =
          ⟨(s.totalsBefore r).dispatched + (entries.map (·.dispatched)).sum,
            (s.totalsBefore r).chainSurvivors + (entries.map (·.chainSurvivors)).sum⟩ := by
        simp [totalsBefore, roundTotals, hposition, hresult, hreceipt]
      simp only [searchChainReceiptTotals, hreceipt, ok_bind, pure_eq_ok, Except.ok.injEq,
        concludeNonLeading_again_iff, ← htotals, decide_eq_false_iff_not, hexhausted, not_not,
        Option.isSome_some, true_and]
      constructor
      · rintro ⟨henough, hallowed, rfl, hshort, hloss⟩
        exact ⟨henough, hallowed, ⟨hshort, hloss⟩, rfl⟩
      · rintro ⟨henough, hallowed, ⟨hshort, hloss⟩, rfl⟩
        exact ⟨henough, hallowed, rfl, hshort, hloss⟩

/-- A joined search returns the rows of its last round. -/
theorem conclude_stop_rows (hposition : s.position = .nonLeading)
    (h : s.conclude r cumulative hits result = .ok (.stop final)) :
    final.rows = result.rows ∧ final.rowCount = result.rowCount := by
  simp only [conclude, hposition] at h
  obtain ⟨totals, -, h⟩ := bind_inv h
  simp only [concludeNonLeading, pure_eq_ok, Except.ok.injEq] at h
  split at h
  · cases h
  · cases h
    exact ⟨rfl, rfl⟩
  · cases h
    exact ⟨rfl, rfl⟩

/-- A leading search that is not truncated has found enough rows. -/
theorem conclude_stop_converged (hposition : s.position = .leading)
    (h : s.conclude r cumulative hits result = .ok (.stop final))
    (htruncated : final.truncated = some false) :
    s.topK ≤ result.rowCount ∧ final = (capResultRows s.topK result).withTruncated false := by
  simp only [conclude, hposition, concludeLeading, Except.ok.injEq] at h
  split at h
  · cases h
  next hstop =>
    cases h
    simp only [deepeningStop] at hstop
    split_ifs at hstop with hrows
    · exact ⟨hrows, rfl⟩
    · cases hstop
    · cases hstop
  · cases h
    cases htruncated

theorem mayStart_lt (h : deepeningMayStartRound used next = true) : next < deepeningMaxRounds := by
  simp only [deepeningMayStartRound, Bool.and_eq_true, decide_eq_true_eq] at h
  exact h.1

/-- A round is followed by another only when it deepens. -/
theorem deepens_of_again (h : s.round r (s.totalsBefore r) = .ok (.again next)) :
    s.Deepens r ∧ next = s.totalsBefore (r + 1) := by
  obtain ⟨hits, result, hhits, hresult, h⟩ := round_eq_ok h
  obtain ⟨rfl, hcheck⟩ := roundHits_eq_ok hhits
  obtain ⟨henough, hallowed, hshort, hnext⟩ := (conclude_again_iff hresult).mp h
  refine ⟨⟨hcheck.resolve_left fun hempty => ?_, henough, hallowed, result, hresult, hshort⟩, hnext⟩
  rw [candidates_of_allowlistIsEmpty hempty] at henough
  exact absurd henough (Nat.not_le.mpr (s.requestSize_pos r))

/-- A round that deepens is followed by another, if the vector canister takes its
request. -/
theorem again_of_deepens (h : s.Deepens r) (hle : s.requestSize r ≤ maxVectorSearchTopK) :
    s.round r (s.totalsBefore r) = .ok (.again (s.totalsBefore (r + 1))) := by
  obtain ⟨hcheck, henough, hallowed, result, hresult, hshort⟩ := h
  have hhits : s.roundHits r = .ok (s.candidates.take (s.requestSize r)) := by
    rw [roundHits, if_neg, searchImpl_within (s.requestSize_pos r) hle, hcheck]
    · rfl
    · intro hempty
      rw [candidates_of_allowlistIsEmpty hempty] at henough
      exact absurd henough (Nat.not_le.mpr (s.requestSize_pos r))
  rw [round, hhits, ok_bind, hresult, ok_bind]
  exact (conclude_again_iff hresult).mpr ⟨henough, hallowed, hshort, rfl⟩

end Round

/-! ## Runs -/

section Runs

variable {s}

/-- The loop always ends with a result. -/
theorem rounds_isSome (hfuel : 0 < fuel) (h : deepeningMaxRounds ≤ fuel + r) :
    (s.rounds fuel r (s.totalsBefore r)).result.isSome := by
  induction fuel generalizing r with
  | zero => omega
  | succ fuel ih =>
    rw [rounds]
    split
    · rfl
    · rfl
    next hround =>
    obtain ⟨hdeepens, rfl⟩ := deepens_of_again hround
    have hlt := mayStart_lt hdeepens.allowed
    exact ih (by omega) (by omega)

theorem length_requests_rounds (fuel r : Nat) (cumulative : ChainReceiptTotals) :
    (s.rounds fuel r cumulative).requests.length ≤ fuel := by
  have hone : ∀ r, (s.roundRequests r).length ≤ 1 := by
    intro r
    unfold roundRequests
    split <;> simp
  induction fuel generalizing r cumulative with
  | zero => simp [rounds]
  | succ fuel ih =>
    have hr := hone r
    rw [rounds]
    split
    · dsimp only
      omega
    · dsimp only
      omega
    next cumulative' _ =>
    have hlater := ih (r + 1) cumulative'
    simp only [List.length_append]
    omega

/-- A loop that ends with a result ends with the first round that does not deepen. -/
theorem last_of_rounds (hbefore : ∀ i < r, s.Deepens i)
    (h : (s.rounds fuel r (s.totalsBefore r)).result = some (.ok final)) :
    ∃ last result, s.Last last ∧
      s.dispatch (s.candidates.take (s.requestSize last)) = .ok result ∧
      s.conclude last (s.totalsBefore last) (s.candidates.take (s.requestSize last)) result =
        .ok (.stop final) := by
  induction fuel generalizing r with
  | zero => cases h
  | succ fuel ih =>
    rw [rounds] at h
    split at h
    · cases h
    next hround =>
      cases h
      obtain ⟨hits, result, hhits, hresult, hstop⟩ := round_eq_ok hround
      obtain ⟨rfl, -⟩ := roundHits_eq_ok hhits
      refine ⟨r, result, ⟨hbefore, fun hdeepens => ?_⟩, hresult, hstop⟩
      obtain ⟨-, henough, hallowed, other, hother, hshort⟩ := hdeepens
      rw [hresult] at hother
      cases hother
      rw [(conclude_again_iff hresult).mpr ⟨henough, hallowed, hshort, rfl⟩] at hstop
      cases hstop
    next hround =>
      obtain ⟨hdeepens, rfl⟩ := deepens_of_again hround
      refine ih (fun i hi => ?_) h
      rcases Nat.lt_succ_iff_lt_or_eq.mp hi with hlt | rfl
      · exact hbefore i hlt
      · exact hdeepens

theorem last_of_run (h : s.run.result = some (.ok final)) :
    ∃ last result, s.Last last ∧
      s.dispatch (s.candidates.take (s.requestSize last)) = .ok result ∧
      s.conclude last (s.totalsBefore last) (s.candidates.take (s.requestSize last)) result =
        .ok (.stop final) :=
  last_of_rounds (r := 0) (by simp) h

end Runs

end DeepeningSearch

end Gleaph.Search
