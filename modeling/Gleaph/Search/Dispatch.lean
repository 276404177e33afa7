import Gleaph.Plan.Exec
import Gleaph.Search.Deepening

/-!
# Gleaph.Search.Dispatch

From the hits of a vector search to what the shards receive
(`crates/router/src/gql_search.rs`, `crates/graph/src/gql_run.rs`,
`crates/router/src/federation/merge.rs`).

A hit is converted to the value the query sees and goes to its shard, as a
seed row (`buildSearchSeeds`) or as an entry of the search relation
(`buildResolvedSearchWires`).  Both are one loop that refuses a subject it
meets twice; `scoreHits_eq_ok` and `scoreHits_of_distinct` say what it makes
of the distinct hits of an index.  `mergeShardRows` puts the shards' rows
together.
-/

namespace Gleaph.Search

variable {E : Type}

/-! ## Hits -/

/-- `to_user_distance` or `to_user_score` of the index's metric, widened to 64
bits; `none` for a value that is not finite. -/
abbrev UserValue := BitVec 32 → Option (BitVec 64)

/-- A converted hit. -/
structure ScoredSubject where
  subject : Subject
  value : BitVec 64
  deriving DecidableEq, Repr

/-- The loop shared by both conversions: `accepts` tells which hits it looks at
and `seen` are the subjects met so far. -/
def scoreHits (userValue : UserValue) (accepts : Hit → Bool) :
    List Subject → List Hit → Except SearchError (List ScoredSubject)
  | _, [] => .ok []
  | seen, hit :: hits =>
    if !accepts hit then scoreHits userValue accepts seen hits
    else if hit.subject ∈ seen then .error (.duplicateHit hit.subject)
    else
      match userValue hit.distance with
      | none => .error .nonFiniteValue
      | some value => do
        return ⟨hit.subject, value⟩ :: (← scoreHits userValue accepts (hit.subject :: seen) hits)

/-- `build_search_seeds`, before the rows are grouped by shard. -/
def buildSearchSeeds (userValue : UserValue) (hits : List Hit) :
    Except SearchError (List ScoredSubject) :=
  scoreHits userValue (fun _ => true) [] hits

/-- Hits on shards that are gone are ignored. -/
def buildResolvedSearchWires (userValue : UserValue) (liveShards : List Nat) (hits : List Hit) :
    Except SearchError (List ScoredSubject) :=
  scoreHits userValue (·.subject.shard ∈ liveShards) [] hits

/-- A hit with the value the query sees. -/
def Hit.scored (userValue : UserValue) (hit : Hit) : ScoredSubject :=
  ⟨hit.subject, (userValue hit.distance).getD 0⟩

/-- What the entries of one shard are. -/
def onShard (shard : Nat) (scored : List ScoredSubject) : List ScoredSubject :=
  scored.filter (·.subject.shard == shard)

section Score

theorem scoreHits_eq_ok (h : scoreHits userValue accepts seen hits = .ok scored) :
    scored = (hits.filter accepts).map (·.scored userValue) ∧
      ∀ hit ∈ hits.filter accepts, (userValue hit.distance).isSome := by
  induction hits generalizing seen scored with
  | nil =>
    cases h
    simp
  | cons hit hits ih =>
    rw [scoreHits] at h
    cases haccepts : accepts hit with
    | false =>
      rw [haccepts] at h
      simpa [haccepts] using ih h
    | true =>
      rw [haccepts] at h
      simp only [Bool.not_true, Bool.false_eq_true, if_false] at h
      split at h
      · cases h
      split at h
      · cases h
      next value hvalue =>
      obtain ⟨rest, hrest, h⟩ := bind_inv h
      cases h
      obtain ⟨rfl, hvalues⟩ := ih hrest
      simpa [haccepts, Hit.scored, hvalue] using hvalues

/-- Distinct hits with finite values are converted. -/
theorem scoreHits_of_distinct (hdistinct : (hits.map (·.subject)).Nodup)
    (hseen : ∀ hit ∈ hits, hit.subject ∉ seen)
    (hvalues : ∀ hit ∈ hits.filter accepts, (userValue hit.distance).isSome) :
    scoreHits userValue accepts seen hits =
      .ok ((hits.filter accepts).map (·.scored userValue)) := by
  induction hits generalizing seen with
  | nil => rfl
  | cons hit hits ih =>
    rw [List.map_cons, List.nodup_cons] at hdistinct
    obtain ⟨hseenHit, hseenRest⟩ := List.forall_mem_cons.mp hseen
    rw [scoreHits]
    cases haccepts : accepts hit with
    | false =>
      simp only [haccepts, List.filter_cons_of_neg, Bool.false_eq_true, not_false_eq_true]
        at hvalues ⊢
      simpa using ih hdistinct.2 hseenRest hvalues
    | true =>
      rw [List.filter_cons_of_pos haccepts, List.forall_mem_cons] at hvalues
      obtain ⟨value, hvalue⟩ := Option.isSome_iff_exists.mp hvalues.1
      have hnext : ∀ later ∈ hits, later.subject ∉ hit.subject :: seen := by
        intro later hlater hmem
        rcases List.mem_cons.mp hmem with heq | hmem
        · exact hdistinct.1 (heq ▸ List.mem_map_of_mem hlater)
        · exact hseenRest later hlater hmem
      have hrest := ih hdistinct.2 hnext hvalues.2
      simp [haccepts, hseenHit, hvalue, hrest, Hit.scored]

end Score

/-! ## Merging -/

/-- `FederatedMergeMode`: the rows are appended, or combined by the merge of
the plan's aggregates, which is a parameter. -/
inductive MergeMode (E : Type) where
  | unionRows
  | aggregate (merge : Option (List (Row E)) → List (Row E) → Except SearchError (List (Row E)))

/-- `merge_execute_plan_result` on the rows of one shard. -/
def mergeExecutePlanResult (mode : MergeMode E) (acc : Option (List (Row E)))
    (rows : List (Row E)) : Except SearchError (List (Row E)) :=
  match mode with
  | .unionRows => .ok (acc.getD [] ++ rows)
  | .aggregate merge => merge acc rows

/-- The fold over the shards.  `fits` is the payload limit of a reply, checked
on each part and on what was merged so far. -/
def mergeShardRows (mode : MergeMode E) (fits : List (Row E) → Bool) :
    Option (List (Row E)) → List (List (Row E)) → Except SearchError (Option (List (Row E)))
  | acc, [] => .ok acc
  | acc, rows :: later =>
    if !fits rows then .error .payload
    else do
      let merged ← mergeExecutePlanResult mode acc rows
      if !fits merged then throw .payload
      mergeShardRows mode fits (some merged) later

variable {acc : Option (List (Row E))} {fits : List (Row E) → Bool} {parts : List (List (Row E))}

/-- Appending keeps the rows in the order of the shards. -/
theorem mergeShardRows_union (h : mergeShardRows .unionRows fits acc parts = .ok merged) :
    merged.getD [] = acc.getD [] ++ parts.flatten ∧ (parts ≠ [] → merged.isSome) := by
  induction parts generalizing acc with
  | nil =>
    cases h
    simp
  | cons rows later ih =>
    rw [mergeShardRows] at h
    split at h
    · cases h
    simp only [mergeExecutePlanResult, ok_bind] at h
    split at h
    · cases h
    obtain ⟨hrows, hsome⟩ := ih h
    refine ⟨by simp [hrows], fun _ => ?_⟩
    cases later with
    | nil =>
      rw [mergeShardRows] at h
      cases h
      rfl
    | cons next later => exact hsome (by simp)

/-- Rows that fit together fit at every step of the fold. -/
theorem mergeShardRows_of_fits
    (hfits : ∀ {rows rows'}, rows.Sublist rows' → fits rows' = true → fits rows = true)
    (hparts : parts ≠ []) (h : fits (acc.getD [] ++ parts.flatten) = true) :
    mergeShardRows .unionRows fits acc parts = .ok (some (acc.getD [] ++ parts.flatten)) := by
  induction parts generalizing acc with
  | nil => exact absurd rfl hparts
  | cons rows later ih =>
    rw [List.flatten_cons, ← List.append_assoc] at h ⊢
    have hmerged : fits (acc.getD [] ++ rows) = true := hfits (List.sublist_append_left _ _) h
    have hrows : fits rows = true := hfits (List.sublist_append_right _ _) hmerged
    rw [mergeShardRows]
    simp only [hrows, mergeExecutePlanResult, ok_bind, hmerged, Bool.not_true,
      Bool.false_eq_true, if_false]
    cases later with
    | nil => simp [mergeShardRows]
    | cons next later => exact ih (by simp) h

/-- What was merged fits. -/
theorem fits_mergeShardRows (hparts : parts ≠ [])
    (h : mergeShardRows .unionRows fits acc parts = .ok merged) : fits (merged.getD []) = true := by
  induction parts generalizing acc with
  | nil => exact absurd rfl hparts
  | cons rows later ih =>
    rw [mergeShardRows] at h
    split at h
    · cases h
    simp only [mergeExecutePlanResult, ok_bind] at h
    split at h
    · cases h
    next hmerged =>
    cases later with
    | nil =>
      rw [mergeShardRows] at h
      cases h
      simpa using hmerged
    | cons next later => exact ih (by simp) h

/-- `from_merged`, with the row count the merge keeps. -/
def fromMerged (rows : Option (List (Row E))) (receipt : Option (List ChainReceiptRecord)) :
    QueryResult E :=
  { rowCount := (rows.getD []).length, rows := rows, receipt := receipt }

/-- An error of a shard as the router reports it. -/
def liftQuery {α : Type} : Except QueryError α → Except SearchError α
  | .ok a => .ok a
  | .error e => .error (.query e)

@[simp] theorem liftQuery_eq_ok {α : Type} {m : Except QueryError α} {a : α} :
    liftQuery m = .ok a ↔ m = .ok a := by
  cases m <;> simp [liftQuery]

/-! ## Small searches -/

/-- A search for the nearest of `stored` vertices, in the order of their ids. -/
def requestFor (stored topK : Nat) (hpos : 0 < topK) (hle : topK ≤ maxVectorSearchTopK) :
    SearchRequest where
  index :=
    { ranked := (List.range stored).map fun i => ⟨⟨0, i⟩, 0⟩
      distinct := nodup_vertices stored }
  queryCheck := .ok ()
  topK := topK
  topK_pos := hpos
  topK_le := hle
  allowlist := none
  used := fun _ => 0

/-- The rows and the mark of a search, or of a dispatch. -/
def countOf (outcome : Option (Except SearchError (QueryResult Empty))) :
    Option (Nat × Option Bool) :=
  outcome.bind fun result => result.toOption.map fun result => (result.rowCount, result.truncated)

theorem exists_of_countOf_eq (h : countOf outcome = some (count, mark)) :
    ∃ result, outcome = some (.ok result) ∧ result.rowCount = count ∧ result.truncated = mark := by
  cases outcome with
  | none => cases h
  | some result =>
    cases result with
    | error e => cases h
    | ok result =>
      cases h
      exact ⟨result, rfl, rfl, rfl⟩

end Gleaph.Search
