import Gleaph.Search.Join

/-!
# Gleaph.Search.Leading

A vector search that leads the query (the leading position of
`crates/router/src/gql_search.rs`, `seed_initial_rows` of
`crates/graph/src/gql_run.rs`).

The hits become the rows the rest of the plan, its tail, starts from.  The
loop counts the rows the tail returns and keeps the first `topK` of them, in
the order of the shards.  These are the rows of the `topK` nearest authorized
subjects when the last round has found just as many of them and nothing is cut
(`Uncut`), or when the tail takes its seeds one by one and the rows of those
subjects come first (`ComeFirst`).
-/

namespace Gleaph.Search

open List

variable {E : Type}

/-! ## Seeds on a shard -/

def isRouterSeedSkippableOp : PlanOp E → Bool
  | .nodeScan _ label _ => label.isSome
  | .indexScan .. | .indexIntersection .. | .edgeIndexScan .. => true
  | _ => false

def skipLeadingIndexAnchorOps (ops : List (PlanOp E)) : List (PlanOp E) :=
  ops.dropWhile isRouterSeedSkippableOp

/-- A live shard and what execution reads there. -/
structure SeedShard (E : Type) where
  id : Nat
  ctx : ExecContext E

/-- A leading search: the tail behind it, and the deployment it runs on.  The
shards are listed by id, and less rows never need a larger reply. -/
structure LeadingSearch (E : Type) where
  tail : List (PlanOp E)
  binding : String
  outputAlias : String
  requiredLabels : List String
  shards : List (SeedShard E)
  ascending : (shards.map (·.id)).Pairwise (· < ·)
  userValue : UserValue
  mode : MergeMode E
  fits : List (Row E) → Bool
  fits_sublist : ∀ {rows rows'}, rows.Sublist rows' → fits rows' = true → fits rows = true

namespace LeadingSearch

variable (l : LeadingSearch E)

/-- The row of a seed, `none` for a vertex that is gone or lacks a label. -/
def seedRow (shard : SeedShard E) (seed : ScoredSubject) : Option (Row E) :=
  match shard.ctx.graph.vertex seed.subject.vertex with
  | none => none
  | some vertex =>
    if l.requiredLabels.all vertex.labels.contains then
      some (((∅ : Row E).insert l.binding (.vertex seed.subject.vertex)).insert l.outputAlias
        (.value (.float .f64 seed.value)))
    else none

def seedInitialRows (shard : SeedShard E) (seeds : List ScoredSubject) : List (Row E) :=
  seeds.filterMap (l.seedRow shard)

variable [ExtensionValue E] [BEq E]

/-- The tail on a shard. -/
def runShard (shard : SeedShard E) (seeds : List ScoredSubject) : Except SearchError (List (Row E)) :=
  liftQuery (shard.ctx.executeOpsFrom (skipLeadingIndexAnchorOps l.tail)
    (l.seedInitialRows shard seeds))

/-- The shards that own a seed. -/
def owners (scored : List ScoredSubject) : List (SeedShard E) :=
  l.shards.filter fun shard => !(onShard shard.id scored).isEmpty

/-- The shards the tail is sent to: without any seed all of them run it. -/
def targets (scored : List ScoredSubject) : List (SeedShard E) :=
  if (l.owners scored).isEmpty then l.shards else l.owners scored

/-- `dispatch_search_read_plan` on converted hits. -/
def answer (scored : List ScoredSubject) : Except SearchError (QueryResult E) := do
  let parts ← (l.targets scored).mapM fun shard => l.runShard shard (onShard shard.id scored)
  let rows ← mergeShardRows l.mode l.fits none parts
  return fromMerged rows none

/-- `strip_search_prefix`, then a round of the leading position. -/
def dispatch (hits : List Hit) : Except SearchError (QueryResult E) := do
  if l.tail.isEmpty then .error .noTail
  else
    let scored ← buildSearchSeeds l.userValue hits
    if l.shards.isEmpty then .error .shardNotRegistered else l.answer scored

/-- The leading search of a plan. -/
def searchFor (request : SearchRequest) : DeepeningSearch E :=
  { request with position := .leading, dispatch := l.dispatch }

/-! ## Authorized subjects -/

/-- The policies lowered into the tail that concern the searched vertex. -/
def policies : SearchBindingChain E := .collect l.tail l.binding

/-- A subject on a live shard with the required labels that passes the
policies. -/
def authorized (hit : Hit) : Bool :=
  l.shards.any fun shard =>
    shard.id == hit.subject.shard && (l.seedRow shard (hit.scored l.userValue)).isSome &&
      passes (l.policies.candidateSurvives shard.ctx l.binding) hit.subject.vertex

/-- The `topK` nearest authorized subjects, all of them when fewer exist. -/
def nearestAuthorized (request : SearchRequest) : List Hit :=
  (request.candidates.filter l.authorized).take request.topK

/-- The policies are lowered into the tail: subjects that are not authorized change
nothing in the answer to a round. -/
def Lowered (request : SearchRequest) : Prop :=
  ∀ n result, l.dispatch (request.candidates.take n) = .ok result →
    ∃ given, l.dispatch ((request.candidates.take n).filter l.authorized) = .ok given ∧
      given.rows = result.rows ∧ given.rowCount = result.rowCount

/-- The tail takes its seeds one by one, and the router appends what it returns. -/
structure SeedWise (request : SearchRequest) (rowsOf : Hit → List (Row E)) : Prop where
  runs : ∀ shard ∈ l.shards, ∀ hits : List Hit, hits.Sublist request.candidates →
    (∀ hit ∈ hits, hit.subject.shard = shard.id) →
      l.runShard shard (hits.map (·.scored l.userValue)) = .ok (hits.flatMap rowsOf)
  appends : l.mode = .unionRows

/-! ## The rows of a round -/

section Rows

variable {l} {request : SearchRequest} {rowsOf : Hit → List (Row E)} {hits : List Hit}
  {result : QueryResult E}

omit [ExtensionValue E] [BEq E] in
theorem onShard_scored (shard : Nat) :
    onShard shard (hits.map (·.scored l.userValue)) =
      (hits.filter (·.subject.shard == shard)).map (·.scored l.userValue) := by
  simp only [onShard, filter_map]
  rfl

omit [ExtensionValue E] [BEq E] in
theorem targets_ne_nil (hshards : l.shards.isEmpty = false) (scored : List ScoredSubject) :
    l.targets scored ≠ [] := by
  unfold targets
  split
  · exact isEmpty_eq_false_iff.mp hshards
  next howners => exact fun hnil => howners (by simp [hnil])

omit [ExtensionValue E] [BEq E] in
theorem mem_targets (h : shard ∈ l.targets scored) : shard ∈ l.shards := by
  unfold targets owners at h
  split at h
  · exact h
  · exact mem_of_mem_filter h

/-- The hits on live shards, in the order of the shards. -/
def byShard (l : LeadingSearch E) (hits : List Hit) : List Hit :=
  l.shards.flatMap fun shard => hits.filter (·.subject.shard == shard.id)

omit [ExtensionValue E] [BEq E] in
theorem byShard_subset (l : LeadingSearch E) (hits : List Hit) : l.byShard hits ⊆ hits := by
  intro hit hhit
  obtain ⟨_, -, hhit⟩ := mem_flatMap.mp hhit
  exact mem_of_mem_filter hhit

/-- The parts of a round. -/
def parts (l : LeadingSearch E) (rowsOf : Hit → List (Row E)) (hits : List Hit) :
    List (List (Row E)) :=
  (l.targets (hits.map (·.scored l.userValue))).map fun shard =>
    (hits.filter (·.subject.shard == shard.id)).flatMap rowsOf

omit [ExtensionValue E] [BEq E] in
theorem parts_ne_nil (hshards : l.shards.isEmpty = false) : l.parts rowsOf hits ≠ [] := by
  simpa [parts] using targets_ne_nil hshards _

omit [ExtensionValue E] [BEq E] in
/-- Shards without seeds have nothing to add. -/
theorem flatten_parts : (l.parts rowsOf hits).flatten = (l.byShard hits).flatMap rowsOf := by
  have hnone : ∀ shards : List (SeedShard E),
      ((shards.filter fun shard => !(onShard shard.id (hits.map (·.scored l.userValue))).isEmpty).map
        fun shard => (hits.filter (·.subject.shard == shard.id)).flatMap rowsOf).flatten =
      shards.flatMap fun shard => (hits.filter (·.subject.shard == shard.id)).flatMap rowsOf := by
    intro shards
    induction shards with
    | nil => rfl
    | cons shard shards ih =>
      rw [filter_cons, flatMap_cons, ← ih, onShard_scored]
      cases hempty : hits.filter (·.subject.shard == shard.id) with
      | nil => simp
      | cons hit rest => simp [hempty]
  rw [parts, byShard, flatMap_assoc, targets]
  split
  · rw [flatMap_def]
  · exact hnone l.shards

/-- What a dispatch that succeeds has done. -/
theorem dispatch_eq_ok (h : l.dispatch hits = .ok result) :
    l.tail.isEmpty = false ∧ l.shards.isEmpty = false ∧
    (∀ hit ∈ hits, (l.userValue hit.distance).isSome) ∧
    l.answer (hits.map (·.scored l.userValue)) = .ok result := by
  unfold dispatch at h
  split at h
  · cases h
  next htail =>
  obtain ⟨scored, hscored, h⟩ := bind_inv h
  obtain ⟨rfl, hvalues⟩ := scoreHits_eq_ok hscored
  split at h
  · cases h
  next hshards =>
  rw [filter_true] at h hvalues
  exact ⟨by simpa using htail, by simpa using hshards, hvalues, h⟩

theorem dispatch_of_answer (htail : l.tail.isEmpty = false) (hshards : l.shards.isEmpty = false)
    (hdistinct : (hits.map (·.subject)).Nodup)
    (hvalues : ∀ hit ∈ hits, (l.userValue hit.distance).isSome) :
    l.dispatch hits = l.answer (hits.map (·.scored l.userValue)) := by
  have hscored : buildSearchSeeds l.userValue hits = .ok (hits.map (·.scored l.userValue)) := by
    have h : scoreHits l.userValue (fun _ => true) [] hits =
        .ok ((hits.filter fun _ => true).map (·.scored l.userValue)) :=
      scoreHits_of_distinct hdistinct (by simp) fun hit hhit =>
        hvalues hit (mem_of_mem_filter hhit)
    rwa [filter_true] at h
  simp [dispatch, htail, hshards, hscored]

section SeedWise

variable (hseeds : l.SeedWise request rowsOf) (hsub : hits.Sublist request.candidates)

include hseeds hsub

/-- What a round returns is decided by the merge of its rows. -/
theorem answer_eq : l.answer (hits.map (·.scored l.userValue)) = (do
    let rows ← mergeShardRows .unionRows l.fits none (l.parts rowsOf hits)
    return fromMerged rows none) := by
  rw [answer, mapM_eq_ok (g := fun shard =>
    (hits.filter (·.subject.shard == shard.id)).flatMap rowsOf) fun shard hshard => ?_, ok_bind,
    hseeds.appends]
  · rfl
  rw [onShard_scored]
  refine hseeds.runs shard (mem_targets hshard) _ (filter_sublist.trans hsub) fun hit hhit => ?_
  simpa using (mem_filter.mp hhit).2

/-- A round that succeeds returns the rows of its hits, shard by shard. -/
theorem rows_of_dispatch (h : l.dispatch hits = .ok result) :
    result = fromMerged (some ((l.byShard hits).flatMap rowsOf)) none ∧
      l.fits ((l.byShard hits).flatMap rowsOf) = true := by
  obtain ⟨-, hshards, -, h⟩ := dispatch_eq_ok h
  rw [answer_eq hseeds hsub] at h
  obtain ⟨merged, hmerged, h⟩ := bind_inv h
  cases h
  have hfits := fits_mergeShardRows (parts_ne_nil hshards) hmerged
  obtain ⟨hrows, hsome⟩ := mergeShardRows_union hmerged
  obtain ⟨rows, rfl⟩ := Option.isSome_iff_exists.mp (hsome (parts_ne_nil hshards))
  simp only [Option.getD_some, Option.getD_none, nil_append, flatten_parts] at hrows hfits
  subst hrows
  exact ⟨rfl, hfits⟩

/-- A round over hits whose rows fit succeeds. -/
theorem dispatch_of_fits (htail : l.tail.isEmpty = false) (hshards : l.shards.isEmpty = false)
    (hvalues : ∀ hit ∈ hits, (l.userValue hit.distance).isSome)
    (hfits : l.fits ((l.byShard hits).flatMap rowsOf) = true) :
    l.dispatch hits = .ok (fromMerged (some ((l.byShard hits).flatMap rowsOf)) none) := by
  have hdistinct : (hits.map (·.subject)).Nodup :=
    request.nodup_subjects.sublist (hsub.map _)
  have hall : l.fits ((none : Option (List (Row E))).getD [] ++ (l.parts rowsOf hits).flatten) =
      true := by
    simpa [flatten_parts] using hfits
  rw [dispatch_of_answer htail hshards hdistinct hvalues, answer_eq hseeds hsub,
    mergeShardRows_of_fits l.fits_sublist (parts_ne_nil hshards) hall]
  simp [flatten_parts]

end SeedWise

end Rows

/-! ## The nearest authorized subjects -/

/-- A result is that of the tail over the `topK` nearest authorized subjects. -/
def AnswersNearest (request : SearchRequest) (result : QueryResult E) : Prop :=
  ∃ expected, l.dispatch (l.nearestAuthorized request) = .ok expected ∧
    result.rows = expected.rows ∧ result.rowCount = expected.rowCount

/-- The subjects with rows among the nearest authorized ones come first in a round, and
have as many rows as were asked for. -/
def ComeFirst (request : SearchRequest) (rowsOf : Hit → List (Row E)) (r : Nat) : Prop :=
  (l.byShard (l.nearestAuthorized request)).filter (fun hit => !(rowsOf hit).isEmpty) <+:
      (l.byShard (request.candidates.take (request.requestSize r))).filter
        (fun hit => !(rowsOf hit).isEmpty) ∧
    ((l.byShard (l.nearestAuthorized request)).flatMap rowsOf).length = request.topK

section Nearest

variable {l} {request : SearchRequest} {rowsOf : Hit → List (Row E)} {found : QueryResult E}

omit [ExtensionValue E] [BEq E] in
theorem capResultRows_fromMerged (cap : Nat) (rows : List (Row E)) :
    capResultRows cap (fromMerged (some rows) none) = fromMerged (some (rows.take cap)) none := by
  unfold capResultRows fromMerged
  dsimp only
  split_ifs with hle
  · rw [take_of_length_le hle]
  · rfl

theorem rowCount_of_dispatch (h : l.dispatch hits = .ok result) :
    result.rowCount = (result.rows.getD []).length := by
  obtain ⟨-, -, -, h⟩ := dispatch_eq_ok h
  obtain ⟨parts, -, h⟩ := bind_inv h
  obtain ⟨rows, -, h⟩ := bind_inv h
  cases h
  rfl

/-- A search that found just the nearest authorized subjects answers with their rows,
unless it has cut them. -/
theorem answersNearest_iff_uncut (hlowered : l.Lowered request)
    (hfound : l.dispatch (request.candidates.take (request.requestSize last)) = .ok found)
    (hall : (request.candidates.take (request.requestSize last)).countP l.authorized =
      min request.topK (request.candidates.countP l.authorized)) :
    l.AnswersNearest request ((capResultRows request.topK found).withTruncated false) ↔
      ∀ given, l.dispatch (l.nearestAuthorized request) = .ok given →
        given.rowCount ≤ request.topK := by
  obtain ⟨given, hgiven, hrows, hcount⟩ := hlowered _ _ hfound
  rw [Prefix.filter_take_eq_iff.mpr hall] at hgiven
  have hlength := rowCount_of_dispatch hfound
  unfold AnswersNearest nearestAuthorized
  simp only [hgiven, Except.ok.injEq, exists_eq_left', forall_eq', hrows, hcount]
  unfold capResultRows QueryResult.withTruncated
  cases hfoundRows : found.rows with
  | none => simp [hlength, hfoundRows]
  | some rows =>
    simp only [hfoundRows, Option.getD_some] at hlength
    rw [hlength]
    dsimp only
    split_ifs with hle
    · simp [hle, hlength, hfoundRows]
    · refine iff_of_false (fun h => hle ?_) hle
      have htake := congrArg List.length (Option.some.inj h.1)
      rw [length_take] at htake
      omega

variable (hseeds : l.SeedWise request rowsOf)

include hseeds

/-- The rows of a search whose tail takes its seeds one by one. -/
theorem answersNearest_iff_take
    (hvalues : ∀ hit ∈ l.nearestAuthorized request, (l.userValue hit.distance).isSome)
    (hfound : l.dispatch (request.candidates.take (request.requestSize last)) = .ok found)
    (henough : request.topK ≤ found.rowCount) :
    (l.AnswersNearest request ((capResultRows request.topK found).withTruncated false) ↔
      ((l.byShard (request.candidates.take (request.requestSize last))).flatMap rowsOf).take
        request.topK = (l.byShard (l.nearestAuthorized request)).flatMap rowsOf) ∧
    request.topK ≤
      ((l.byShard (request.candidates.take (request.requestSize last))).flatMap rowsOf).length := by
  obtain ⟨htail, hshards, -, -⟩ := dispatch_eq_ok hfound
  obtain ⟨rfl, hfits⟩ := rows_of_dispatch hseeds (take_sublist _ _) hfound
  have hnearest : (l.nearestAuthorized request).Sublist request.candidates :=
    (take_sublist _ _).trans filter_sublist
  generalize (l.byShard (request.candidates.take _)).flatMap rowsOf = rows at *
  refine ⟨?_, henough⟩
  rw [capResultRows_fromMerged]
  constructor
  · rintro ⟨expected, hexpected, hrows, -⟩
    obtain ⟨rfl, -⟩ := rows_of_dispatch hseeds hnearest hexpected
    exact Option.some.inj hrows
  · intro hrows
    have hfits' := l.fits_sublist (take_sublist request.topK rows) hfits
    rw [hrows] at hfits' ⊢
    exact ⟨_, dispatch_of_fits hseeds hnearest htail hshards hvalues hfits', rfl, rfl⟩

end Nearest

/-- The rows of different candidates differ. -/
def RowsTell (request : SearchRequest) (rowsOf : Hit → List (Row E)) : Prop :=
  ∀ a ∈ request.candidates, ∀ b ∈ request.candidates, ∀ row ∈ rowsOf a, row ∈ rowsOf b → a = b

/-- A search behind which vertices are filtered by their property `x`, at a
stage of the plan, and projected to the score. -/
def ofFilter (values : List Bool) (stage : Nat) : LeadingSearch Empty where
  tail := [.propertyFilter [.propertyOf "v" "x"] stage, .project [⟨.var "score", some "score"⟩] false]
  binding := "v"
  outputAlias := "score"
  requiredLabels := []
  shards := [⟨0, .plain (Graph.ofValues (values.map .bool))⟩]
  ascending := by simp
  userValue := fun _ => some 0
  mode := .unionRows
  fits := fun _ => true
  fits_sublist := fun _ h => h

/-- The tail takes the two vertices one by one, and the policy lets the first through. -/
theorem seedWise_policy :
    (ofFilter [true, false] propertyFilterStagePolicyChain).SeedWise
      (requestFor 2 1 (by decide) (by decide)) fun hit =>
        if hit.subject.vertex = 0 then [Row.fork ∅ [("score", .value (.float .f64 0))]]
        else [] where
  runs := by
    rintro shard hshard hits hsub -
    obtain rfl := mem_singleton.mp hshard
    have hmem : hits ∈ [[], [⟨⟨0, 1⟩, 0⟩], [⟨⟨0, 0⟩, 0⟩], [⟨⟨0, 0⟩, 0⟩, ⟨⟨0, 1⟩, 0⟩]] :=
      mem_sublists'.mpr hsub
    simp only [mem_cons, not_mem_nil, or_false] at hmem
    rcases hmem with rfl | rfl | rfl | rfl <;> rfl
  appends := rfl

end LeadingSearch

end Gleaph.Search
