import Gleaph.Prefix
import Gleaph.Search.Dispatch

/-!
# Gleaph.Search.Join

A vector search joined to an earlier pattern
(`crates/graph/src/plan/query/executor/search_chain.rs`, the non-leading
position of `crates/router/src/gql_search.rs`).

Every shard evaluates the authorization chain of the search binding on the
candidates it receives, drops those that fail and joins the rest; it reports
both counts.  The loop adds these counts over its rounds although a round
asks for the candidates of the earlier ones again, and it joins all survivors
of its last round.  So the relation it joins is that of the `topK` nearest
survivors only when the last round has found just as many.
-/

namespace Gleaph.Search

open DeepeningSearch List

variable {E : Type}

/-! ## The chain of a binding -/

def propertyFilterStagePolicyChain : Nat := usizeMax

structure SearchBindingChain (E : Type) where
  requiredLabels : List String := []
  chainPredicates : List (List (Expr E)) := []
  chainProbes : List (List (PlanOp E)) := []

def positiveLabelFact (binding : String) : Expr E → Option String
  | .isLabeled (.var name) (.name label) false => if name = binding then some label else none
  | _ => none

def exprReferencesOnly (binding : String) (e : Expr E) : Bool :=
  e.collectVariables.all (· == binding)

namespace SearchBindingChain

/-- One operator of `collect`. -/
def collectOp (binding : String) (chain : SearchBindingChain E) : PlanOp E → SearchBindingChain E
  | .nodeScan name (some label) _ =>
    if name = binding then { chain with requiredLabels := chain.requiredLabels ++ [label] }
    else chain
  | .expandFilter spec dstFilter =>
    if spec.dst = binding then
      { chain with requiredLabels :=
          chain.requiredLabels ++ dstFilter.filterMap (positiveLabelFact binding) }
    else chain
  | .propertyFilter predicates stage =>
    if stage = propertyFilterStagePolicyChain ∧ predicates.all (exprReferencesOnly binding) then
      { chain with chainPredicates := chain.chainPredicates ++ [predicates] }
    else chain
  | .semiApply source _ _ subPlan =>
    if source = binding then { chain with chainProbes := chain.chainProbes ++ [subPlan] }
    else chain
  | _ => chain

def collect (ops : List (PlanOp E)) (binding : String) : SearchBindingChain E :=
  ops.foldl (collectOp binding) {}

variable [ExtensionValue E] [BEq E]

/-- The probes of the chain, in order. -/
def probesMatch (ctx : ExecContext E) (row : Row E) :
    List (List (PlanOp E)) → Except QueryError Bool
  | [] => .ok true
  | probe :: probes => do
    if (← ctx.executeOpsFrom probe [row]).isEmpty then return false
    probesMatch ctx row probes

/-- A predicate that fails to evaluate rejects. -/
def candidateSurvives (chain : SearchBindingChain E) (ctx : ExecContext E) (binding : String)
    (vertex : Nat) : Except QueryError Bool :=
  match ctx.graph.vertex vertex with
  | none => .ok false
  | some v =>
    let row : Row E := (∅ : Row E).insert binding (.vertex vertex)
    if !chain.requiredLabels.all v.labels.contains then .ok false
    else if !chain.chainPredicates.all fun predicates =>
        passes (fun predicates => ctx.rowMatchesAll none row predicates) predicates then .ok false
    else probesMatch ctx row chain.chainProbes

end SearchBindingChain

/-! ## The plan on one shard -/

/-- `PlanOp::Search`. -/
def isSearch : PlanOp E → Bool
  | .search .. => true
  | _ => false

/-- A live shard: what execution reads there, and the rows the plan starts
from, `none` when the plan is not sent to it. -/
structure JoinShard (E : Type) where
  id : Nat
  ctx : ExecContext E
  initial : Option (List (Row E))

/-- A plan with a search relation, and the deployment it runs on. -/
structure JoinSearch (E : Type) where
  ops : List (PlanOp E)
  binding : String
  shards : List (JoinShard E)
  distinctShards : (shards.map (·.id)).Nodup
  userValue : UserValue
  mode : MergeMode E
  fits : List (Row E) → Bool
  /-- The row count of an answer given without dispatch. -/
  early : Option Nat

namespace JoinSearch

variable (j : JoinSearch E)

def liveShards : List Nat := j.shards.map (·.id)

/-- The chain of the operators in front of the search. -/
def chain : SearchBindingChain E :=
  .collect (j.ops.takeWhile (!isSearch ·)) j.binding

/-- `build_search_lookup`, on the checks a converted relation can fail. -/
def checkRelation (relation : List ScoredSubject) : Except QueryError Unit :=
  if maxVectorSearchTopK < relation.length then
    .error (.invalidExpressionValue "resolved SEARCH exceeds the maximum allowed hits")
  else if relation.any fun hit => !FloatFormat.f64.isFinite hit.value then
    .error (.invalidExpressionValue "resolved SEARCH value is non-finite")
  else if (relation.map (·.subject.vertex)).Nodup then .ok ()
  else .error (.invalidExpressionValue "resolved SEARCH contains duplicate vertex id")

/-- The lookup of the join. -/
def lookupOf (relation : List ScoredSubject) : List (Nat × BitVec 64) :=
  relation.map fun hit => (hit.subject.vertex, hit.value)

variable [ExtensionValue E] [BEq E]

/-- The verdict of the chain on a candidate. -/
def survivesOn (shard : JoinShard E) (vertex : Nat) : Except QueryError Bool :=
  j.chain.candidateSurvives shard.ctx j.binding vertex

/-- The plan on a shard.  The chain is evaluated when the search operator is
reached; that it comes first here only decides which error is reported. -/
def runShard (shard : JoinShard E) (initial : List (Row E)) (relation : List ScoredSubject) :
    Except SearchError (List (Row E) × ChainReceiptRecord) := liftQuery do
  checkRelation relation
  let survivors ← keep (fun hit => j.survivesOn shard hit.subject.vertex) relation
  let rows ← ({ shard.ctx with searchLookup := .ok (lookupOf survivors) } :
    ExecContext E).executeOpsFrom j.ops initial
  return (rows, ⟨shard.id, relation.length, survivors.length⟩)

/-- The shards the plan is sent to. -/
def dispatches : List (JoinShard E × List (Row E)) :=
  j.shards.filterMap fun shard => shard.initial.map (shard, ·)

/-- The answer to a converted relation. -/
def answer (scored : List ScoredSubject) : Except SearchError (QueryResult E) :=
  match j.early with
  | some rowCount => .ok { rowCount := rowCount, rows := none }
  | none => do
    let parts ← j.dispatches.mapM fun d => j.runShard d.1 d.2 (onShard d.1.id scored)
    let rows ← mergeShardRows j.mode j.fits none (parts.map (·.1))
    return fromMerged rows (some (parts.map (·.2)))

/-- `dispatch_plan_blob_with_search`. -/
def dispatch (hits : List Hit) : Except SearchError (QueryResult E) := do
  let scored ← buildResolvedSearchWires j.userValue j.liveShards hits
  if j.shards.isEmpty then .error .shardNotRegistered else j.answer scored

/-- The search of a plan that joins it. -/
def searchFor (request : SearchRequest) : DeepeningSearch E :=
  { request with position := .nonLeading, dispatch := j.dispatch }

/-! ## Survivors -/

/-- A subject on a live shard that passes the chain there. -/
def survives (hit : Hit) : Bool :=
  j.shards.any fun shard =>
    shard.id == hit.subject.shard && passes (j.survivesOn shard) hit.subject.vertex

/-- The `topK` nearest subjects that survive, all of them when fewer do. -/
def nearestSurvivors (request : SearchRequest) : List Hit :=
  (request.candidates.filter j.survives).take request.topK

/-- The relation a shard receives. -/
def relationOn (hits : List Hit) (shard : JoinShard E) : List ScoredSubject :=
  onShard shard.id ((hits.filter (·.subject.shard ∈ j.liveShards)).map (·.scored j.userValue))

/-- The verdict on an entry of the relation. -/
def passesOn (shard : JoinShard E) (entry : ScoredSubject) : Bool :=
  passes (j.survivesOn shard) entry.subject.vertex

/-- The answer of a shard that was sent only what survived. -/
def onlySurvivors (part : List (Row E) × ChainReceiptRecord) :
    List (Row E) × ChainReceiptRecord :=
  (part.1, { part.2 with dispatched := part.2.chainSurvivors })

section Survive

variable {j} {hits : List Hit} {result : QueryResult E}

/-- The relation of a shard after its chain is the relation of the survivors. -/
theorem filter_relationOn (hshard : shard ∈ j.shards) :
    (j.relationOn hits shard).filter (j.passesOn shard) =
      j.relationOn (hits.filter j.survives) shard := by
  simp only [relationOn, onShard, filter_map, filter_filter]
  congr 1
  refine filter_congr fun hit _ => ?_
  simp only [Function.comp_apply, Hit.scored, passesOn]
  by_cases hid : hit.subject.shard = shard.id
  · -- on its shard a subject survives when the chain says so
    have hsurvives : j.survives hit = passes (j.survivesOn shard) hit.subject.vertex := by
      have hinj := inj_on_of_nodup_map j.distinctShards
      rw [Bool.eq_iff_iff]
      simp only [survives, any_eq_true, Bool.and_eq_true, beq_iff_eq]
      constructor
      · rintro ⟨other, hother, hother', hpasses⟩
        rwa [← hinj hother hshard (hother'.trans hid)]
      · exact fun hpasses => ⟨shard, hshard, hid.symm, hpasses⟩
    rw [hsurvives]
    simp [hid, Bool.and_comm]
  · rw [beq_false_of_ne hid, Bool.false_and, Bool.and_false, Bool.false_and]

theorem runShard_eq_ok (h : j.runShard shard initial relation = .ok (rows, record)) :
    checkRelation relation = .ok () ∧
      (∀ entry ∈ relation, HasVerdict (fun entry : ScoredSubject =>
        j.survivesOn shard entry.subject.vertex) entry) ∧
      ({ shard.ctx with searchLookup := .ok (lookupOf (relation.filter (j.passesOn shard))) } :
        ExecContext E).executeOpsFrom j.ops initial = .ok rows ∧
      record = ⟨shard.id, relation.length, (relation.filter (j.passesOn shard)).length⟩ := by
  rw [runShard, liftQuery_eq_ok] at h
  obtain ⟨_, hcheck, h⟩ := bind_inv h
  obtain ⟨survivors, hkeep, h⟩ := bind_inv h
  obtain ⟨rows', hrows, h⟩ := bind_inv h
  obtain ⟨hverdicts, rfl⟩ := keep_eq_ok.mp hkeep
  cases h
  exact ⟨hcheck, hverdicts, hrows, rfl⟩

omit [ExtensionValue E] [BEq E] in
/-- The checks of a relation hold of its parts. -/
theorem checkRelation_filter (p : ScoredSubject → Bool) (h : checkRelation relation = .ok ()) :
    checkRelation (relation.filter p) = .ok () := by
  have hsub := filter_sublist (p := p) (l := relation)
  unfold checkRelation at h ⊢
  split_ifs at h with hlength hfinite hnodup
  have hlength' := hsub.length_le
  rw [if_neg (by omega), if_neg, if_pos (hnodup.sublist (hsub.map _))]
  simp only [any_eq_true, not_exists, not_and] at hfinite ⊢
  exact fun hit hhit => hfinite hit (hsub.subset hhit)

/-- A shard that is sent only the survivors answers alike. -/
theorem runShard_survivors (h : j.runShard shard initial relation = .ok part) :
    j.runShard shard initial (relation.filter (j.passesOn shard)) = .ok (onlySurvivors part) := by
  obtain ⟨rows, record⟩ := part
  obtain ⟨hcheck, hverdicts, hrows, rfl⟩ := runShard_eq_ok h
  have hkeep : keep (fun entry : ScoredSubject => j.survivesOn shard entry.subject.vertex)
      (relation.filter (j.passesOn shard)) = .ok (relation.filter (j.passesOn shard)) := by
    refine keep_eq_ok.mpr ⟨fun entry hentry => hverdicts entry (mem_of_mem_filter hentry), ?_⟩
    exact (filter_eq_self.mpr fun entry hentry => (mem_filter.mp hentry).2).symm
  rw [runShard, liftQuery_eq_ok, checkRelation_filter _ hcheck, ok_bind, hkeep, ok_bind, hrows]
  rfl

omit [ExtensionValue E] [BEq E] in
theorem mem_dispatches (h : d ∈ j.dispatches) : d.1 ∈ j.shards := by
  simp only [dispatches, mem_filterMap, Option.map_eq_some_iff] at h
  obtain ⟨shard, hshard, initial, -, rfl⟩ := h
  exact hshard

/-- What an answer is made of. -/
theorem answer_eq_ok (h : j.answer scored = .ok result) :
    (∃ rowCount, j.early = some rowCount ∧ result = { rowCount := rowCount, rows := none }) ∨
    j.early = none ∧ ∃ parts rows,
      (j.dispatches.mapM fun d => j.runShard d.1 d.2 (onShard d.1.id scored)) = .ok parts ∧
      mergeShardRows j.mode j.fits none (parts.map (·.1)) = .ok rows ∧
      result = fromMerged rows (some (parts.map (·.2))) := by
  unfold answer at h
  cases hearly : j.early with
  | some rowCount =>
    rw [hearly] at h
    cases h
    exact .inl ⟨rowCount, rfl, rfl⟩
  | none =>
    rw [hearly] at h
    obtain ⟨parts, hparts, h⟩ := bind_inv h
    obtain ⟨rows, hrows, h⟩ := bind_inv h
    cases h
    exact .inr ⟨rfl, parts, rows, hparts, hrows, rfl⟩

/-- What a dispatch that succeeds has done. -/
theorem dispatch_eq_ok (h : j.dispatch hits = .ok result) :
    (∀ hit ∈ hits.filter (·.subject.shard ∈ j.liveShards), (j.userValue hit.distance).isSome) ∧
    j.shards.isEmpty = false ∧
    j.answer ((hits.filter (·.subject.shard ∈ j.liveShards)).map (·.scored j.userValue)) =
      .ok result := by
  obtain ⟨scored, hscored, h⟩ := bind_inv h
  obtain ⟨rfl, hvalues⟩ := scoreHits_eq_ok hscored
  split_ifs at h with hshards
  exact ⟨hvalues, by simpa using hshards, h⟩

/-- Sending only the survivors gives the same rows. -/
theorem dispatch_survivors (hdistinct : (hits.map (·.subject)).Nodup)
    (h : j.dispatch hits = .ok result) :
    ∃ expected, j.dispatch (hits.filter j.survives) = .ok expected ∧
      expected.rows = result.rows ∧ expected.rowCount = result.rowCount := by
  obtain ⟨hvalues, hshards, h⟩ := dispatch_eq_ok h
  have hscored : buildResolvedSearchWires j.userValue j.liveShards (hits.filter j.survives) =
      .ok (((hits.filter j.survives).filter (·.subject.shard ∈ j.liveShards)).map
        (·.scored j.userValue)) := by
    refine scoreHits_of_distinct (hdistinct.sublist (filter_sublist.map _)) (by simp) ?_
    intro hit hhit
    refine hvalues hit ?_
    rw [filter_filter] at hhit
    simp only [mem_filter, Bool.and_eq_true] at hhit ⊢
    exact ⟨hhit.1, hhit.2.1⟩
  unfold dispatch
  rw [hscored, ok_bind, hshards, if_neg (by simp)]
  rcases answer_eq_ok h with ⟨rowCount, hearly, rfl⟩ | ⟨hearly, parts, rows, hparts, hrows, rfl⟩
  · exact ⟨_, by rw [answer, hearly], rfl, rfl⟩
  have hparts' : (j.dispatches.mapM fun d =>
      j.runShard d.1 d.2 (j.relationOn (hits.filter j.survives) d.1)) =
        .ok (parts.map onlySurvivors) := by
    refine mapM_of_mapM (fun d hd part hpart => ?_) hparts
    rw [← filter_relationOn (mem_dispatches hd)]
    exact runShard_survivors hpart
  have hrows' : (parts.map onlySurvivors).map (·.1) = parts.map (·.1) := by
    simp [onlySurvivors]
  simp only [relationOn] at hparts'
  refine ⟨fromMerged rows (some ((parts.map onlySurvivors).map (·.2))), ?_, rfl, rfl⟩
  simp only [answer, hearly]
  rw [hparts', ok_bind, hrows', hrows]
  rfl

end Survive

/-! ## The search -/

/-- The relation a round joins: the survivors among the candidates it asks for. -/
def joinedIn (request : SearchRequest) (r : Nat) : List Hit :=
  (request.candidates.take (request.requestSize r)).filter j.survives

/-- A result is that of the plan over the relation of a round. -/
def JoinsRound (request : SearchRequest) (r : Nat) (result : QueryResult E) : Prop :=
  ∃ given, j.dispatch (j.joinedIn request r) = .ok given ∧
    result.rows = given.rows ∧ result.rowCount = given.rowCount

variable {j} in
theorem joinsRound_of_last {request : SearchRequest}
    (hresult : j.dispatch (request.candidates.take (request.requestSize last)) = .ok result)
    (hstop : (j.searchFor request).conclude last cumulative hits result = .ok (.stop final)) :
    j.JoinsRound request last final := by
  have hdistinct : ((request.candidates.take (request.requestSize last)).map (·.subject)).Nodup :=
    request.nodup_subjects.sublist ((take_sublist _ _).map _)
  obtain ⟨given, hgiven, hrows, hcount⟩ := dispatch_survivors hdistinct hresult
  obtain ⟨hrows', hcount'⟩ := conclude_stop_rows rfl hstop
  exact ⟨given, hgiven, hrows'.trans hrows.symm, hcount'.trans hcount.symm⟩

/-- A search joins the `topK` nearest survivors, all of them when fewer exist, exactly if
the candidates of its last round hold as many survivors. -/
theorem joined_search_uses_nearest_survivors (j : JoinSearch E) (request : SearchRequest)
    {result : QueryResult E} (hrun : (j.searchFor request).run.result = some (.ok result)) :
    (∃ last, (j.searchFor request).Last last ∧ j.JoinsRound request last result ∧
      j.joinedIn request last = j.nearestSurvivors request) ↔
    ∀ last, (j.searchFor request).Last last →
      (request.candidates.take (request.requestSize last)).countP j.survives =
        min request.topK (request.candidates.countP j.survives) := by
  obtain ⟨last, found, hlast, hfound, hstop⟩ := last_of_run hrun
  constructor
  · rintro ⟨other, hother, -, hjoined⟩ r hr
    rw [hr.unique hother]
    exact Prefix.filter_take_eq_iff.mp hjoined
  · intro hcount
    exact ⟨last, hlast, joinsRound_of_last hfound hstop,
      Prefix.filter_take_eq_iff.mpr (hcount last hlast)⟩

/-- `v` joined on one shard whose vertices `0, 1, …` have the values of `x`; the
policy lets through those with `x` true. -/
def ofValues (values : List Bool) : JoinSearch Empty where
  ops := [.nodeScan "v" none none,
    .propertyFilter [.propertyOf "v" "x"] propertyFilterStagePolicyChain,
    .search "v" ⟨["i"], .var "q", .var "k", none⟩ "score",
    .project [⟨.var "score", some "score"⟩] false]
  binding := "v"
  shards := [⟨0, .plain (Graph.ofValues (values.map .bool)), some [∅]⟩]
  distinctShards := by simp
  userValue := fun _ => some 0
  mode := .unionRows
  fits := fun _ => true
  early := none

/-- The nearer of two vertices is lost, so the second round asks for both. -/
theorem joined_search_uses_nearest_survivors_second :
    ∃ result, ((ofValues [false, true]).searchFor
        (requestFor 2 1 (by decide) (by decide))).run.result = some (.ok result) ∧
      ∃ last, (ofValues [false, true]).JoinsRound (requestFor 2 1 (by decide) (by decide)) last
          result ∧
        (ofValues [false, true]).joinedIn (requestFor 2 1 (by decide) (by decide)) last =
          (ofValues [false, true]).nearestSurvivors (requestFor 2 1 (by decide) (by decide)) := by
  have hcount : countOf ((ofValues [false, true]).searchFor
      (requestFor 2 1 (by decide) (by decide))).run.result = some (1, some false) := by
    decide +kernel
  have hlast : ((ofValues [false, true]).searchFor
      (requestFor 2 1 (by decide) (by decide))).Last 1 := by
    have hfirst : ((ofValues [false, true]).searchFor
        (requestFor 2 1 (by decide) (by decide))).Deepens 0 :=
      ⟨rfl, by decide, by decide, _, rfl, rfl, by decide +kernel, by decide +kernel⟩
    have hfound : (((ofValues [false, true]).searchFor
        (requestFor 2 1 (by decide) (by decide))).totalsBefore 2).chainSurvivors = 1 := by
      decide +kernel
    refine ⟨fun i hi => Nat.lt_one_iff.mp hi ▸ hfirst, fun ⟨_, _, _, _, _, hshort⟩ => ?_⟩
    exact absurd (hfound ▸ hshort.2.1) (by decide)
  obtain ⟨result, hrun, -⟩ := exists_of_countOf_eq hcount
  obtain ⟨last, -, hjoins, hnearest⟩ := (joined_search_uses_nearest_survivors _ _ hrun).mpr
    fun last h => by
      obtain rfl := h.unique hlast
      decide +kernel
  exact ⟨result, hrun, last, hjoins, hnearest⟩

/-- Of five vertices the first and the last survive.  Two are asked for, then
four; the first one is counted twice and the search stops with it alone. -/
theorem joined_search_counts_survivor_twice :
    countOf ((ofValues [true, false, false, false, true]).searchFor
        (requestFor 5 2 (by decide) (by decide))).run.result = some (1, some false) ∧
      countOf (some ((ofValues [true, false, false, false, true]).dispatch
        ((ofValues [true, false, false, false, true]).nearestSurvivors
          (requestFor 5 2 (by decide) (by decide))))) = some (2, none) := by
  decide +kernel

end JoinSearch

end Gleaph.Search
