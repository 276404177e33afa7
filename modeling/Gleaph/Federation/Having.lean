import Gleaph.Plan.Op

/-!
# Gleaph.Federation.Having

`HAVING` over several shards (`crates/router/src/federation/aggregate_merge.rs`,
`having_filter.rs`).

Shards return partial aggregates, so a filter behind an aggregate must wait for
the merge.  The router takes such filters out of the plans it sends
(`federatedDispatchPlanBlob`), merges the shards' rows and filters the merged
rows by the condition in the merge spec (`finishMerge`).

* `stripOps` takes out every filter directly behind an aggregate, in every plan.
* The spec has one condition, of the first aggregate of one plan.
* Of a block's plans a shard returns the rows of the last read plan
  (`lastReadRows`, `crates/graph/src/gql_run.rs`).

Removed and re-applied conditions agree when there is no condition in the spec,
so that the plans are sent as they are, or when all filters behind an aggregate
have it and stand in the plan whose rows the shards return.
-/

namespace Gleaph.Federation

variable {E : Type}

/-- `PhysicalPlan`, as far as the router reads it. -/
structure PhysicalPlan (E : Type) where
  ops : List (PlanOp E)

/-! ## The merge spec -/

structure AggregateMergeColumn where
  name : String
  func : AggregateFunc
  deriving DecidableEq, Repr

structure FederatedAggregateMerge (E : Type) where
  groupKeyColumns : List String
  aggregateColumns : List AggregateMergeColumn
  /-- The condition of the filter behind the aggregate. -/
  having : Option (Expr E)

inductive FederatedMergeMode (E : Type) where
  | unionRows
  | aggregate (spec : FederatedAggregateMerge E)

def aggregatesAreMergeable (aggregates : List (AggregateSpec E)) : Bool :=
  aggregates.all fun spec =>
    !spec.distinct && spec.filter.isNone && spec.orderBy.isEmpty && spec.expr2.isNone &&
      match spec.func with
      | .countStar | .count | .sum | .min | .max => true
      | _ => false

/-- The operators behind an aggregate: at most one filter, then the projection. -/
def aggregateSinkAfterAggregate (having : Option (Expr E)) :
    List (PlanOp E) → Option (List (ProjectColumn E) × Option (Expr E))
  | .filter condition :: ops =>
    if having.isNone then aggregateSinkAfterAggregate (some condition) ops else none
  | .project columns _ :: _ => some (columns, having)
  | _ => none

def projectColumnName (column : ProjectColumn E) : Option String :=
  column.aliasName <|> column.expr.asVar

/-- The loop of `build_aggregate_merge_spec` over the projected columns. -/
def splitColumns (grouped : Bool) :
    List (ProjectColumn E) → Option (List String × List AggregateMergeColumn)
  | [] => some ([], [])
  | column :: columns => do
    let name ← projectColumnName column
    let (keys, aggregates) ← splitColumns grouped columns
    match column.expr with
    | .aggregate func .. => some (keys, ⟨name, func⟩ :: aggregates)
    | _ => some (if grouped then name :: keys else keys, aggregates)

def buildAggregateMergeSpec (groupBy : List (Expr E)) (columns : List (ProjectColumn E))
    (having : Option (Expr E)) : Option (FederatedAggregateMerge E) := do
  let (keys, aggregates) ← splitColumns (!groupBy.isEmpty) columns
  if aggregates.isEmpty then none else some ⟨keys, aggregates, having⟩

/-- The first aggregate decides. -/
def federatedMergeModeFromOps : List (PlanOp E) → Option (FederatedMergeMode E)
  | [] => none
  | .aggregate groupBy aggregates :: ops =>
    if !aggregatesAreMergeable aggregates then none
    else do
      let (columns, having) ← aggregateSinkAfterAggregate none ops
      let spec ← buildAggregateMergeSpec groupBy columns having
      return .aggregate spec
  | _ :: ops => federatedMergeModeFromOps ops

/-- The last plan with a mergeable aggregate decides. -/
def federatedMergeModeFromPlans (plans : List (PhysicalPlan E)) : FederatedMergeMode E :=
  (plans.reverse.findSome? fun plan => federatedMergeModeFromOps plan.ops).getD .unionRows

/-! ## Dispatch -/

/-- The loop of `strip_post_aggregate_having`: the operators left, and whether
one was taken out. -/
def stripOps : List (PlanOp E) → List (PlanOp E) × Bool
  | [] => ([], false)
  | .aggregate groupBy aggregates :: .filter _ :: ops =>
    (.aggregate groupBy aggregates :: (stripOps ops).1, true)
  | op :: ops => (op :: (stripOps ops).1, (stripOps ops).2)

def stripPostAggregateHaving (plan : PhysicalPlan E) : PhysicalPlan E :=
  if (stripOps plan.ops).2 then { plan with ops := (stripOps plan.ops).1 } else plan

/-- `federated_dispatch_plan_blob`; the encoding of plans is a parameter. -/
def federatedDispatchPlanBlob {Blob : Type}
    (encodeBlockPlans : List (PhysicalPlan E) → Bool → Except String Blob)
    (shardCount : Nat) (planBlob : Blob) (plans : List (PhysicalPlan E))
    (requiresWritePath : Bool) : Except String Blob :=
  if shardCount ≤ 1 then .ok planBlob
  else
    match federatedMergeModeFromPlans plans with
    | .unionRows => .ok planBlob
    | .aggregate spec =>
      if spec.having.isNone then .ok planBlob
      else encodeBlockPlans (plans.map stripPostAggregateHaving) requiresWritePath

/-! ## What a shard returns -/

mutual

/-- `is_dml` of an operator or of one in its sub-plans. -/
def containsDml (op : PlanOp E) : Bool :=
  op.isDml ||
    match op with
    | .hashJoin left right _ | .cartesianProduct left right =>
      opsContainDml left || opsContainDml right
    | .setOperation _ right => opsContainDml right
    | .optionalMatch subPlan | .semiApply _ _ _ subPlan | .inlineProcedureCall subPlan _ _ _ =>
      opsContainDml subPlan
    | .useGraph _ (some subPlan) => opsContainDml subPlan
    | _ => false

def opsContainDml : List (PlanOp E) → Bool
  | [] => false
  | op :: ops => containsDml op || opsContainDml ops

end

def isGleaphFinalizeProcedure (name : List String) : Bool :=
  name == ["GLEAPH", "FINALIZE_BULK_INGEST"] || name == ["GLEAPH", "FINALIZE_FORWARD_EDGE_SPAN"] ||
    name == ["GLEAPH", "DRAIN_DEFERRED_MAINTENANCE"]

def isGleaphFinalizeCall : PlanOp E → Bool
  | .callProcedure name .. => isGleaphFinalizeProcedure name
  | _ => false

def planNeedsMutationExecutor (plan : PhysicalPlan E) : Bool :=
  opsContainDml plan.ops || plan.ops.any isGleaphFinalizeCall

/-- `last_read_plan_rows` after the plans from index `i` on.  `outcome` has the
rows each plan produced; those of a mutation replace the rows so far only when
there are some. -/
def lastReadRows {R : Type} (outcome : Nat → List R) :
    Nat → List (PhysicalPlan E) → List R → List R
  | _, [], rows => rows
  | i, plan :: plans, rows =>
    lastReadRows outcome (i + 1) plans
      (if planNeedsMutationExecutor plan && (outcome i).isEmpty then rows else outcome i)

/-! ## Evaluating a condition on a merged row -/

/-- A message, or a panic of the comparison.  A message that quotes a value or
an expression in debug form stops before the quote. -/
inductive HavingError where
  | failed (message : String)
  | panicked (message : String)
  deriving DecidableEq, Repr

/-- Value-level arithmetic, the query parameters and the merged columns. -/
structure HavingEnv (E : Type) where
  crates : Crates
  asF64 : Value E → Option (BitVec 64)
  f64Add : BitVec 64 → BitVec 64 → BitVec 64
  f64Sub : BitVec 64 → BitVec 64 → BitVec 64
  /-- `out as i64` where `out.fract() == 0.0`. -/
  integral : BitVec 64 → Option (BitVec 64)
  params : String → Option (Value E)

/-- A row of the merged result, by column name. -/
abbrev ValueRow (E : Type) := List (String × Value E)

def resolveAggregateColumn (row : ValueRow E) (func : AggregateFunc)
    (spec : FederatedAggregateMerge E) : Except HavingError (Value E) :=
  match spec.aggregateColumns.find? fun column => column.func == func with
  | none => .error (.failed "no merged column for aggregate func ")
  | some column =>
    match row.lookup column.name with
    | none => .error (.failed ("missing merged aggregate column `" ++ column.name ++ "`"))
    | some value => .ok value

def havingTruthy : Value E → Except HavingError (Option Bool)
  | .bool value => .ok (some value)
  | .null => .ok none
  | _ => .error (.failed "expected boolean HAVING result, got ")

def havingNot : Value E → Except HavingError (Value E)
  | .bool value => .ok (.bool !value)
  | .null => .ok .null
  | _ => .error (.failed "expected boolean for NOT, got ")

/-- `eval_and` and `eval_or`. -/
def havingLogic (table : Option Bool → Option Bool → Option Bool) (left right : Value E) :
    Except HavingError (Value E) := do
  let l ← havingTruthy left
  let r ← havingTruthy right
  return ofTruth (table l r)

def havingNumericBinary (env : HavingEnv E) (op : BitVec 64 → BitVec 64 → BitVec 64)
    (left right : Value E) : Except HavingError (Value E) :=
  if left.isNull || right.isNull then .ok .null
  else
    match env.asF64 left, env.asF64 right with
    | some l, some r =>
      match env.integral (op l r) with
      | some n => .ok (.int .w64 n)
      | none => .ok (.float .f64 (op l r))
    | _, _ => .error (.failed "expected numeric HAVING operand, got ")

def unsupportedHaving : HavingError := .failed "unsupported HAVING expression: "

/-- An operator applied to its evaluated operands. -/
def applyHavingOp (env : HavingEnv E) : StrictOp → List (Value E) → Except HavingError (Value E)
  | .and, [left, right] => havingLogic andTruth left right
  | .or, [left, right] => havingLogic orTruth left right
  | .not, [value] => havingNot value
  | .isNull, [value] => .ok (.bool value.isNull)
  | .isNotNull, [value] => .ok (.bool !value.isNull)
  | .primitive .add, [left, right] => havingNumericBinary env env.f64Add left right
  | .primitive .sub, [left, right] => havingNumericBinary env env.f64Sub left right
  | _, _ => .error unsupportedHaving

/-- The operators with a case in `eval_having_expr`. -/
def isHavingOp : StrictOp → Bool
  | .and | .or | .not | .isNull | .isNotNull | .primitive .add | .primitive .sub => true
  | _ => false

variable [ExtensionValue E]

def havingCompare (env : HavingEnv E) (left : Value E) (op : CmpOp) (right : Value E) :
    Except HavingError (Value E) :=
  if left.isNull || right.isNull then .ok .null
  else
    match compareValues env.crates left right with
    | .error message => .error (.panicked message)
    | .ok none => .error (.failed "incomparable HAVING values: ")
    | .ok (some ordering) => .ok (.bool (op.matched ordering))

mutual

def evalHavingExpr (env : HavingEnv E) (row : ValueRow E) (spec : FederatedAggregateMerge E) :
    Expr E → Except HavingError (Value E)
  | .paren inner => evalHavingExpr env row spec inner
  | .literal value => .ok value
  | .parameter name =>
    match env.params name with
    | none => .error (.failed ("missing query parameter `" ++ name ++ "`"))
    | some value => .ok value
  | .var name =>
    match row.lookup name with
    | none => .error (.failed ("missing HAVING column `" ++ name ++ "`"))
    | some value => .ok value
  | .aggregate func .. => resolveAggregateColumn row func spec
  | .compare left op right => do
    let l ← evalHavingExpr env row spec left
    let r ← evalHavingExpr env row spec right
    havingCompare env l op r
  | .strict op args =>
    if isHavingOp op then do
      let values ← evalHavingArgs env row spec args
      applyHavingOp env op values
    else .error unsupportedHaving
  | _ => .error unsupportedHaving

def evalHavingArgs (env : HavingEnv E) (row : ValueRow E) (spec : FederatedAggregateMerge E) :
    List (Expr E) → Except HavingError (List (Value E))
  | [] => .ok []
  | arg :: args => do
    let value ← evalHavingExpr env row spec arg
    let values ← evalHavingArgs env row spec args
    return value :: values

end

def rowPassesHaving (env : HavingEnv E) (condition : Expr E) (spec : FederatedAggregateMerge E)
    (row : ValueRow E) : Except HavingError Bool := do
  let value ← evalHavingExpr env row spec condition
  let truth ← havingTruthy value
  return truth == some true

/-! ## The merged rows -/

/-- `ExecutePlanResult`, without the fields the filter leaves alone. -/
structure MergedResult (Blob : Type) where
  rowCount : Nat
  rowsBlob : Option Blob

/-- The encoding of result rows. -/
structure RowBlobs (Blob E : Type) where
  decode : Blob → Except String (List (ValueRow E))
  encode : List (ValueRow E) → Except String Blob

/-- The rows that pass, up to the first that fails to evaluate. -/
def keepPassing (passes : ValueRow E → Except HavingError Bool) :
    List (ValueRow E) → Except HavingError (List (ValueRow E))
  | [] => .ok []
  | row :: rows => do
    let pass ← passes row
    let filtered ← keepPassing passes rows
    return if pass then row :: filtered else filtered

def applyFederatedAggregateHaving {Blob : Type} (env : HavingEnv E) (blobs : RowBlobs Blob E)
    (spec : FederatedAggregateMerge E) (result : MergedResult Blob) :
    Except HavingError (MergedResult Blob) :=
  match spec.having, result.rowsBlob with
  | none, _ => .ok result
  | some _, none => .ok { result with rowCount := 0 }
  | some condition, some blob => do
    let rows ← (blobs.decode blob).mapError .failed
    let filtered ← keepPassing (rowPassesHaving env condition spec) rows
    if filtered.isEmpty then return ⟨filtered.length, none⟩
    else
      let encoded ← (blobs.encode filtered).mapError .failed
      return ⟨filtered.length, some encoded⟩

/-- What the router does with the merged result of a block. -/
def finishMerge {Blob : Type} (env : HavingEnv E) (blobs : RowBlobs Blob E)
    (mode : FederatedMergeMode E) (result : MergedResult Blob) :
    Except HavingError (MergedResult Blob) :=
  match mode with
  | .unionRows => .ok result
  | .aggregate spec => applyFederatedAggregateHaving env blobs spec result

/-! ## Removed conditions -/

section Removal

omit [ExtensionValue E]

/-- The second list is the first without filters of the third list's
conditions. -/
inductive Removes : List (PlanOp E) → List (PlanOp E) → List (Expr E) → Prop
  | nil : Removes [] [] []
  | keep (op : PlanOp E) {ops left : List (PlanOp E)} {removed : List (Expr E)}
      (rest : Removes ops left removed) : Removes (op :: ops) (op :: left) removed
  | drop (condition : Expr E) {ops left : List (PlanOp E)} {removed : List (Expr E)}
      (rest : Removes ops left removed) :
      Removes (.filter condition :: ops) left (condition :: removed)

/-- The conditions of the filters directly behind an aggregate. -/
def havings : List (PlanOp E) → List (Expr E)
  | [] => []
  | .aggregate _ _ :: .filter condition :: ops => condition :: havings ops
  | _ :: ops => havings ops

theorem removes_stripOps (ops : List (PlanOp E)) : Removes ops (stripOps ops).1 (havings ops) := by
  fun_induction stripOps ops with
  | case1 => exact .nil
  | case2 groupBy aggregates condition ops ih => exact .keep _ (.drop _ ih)
  | case3 op ops hnot ih =>
    have heq : havings (op :: ops) = havings ops := by
      rw [havings]
      exact hnot
    rw [heq]
    exact .keep op ih

theorem stripOps_of_not_stripped (h : (stripOps ops).2 = false) : (stripOps ops).1 = ops := by
  fun_induction stripOps ops with
  | case1 => rfl
  | case2 => cases h
  | case3 op ops hnot ih => exact congrArg _ (ih h)

theorem stripPostAggregateHaving_ops (plan : PhysicalPlan E) :
    (stripPostAggregateHaving plan).ops = (stripOps plan.ops).1 := by
  unfold stripPostAggregateHaving
  split
  · rfl
  next h => exact (stripOps_of_not_stripped (by simpa using h)).symm

theorem Removes.refl (ops : List (PlanOp E)) : Removes ops ops [] := by
  induction ops with
  | nil => exact .nil
  | cons op _ ih => exact .keep op ih

/-- What was taken out and what is left make up the operators. -/
theorem Removes.perm (h : Removes ops left removed) :
    ops.Perm (removed.map PlanOp.filter ++ left) := by
  induction h with
  | nil => exact .refl _
  | keep op _ ih => exact (ih.cons op).trans List.perm_middle.symm
  | drop condition _ ih => exact ih.cons _

/-- The conditions that were taken out are determined by what is left. -/
theorem Removes.mem_iff (h : Removes ops left removed) (h' : Removes ops left removed') :
    condition ∈ removed ↔ condition ∈ removed' := by
  have hperm : (removed.map PlanOp.filter).Perm (removed'.map PlanOp.filter) :=
    (List.perm_append_right_iff left).mp (h.perm.symm.trans h'.perm)
  have hmem := hperm.mem_iff (a := .filter condition)
  simpa using hmem

/-- Taking out filters does not change which executor a plan needs. -/
theorem planNeedsMutationExecutor_of_removes {plan left : PhysicalPlan E}
    (h : Removes plan.ops left.ops removed) :
    planNeedsMutationExecutor left = planNeedsMutationExecutor plan := by
  have hparts : ∀ {ops kept : List (PlanOp E)} {removed : List (Expr E)}, Removes ops kept removed →
      opsContainDml kept = opsContainDml ops ∧
        kept.any isGleaphFinalizeCall = ops.any isGleaphFinalizeCall := by
    intro ops kept removed h
    induction h with
    | nil => exact ⟨rfl, rfl⟩
    | keep op _ ih => simp [opsContainDml, ih]
    | drop condition _ ih =>
      simp [opsContainDml, containsDml, PlanOp.isDml, isGleaphFinalizeCall, ih]
  rw [planNeedsMutationExecutor, planNeedsMutationExecutor, (hparts h).1, (hparts h).2]

/-- The last plan gives the rows of the block, unless it is a mutation without rows. -/
theorem lastReadRows_concat {R : Type} (outcome : Nat → List R) (plans : List (PhysicalPlan E))
    (plan : PhysicalPlan E) (start : Nat) (rows : List R) :
    lastReadRows outcome start (plans ++ [plan]) rows =
      if planNeedsMutationExecutor plan && (outcome (start + plans.length)).isEmpty then
        lastReadRows outcome start plans rows
      else outcome (start + plans.length) := by
  induction plans generalizing start rows with
  | nil => simp [lastReadRows]
  | cons first plans ih =>
    rw [List.cons_append, lastReadRows, ih, lastReadRows, List.length_cons,
      show start + 1 + plans.length = start + (plans.length + 1) by omega]

/-- The rows of a block are those of a plan, whatever the plans return, exactly if it is the
last one, and reads or is the only one. -/
theorem lastReadRows_eq_iff {plans : List (PhysicalPlan E)} (hplan : plans[i]? = some plan) :
    (∀ {R : Type} (outcome : Nat → List R), lastReadRows outcome 0 plans [] = outcome i) ↔
      i + 1 = plans.length ∧ (planNeedsMutationExecutor plan = false ∨ i = 0) := by
  obtain ⟨init, last, rfl⟩ : ∃ init last, plans = init ++ [last] :=
    List.eq_nil_or_concat' plans |>.resolve_left (by rintro rfl; simp at hplan)
  constructor
  · intro h
    -- Where every plan returns its number, the block returns the number of the last one.
    have hlast : i = init.length := by
      have hrows := h (R := Nat) fun j => [j]
      rw [lastReadRows_concat] at hrows
      simpa [eq_comm] using hrows
    subst hlast
    obtain rfl : last = plan := by simpa using hplan
    refine ⟨by simp, ?_⟩
    by_contra hnot
    rw [not_or, Bool.not_eq_false] at hnot
    obtain ⟨before, prior, rfl⟩ : ∃ before prior, init = before ++ [prior] :=
      List.eq_nil_or_concat' init |>.resolve_left (by rintro rfl; exact hnot.2 rfl)
    -- A mutation without rows leaves those of the plan before it.
    have hrows := h (R := Unit) fun j => if j = before.length then [()] else []
    rw [lastReadRows_concat, lastReadRows_concat] at hrows
    simp [hnot.1] at hrows
  · rintro ⟨hlen, hreads⟩ R outcome
    obtain rfl : i = init.length := by simpa using hlen
    obtain rfl : last = plan := by simpa using hplan
    rw [lastReadRows_concat, Nat.zero_add]
    split
    next hskip =>
      rw [Bool.and_eq_true, List.isEmpty_iff] at hskip
      obtain hreads | hzero := hreads
      · rw [hreads] at hskip
        cases hskip.1
      · rw [hskip.2, List.eq_nil_of_length_eq_zero hzero, lastReadRows]
    · rfl

/-- The condition of the merge spec. -/
def specHaving (plans : List (PhysicalPlan E)) : Option (Expr E) :=
  match federatedMergeModeFromPlans plans with
  | .unionRows => none
  | .aggregate spec => spec.having

/-- The plans a dispatched blob stands for: where the original blob is sent, the plans
themselves. -/
def sentPlans (shardCount : Nat) (plans : List (PhysicalPlan E)) : List (PhysicalPlan E) :=
  if shardCount ≤ 1 ∨ specHaving plans = none then plans
  else plans.map stripPostAggregateHaving

theorem length_sentPlans (shardCount : Nat) (plans : List (PhysicalPlan E)) :
    (sentPlans shardCount plans).length = plans.length := by
  unfold sentPlans
  split_ifs
  · rfl
  · exact List.length_map _

theorem federatedDispatchPlanBlob_sends {Blob : Type}
    (encodeBlockPlans : List (PhysicalPlan E) → Bool → Except String Blob) (shardCount : Nat)
    (planBlob : Blob) (plans : List (PhysicalPlan E)) (requiresWritePath : Bool) :
    federatedDispatchPlanBlob encodeBlockPlans shardCount planBlob plans requiresWritePath =
          .ok planBlob ∧ sentPlans shardCount plans = plans ∨
      federatedDispatchPlanBlob encodeBlockPlans shardCount planBlob plans requiresWritePath =
        encodeBlockPlans (sentPlans shardCount plans) requiresWritePath := by
  unfold federatedDispatchPlanBlob sentPlans specHaving
  split_ifs with hone hsame hsame
  · exact .inl ⟨rfl, rfl⟩
  · exact absurd (.inl hone) hsame
  · refine .inl ?_
    cases hmode : federatedMergeModeFromPlans plans with
    | unionRows => exact ⟨rfl, rfl⟩
    | aggregate spec =>
      have hnone : spec.having = none := by simpa [hone, hmode] using hsame
      simp [hnone]
  · refine .inr ?_
    cases hmode : federatedMergeModeFromPlans plans with
    | unionRows => simp [hmode] at hsame
    | aggregate spec =>
      have hsome : spec.having.isSome := by
        simpa [hone, hmode, Option.isSome_iff_ne_none] using hsame
      simp [Option.isSome_iff_ne_none.mp hsome]

/-- The conditions that the shards do not get. -/
theorem removes_sentPlans (shardCount : Nat) {plans : List (PhysicalPlan E)} {i : Nat}
    (hplan : plans[i]? = some plan) :
    ∃ left, (sentPlans shardCount plans)[i]? = some left ∧
      planNeedsMutationExecutor left = planNeedsMutationExecutor plan ∧
      Removes plan.ops left.ops
        (if shardCount ≤ 1 ∨ specHaving plans = none then [] else havings plan.ops) := by
  unfold sentPlans
  split_ifs
  · exact ⟨plan, hplan, rfl, .refl plan.ops⟩
  · have hremoves : Removes plan.ops (stripPostAggregateHaving plan).ops (havings plan.ops) := by
      rw [stripPostAggregateHaving_ops]
      exact removes_stripOps plan.ops
    exact ⟨_, by rw [List.getElem?_map, hplan, Option.map_some],
      planNeedsMutationExecutor_of_removes hremoves, hremoves⟩

end Removal

/-! ## Re-applied conditions -/

/-- The rows for which a condition evaluates to true. -/
def passing (env : HavingEnv E) (condition : Expr E) (spec : FederatedAggregateMerge E)
    (rows : List (ValueRow E)) : List (ValueRow E) :=
  rows.filter fun row =>
    match rowPassesHaving env condition spec row with
    | .ok pass => pass
    | .error _ => false

theorem keepPassing_eq_passing {env : HavingEnv E}
    (h : keepPassing (rowPassesHaving env condition spec) rows = .ok kept) :
    kept = passing env condition spec rows := by
  induction rows generalizing kept with
  | nil => exact (Except.ok.inj h).symm
  | cons row rows ih =>
    obtain ⟨pass, hpass, h⟩ := bind_inv h
    obtain ⟨filtered, hfiltered, h⟩ := bind_inv h
    rw [pure_eq_ok] at h
    cases h
    rw [ih hfiltered]
    unfold passing
    rw [List.filter_cons, hpass]

/-- The router filters merged rows by a condition: a finished result has the
rows that pass, and counts them. -/
def FiltersBy (mode : FederatedMergeMode E) (condition : Expr E) : Prop :=
  ∃ spec, mode = .aggregate spec ∧
    ∀ {Blob : Type} (env : HavingEnv E) (blobs : RowBlobs Blob E) (result out : MergedResult Blob)
      (blob : Blob) (rows : List (ValueRow E)), result.rowsBlob = some blob →
      blobs.decode blob = .ok rows → finishMerge env blobs mode result = .ok out →
        out.rowCount = (passing env condition spec rows).length ∧
          out.rowsBlob = if (passing env condition spec rows).isEmpty then none
            else (blobs.encode (passing env condition spec rows)).toOption

theorem filtersBy_of_having {spec : FederatedAggregateMerge E} {condition : Expr E}
    (hhaving : spec.having = some condition) : FiltersBy (.aggregate spec) condition := by
  refine ⟨spec, rfl, fun env blobs result out blob rows hblob hrows hfinish => ?_⟩
  rw [finishMerge, applyFederatedAggregateHaving, hhaving, hblob] at hfinish
  dsimp only at hfinish
  rw [hrows, show (Except.ok rows).mapError HavingError.failed = .ok rows from rfl, ok_bind]
    at hfinish
  obtain ⟨filtered, hfiltered, hfinish⟩ := bind_inv hfinish
  obtain rfl := keepPassing_eq_passing hfiltered
  by_cases hempty : (passing env condition spec rows).isEmpty
  · rw [if_pos hempty, pure_eq_ok] at hfinish
    cases hfinish
    exact ⟨rfl, by rw [if_pos hempty]⟩
  rw [if_neg hempty] at hfinish
  obtain ⟨encoded, hencoded, hfinish⟩ := bind_inv hfinish
  rw [pure_eq_ok] at hfinish
  cases hfinish
  refine ⟨rfl, ?_⟩
  rw [if_neg hempty]
  cases hencode : blobs.encode (passing env condition spec rows) with
  | error message => simp [hencode, Except.mapError] at hencoded
  | ok bytes =>
    obtain rfl : bytes = encoded := by simpa [hencode, Except.mapError] using hencoded
    rfl

/-- The router filters by the condition, and what it filters are the rows of plan `i`. -/
def ReappliedTo (plans sent : List (PhysicalPlan E)) (i : Nat) (condition : Expr E) : Prop :=
  specHaving plans = some condition ∧
    ∀ {R : Type} (outcome : Nat → List R), lastReadRows outcome 0 sent [] = outcome i

/-- Filters directly behind an aggregate have the condition of the spec, and stand in the
plan whose rows the shards return. -/
def HavingsOfSpec (plans : List (PhysicalPlan E)) (having : Expr E) : Prop :=
  ∀ (i : Nat) (plan : PhysicalPlan E), plans[i]? = some plan → ∀ condition ∈ havings plan.ops,
    condition = having ∧ i + 1 = plans.length ∧ (planNeedsMutationExecutor plan = false ∨ i = 0)

/-- A blob is sent for the plans, or for the plans without the filters behind aggregates.
Every condition that these lack is re-applied to the rows of its plan exactly if there is
one shard, or no condition in the spec, or all are that condition, in the plan whose rows
are returned; and a condition of the spec filters the merged rows. -/
theorem federatedDispatchPlanBlob_reapplies {Blob : Type}
    (encodeBlockPlans : List (PhysicalPlan E) → Bool → Except String Blob) (shardCount : Nat)
    (planBlob : Blob) (plans : List (PhysicalPlan E)) (requiresWritePath : Bool) :
    (federatedDispatchPlanBlob encodeBlockPlans shardCount planBlob plans requiresWritePath =
          .ok planBlob ∧ sentPlans shardCount plans = plans ∨
      federatedDispatchPlanBlob encodeBlockPlans shardCount planBlob plans requiresWritePath =
        encodeBlockPlans (sentPlans shardCount plans) requiresWritePath) ∧
    ((∀ (i : Nat) (plan : PhysicalPlan E), plans[i]? = some plan →
        ∃ (left : PhysicalPlan E) (removed : List (Expr E)),
          (sentPlans shardCount plans)[i]? = some left ∧ Removes plan.ops left.ops removed ∧
          ∀ condition ∈ removed, ReappliedTo plans (sentPlans shardCount plans) i condition) ↔
      shardCount ≤ 1 ∨ ∀ having ∈ specHaving plans, HavingsOfSpec plans having) ∧
    ∀ condition, specHaving plans = some condition →
      FiltersBy (federatedMergeModeFromPlans plans) condition := by
  refine ⟨federatedDispatchPlanBlob_sends .., ⟨fun h => ?_, fun h i plan hplan => ?_⟩,
    fun condition hhaving => ?_⟩
  · refine or_iff_not_imp_left.mpr fun hone having hhaving i plan hplan condition hmem => ?_
    obtain ⟨left, hleft, hneeds, hremoves⟩ := removes_sentPlans shardCount hplan
    rw [if_neg (by rw [hhaving]; simp [hone])] at hremoves
    obtain ⟨_, removed, hsent, hremoved, hall⟩ := h i plan hplan
    obtain rfl := Option.some.inj (hleft.symm.trans hsent)
    obtain ⟨hspec, hrows⟩ := hall condition ((hremoved.mem_iff hremoves).mpr hmem)
    obtain ⟨hlast, hreads⟩ := (lastReadRows_eq_iff hleft).mp hrows
    rw [hneeds] at hreads
    rw [length_sentPlans] at hlast
    exact ⟨Option.some.inj (hspec.symm.trans hhaving), hlast, hreads⟩
  · obtain ⟨left, hleft, hneeds, hremoves⟩ := removes_sentPlans shardCount hplan
    refine ⟨left, _, hleft, hremoves, fun condition hmem => ?_⟩
    split_ifs at hmem with hsame
    · cases hmem
    rw [not_or] at hsame
    obtain ⟨having, hhaving⟩ := Option.ne_none_iff_exists'.mp hsame.2
    obtain ⟨rfl, hlast, hreads⟩ := h.resolve_left hsame.1 having hhaving i plan hplan condition hmem
    refine ⟨hhaving, (lastReadRows_eq_iff hleft).mpr ⟨?_, ?_⟩⟩
    · rw [hlast, length_sentPlans]
    · rwa [hneeds]
  · unfold specHaving at hhaving
    cases hmode : federatedMergeModeFromPlans plans with
    | unionRows => simp [hmode] at hhaving
    | aggregate spec => exact filtersBy_of_having (by simpa [hmode] using hhaving)

/-! ## Two filters behind aggregates -/

/-- `COUNT(*) > n` -/
def countAbove (n : BitVec 64) : Expr Empty :=
  .compare (.aggregate .countStar none none none false []) .gt (.literal (.int .w64 n))

/-- A count by country, with the operators between aggregate and projection. -/
def countByCountry (having : List (PlanOp Empty)) : List (PlanOp Empty) :=
  [.aggregate [.var "country"] [⟨.countStar, none, none, false, none, [], none⟩]] ++ having ++
    [.project [⟨.var "country", none⟩, ⟨.aggregate .countStar none none none false [], some "cnt"⟩]
      false]

theorem federatedDispatchPlanBlob_drops_second :
    -- Two aggregates in one plan: the spec has the first condition only.
    federatedDispatchPlanBlob (fun plans _ => .ok plans) 2 []
          [⟨countByCountry [.filter (countAbove 1)] ++ countByCountry [.filter (countAbove 2)]⟩]
          false = .ok [⟨countByCountry [] ++ countByCountry []⟩] ∧
      federatedMergeModeFromPlans
          [⟨countByCountry [.filter (countAbove 1)] ++ countByCountry [.filter (countAbove 2)]⟩] =
        .aggregate ⟨["country"], [⟨"cnt", .countStar⟩], some (countAbove 1)⟩ ∧
    -- Two plans: the spec has the second condition only.
    federatedDispatchPlanBlob (fun plans _ => .ok plans) 2 []
          [⟨countByCountry [.filter (countAbove 1)]⟩, ⟨countByCountry [.filter (countAbove 2)]⟩]
          false = .ok [⟨countByCountry []⟩, ⟨countByCountry []⟩] ∧
      federatedMergeModeFromPlans
          [⟨countByCountry [.filter (countAbove 1)]⟩, ⟨countByCountry [.filter (countAbove 2)]⟩] =
        .aggregate ⟨["country"], [⟨"cnt", .countStar⟩], some (countAbove 2)⟩ ∧
    countAbove 1 ≠ countAbove 2 := by
  refine ⟨rfl, rfl, rfl, rfl, fun h => ?_⟩
  simp only [countAbove, Expr.compare.injEq, Expr.literal.injEq] at h
  have hbits : (1 : BitVec 64) = 2 := eq_of_heq (Value.int.inj h.2.2).2
  exact absurd hbits (by decide)

end Gleaph.Federation
