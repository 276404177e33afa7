import Gleaph.Pipeline
import Gleaph.Plan.Expand

/-!
# Gleaph.Plan.Exec

Execution of a plan over rows (`crates/graph/src/plan/query/executor/ops.rs`,
`executor.rs`, `scan/streaming.rs`).

Operators run one after the other, each over all rows of the one before.  The
exception is the limited streaming prefix: a run of row-by-row operators that
ends in a `Limit` with a count is executed row first and stops as soon as the
limit is reached, so an error behind that point is never raised.

Bindings on other shards and the resolution of names in the catalog are left
out.
-/

namespace Gleaph

variable {E : Type}

/-! ## What operators read and bind -/

/-- A bare `INSERTION`, in any case. -/
def isInsertionCall (name : List String) (distinct : Bool) : Bool :=
  !distinct && name.map String.toLower == ["insertion"]

def sequenceArgEdgeVar : Expr E → Option String
  | .paren inner => sequenceArgEdgeVar inner
  | .var name => some name
  | _ => none

/-- The edge of a lone `INSERTION(e)` key, and whether
the order is descending. -/
def insertionOrderSort : List (SortItem (Expr E)) → Option (String × Bool)
  | [⟨.functionCall name [arg] distinct, direction, none⟩] =>
    if isInsertionCall name distinct then
      (sequenceArgEdgeVar arg).map (·, direction == some .desc)
    else none
  | _ => none

namespace PlanOp

mutual

/-- `op_binds_edge_variable`. -/
def bindsEdgeVariable (edgeVar : String) : PlanOp E → Bool
  | expand spec | expandFilter spec _ => spec.emitEdgeBinding && spec.edge == edgeVar
  | shortestPath spec => spec.emitEdgeBinding && spec.edge == edgeVar
  | edgeIndexScan name _ _ _ _ => name == edgeVar
  | worstCaseOptimalJoin _ edges => edges.any (·.edge == edgeVar)
  | optionalMatch subPlan | inlineProcedureCall subPlan _ _ _ => bindEdgeVariable edgeVar subPlan
  | useGraph _ subPlan => bindEdgeVariableOption edgeVar subPlan
  | hashJoin left right _ | cartesianProduct left right =>
    bindEdgeVariable edgeVar left || bindEdgeVariable edgeVar right
  | setOperation _ right => bindEdgeVariable edgeVar right
  | _ => false

/-- `ops_bind_edge_variable`. -/
def bindEdgeVariable (edgeVar : String) : List (PlanOp E) → Bool
  | [] => false
  | op :: ops => op.bindsEdgeVariable edgeVar || bindEdgeVariable edgeVar ops

def bindEdgeVariableOption (edgeVar : String) : Option (List (PlanOp E)) → Bool
  | none => false
  | some ops => bindEdgeVariable edgeVar ops

end

mutual

/-- `variables_read_by_op`. -/
def variablesRead : PlanOp E → List String
  | propertyFilter predicates _ => Expr.collectVariablesList predicates
  | filter condition => condition.collectVariables
  | letBindings bindings => bindings.flatMap (·.2.collectVariables)
  | project columns _ | materialize columns _ => columns.flatMap (·.expr.collectVariables)
  | sort orderBy => orderBy.flatMap (·.expr.collectVariables)
  | limit count offset => (count.toList ++ offset.toList).flatMap Expr.collectVariables
  | topK orderBy k offset =>
    orderBy.flatMap (·.expr.collectVariables) ++ (k :: offset.toList).flatMap Expr.collectVariables
  | expand spec => [spec.src]
  | expandFilter spec dstFilter => spec.src :: Expr.collectVariablesList dstFilter
  | shortestPath spec => [spec.src, spec.dst]
  | hashJoin _ _ joinKeys => joinKeys
  | aggregate groupBy aggregates => Expr.collectVariablesList groupBy ++
      aggregates.flatMap fun a =>
        (a.expr.toList ++ a.expr2.toList ++ a.filter.toList).flatMap Expr.collectVariables
  | optionalMatch subPlan | inlineProcedureCall subPlan _ _ _ => variablesReadList subPlan
  | semiApply source _ _ subPlan => source :: variablesReadList subPlan
  | setOperation _ right => variablesReadList right
  | forEach _ list _ _ => list.collectVariables
  | search binding provider _ => binding ::
      (provider.query :: provider.limit :: provider.filter.toList).flatMap Expr.collectVariables
  | callProcedure _ args _ _ => Expr.collectVariablesList args
  | setProperties items => items.flatMap fun
      | .property name _ value | .allProperties name value => name :: value.collectVariables
      | .label name _ => [name]
  | removeProperties items => items.map fun
      | .property name _ | .label name _ => name
  | deleteVertex name | detachDeleteVertex name | deleteEdge name => [name]
  | edgeBindEndpoints spec => [spec.edge]
  | worstCaseOptimalJoin _ edges =>
    edges.flatMap fun e => [e.src, e.edge] ++ e.hopAuxBinding.toList
  | nodeScan .. | indexScan .. | edgeIndexScan .. | conditionalIndexScan .. | indexIntersection ..
  | textScan .. | insertVertex .. | insertEdge .. | useGraph .. | cartesianProduct .. => []

/-- `variables_read_by_ops`. -/
def variablesReadList : List (PlanOp E) → List String
  | [] => []
  | op :: ops => op.variablesRead ++ variablesReadList ops

end

/-- `streaming_prefix_op_supported`. -/
def streamable : PlanOp E → Bool
  | nodeScan .. | propertyFilter .. | letBindings _ | filter _ | expand _ | expandFilter .. => true
  | project _ distinct => !distinct
  | _ => false

/-- `limited_streaming_prefix_limit_idx`: whether a streaming prefix starts here. -/
def startsStreaming : List (PlanOp E) → Bool
  | [] => false
  | limit count _ :: _ => count.isSome
  | op :: ops => op.streamable && startsStreaming ops

theorem startsStreaming_cons (h : op.streamable = true) :
    startsStreaming (op :: ops) = startsStreaming ops := by
  cases op <;> simp_all [startsStreaming, streamable]

theorem startsStreaming_limit (h : ∀ op ∈ ops, op.streamable = true) (count : Expr E)
    (offset : Option (Expr E)) (later : List (PlanOp E)) :
    startsStreaming (ops ++ limit (some count) offset :: later) = true := by
  induction ops with
  | nil => rfl
  | cons op ops ih =>
    obtain ⟨hop, hops⟩ := List.forall_mem_cons.mp h
    rw [List.cons_append, startsStreaming_cons hop, ih hops]

/-- `op_preserves_leading_row_order`. -/
def preservesLeadingRowOrder : PlanOp E → Bool
  | propertyFilter .. | filter _ | letBindings _ => true
  | project _ distinct => !distinct
  | _ => false

end PlanOp

/-- `shortest_path_may_emit_path_only_rows`. -/
def ShortestPathSpec.pathOnlyRows (spec : ShortestPathSpec E) (later : List (PlanOp E)) : Bool :=
  let needed := PlanOp.variablesReadList later
  spec.emitPathBinding && !spec.emitEdgeBinding && spec.pathVar.any needed.contains &&
    !([spec.src, spec.dst, spec.edge].any needed.contains)

/-! ## Index-ordered delivery -/

/-- The variable under a chain of accesses and the
properties of the chain, joined by dots. -/
def extractPropertyAccess : Expr E → List String → Option (String × String)
  | .propertyAccess e property, segments => extractPropertyAccess e (property :: segments)
  | .var name, segments => some (name, ".".intercalate segments)
  | _, _ => none

/-- `ascending_single_property_key`: the variable and property of a lone
ascending key. -/
def ascendingPropertyKey : List (SortItem (Expr E)) → Option (String × String)
  | [item] => if item.direction = some .desc then none else extractPropertyAccess item.expr []
  | _ => none

def scanBoundIsOrdered (cmp : CmpOp) (value : ScanValue E) : Bool :=
  match cmp, value with
  | .eq, _ => true
  | .ne, _ => false
  | _, .literal _ | _, .parameter _ => true
  | _, _ => false

/-- The property the operators deliver
their rows in order of. -/
def indexOrderedDeliveryCandidate (ops : List (PlanOp E)) (orderBy : List (SortItem (Expr E))) :
    Option String :=
  match ascendingPropertyKey orderBy, ops with
  | some (name, property), .indexScan scanned scannedProperty value cmp _ _ :: rest =>
    if scanned = name ∧ scannedProperty = property ∧ scanBoundIsOrdered cmp value ∧
        rest.all PlanOp.preservesLeadingRowOrder then some property
    else none
  | _, _ => none

/-- The planner recorded the intent as well. -/
def indexOrderedDeliveryActive (ops : List (PlanOp E)) (orderBy : List (SortItem (Expr E))) :
    Bool :=
  match indexOrderedDeliveryCandidate ops orderBy, ops with
  | some property, .indexScan _ _ _ _ _ orderedBySort :: _ => orderedBySort == some property
  | _, _ => false

/-! ## Sorting and limits -/

/-- `usize::MAX` on the canister's 32-bit target. -/
def usizeMax : Nat := 2 ^ 32 - 1

def limitValue : Value E → Except QueryError Nat
  | .int .w8 v | .int .w16 v | .int .w32 v => if 0 ≤ v.toInt then .ok v.toNat else .error .invalidLimit
  | .int .w64 v => if 0 ≤ v.toInt ∧ v.toNat ≤ usizeMax then .ok v.toNat else .error .invalidLimit
  | .uint .w8 v | .uint .w16 v | .uint .w32 v => .ok v.toNat
  | .uint .w64 v => if v.toNat ≤ usizeMax then .ok v.toNat else .error .invalidLimit
  | _ => .error .invalidLimit

/-- The first of equal rows stays. -/
def dedupRows [BEq E] (rows : List (Row E)) : List (Row E) :=
  rows.foldl (fun unique row => if unique.any (·.eq row) then unique else unique ++ [row]) []

def compareSortValues [ExtensionValue E] (crates : Crates) (direction : Option SortDirection)
    (nullOrder : Option NullOrder) (left right : Value E) : Except QueryError Ordering :=
  let descending := direction == some .desc
  let nullsFirst := match nullOrder with
    | some .first => true
    | some .last => false
    | none => descending
  match left.isNull, right.isNull with
  | true, true => .ok .eq
  | true, false => .ok (if nullsFirst then .lt else .gt)
  | false, true => .ok (if nullsFirst then .gt else .lt)
  | false, false =>
    match compareValues crates left right with
    | .error message => .error (.panic message)
    | .ok none => .error .incomparableSortValues
    | .ok (some ordering) => .ok (if descending then ordering.swap else ordering)

/-- The first key that differs decides. -/
def compareSortKeys [ExtensionValue E] (crates : Crates) :
    List (SortItem (Expr E)) → List (Value E) → List (Value E) → Except QueryError Ordering
  | item :: items, l :: ls, r :: rs => do
    match ← compareSortValues crates item.direction item.nullOrder l r with
    | .eq => compareSortKeys crates items ls rs
    | ordering => return ordering
  | _, _, _ => .ok .eq

/-- The check before sorting: every two keys are comparable. -/
def checkSortKeys [ExtensionValue E] (crates : Crates) (orderBy : List (SortItem (Expr E))) :
    List (List (Value E)) → Except QueryError Unit
  | [] => .ok ()
  | key :: keys => do
    for other in keys do
      let _ ← compareSortKeys crates orderBy key other
    checkSortKeys crates orderBy keys

/-- Whether the left key may stay before the right one. -/
def sortedBefore [ExtensionValue E] (crates : Crates) (orderBy : List (SortItem (Expr E)))
    (left right : List (Value E)) : Bool :=
  match compareSortKeys crates orderBy left right with
  | .ok ordering => ordering != .gt
  | .error _ => true

namespace ExecContext

variable [ExtensionValue E] [BEq E] (ctx : ExecContext E)

def sortRows (specs : Option (List (AggregateSpec E))) (orderBy : List (SortItem (Expr E)))
    (rows : List (Row E)) : Except QueryError (List (Row E)) := do
  let keyed ← rows.mapM fun row => do
    return (← orderBy.mapM fun item => ctx.evalSortExpr specs row item.expr, row)
  checkSortKeys ctx.crates orderBy (keyed.map (·.1))
  return (keyed.mergeSort fun a b => sortedBefore ctx.crates orderBy a.1 b.1).map (·.2)

/-- What `topk_ordered_input` has kept so far. -/
structure OrderedTopK (E : Type) where
  survivors : List (Row E)
  boundary : Option (Value E)
  previous : Option (Value E)
  unorderedTail : List (Row E)

/-- The loop of `topk_ordered_input` over rows that should come in order. -/
def topkOrderedLoop (specs : Option (List (AggregateSpec E))) (item : SortItem (Expr E))
    (cap : Nat) : List (Row E) → OrderedTopK E → Except QueryError (OrderedTopK E)
  | [], state => .ok state
  | row :: rows, state =>
    if !state.unorderedTail.isEmpty then
      topkOrderedLoop specs item cap rows
        { state with unorderedTail := state.unorderedTail ++ [row] }
    else do
      let key ← ctx.evalSortExpr specs row item.expr
      let compareTo := compareSortValues ctx.crates item.direction item.nullOrder key
      let behind ← match state.previous with
        | some previous => (· == .lt) <$> compareTo previous
        | none => .ok false
      if behind then
        -- A key before its predecessor: from here on everything is sorted.
        topkOrderedLoop specs item cap rows { state with unorderedTail := [row] }
      else
        match state.boundary with
        | none =>
          let survivors := state.survivors ++ [row]
          topkOrderedLoop specs item cap rows
            { state with
              survivors
              previous := some key
              boundary := if survivors.length = cap then some key else none }
        | some boundary =>
          match ← compareTo boundary with
          | .gt => return { state with previous := some key }
          | .eq => topkOrderedLoop specs item cap rows { state with previous := some key }
          | .lt =>
            topkOrderedLoop specs item cap rows
              { state with previous := some key, unorderedTail := [row] }

section

variable (specs : Option (List (AggregateSpec E)))

def topkOrderedInput (orderBy : List (SortItem (Expr E))) (k offset : Nat) (rows : List (Row E)) :
    Except QueryError (List (Row E)) :=
  let cap := min (offset + k) usizeMax
  if cap = 0 ∨ k = 0 then .ok []
  else
    match orderBy with
    | [item] => do
      let state ← ctx.topkOrderedLoop specs item cap rows ⟨[], none, none, []⟩
      if state.unorderedTail.isEmpty then return state.survivors.drop offset
      else
        let sorted ← ctx.sortRows specs orderBy (state.survivors ++ state.unorderedTail)
        return (sorted.drop offset).take k
    | _ => .error (.unsupportedOp "TopK(ordered input requires exactly one sort item)")

/-- A bound of `LIMIT` or `OFFSET`, evaluated without a row. -/
def evalLimit (e : Expr E) : Except QueryError Nat := do
  limitValue (← ctx.evalExpr specs ∅ e)

def evalOffset : Option (Expr E) → Except QueryError Nat
  | some e => ctx.evalLimit specs e
  | none => .ok 0

/-! ## Operators of one row -/

/-- One column of `project_row`: a bare variable keeps its binding. -/
def projectColumn (row : Row E) (column : ProjectColumn E) :
    Except QueryError (String × Binding E) := do
  let name := column.aliasName.getD column.expr.expressionName
  match column.expr.asVar with
  | some variableName =>
    match row.lookup variableName with
    | some binding => return (name, binding)
    | none => throw (.missingBinding variableName)
  | none => return (name, .value (← ctx.evalExpr specs row column.expr))

/-- `project_row`; no columns stand for all bindings as values. -/
def projectRow (columns : List (ProjectColumn E)) (row : Row E) : Except QueryError (Row E) := do
  if columns.isEmpty then
    let values ← (row.keys.sort (· ≤ ·)).mapM fun name => do
      return (name, Binding.value (← ctx.bindingValue row name))
    return Row.fork ∅ values
  else return Row.fork ∅ (← columns.mapM (ctx.projectColumn specs row))

end

/-- `Let`: each binding sees the ones before it. -/
def letRow (specs : Option (List (AggregateSpec E))) :
    List (String × Expr E) → Row E → Except QueryError (Row E)
  | [], row => .ok row
  | (name, e) :: bindings, row => do
    letRow specs bindings (row.insert name (.value (← ctx.evalExpr specs row e)))

def unnestRow (specs : Option (List (AggregateSpec E))) (name : String) (list : Expr E)
    (ordinality : Option String) (offsetKeyword : Bool) (row : Row E) :
    Except QueryError (List (Row E)) := do
  match ← ctx.evalExpr specs row list with
  | .list elements =>
    return elements.zipIdx.map fun (element, i) =>
      let index : Nat := if offsetKeyword then i else i + 1
      row.fork ((name, .value element) ::
        (ordinality.map fun o => (o, Binding.value (EvalContext.int64 index))).toList)
  | .null => return []
  | _ => throw (.invalidExpressionValue "FOR ... IN")

/-- The rows of `execute_shortest_path` for one input row. -/
def shortestPathRow (spec : ShortestPathSpec E) (later : List (PlanOp E)) (row : Row E) :
    Except QueryError (List (Row E)) := do
  match ← expandSource (row.lookup spec.src), ← expandSource (row.lookup spec.dst) with
  | some src, some dst =>
    let trails ← ctx.shortestPaths spec src dst
    let pathKey := if spec.emitPathBinding then spec.pathVar else none
    let base : Row E := if spec.pathOnlyRows later then ∅ else row
    let updates (edge path : Binding E) : List (String × Binding E) :=
      (if spec.emitEdgeBinding then [(spec.edge, edge)] else []) ++
        (pathKey.map (·, path)).toList
    let lastEdge (trail : Trail) : Option Nat := trail.hops.getLast?.map (·.1)
    match spec.mode with
    | .shortestKGroup _ =>
      if trails.isEmpty then return []
      else
        let edge := match trails.filterMap lastEdge with
          | [] => .value .null
          | edges => .edgeGroup edges
        return [base.fork (updates edge (.pathGroup trails))]
    | mode =>
      let trails := if mode = .anyShortest then trails.take 1 else trails
      return trails.map fun trail =>
        base.fork (updates (((lastEdge trail).map Binding.edge).getD (.value .null))
          (.path trail))
  | _, _ => return []

/-- `Search` of one row: joined with the score of its vertex. -/
def searchRow (lookup : List (Nat × BitVec 64)) (binding outputAlias : String) (row : Row E) :
    Except QueryError (Option (Row E)) :=
  match row.lookup binding with
  | none => .ok none
  | some (.vertex id) =>
    match lookup.lookup id with
    | none => .ok none
    | some score =>
      if outputAlias ∈ row then
        .error (.invalidExpressionValue
          ("SEARCH output alias '" ++ outputAlias ++ "' is already bound"))
      else .ok (some (row.insert outputAlias (.value (.float .f64 score))))
  | some _ =>
    .error (.invalidExpressionValue ("SEARCH binding '" ++ binding ++ "' is not a vertex"))

/-- A conflicting binding is accepted when it is the same
value. -/
def mergeInlineRows (outer inner : Row E) : Except QueryError (Row E) :=
  match outer.tryMerge inner [] with
  | some merged => .ok merged
  | none => do
    for name in inner.keys.sort (· ≤ ·) do
      match outer.lookup name, inner.lookup name with
      | some left, some right =>
        if left == right then pure ()
        else if (← left.toValue ctx.graph ctx.ids) == (← right.toValue ctx.graph ctx.ids) then
          pure ()
        else throw (.invalidExpressionValue "inline CALL: conflicting bindings on merge")
      | _, _ => pure ()
    return outer ∪ inner

def inlineSeedRow (row : Row E) : InlineProcedureScope → Except QueryError (Row E)
  | .implicitAll => .ok row
  | .explicit names => do
    let bindings ← names.mapM fun name =>
      match row.lookup name with
      | some binding => .ok (name, binding)
      | none => .error (.missingBinding name)
    return Row.fork ∅ bindings

def extractJoinKey (joinKeys : List String) (row : Row E) : Except QueryError (List (Binding E)) :=
  joinKeys.mapM fun key =>
    match row.lookup key with
    | some binding => .ok binding
    | none => .error (.missingBinding key)

/-- The probe of `execute_hash_join`: right rows in order, each with the left
rows of its key. -/
def hashJoinRows (joinKeys : List String) (left right : List (Row E)) :
    Except QueryError (List (Row E)) := do
  let keyed ← left.mapM fun l => do return (← extractJoinKey joinKeys l, l)
  let blocks ← right.mapM fun r => do
    let key ← extractJoinKey joinKeys r
    return (keyed.filter (·.1 == key)).filterMap fun l => l.2.tryMerge r joinKeys
  return blocks.flatten

/-! ## Set operations -/

/-- One occurrence of a row taken out of a list that holds it. -/
def takeRow (row : Row E) : List (Row E) → Option (List (Row E))
  | [] => none
  | other :: others => if other.eq row then some others else (takeRow row others).map (other :: ·)

/-- Each right row cancels one left row. -/
def exceptAll : List (Row E) → List (Row E) → List (Row E)
  | [], _ => []
  | row :: rows, right =>
    match takeRow row right with
    | some right => exceptAll rows right
    | none => row :: exceptAll rows right

/-- As many of each row as both sides have. -/
def intersectAll : List (Row E) → List (Row E) → List (Row E)
  | [], _ => []
  | row :: rows, right =>
    match takeRow row right with
    | some right => row :: intersectAll rows right
    | none => intersectAll rows right

def applySetOp (op : SetOp) (left right : List (Row E)) : List (Row E) :=
  match op with
  | .unionAll => left ++ right
  | .union => dedupRows (left ++ right)
  | .exceptAll => exceptAll left right
  | .except => dedupRows (left.filter fun row => !right.any (·.eq row))
  | .intersectAll => intersectAll left right
  | .intersect => dedupRows (left.filter fun row => right.any (·.eq row))
  | .otherwise => left

/-! ## The limited streaming prefix -/

/-- `LimitedRows`, with the flag for a `Project` that was reached. -/
structure LimitedRows (E : Type) where
  offsetRemaining : Nat
  takeRemaining : Nat
  rows : List (Row E)
  clearsActiveAggregate : Bool

/-- `LimitedRows::push`; the result says whether the limit is reached. -/
def LimitedRows.push (row : Row E) (sink : LimitedRows E) :
    Except QueryError (Bool × LimitedRows E) :=
  if 0 < sink.offsetRemaining then
    .ok (false, { sink with offsetRemaining := sink.offsetRemaining - 1 })
  else if sink.takeRemaining = 0 then .ok (true, sink)
  else
    .ok (sink.takeRemaining = 1,
      { sink with rows := sink.rows ++ [row], takeRemaining := sink.takeRemaining - 1 })

/-- What takes the rows of a streaming operator. -/
abbrev RowConsumer (E : Type) := Consumer QueryError (LimitedRows E) (Row E)

section

variable (specs : Option (List (AggregateSpec E)))

/-- `stream_expand` and `stream_var_len_expand`; the latter does not stop at the
limit. -/
def streamExpand (spec : ExpandSpec E) (dstFilter : List (Expr E)) (next : RowConsumer E) :
    RowConsumer E := fun row sink => do
  match ← streamExpandSource row spec.src with
  | none => return (false, sink)
  | some src =>
    match spec.varLen with
    | some varLen => next.all (← ctx.varLenRows spec varLen dstFilter specs row src) sink
    | none =>
      (next.through (ctx.expandCandidate spec dstFilter true .all specs row)).each
        (← ctx.expandCandidates spec.hop false src) sink

/-- A filter in front of a consumer. -/
def streamFilter (predicates : List (Expr E)) (next : RowConsumer E) : RowConsumer E :=
  next.keep fun row => ctx.rowMatchesAll specs row predicates

/-- `stream_row_through_ops`, one operator in front of the rest. -/
def streamOp (op : PlanOp E) (next : RowConsumer E) : RowConsumer E :=
  match op with
  | .nodeScan name label _ => fun row sink =>
    next.each (bindHits name .vertex (ctx.scanVertices label) row) sink
  | .propertyFilter predicates _ => ctx.streamFilter specs predicates next
  | .filter condition => ctx.streamFilter specs [condition] next
  | .letBindings bindings => fun row sink => do next (← ctx.letRow specs bindings row) sink
  | .project columns _ => fun row sink => do
    next (← ctx.projectRow specs columns row) { sink with clearsActiveAggregate := true }
  | .expand spec => ctx.streamExpand specs spec [] next
  | .expandFilter spec dstFilter => ctx.streamExpand specs spec dstFilter next
  | _ => fun _ _ =>
    .error (.panic "limited streaming prefix only contains supported operators")

def streamOps (ops : List (PlanOp E)) : RowConsumer E :=
  ops.foldr (ctx.streamOp specs) LimitedRows.push

/-- The rows, and whether a `Project` was
reached. -/
def executeLimitedStreamingPrefix (ops : List (PlanOp E)) (count : Expr E)
    (offset : Option (Expr E)) (rows : List (Row E)) : Except QueryError (List (Row E) × Bool) := do
  let offset ← ctx.evalOffset specs offset
  let count ← ctx.evalLimit specs count
  if count = 0 then return ([], false)
  else
    let (_, sink) ← (ctx.streamOps specs ops).each rows ⟨offset, count, [], false⟩
    return (sink.rows, sink.clearsActiveAggregate)

/-! ## Whole operators -/

def filterRows (predicates : List (Expr E)) (rows : List (Row E)) :
    Except QueryError (List (Row E)) :=
  keep (fun row => ctx.rowMatchesAll specs row predicates) rows

end

/-- Whether a later `INSERTION` sort wants the
edges of this expansion in descending order. -/
def insertionOrderAfterExpand (edgeVar : String) (fixedLabel : Option String) :
    List (PlanOp E) → Except QueryError Bool
  | [] => .ok false
  | .sort orderBy :: ops | .topK orderBy _ _ :: ops =>
    match insertionOrderSort orderBy with
    | some (sortVar, descending) =>
      if sortVar = edgeVar then
        match fixedLabel with
        | none =>
          .error (.insertionOrder ("ORDER BY INSERTION(" ++ sortVar ++
            ") requires a single fixed edge label"))
        | some label =>
          if ctx.insertionOrdered label then .ok descending
          else .error (.insertionOrder ("ORDER BY INSERTION(" ++ sortVar ++
            ") requires edge label '" ++ label ++
            "' to be declared ORDER BY INSERTION in its Graph Type"))
      else insertionOrderAfterExpand edgeVar fixedLabel ops
    | none => insertionOrderAfterExpand edgeVar fixedLabel ops
  | .expand spec :: ops | .expandFilter spec _ :: ops =>
    if spec.edge = edgeVar then .ok false else insertionOrderAfterExpand edgeVar fixedLabel ops
  | .optionalMatch subPlan :: ops =>
    if PlanOp.bindEdgeVariable edgeVar subPlan then .ok false
    else insertionOrderAfterExpand edgeVar fixedLabel ops
  | .aggregate .. :: _ | .shortestPath _ :: _ | .hashJoin .. :: _ | .cartesianProduct .. :: _
  | .materialize .. :: _ => .ok false
  | _ :: ops => insertionOrderAfterExpand edgeVar fixedLabel ops

/-- `previous_op_binds_edge` over the operators before, the nearest first. -/
def previousOpBindsEdge (edgeVar : String) : List (PlanOp E) → Bool
  | [] => false
  | .expand spec :: ops | .expandFilter spec _ :: ops =>
    spec.edge == edgeVar || previousOpBindsEdge edgeVar ops
  | .optionalMatch subPlan :: ops =>
    !PlanOp.bindEdgeVariable edgeVar subPlan && previousOpBindsEdge edgeVar ops
  | .aggregate .. :: _ | .shortestPath _ :: _ | .hashJoin .. :: _ | .cartesianProduct .. :: _
  | .materialize .. :: _ => false
  | _ :: ops => previousOpBindsEdge edgeVar ops

/-- A sort by insertion whose edges the expansion already delivers in order. -/
def deliveredInInsertionOrder (before : List (PlanOp E)) (orderBy : List (SortItem (Expr E))) :
    Bool :=
  (insertionOrderSort orderBy).any fun key => previousOpBindsEdge key.1 before

section

variable (spec : ExpandSpec E)

/-- The expansion whose vector predicate is evaluated in batches, where the
label expression is not looked at. -/
def vectorDstOnly : Bool :=
  !spec.emitEdgeBinding && spec.hopAuxBinding.isNone && spec.indexedEdgeEquality.isNone &&
    spec.edgeInlinePropertyPredicate.isNone && spec.edgeInlineVectorPredicate.isSome &&
    (spec.edgePropertyProjection.getD []).isEmpty && spec.label.isSome &&
    (spec.direction == .pointingRight || spec.direction == .pointingLeft)

/-- The expansion that walks the adjacency backwards and asks the index client
about the equality. -/
def csrFastPath (descending : Bool) : Bool :=
  descending && spec.edgeInlinePropertyPredicate.isNone &&
    spec.edgeInlineVectorPredicate.isNone && spec.direction.parts == [spec.direction]

/-- `execute_expand` of one row; `filter` is the prepared equality of the fast
path. -/
def expandRow (dstFilter : List (Expr E)) (descending : Bool) (filter : EqualityFilter)
    (row : Row E) : Except QueryError (List (Row E)) := do
  match ← expandSource (row.lookup spec.src) with
  | none => return []
  | some src =>
    let candidates ← (if csrFastPath spec descending then
        .ok (ctx.csrEdges spec.direction spec.label true src)
      else ctx.expandCandidates spec.hop descending src)
    let rows ← candidates.mapM
      (ctx.expandCandidate spec dstFilter (!vectorDstOnly spec) filter none row)
    return rows.filterMap id

/-- What `execute_expand` prepares before the first row. -/
def expandPrepare (descending : Bool) : Except QueryError EqualityFilter := do
  match spec.edgeInlineVectorPredicate, spec.label with
  | some predicate, some label =>
    if vectorDstOnly spec then let _ ← ctx.inlineVectorFilter predicate label
  | _, _ => pure ()
  if csrFastPath spec descending then
    ctx.edgeEqualityFilter ctx.index spec.indexedEdgeEquality spec.label
  else return .all

/-- `Expand` and `ExpandFilter`. -/
def executeExpand (dstFilter : List (Expr E)) (later : List (PlanOp E)) (rows : List (Row E)) :
    Except QueryError (List (Row E)) :=
  match spec.varLen with
  | some varLen => forEach (fun row => do
    match ← expandSource (row.lookup spec.src) with
    | none => return []
    | some src => ctx.varLenRows spec varLen dstFilter none row src) rows
  | none => do
    let descending ← ctx.insertionOrderAfterExpand spec.edge
      (if spec.labelExpr.isNone then spec.label else none) later
    match ← ctx.expandPrepare spec descending with
    | .noMatches => return []
    | filter => forEach (ctx.expandRow spec dstFilter descending filter) rows

end

section

variable (specs : Option (List (AggregateSpec E)))

/-- `TopK`. -/
def executeTopK (before : List (PlanOp E)) (orderBy : List (SortItem (Expr E))) (k : Expr E)
    (offset : Option (Expr E)) (rows : List (Row E)) : Except QueryError (List (Row E)) := do
  let offset ← ctx.evalOffset specs offset
  let k ← ctx.evalLimit specs k
  if deliveredInInsertionOrder before orderBy then return (rows.drop offset).take k
  else if indexOrderedDeliveryActive before.reverse orderBy then
    ctx.topkOrderedInput specs orderBy k offset rows
  else return ((← ctx.sortRows specs orderBy rows).drop offset).take k

/-- `Limit`. -/
def executeLimit (count offset : Option (Expr E)) (rows : List (Row E)) :
    Except QueryError (List (Row E)) := do
  let offset ← ctx.evalOffset specs offset
  match count with
  | some e => return (rows.drop offset).take (← ctx.evalLimit specs e)
  | none => return (rows.drop offset).take usizeMax

/-- `Project` and `Materialize`. -/
def projectRows (columns : List (ProjectColumn E)) (distinct : Bool) (rows : List (Row E)) :
    Except QueryError (List (Row E)) := do
  let projected ← rows.mapM (ctx.projectRow specs columns)
  return if distinct then dedupRows projected else projected

/-- The aggregates expressions after an operator may refer to. -/
def nextSpecs : PlanOp E → Option (List (AggregateSpec E))
  | .aggregate _ aggregates => some aggregates
  | .project .. => none
  | _ => specs

end

mutual

/-- One operator of `execute_ops_from`; `before` are the operators already
run, the nearest first, and `input` the rows the list was started with. -/
def executeOp (before later : List (PlanOp E)) (input : List (Row E))
    (specs : Option (List (AggregateSpec E))) (rows : List (Row E)) :
    PlanOp E → Except QueryError (List (Row E))
  | .nodeScan name label _ => .ok (rows.flatMap (bindHits name .vertex (ctx.scanVertices label)))
  | .indexScan name property value cmp _ _ => do
    return rows.flatMap (bindHits name .vertex (← ctx.indexScanHits property value cmp))
  | .edgeIndexScan name property value cmp _ => do
    return rows.flatMap (bindHits name .edge (← ctx.edgeScanHits property value cmp))
  | .conditionalIndexScan candidates fallbackLabel fallbackVariable _ => do
    let (name, hits) ← ctx.conditionalScanHits fallbackLabel fallbackVariable candidates
    return rows.flatMap (bindHits name .vertex hits)
  | .indexIntersection name scans _ => do
    return rows.flatMap (bindHits name .vertex (← ctx.intersectionHits scans))
  | .edgeBindEndpoints spec => forEach (ctx.edgeBindRow spec) rows
  | .propertyFilter predicates _ => ctx.filterRows specs predicates rows
  | .filter condition => ctx.filterRows specs [condition] rows
  | .letBindings bindings => rows.mapM (ctx.letRow specs bindings)
  | .forEach name list ordinality offsetKeyword =>
    forEach (ctx.unnestRow specs name list ordinality offsetKeyword) rows
  | .expand spec => ctx.executeExpand spec [] later rows
  | .expandFilter spec dstFilter => ctx.executeExpand spec dstFilter later rows
  | .shortestPath spec => forEach (ctx.shortestPathRow spec later) rows
  | .worstCaseOptimalJoin _ edges =>
    if edges.any (·.varLen.isSome) then .error (.unsupportedOp "WorstCaseOptimalJoin.var_len")
    else forEach (ctx.wcojRow edges) rows
  | .aggregate groupBy aggregates => ctx.aggregate rows groupBy aggregates
  | .project columns distinct | .materialize columns distinct =>
    ctx.projectRows specs columns distinct rows
  | .limit count offset => ctx.executeLimit specs count offset rows
  | .sort orderBy =>
    if deliveredInInsertionOrder before orderBy then .ok rows else ctx.sortRows specs orderBy rows
  | .topK orderBy k offset => ctx.executeTopK specs before orderBy k offset rows
  | .search binding _ outputAlias => do
    let lookup ← ctx.searchLookup
    return (← rows.mapM (searchRow lookup binding outputAlias)).filterMap id
  | .useGraph _ subPlan => executeUse rows subPlan
  | .cartesianProduct left right => forEach (fun row => do
    let leftRows ← executeOps [] [row] none none [row] left
    let rightRows ← executeOps [] [row] none none [row] right
    return leftRows.flatMap fun l => rightRows.filterMap fun r => l.tryMerge r []) rows
  | .hashJoin left right joinKeys =>
    if joinKeys.isEmpty then .error (.unsupportedOp "HashJoin(empty join_keys)")
    else forEach (fun row => do
      let leftRows ← executeOps [] [row] none none [row] left
      let rightRows ← executeOps [] [row] none none [row] right
      hashJoinRows joinKeys leftRows rightRows) rows
  | .optionalMatch subPlan => forEach (fun row => do
    match ← executeOps [] [row] none none [row] subPlan with
    | [] => return [row.pad (PlanOp.writtenVarsList subPlan)]
    | extended => return extended) rows
  | .semiApply _ _ _ subPlan => forEach (fun row => do
    return if (← executeOps [] [row] none none [row] subPlan).isEmpty then [] else [row]) rows
  | .inlineProcedureCall subPlan outputs scope optional => forEach (fun row => do
    let seed ← inlineSeedRow row scope
    match ← executeOps [] [seed] none none [seed] subPlan with
    | [] =>
      return if optional then [row.pad (outputs.getD (PlanOp.writtenVarsList subPlan))] else []
    | inner => inner.mapM (ctx.mergeInlineRows row)) rows
  | .setOperation op right =>
    if op = .otherwise then
      if rows.isEmpty then executeOps [] input none none input right else .ok rows
    else do return applySetOp op rows (← executeOps [] input none none input right)
  | op => .error (.unsupportedOp op.planOpName)

def executeUse (rows : List (Row E)) : Option (List (PlanOp E)) → Except QueryError (List (Row E))
  | none => .ok rows
  | some subPlan => executeOps [] rows none none rows subPlan

/-- `execute_ops_from`.  `pending` collects the operators of a streaming
prefix, the last first, until its `Limit` runs them. -/
def executeOps (before : List (PlanOp E)) (input : List (Row E))
    (specs : Option (List (AggregateSpec E))) (pending : Option (List (PlanOp E)))
    (rows : List (Row E)) : List (PlanOp E) → Except QueryError (List (Row E))
  | [] => .ok rows
  | op :: later =>
    let pending := pending <|> if PlanOp.startsStreaming (op :: later) then some [] else none
    match pending, op with
    | some ops, .limit (some count) offset => do
      let (rows, clears) ←
        ctx.executeLimitedStreamingPrefix specs ops.reverse count offset rows
      executeOps (op :: before) input (if clears then none else specs) none rows later
    | some ops, op => executeOps (op :: before) input specs (some (op :: ops)) rows later
    | none, op => do
      let rows ← executeOp before later input specs rows op
      executeOps (op :: before) input (nextSpecs specs op) none rows later

end

section Run

variable {ctx : ExecContext E} {before later : List (PlanOp E)} {input rows : List (Row E)}
  {specs : Option (List (AggregateSpec E))}

@[simp] theorem executeOps_nil : ctx.executeOps before input specs pending rows [] = .ok rows := by
  simp only [executeOps]

/-- Outside a streaming prefix an operator runs over all rows. -/
theorem executeOps_cons (h : PlanOp.startsStreaming (op :: later) = false) :
    ctx.executeOps before input specs none rows (op :: later) = (do
      let rows ← ctx.executeOp before later input specs rows op
      ctx.executeOps (op :: before) input (nextSpecs specs op) none rows later) := by
  rw [executeOps.eq_def]
  dsimp only
  rw [h]
  rfl

/-- The operators of a streaming prefix are collected up to the `Limit`. -/
theorem executeOps_pending (h : ∀ op ∈ prefixOps, op.streamable = true) :
    ctx.executeOps before input specs (some ops) rows
        (prefixOps ++ .limit (some count) offset :: later) = (do
      let (rows, clears) ←
        ctx.executeLimitedStreamingPrefix specs (ops.reverse ++ prefixOps) count offset rows
      ctx.executeOps (.limit (some count) offset :: (prefixOps.reverse ++ before)) input
        (if clears then none else specs) none rows later) := by
  induction prefixOps generalizing ops before with
  | nil => simp [executeOps]
  | cons op prefixOps ih =>
    obtain ⟨hop, hrest⟩ := List.forall_mem_cons.mp h
    have hcollect : ctx.executeOps before input specs (some ops) rows
        (op :: (prefixOps ++ .limit (some count) offset :: later)) =
        ctx.executeOps (op :: before) input specs (some (op :: ops)) rows
          (prefixOps ++ .limit (some count) offset :: later) := by
      cases op <;> first | rfl | simp [PlanOp.streamable] at hop
    rw [List.cons_append, hcollect, ih hrest]
    simp

/-- A streaming prefix runs row by row. -/
theorem executeOps_streaming (h : ∀ op ∈ prefixOps, op.streamable = true) :
    ctx.executeOps before input specs none rows
        (prefixOps ++ .limit (some count) offset :: later) = (do
      let (rows, clears) ← ctx.executeLimitedStreamingPrefix specs prefixOps count offset rows
      ctx.executeOps (.limit (some count) offset :: (prefixOps.reverse ++ before)) input
        (if clears then none else specs) none rows later) := by
  have hstarts := PlanOp.startsStreaming_limit h count offset later
  have hpending : ctx.executeOps before input specs none rows
        (prefixOps ++ .limit (some count) offset :: later) =
      ctx.executeOps before input specs (some []) rows
        (prefixOps ++ .limit (some count) offset :: later) := by
    rw [executeOps.eq_def, executeOps.eq_def]
    cases prefixOps with
    | nil => rfl
    | cons op prefixOps =>
      dsimp only [List.cons_append]
      rw [← List.cons_append, hstarts]
      rfl
  rw [hpending, executeOps_pending h]
  rfl

end Run

/-- `execute_ops_from` on a whole plan. -/
def executeOpsFrom (ops : List (PlanOp E)) (rows : List (Row E)) :
    Except QueryError (List (Row E)) :=
  ctx.executeOps [] rows none none rows ops

/-- `execute_ops`: a plan without input. -/
def execute (ops : List (PlanOp E)) : Except QueryError (List (Row E)) :=
  ctx.executeOpsFrom ops [∅]

end ExecContext

/-! ## A plain deployment -/

/-- The edges of a vertex in a simple direction, read off the graph. -/
def Graph.csrEdges (g : Graph E) (direction : EdgeDirection) (label : Option String)
    (descending : Bool) (src : Nat) : List (Nat × Nat) :=
  let labelled := g.edges.filter fun e => label.all (e.label == some ·)
  let edges := labelled.filterMap fun e =>
    match direction with
    | .pointingRight => if !e.undirected && e.src == src then some (e.id, e.dst) else none
    | .pointingLeft => if !e.undirected && e.dst == src then some (e.id, e.src) else none
    | .undirected =>
      if e.undirected && e.src == src then some (e.id, e.dst)
      else if e.undirected && e.dst == src then some (e.id, e.src)
      else none
    | _ => none
  if descending then edges.reverse else edges

/-- Vertices `0, 1, …` without labels and edges, each with its value of `x`. -/
def Graph.ofValues (values : List (Value E)) : Graph E where
  vertices := (List.range values.length).map fun i => ⟨i, [], [("x", values.getD i .null)]⟩
  edges := []
  vertices_sorted := List.pairwise_map.mpr List.pairwise_lt_range
  edges_distinct := .nil

/-- A graph without indexes, parameters and searches. -/
def ExecContext.plain (g : Graph Empty) : ExecContext Empty where
  graph := g
  crates := .documented
  ids := ⟨fun _ => [], fun _ => []⟩
  parameters := fun _ => none
  primitive := fun _ _ => .error .invalidValue
  runtimeFunction := fun _ _ _ => .ok none
  clock := fun _ => .null
  aggregateSlot := fun _ _ => none
  index := none
  edgeIndexed := fun _ => false
  vertexCount := g.vertices.length
  csrEdges := g.csrEdges
  inlinePropertyFilter := fun _ _ => .ok none
  inlineVectorFilter := fun _ _ => .ok none
  fusionLabels := []
  shortestPaths := fun _ _ _ => .ok []
  searchLookup := .ok []
  insertionOrdered := fun _ => false
  aggregate := fun _ _ _ => .error (.unsupportedOp "Aggregate")

end Gleaph
