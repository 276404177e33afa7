import Gleaph.Gql.Eval

/-!
# Gleaph.Plan.Op

Operators of a physical plan (`crates/gql-planner/src/plan.rs`).

A plan is a list of operators run in order.  Operators with a sub-plan hold
its operators; of a nested `PhysicalPlan` only the operators and the output
columns are kept, the rest of it being annotations no modelled function
reads.
-/

namespace Gleaph

/-! ## Parts of operators -/

/-- The arrows of an edge pattern. -/
inductive EdgeDirection where
  | pointingRight | pointingLeft | leftOrRight | undirected
  | leftOrUndirected | undirectedOrRight | anyDirection
  deriving DecidableEq, Repr

/-- The bound of an index scan. -/
inductive ScanValue (E : Type) where
  | literal (value : Value E)
  | parameter (name : String)
  | inList (values : List (ScanValue E))
  | textPrefix (pattern : ScanValue E)

/-- The bounds of a quantified edge; no `max` is no bound. -/
structure VarLenSpec where
  min : Nat
  max : Option Nat
  deriving DecidableEq, Repr

/-- A comparison evaluated on the bytes of an edge's inline slot. -/
structure EdgeInlinePropertyPredicate (E : Type) where
  op : CmpOp
  value : ScanValue E

/-- How the vector of an edge is compared with the query. -/
inductive EdgeVectorMetric where
  | dot | l2Squared | cosineDistance
  deriving DecidableEq, Repr

/-- A vector score comparison evaluated on the bytes of an edge's inline slot. -/
structure EdgeInlineVectorPredicate (E : Type) where
  metric : EdgeVectorMetric
  query : ScanValue E
  op : CmpOp
  threshold : ScanValue E

/-- What `Expand` and `ExpandFilter` have in common. -/
structure ExpandSpec (E : Type) where
  src : String
  edge : String
  dst : String
  direction : EdgeDirection
  label : Option String
  labelExpr : Option LabelExpr
  varLen : Option VarLenSpec
  indexedEdgeEquality : Option (String × ScanValue E)
  edgeInlinePropertyPredicate : Option (EdgeInlinePropertyPredicate E)
  edgeInlineVectorPredicate : Option (EdgeInlineVectorPredicate E)
  edgePropertyProjection : Option (List String)
  dstPropertyProjection : Option (List String)
  hopAuxBinding : Option String
  emitEdgeBinding : Bool
  nearGroupVar : Option String
  farGroupVar : Option String
  pathVar : Option String
  emitPathBinding : Bool

/-- Which of the shortest paths are wanted. -/
inductive ShortestMode where
  | anyShortest | allShortest
  | shortestK (k : Nat)
  | shortestKGroup (k : Nat)
  deriving DecidableEq, Repr

structure ShortestPathSpec (E : Type) where
  src : String
  dst : String
  edge : String
  pathVar : Option String
  emitEdgeBinding : Bool
  emitPathBinding : Bool
  mode : ShortestMode
  direction : EdgeDirection
  label : Option String
  labelExpr : Option LabelExpr
  varLen : Option VarLenSpec
  /-- `EdgeCostExpr`; `none` counts hops. -/
  cost : Option (String × Expr E)

/-- Binds the end points of an edge that an index scan has found. -/
structure EdgeBindSpec where
  edge : String
  near : String
  far : String
  direction : EdgeDirection
  label : Option String
  nearPropertyProjection : Option (List String)
  farPropertyProjection : Option (List String)
  hopAuxBinding : Option String

/-- A scan to be taken if its parameter is given. -/
structure ConditionalScanCandidate where
  paramName : String
  property : String
  name : String
  cmp : CmpOp

/-- One scan of an intersection. -/
structure IndexScanSpec (E : Type) where
  property : String
  value : ScanValue E
  cmp : CmpOp

inductive TextTopkRank where
  | scoreDescNullsLast | scoreAscNullsLast | scoreAscNullsFirst
  deriving DecidableEq, Repr

/-- All hits above a bound, the best ones, or both. -/
inductive TextScanMode (E : Type) where
  | threshold (cmp : CmpOp) (bound : ScanValue E)
  | topK (limit : ScanValue E) (rank : TextTopkRank)
  | thresholdTopK (cmp : CmpOp) (bound limit : ScanValue E) (rank : TextTopkRank)

/-- A vector search: the index, the query vector and how many hits. -/
structure SearchProvider (E : Type) where
  indexName : List String
  query : Expr E
  limit : Expr E
  filter : Option (Expr E)

/-- Which variables a subquery sees. -/
inductive InlineProcedureScope where
  | implicitAll
  | explicit (names : List String)
  deriving DecidableEq, Repr

/-- `SetOp`; a bare `UNION`, `EXCEPT` or `INTERSECT` is the distinct one. -/
inductive SetOp where
  | unionAll | union | exceptAll | except | intersectAll | intersect | otherwise
  deriving DecidableEq, Repr

/-- A column of `RETURN`, with its name if it has one. -/
structure ProjectColumn (E : Type) where
  expr : Expr E
  aliasName : Option String

/-- A hop of an existence check. -/
structure SemiHop where
  edgeLabel : String
  direction : EdgeDirection
  dstVariable : String
  dstLabel : String

/-- An edge of a cyclic pattern that is joined at once. -/
structure WcojEdge (E : Type) where
  src : String
  dst : String
  edge : String
  label : Option String
  labelExpr : Option LabelExpr
  direction : EdgeDirection
  varLen : Option VarLenSpec
  indexedEdgeEquality : Option (String × ScanValue E)
  dstFilter : List (Expr E)
  hopAuxBinding : Option String

inductive SetPlanItem (E : Type) where
  | property (name property : String) (value : Expr E)
  | allProperties (name : String) (value : Expr E)
  | label (name label : String)

inductive RemovePlanItem where
  | property (name property : String)
  | label (name label : String)

/-! ## Operators -/

/-- Operators run in order, each on the rows of the one before; sub-plans are
lists of operators. -/
inductive PlanOp (E : Type) where
  | nodeScan (name : String) (label : Option String) (projection : Option (List String))
  | indexScan (name property : String) (value : ScanValue E) (cmp : CmpOp)
      (projection : Option (List String)) (orderedBySort : Option String)
  | edgeIndexScan (name property : String) (value : ScanValue E) (cmp : CmpOp)
      (projection : Option (List String))
  | edgeBindEndpoints (spec : EdgeBindSpec)
  | conditionalIndexScan (candidates : List ConditionalScanCandidate)
      (fallbackLabel : Option String) (fallbackVariable : String)
      (projection : Option (List String))
  | textScan (name label property : String) (query : ScanValue E) (mode : TextScanMode E)
      (projection : Option (List String))
  | propertyFilter (predicates : List (Expr E)) (stage : Nat)
  | expand (spec : ExpandSpec E)
  | expandFilter (spec : ExpandSpec E) (dstFilter : List (Expr E))
  | shortestPath (spec : ShortestPathSpec E)
  | letBindings (bindings : List (String × Expr E))
  | forEach (name : String) (list : Expr E) (ordinality : Option String) (offsetKeyword : Bool)
  | filter (condition : Expr E)
  | search (binding : String) (provider : SearchProvider E) (outputAlias : String)
  | callProcedure (name : List String) (args : List (Expr E)) (yields : Option (List String))
      (optional : Bool)
  | inlineProcedureCall (subPlan : List (PlanOp E)) (outputs : Option (List String))
      (scope : InlineProcedureScope) (optional : Bool)
  | useGraph (graphName : List String) (subPlan : Option (List (PlanOp E)))
  | hashJoin (left right : List (PlanOp E)) (joinKeys : List String)
  | cartesianProduct (left right : List (PlanOp E))
  | aggregate (groupBy : List (Expr E)) (aggregates : List (AggregateSpec E))
  | project (columns : List (ProjectColumn E)) (distinct : Bool)
  | sort (orderBy : List (SortItem (Expr E)))
  | limit (count offset : Option (Expr E))
  | setOperation (op : SetOp) (right : List (PlanOp E))
  | optionalMatch (subPlan : List (PlanOp E))
  | semiApply (source : String) (hops : List SemiHop) (terminalPredicates : List (Expr E))
      (subPlan : List (PlanOp E))
  | indexIntersection (name : String) (scans : List (IndexScanSpec E))
      (projection : Option (List String))
  | worstCaseOptimalJoin (names : List String) (edges : List (WcojEdge E))
  | topK (orderBy : List (SortItem (Expr E))) (k : Expr E) (offset : Option (Expr E))
  | materialize (columns : List (ProjectColumn E)) (distinct : Bool)
  | insertVertex (name : Option String) (labels : List String) (properties : List (String × Expr E))
  | insertEdge (name : Option String) (src dst : String) (direction : EdgeDirection)
      (labels : List String) (properties : List (String × Expr E))
  | setProperties (items : List (SetPlanItem E))
  | removeProperties (items : List RemovePlanItem)
  | deleteVertex (name : String)
  | detachDeleteVertex (name : String)
  | deleteEdge (name : String)

namespace PlanOp

variable {E : Type}

/-- The operators that write. -/
def isDml : PlanOp E → Bool
  | insertVertex .. | insertEdge .. | setProperties _ | removeProperties _ | deleteVertex _
  | detachDeleteVertex _ | deleteEdge _ => true
  | _ => false

/-- `plan_op_name`, for the operators the read executor rejects. -/
def planOpName : PlanOp E → String
  | textScan .. => "TextScan"
  | callProcedure .. => "CallProcedure"
  | insertVertex .. => "InsertVertex"
  | insertEdge .. => "InsertEdge"
  | setProperties _ => "SetProperties"
  | removeProperties _ => "RemoveProperties"
  | deleteVertex _ => "DeleteVertex"
  | detachDeleteVertex _ => "DetachDeleteVertex"
  | deleteEdge _ => "DeleteEdge"
  | _ => ""

mutual

/-- `subplan_written_vars`: the variables operators may bind, used to pad a
missed optional match. -/
def writtenVars : PlanOp E → List String
  | nodeScan name _ _ | indexScan name _ _ _ _ _ | edgeIndexScan name _ _ _ _
  | indexIntersection name _ _ | textScan name _ _ _ _ _ => [name]
  | conditionalIndexScan candidates _ fallback _ => fallback :: candidates.map (·.name)
  | edgeBindEndpoints spec => [spec.edge, spec.near, spec.far] ++ spec.hopAuxBinding.toList
  | expand spec | expandFilter spec _ =>
    [spec.edge, spec.dst] ++ spec.hopAuxBinding.toList ++
      (if spec.varLen.isSome then spec.pathVar.toList else [])
  | shortestPath spec => spec.edge :: spec.pathVar.toList
  | letBindings bindings => bindings.map (·.1)
  | forEach name _ ordinality _ => name :: ordinality.toList
  | search _ _ outputAlias => [outputAlias]
  | worstCaseOptimalJoin names edges =>
    names ++ edges.flatMap fun e => e.edge :: e.hopAuxBinding.toList
  | optionalMatch subPlan | inlineProcedureCall subPlan _ _ _ => writtenVarsList subPlan
  | useGraph _ subPlan => writtenVarsOption subPlan
  | hashJoin left right _ | cartesianProduct left right =>
    writtenVarsList left ++ writtenVarsList right
  | setOperation _ right => writtenVarsList right
  | insertVertex name _ _ | insertEdge name _ _ _ _ _ => name.toList
  | project columns _ | materialize columns _ => columns.filterMap (·.aliasName)
  | propertyFilter .. | filter _ | callProcedure .. | aggregate .. | sort _ | limit .. | topK ..
  | setProperties _ | removeProperties _ | deleteVertex _ | detachDeleteVertex _ | deleteEdge _
  | semiApply .. => []

/-- All variables that some of the operators bind. -/
def writtenVarsList : List (PlanOp E) → List String
  | [] => []
  | op :: ops => op.writtenVars ++ writtenVarsList ops

def writtenVarsOption : Option (List (PlanOp E)) → List String
  | none => []
  | some ops => writtenVarsList ops

end

end PlanOp

end Gleaph
