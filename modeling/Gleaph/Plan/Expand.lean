import Gleaph.Plan.Scan

/-!
# Gleaph.Plan.Expand

Traversal operators (`crates/graph/src/plan/query/executor/expand/`, `wcoj.rs`,
`scan/edge_index.rs`): from a bound vertex along its edges, one row for each
candidate that passes.

The edges of a vertex come from the adjacency storage (`ExecContext.csrEdges`).
What a hop then does with them is written out here: composite directions, the
equality index and its fallback, fused inline predicates, the label expression,
a far end that is already bound, the filter on the far end, projections.
-/

namespace Gleaph

variable {E : Type}

/-! ## One hop -/

/-- What selects the edges of a hop. -/
structure HopSpec (E : Type) where
  direction : EdgeDirection
  label : Option String
  labelExpr : Option LabelExpr
  indexedEdgeEquality : Option (String × ScanValue E)
  edgeInlinePropertyPredicate : Option (EdgeInlinePropertyPredicate E)
  edgeInlineVectorPredicate : Option (EdgeInlineVectorPredicate E)

def ExpandSpec.hop (spec : ExpandSpec E) : HopSpec E where
  direction := spec.direction
  label := spec.label
  labelExpr := spec.labelExpr
  indexedEdgeEquality := spec.indexedEdgeEquality
  edgeInlinePropertyPredicate := spec.edgeInlinePropertyPredicate
  edgeInlineVectorPredicate := spec.edgeInlineVectorPredicate

/-- A join edge with a label expression is not looked up by its label. -/
def WcojEdge.hop (edge : WcojEdge E) : HopSpec E where
  direction := edge.direction
  label := if edge.labelExpr.isSome then none else edge.label
  labelExpr := edge.labelExpr
  indexedEdgeEquality := edge.indexedEdgeEquality
  edgeInlinePropertyPredicate := none
  edgeInlineVectorPredicate := none

def HopSpec.hasPredicate (hop : HopSpec E) : Bool :=
  hop.indexedEdgeEquality.isSome || hop.edgeInlinePropertyPredicate.isSome ||
    hop.edgeInlineVectorPredicate.isSome

/-- The simple directions a composite one stands for, in visiting order. -/
def EdgeDirection.parts : EdgeDirection → List EdgeDirection
  | .leftOrUndirected => [.pointingLeft, .undirected]
  | .undirectedOrRight => [.undirected, .pointingRight]
  | .leftOrRight => [.pointingLeft, .pointingRight]
  | .anyDirection => [.pointingLeft, .undirected, .pointingRight]
  | direction => [direction]

namespace LabelExpr

/-- `label_expr_supports_per_label_fusion`. -/
def supportsPerLabelFusion : LabelExpr → Bool
  | .wildcard | .not _ => false
  | .name _ => true
  | .and l r | .or l r => l.supportsPerLabelFusion && r.supportsPerLabelFusion

/-- `collect_edge_label_names_in_expr`. -/
def edgeLabelNames : LabelExpr → List String
  | .name label => [label]
  | .and l r | .or l r => l.edgeLabelNames ++ r.edgeLabelNames
  | .wildcard | .not _ => []

/-- `fusion_edge_label_ids_for_expr`. -/
def fusionEdgeLabels (expr : LabelExpr) : Option (List String) :=
  if expr.supportsPerLabelFusion then
    match expr.edgeLabelNames with
    | [] => none
    | names => some (names.eraseDups.mergeSort fun a b => decide (a ≤ b))
  else none

end LabelExpr

namespace Trail

def last (trail : Trail) : Nat := (trail.hops.getLast?.map (·.2)).getD trail.start

def vertices (trail : Trail) : List Nat := trail.start :: trail.hops.map (·.2)

end Trail

/-- `EdgeEqualityStreamFilter`. -/
inductive EqualityFilter where
  | all
  | noMatches
  | posted (edges : List Nat)
  | storeLookup (property : String) (expected : List (List UInt8))

namespace ExecContext

variable [ExtensionValue E] [BEq E] (ctx : ExecContext E)

/-- `edge_equality_stream_filter`. -/
def edgeEqualityFilter (index : Option PropertyIndex) (equality : Option (String × ScanValue E))
    (label : Option String) : Except QueryError EqualityFilter :=
  match equality with
  | none => .ok .all
  | some (property, value) => do
    let expected ← ctx.edgeProbes value
    if expected.isEmpty then return .noMatches
    else
      match ← ctx.edgeEqualHits index label property expected with
      | [] => return if index.isSome then .noMatches else .storeLookup property expected
      | postings => return .posted postings

/-- `edge_matches_stream_filter`. -/
def edgeMatchesFilter (filter : EqualityFilter) (edge : Nat) : Except QueryError Bool :=
  match filter with
  | .all => .ok true
  | .noMatches => .ok false
  | .posted edges => .ok (edges.contains edge)
  | .storeLookup property expected =>
    match ctx.graph.edgeProperty edge property with
    | none => .ok false
    | some actual =>
      match valueToIndexKeyBytes ctx.crates actual with
      | .error _ => .error (.invalidExpressionValue "indexed edge equality value encoding")
      | .ok key => .ok (expected.any (key == some ·))

/-- Candidates of a fused inline predicate: they need a label, and a directed hop. -/
def inlineCandidates (prepare : String → Except QueryError (Option (Nat → Bool)))
    (direction : EdgeDirection) (label : Option String) (descending : Bool) (src : Nat) :
    Except QueryError (List (Nat × Nat)) :=
  match label with
  | none => .ok []
  | some name => do
    match ← prepare name with
    | none => return []
    | some keep =>
      if direction = .pointingRight ∨ direction = .pointingLeft then
        return (ctx.csrEdges direction label descending src).filter (keep ·.1)
      else throw .unsupportedDirection

/-- `expand_candidates_into`.  An index that answers the equality owns the
lookup: the inline predicates are then not tested. -/
def hopCandidates (hop : HopSpec E) (direction : EdgeDirection) (label : Option String)
    (descending : Bool) (src : Nat) : Except QueryError (List (Nat × Nat)) := do
  let filter ← ctx.edgeEqualityFilter none hop.indexedEdgeEquality label
  let edges := ctx.csrEdges direction label descending src
  match filter with
  | .noMatches => return []
  | .posted postings => return edges.filter fun e => postings.contains e.1
  | filter =>
    match hop.edgeInlinePropertyPredicate, hop.edgeInlineVectorPredicate with
    | some predicate, _ =>
      ctx.inlineCandidates (ctx.inlinePropertyFilter predicate) direction label descending src
    | none, some predicate =>
      ctx.inlineCandidates (ctx.inlineVectorFilter predicate) direction label descending src
    | none, none => edges.filterM fun e => ctx.edgeMatchesFilter filter e.1

/-- The labels a hop is split over: a label expression next to a fused
predicate goes label by label. -/
def hopLabels (hop : HopSpec E) : List (Option String) :=
  match hop.label, hop.labelExpr with
  | none, some expr =>
    if hop.hasPredicate then
      match expr.fusionEdgeLabels.getD ctx.fusionLabels with
      | [] => [none]
      | labels => labels.map some
    else [none]
  | label, _ => [label]

/-- `expand_candidates_for_expand_op_into`. -/
def expandCandidates (hop : HopSpec E) (descending : Bool) (src : Nat) :
    Except QueryError (List (Nat × Nat)) := do
  let blocks ← hop.direction.parts.mapM fun direction => do
    let blocks ← (ctx.hopLabels hop).mapM fun label =>
      ctx.hopCandidates hop direction label descending src
    return blocks.flatten
  return blocks.flatten

/-- `edge_binding_matches_label_expr`. -/
def edgeMatchesLabelExpr (labelExpr : Option LabelExpr) (edge : Nat) : Bool :=
  labelExpr.all fun expr => expr.matchesEdge ((ctx.graph.edge edge).bind (·.label))

/-! ## Bindings of a hop -/

def vertexBindingForProjection (projection : Option (List String)) (vertex : Nat) : Binding E :=
  match projection with
  | none | some [] => .vertex vertex
  | some properties =>
    .value (.record (properties.map fun p => (p, ctx.readVertexProperty vertex p)))

def edgeToProjectedRecord (properties : List String) (edge : Nat) : Value E :=
  .record (properties.map fun p => (p, ctx.readEdgeProperty edge p))

def edgeBindingForProjection (projection : Option (List String)) (edge : Nat) : Binding E :=
  match projection with
  | none | some [] => .edge edge
  | some properties => .value (ctx.edgeToProjectedRecord properties edge)

def hopAuxScalar (edge : Nat) : Value E :=
  match ((ctx.graph.edge edge).map (·.inlineBytes)).getD [] with
  | [] => .null
  | bytes => .bytes bytes

/-- `expand_dst_matches_prebound_vertex`. -/
def dstMatchesPrebound (row : Row E) (dst : String) (vertex : Nat) : Bool :=
  match row.lookup dst with
  | some (.vertex id) => id == vertex
  | none => true
  | _ => false

def dstFilterIsDstVertexOnly (dstFilter : List (Expr E)) (dst : String) : Bool :=
  !dstFilter.isEmpty && dstFilter.all fun p => p.collectVariables.all (· == dst)

/-- The updates of `build_expanded_row`. -/
def expandUpdates (spec : ExpandSpec E) (candidate : Nat × Nat) : List (String × Binding E) :=
  (if spec.emitEdgeBinding then
    [(spec.edge, ctx.edgeBindingForProjection spec.edgePropertyProjection candidate.1)]
  else []) ++
  [(spec.dst, ctx.vertexBindingForProjection spec.dstPropertyProjection candidate.2)] ++
  (spec.hopAuxBinding.map fun key => (key, Binding.value (ctx.hopAuxScalar candidate.1))).toList

/-- One candidate edge of a row, the loop body of `execute_expand` and
`stream_expand`.  A filter over the far end alone is evaluated on that vertex,
before any projection of it. -/
def expandCandidate (spec : ExpandSpec E) (dstFilter : List (Expr E)) (checkLabel : Bool)
    (filter : EqualityFilter) (specs : Option (List (AggregateSpec E))) (row : Row E)
    (candidate : Nat × Nat) : Except QueryError (Option (Row E)) := do
  if checkLabel && !ctx.edgeMatchesLabelExpr spec.labelExpr candidate.1 then return none
  else if !(← ctx.edgeMatchesFilter filter candidate.1) then return none
  else if !dstMatchesPrebound row spec.dst candidate.2 then return none
  else
    let expanded := row.fork (ctx.expandUpdates spec candidate)
    if dstFilterIsDstVertexOnly dstFilter spec.dst then
      let stub : Row E := Row.fork ∅ [(spec.dst, .vertex candidate.2)]
      return if ← ctx.rowMatchesAll none stub dstFilter then some expanded else none
    else return if ← ctx.rowMatchesAll specs expanded dstFilter then some expanded else none

/-- `resolve_traversal_expand_source`: a row without a source is dropped. -/
def expandSource : Option (Binding E) → Except QueryError (Option Nat)
  | none | some (.value .null) => .ok none
  | some (.vertex id) => .ok (some id)
  | some _ => .error (.missingBinding "expand source")

/-- `local_vertex_binding_for_limited_streaming_expand`: here an unbound source
is an error. -/
def streamExpandSource (row : Row E) (name : String) : Except QueryError (Option Nat) :=
  match row.lookup name with
  | some (.value .null) => .ok none
  | some (.vertex id) => .ok (some id)
  | _ => .error (.missingBinding name)

/-! ## Variable length -/

section

variable (spec : ExpandSpec E)

/-- The updates of `build_var_len_row`. -/
def varLenUpdates (trail : Trail) : List (String × Binding E) :=
  let edges := trail.hops.map (·.1)
  let edgeBinding : Binding E := match spec.edgePropertyProjection with
    | none | some [] => .edgeGroup edges
    | some properties => .value (.list (edges.map (ctx.edgeToProjectedRecord properties)))
  [(spec.dst, ctx.vertexBindingForProjection spec.dstPropertyProjection trail.last)] ++
  (if spec.emitEdgeBinding then [(spec.edge, edgeBinding)] else []) ++
  (spec.hopAuxBinding.map fun key =>
    (key, Binding.value (.list (edges.map ctx.hopAuxScalar)))).toList ++
  (spec.nearGroupVar.map fun key =>
    (key, Binding.vertexGroup trail.vertices.dropLast)).toList ++
  (spec.farGroupVar.map fun key => (key, Binding.vertexGroup (trail.hops.map (·.2)))).toList ++
  (if spec.emitPathBinding then
    (spec.pathVar.map fun key => (key, Binding.path trail)).toList else [])

/-- The row of one walk, if its end and the filter allow it. -/
def varLenRow (dstFilter : List (Expr E)) (specs : Option (List (AggregateSpec E))) (row : Row E)
    (trail : Trail) : Except QueryError (Option (Row E)) := do
  if dstMatchesPrebound row spec.dst trail.last then
    let expanded := row.fork (ctx.varLenUpdates spec trail)
    return if ← ctx.rowMatchesAll specs expanded dstFilter then some expanded else none
  else return none

/-- The walks one hop longer; no vertex is visited twice. -/
def extendTrail (trail : Trail) : Except QueryError (List Trail) := do
  let candidates ← ctx.expandCandidates spec.hop false trail.last
  return (candidates.filter fun c => ctx.edgeMatchesLabelExpr spec.labelExpr c.1 &&
    !trail.vertices.contains c.2).map fun c => { trail with hops := trail.hops ++ [c] }

/-- One walk taken from the queue: its row, and the walks one hop longer. -/
def varLenVisit (dstFilter : List (Expr E)) (specs : Option (List (AggregateSpec E))) (row : Row E)
    (min fuel depth : Nat) (trail : Trail) : Except QueryError (Option (Row E) × List Trail) := do
  let found ← (if min ≤ depth then ctx.varLenRow spec dstFilter specs row trail else .ok none)
  let next ← (if fuel = 0 then .ok [] else ctx.extendTrail spec trail)
  return (found, next)

end

/-- The search queue, level by level; `fuel` counts the hops left to `max`. -/
def varLenLevels (spec : ExpandSpec E) (dstFilter : List (Expr E))
    (specs : Option (List (AggregateSpec E))) (row : Row E) (min : Nat) :
    Nat → Nat → List Trail → Except QueryError (List (Row E))
  | _, _, [] => .ok []
  | fuel, depth, trail :: trails => do
    let visited ← (trail :: trails).mapM
      (ctx.varLenVisit spec dstFilter specs row min fuel depth)
    let rows := visited.filterMap (·.1)
    match fuel with
    | 0 => return rows
    | fuel + 1 =>
      return rows ++ (← varLenLevels spec dstFilter specs row min fuel (depth + 1)
        (visited.flatMap (·.2)))

/-- `collect_var_len_expand_rows`. -/
def varLenRows (spec : ExpandSpec E) (varLen : VarLenSpec) (dstFilter : List (Expr E))
    (specs : Option (List (AggregateSpec E))) (row : Row E) (src : Nat) :
    Except QueryError (List (Row E)) :=
  ctx.varLenLevels spec dstFilter specs row varLen.min
    (varLen.max.getD (ctx.vertexCount - 1)) 0 [⟨src, []⟩]

/-! ## Edges first -/

/-- The near and the far end of an edge seen along a direction. -/
def edgeEnds (direction : EdgeDirection) (e : Edge E) : Except QueryError (Nat × Nat) :=
  match direction with
  | .pointingRight | .undirected => .ok (e.src, e.dst)
  | .pointingLeft => .ok (e.dst, e.src)
  | _ => .error .unsupportedDirection

/-- `execute_edge_bind_endpoints` of one row.  Only the far end is checked
against a binding; the near end is overwritten. -/
def edgeBindRow (spec : EdgeBindSpec) (row : Row E) : Except QueryError (List (Row E)) :=
  match row.lookup spec.edge with
  | some (.edge id) =>
    match ctx.graph.edge id with
    | none => .ok []
    | some e =>
      if spec.label.all (e.label == some ·) then do
        let (near, far) ← edgeEnds spec.direction e
        if dstMatchesPrebound row spec.far far then
          return [row.fork
            ([(spec.near, ctx.vertexBindingForProjection spec.nearPropertyProjection near),
              (spec.far, ctx.vertexBindingForProjection spec.farPropertyProjection far)] ++
            (spec.hopAuxBinding.map fun key =>
              (key, Binding.value (ctx.hopAuxScalar id))).toList)]
        else return []
      else .ok []
  | _ => .error (.missingBinding spec.edge)

/-! ## Cyclic patterns -/

/-- `vertex_id_from_row` of the join. -/
def wcojVertex (row : Row E) (key : String) : Except QueryError (Option Nat) :=
  match row.lookup key with
  | some (.vertex id) => .ok (some id)
  | none => .ok none
  | some _ => .error (.invalidExpressionValue ("WCOJ expected vertex binding for " ++ key ++ ", got"))

/-- The updates of `bind_wcoj_hop`. -/
def wcojUpdates (edge : WcojEdge E) (candidate : Nat × Nat) : List (String × Binding E) :=
  [(edge.dst, .vertex candidate.2), (edge.edge, .edge candidate.1)] ++
  (edge.hopAuxBinding.map fun key => (key, Binding.value (ctx.hopAuxScalar candidate.1))).toList

/-- `single_hop_candidates`. -/
def wcojCandidates (edge : WcojEdge E) (row : Row E) (src : Nat) (required : Option Nat) :
    Except QueryError (List (Nat × Nat)) := do
  let candidates ← ctx.expandCandidates edge.hop false src
  return candidates.filter fun c => ctx.edgeMatchesLabelExpr edge.labelExpr c.1 &&
    required.all (· == c.2) && dstMatchesPrebound row edge.dst c.2

/-- Hop after hop, the last one back to the anchor. -/
def wcojSearch (anchor : Nat) : List (WcojEdge E) → Row E → Except QueryError (List (Row E))
  | [], _ => .ok []
  | edge :: edges, row => do
    match ← wcojVertex row edge.src with
    | none => return []
    | some src =>
      let required := if edges.isEmpty then some anchor else none
      let blocks ← (← ctx.wcojCandidates edge row src required).mapM fun candidate => do
        let expanded := row.fork (ctx.wcojUpdates edge candidate)
        if ← ctx.rowMatchesAll none expanded edge.dstFilter then
          if edges.isEmpty then return [expanded] else wcojSearch anchor edges expanded
        else return []
      return blocks.flatten

/-- `execute_wcoj` of one row. -/
def wcojRow (edges : List (WcojEdge E)) (row : Row E) : Except QueryError (List (Row E)) :=
  match edges with
  | [] => .ok []
  | edge :: _ => do
    match ← wcojVertex row edge.src with
    | none => return []
    | some anchor => ctx.wcojSearch anchor edges row

end ExecContext

end Gleaph
