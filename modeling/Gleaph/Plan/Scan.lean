import Gleaph.Plan.Op

/-!
# Gleaph.Plan.Scan

The scans that start a pipeline (`crates/graph/src/plan/query/executor/scan/`):
which vertices or edges a scan operator binds.  None of them looks at the row
it extends, so each is a list of hits that `bindHits` then binds on every row.

An index scan whose bound has no ordered key interval falls back to all
vertices: the plan's residual filter is expected to decide.
-/

namespace Gleaph

variable {E : Type}

/-! ## The property index -/

def maxIndexValueKeyBytes : Nat := 4096

/-- `ValueIndexKeyError`'s `Display`. -/
def ValueIndexKeyError.message : ValueIndexKeyError → String
  | .unsupportedValue => "value is not supported by property index keys"
  | .nonFiniteFloat => "non-finite float is not supported by property index keys"
  | .unsupportedRangeDomain => "value's comparison domain does not support ordered index ranges"

/-- The postings of one physical index in key order: encoded value and element. -/
abbrev PostingList := List (List UInt8 × Nat)

def PostingList.lookupEqual (postings : PostingList) (key : List UInt8) : List Nat :=
  (postings.filter (·.1 == key)).map (·.2)

def keyBetween (low high key : List UInt8) : Bool :=
  compare low key != .gt && compare key high == .lt

/-- `lookup_range` over `PostingRangeRequest::Between`. -/
def PostingList.lookupRange (postings : PostingList) (low high : List UInt8) : List Nat :=
  (postings.filter fun p => keyBetween low high p.1).map (·.2)

/-- The index client of a shard. -/
structure PropertyIndex where
  /-- The postings of a vertex property, `none` without a unique active index. -/
  vertices : String → Option PostingList
  /-- The active indexes of an edge property, of one label or of all. -/
  edges : Option String → String → List PostingList
  /-- `lookup_intersection`: which order the common vertices come in is up to
  the client. -/
  intersect : List (String × List UInt8) → List Nat

/-! ## The executor's surroundings -/

/-- What plan execution reads besides its rows.  As in `EvalContext`, the
functions stand for code no modelled function looks into. -/
structure ExecContext (E : Type) extends EvalContext E where
  index : Option PropertyIndex
  /-- `is_edge_property_indexed`. -/
  edgeIndexed : String → Bool
  /-- `store.vertex_count()`: ids given out so far. -/
  vertexCount : Nat
  /-- `for_each_csr_expand_edge`: the edges of a vertex in a simple direction,
  of one label or of all, each with its far end, in storage order or (`true`)
  against it. -/
  csrEdges : EdgeDirection → Option String → Bool → Nat → List (Nat × Nat)
  /-- `PreparedEdgeInlinePropertyPredicate::prepare` for a label, then the
  test of an edge. -/
  inlinePropertyFilter : EdgeInlinePropertyPredicate E → String →
    Except QueryError (Option (Nat → Bool))
  /-- `PreparedEdgeInlineVectorThreshold::prepare`. -/
  inlineVectorFilter : EdgeInlineVectorPredicate E → String →
    Except QueryError (Option (Nat → Bool))
  /-- `catalog_edge_label_ids_for_predicate_fusion`. -/
  fusionLabels : List String
  /-- The walks a shortest-path search between two vertices finds. -/
  shortestPaths : ShortestPathSpec E → Nat → Nat → Except QueryError (List Trail)
  /-- The score of each surviving candidate of the query's `SEARCH`. -/
  searchLookup : Except QueryError (List (Nat × BitVec 64))
  /-- Edge labels declared `ORDER BY INSERTION`. -/
  insertionOrdered : String → Bool
  /-- `execute_aggregate`. -/
  aggregate : List (Row E) → List (Expr E) → List (AggregateSpec E) →
    Except QueryError (List (Row E))

namespace ExecContext

variable [ExtensionValue E] (ctx : ExecContext E)

/-! ## Bounds -/

def resolveScanBoundValue : ScanValue E → Except QueryError (Value E)
  | .literal value => .ok value
  | .parameter name => ctx.parameter name
  | .inList _ => .error (.unsupportedOp "IndexScan(unexpanded IN-list scan value)")
  | .textPrefix _ => .error (.unsupportedOp "IndexScan(unlowered text-prefix scan value)")

/-- `none` for a null bound. -/
def validatedIndexPayloadBytes (value : Value E) : Except QueryError (Option (List UInt8)) :=
  match valueToIndexKeyBytes ctx.crates value with
  | .error _ => .error (.invalidExpressionValue "index scan value encoding")
  | .ok none => .ok none
  | .ok (some key) =>
    if key.length ≤ maxIndexValueKeyBytes then .ok (some key)
    else .error (.invalidExpressionValue "index value key exceeds maximum encoded size")

def resolveScanPayloadBytes (value : ScanValue E) : Except QueryError (Option (List UInt8)) := do
  ctx.validatedIndexPayloadBytes (← ctx.resolveScanBoundValue value)

def boundsFit (low high : List UInt8) : Bool :=
  low.length ≤ maxIndexValueKeyBytes && high.length ≤ maxIndexValueKeyBytes

/-- Both bounds of an interval are checked before the index is asked. -/
def checkBounds (low high : List UInt8) : Except QueryError Unit :=
  if boundsFit low high then .ok ()
  else .error (.invalidExpressionValue "index range bound exceeds maximum encoded size")

/-! ## Vertex scans -/

/-- The vertices a node scan visits, in id order. -/
def scanVertices (label : Option String) : List Nat :=
  (ctx.graph.vertices.filter fun v => label.all v.labels.contains).map (·.id)

/-- Hits on vertices that are gone are dropped. -/
def liveVertices (hits : List Nat) : List Nat := hits.filter fun id => (ctx.graph.vertex id).isSome

/-- The client and the unique active index of a property; `op` is the operator
that asks. -/
def indexClient (op : String) : Except QueryError PropertyIndex :=
  match ctx.index with
  | some index => .ok index
  | none => .error (.unsupportedOp (op ++ "(no index client)"))

def uniqueIndex (op : String) (index : PropertyIndex) (property : String) :
    Except QueryError PostingList :=
  match index.vertices property with
  | some postings => .ok postings
  | none => .error (.unsupportedOp (op ++ "(no unique physical index namespace)"))

/-- Equality probes: several are answered in encoded key order, each vertex
once; a null probe has no block. -/
def equalHits (postings : PostingList) (probes : List (Option (List UInt8))) : List Nat :=
  if 1 < probes.length then
    let blocks := (probes.filterMap id).mergeSort fun a b => compare a b != .gt
    (blocks.eraseDups.flatMap postings.lookupEqual).eraseDups
  else
    match probes.filterMap id with
    | [] => []
    | key :: _ => postings.lookupEqual key

/-- `execute_text_prefix_index_scan`. -/
def textPrefixHits (index : PropertyIndex) (property : String) (pattern : Value E) :
    Except QueryError (List Nat) :=
  match textPrefixRangeBounds ctx.crates pattern with
  | .ok (low, high) => do
    checkBounds low high
    let postings ← uniqueIndex "IndexScan" index property
    return ctx.liveVertices (postings.lookupRange low high).eraseDups
  | .error .unsupportedRangeDomain => .ok (ctx.scanVertices none)
  | .error error =>
    if error = .unsupportedValue ∧ pattern.isNull then .ok []
    else .error (.invalidExpressionValue ("index scan prefix bound: " ++ error.message))

/-- A one-sided range bound: an empty interval has no hits, an unordered
domain falls back to every vertex. -/
def rangeHits (postings : PostingList) (value : Value E) (cmp : CmpOp) :
    Except QueryError (List Nat) :=
  match rangeBounds ctx.crates value cmp with
  | .ok (low, high) =>
    if compare low high = .lt then do
      checkBounds low high
      return ctx.liveVertices (postings.lookupRange low high)
    else .ok []
  | .error .unsupportedRangeDomain => .ok (ctx.scanVertices none)
  | .error error =>
    .error (.invalidExpressionValue ("index scan range bound: " ++ error.message))

/-- `execute_index_scan`: the vertices it binds, in delivery order. -/
def indexScanHits (property : String) (value : ScanValue E) (cmp : CmpOp) :
    Except QueryError (List Nat) := do
  let index ← ctx.indexClient "IndexScan"
  match value with
  | .textPrefix pattern =>
    if cmp = .eq then ctx.textPrefixHits index property (← ctx.resolveScanBoundValue pattern)
    else throw (.unsupportedOp "IndexScan(text-prefix scan with non-equality comparison)")
  | .inList elements =>
    if cmp = .eq then
      -- every element is resolved before the first is encoded
      let values ← elements.mapM ctx.resolveScanBoundValue
      let probes ← values.mapM ctx.validatedIndexPayloadBytes
      return ctx.liveVertices (equalHits (← uniqueIndex "IndexScan" index property) probes)
    else throw (.unsupportedOp "IndexScan(IN list with non-equality comparison)")
  | single =>
    let bound ← ctx.resolveScanBoundValue single
    let probe ← ctx.validatedIndexPayloadBytes bound
    let postings ← uniqueIndex "IndexScan" index property
    if cmp = .eq then return ctx.liveVertices (equalHits postings [probe])
    else ctx.rangeHits postings bound cmp

/-- How a candidate of a conditional scan asks the index; `none` takes the
labelled node scan. -/
def conditionalLookup (cmp : CmpOp) (value : Value E) : Option (PostingList → List Nat) :=
  match valueToIndexKeyBytes ctx.crates value with
  | .ok (some key) =>
    if maxIndexValueKeyBytes < key.length then none
    else if cmp = .eq then some (·.lookupEqual key)
    else
      match rangeBounds ctx.crates value cmp with
      | .ok (low, high) =>
        if compare low high = .lt ∧ boundsFit low high then some (·.lookupRange low high)
        else none
      | .error _ => none
  | _ => none

/-- `execute_conditional_index_scan`: the first candidate whose parameter is
not null decides; the variable it binds comes with its hits. -/
def conditionalScanHits (fallbackLabel : Option String) (fallbackVariable : String) :
    List ConditionalScanCandidate → Except QueryError (String × List Nat)
  | [] => .ok (fallbackVariable, ctx.scanVertices fallbackLabel)
  | candidate :: candidates =>
    match ctx.parameters candidate.paramName with
    | none | some .null => conditionalScanHits fallbackLabel fallbackVariable candidates
    | some value =>
      match ctx.conditionalLookup candidate.cmp value with
      | none => .ok (fallbackVariable, ctx.scanVertices fallbackLabel)
      | some lookup => do
        let index ← ctx.indexClient "ConditionalIndexScan"
        let postings ← uniqueIndex "ConditionalIndexScan" index candidate.property
        return (candidate.name, ctx.liveVertices (lookup postings))

/-- The probes of an intersection; `none` when one of them is null. -/
def intersectionProbes (index : PropertyIndex) : List (IndexScanSpec E) →
    Except QueryError (Option (List (String × List UInt8)))
  | [] => .ok (some [])
  | spec :: specs =>
    if spec.cmp = .eq then do
      match ← ctx.resolveScanPayloadBytes spec.value with
      | none => return none
      | some key =>
        let _ ← uniqueIndex "IndexIntersection" index spec.property
        return (← intersectionProbes index specs).map ((spec.property, key) :: ·)
    else .error (.unsupportedOp "IndexIntersection.cmp")

/-- `execute_index_intersection`: fewer than two probes bind nothing. -/
def intersectionHits (specs : List (IndexScanSpec E)) : Except QueryError (List Nat) := do
  let index ← ctx.indexClient "IndexIntersection"
  match ← ctx.intersectionProbes index specs with
  | none => return []
  | some probes =>
    if probes.length < 2 then return [] else return ctx.liveVertices (index.intersect probes)

/-! ## Edge scans -/

def sortableIndexKey (value : Value E) : Option (List UInt8) :=
  match valueToIndexKeyBytes ctx.crates value with
  | .ok (some key) => if key.length ≤ maxIndexValueKeyBytes then some key else none
  | _ => none

/-- `collect_edges_matching_indexed_property_where`: the scan of the stored
edge properties, in the order of the graph's edges. -/
def edgesMatchingIndexed (label : Option String) (property : String)
    (keep : List UInt8 → Bool) : List Nat :=
  if ctx.edgeIndexed property then
    (ctx.graph.edges.filter fun e => label.all (e.label == some ·) &&
      ((lookupProperty e.properties property).bind ctx.sortableIndexKey).any keep).map (·.id)
  else []

/-- Postings of every active index of the property, or of the store when the
caller has no index client. -/
def edgePostings (index : Option PropertyIndex) (label : Option String) (property : String)
    (lookup : PostingList → List Nat) (keep : List UInt8 → Bool) :
    Except QueryError (List Nat) :=
  match index with
  | none => .ok (ctx.edgesMatchingIndexed label property keep)
  | some index =>
    match index.edges label property with
    | [] => .error (.unsupportedOp "EdgeIndex(no active physical index namespace)")
    | indexes => .ok (indexes.flatMap lookup).eraseDups

/-- `lookup_edge_equal_union_local`; a single probe is the union of one. -/
def edgeEqualHits (index : Option PropertyIndex) (label : Option String) (property : String)
    (keys : List (List UInt8)) : Except QueryError (List Nat) := do
  let blocks ← keys.mapM fun key =>
    ctx.edgePostings index label property (·.lookupEqual key) (· == key)
  return blocks.flatten.eraseDups

variable (property : String)

/-- `lookup_edge_range_local` behind its size check. -/
def edgeRangeHits (low high : List UInt8) : Except QueryError (List Nat) := do
  checkBounds low high
  ctx.edgePostings ctx.index none property (·.lookupRange low high) (keyBetween low high)

/-- `lookup_edge_range_fallback_local`. -/
def edgeRangeFallback : List Nat :=
  ctx.edgesMatchingIndexed none property fun _ => true

/-- `execute_edge_text_prefix_candidates`. -/
def edgeTextPrefixHits (pattern : Value E) : Except QueryError (List Nat) :=
  match textPrefixRangeBounds ctx.crates pattern with
  | .ok (low, high) => ctx.edgeRangeHits property low high
  | .error .unsupportedRangeDomain => .ok (ctx.edgeRangeFallback property)
  | .error error =>
    if error = .unsupportedValue ∧ pattern.isNull then .ok []
    else .error (.invalidExpressionValue ("edge index scan prefix bound: " ++ error.message))

/-- `execute_edge_index_range_candidates`. -/
def edgeIndexRangeHits (value : Value E) (cmp : CmpOp) : Except QueryError (List Nat) :=
  match rangeBounds ctx.crates value cmp with
  | .ok (low, high) =>
    if compare low high = .lt then ctx.edgeRangeHits property low high else .ok []
  | .error .unsupportedRangeDomain => .ok (ctx.edgeRangeFallback property)
  | .error error =>
    .error (.invalidExpressionValue ("edge index scan range bound: " ++ error.message))

/-- `resolve_edge_equality_probe_payloads`, null probes dropped. -/
def edgeProbes : ScanValue E → Except QueryError (List (List UInt8))
  | .inList elements => do return (← elements.mapM ctx.resolveScanPayloadBytes).filterMap id
  | single => do return (← ctx.resolveScanPayloadBytes single).toList

/-- `execute_edge_index_scan`: the edges it binds. -/
def edgeScanHits (value : ScanValue E) (cmp : CmpOp) : Except QueryError (List Nat) := do
  let hits ← match value with
    | .textPrefix pattern =>
      if cmp = .eq then
        do ctx.edgeTextPrefixHits property (← ctx.resolveScanBoundValue pattern)
      else
        .error (.unsupportedOp "EdgeIndexScan(text-prefix scan with non-equality comparison)")
    | value =>
      if cmp = .eq then do
        ctx.edgeEqualHits ctx.index none property (← ctx.edgeProbes value)
      else do ctx.edgeIndexRangeHits property (← ctx.resolveScanBoundValue value) cmp
  return hits.filter fun id => (ctx.graph.edge id).isSome

end ExecContext

/-! ## Binding hits -/

/-- One row per hit, the variable bound to it. -/
def bindHits (name : String) (binding : Nat → Binding E) (hits : List Nat) (row : Row E) :
    List (Row E) :=
  hits.map fun id => row.fork [(name, binding id)]

end Gleaph
