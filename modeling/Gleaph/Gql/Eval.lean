import Gleaph.Panic
import Gleaph.Gql.Expr
import Gleaph.Gql.Row

/-!
# Gleaph.Gql.Eval

Evaluation of expressions over a row (`crates/graph/src/plan/expr_evaluator.rs`,
`crates/graph/src/plan/query/executor/eval.rs`).

Predicates are three-valued: `NULL` stands for unknown.  Comparing values of
different kinds is an error, not unknown, and a failing subexpression fails
the whole expression unless `COALESCE` or `CASE` never reaches it.  A message
that quotes a value or an expression in debug form stops before the quote.

`evalExpr_congr` is the frame lemma of evaluation: a row matters only through
the variables the planner's walk collects, as long as the expression has none
of the forms that walk misses.
-/

namespace Gleaph

variable {E : Type}

/-! ## Value-level operators -/

section Operators

variable [ExtensionValue E] [BEq E]

/-- `none` is unknown. -/
def truthy : Value E → Except ExprEvaluationError (Option Bool)
  | .bool b => .ok (some b)
  | .null => .ok none
  | _ => .error .invalidValue

/-- Three-valued truth as a value. -/
def ofTruth : Option Bool → Value E
  | some b => .bool b
  | none => .null

def evalNot : Value E → Except ExprEvaluationError (Value E)
  | .bool b => .ok (.bool !b)
  | .null => .ok .null
  | _ => .error .invalidValue

def andTruth : Option Bool → Option Bool → Option Bool
  | some false, _ => some false
  | _, some false => some false
  | some true, some true => some true
  | _, _ => none

def orTruth : Option Bool → Option Bool → Option Bool
  | some true, _ => some true
  | _, some true => some true
  | some false, some false => some false
  | _, _ => none

def xorTruth : Option Bool → Option Bool → Option Bool
  | some a, some b => some (a != b)
  | _, _ => none

/-- `eval_and_expr`, `eval_or_expr` and `eval_xor_expr`: both sides must be
truth values. -/
def evalLogic (table : Option Bool → Option Bool → Option Bool) (left right : Value E) :
    Except ExprEvaluationError (Value E) := do
  let l ← truthy left
  let r ← truthy right
  return ofTruth (table l r)

/-- What a comparison operator asks of an ordering. -/
def CmpOp.matched : CmpOp → Ordering → Bool
  | eq, o => o == .eq
  | ne, o => o != .eq
  | lt, o => o == .lt
  | le, o => o != .gt
  | gt, o => o == .gt
  | ge, o => o != .lt

/-- `eval_compare_expr`.  A panic of the comparison is kept apart from the
evaluation error for incomparable values. -/
def evalCompare (crates : Crates) (left : Value E) (op : CmpOp) (right : Value E) :
    Except QueryError (Value E) :=
  if left.isNull || right.isNull then .ok .null
  else
    match compareValues crates left right with
    | .error message => .error (.panic message)
    | .ok none => .error (.evaluation .incomparableValues)
    | .ok (some ordering) => .ok (.bool (op.matched ordering))

/-- The loop of `eval_in_list_expr`: every element is compared. -/
def evalInListLoop (crates : Crates) (left : Value E) :
    List (Value E) → Bool → Bool → Except QueryError (Value E)
  | [], matched, sawUnknown =>
    .ok (if matched then .bool true else if sawUnknown then .null else .bool false)
  | element :: elements, matched, sawUnknown => do
    match ← evalCompare crates left .eq element with
    | .bool true => evalInListLoop crates left elements true sawUnknown
    | .null => evalInListLoop crates left elements matched true
    | _ => evalInListLoop crates left elements matched sawUnknown

/-- `left IN (elements…)`. -/
def evalInList (crates : Crates) (left : Value E) (elements : List (Value E)) :
    Except QueryError (Value E) :=
  evalInListLoop crates left elements false left.isNull

def evalConcat : Value E → Value E → Except ExprEvaluationError (Value E)
  | .null, _ => .ok .null
  | _, .null => .ok .null
  | .text a, .text b => .ok (.text (a ++ b))
  | .bytes a, .bytes b => .ok (.bytes (a ++ b))
  | _, _ => .error .invalidValue

def evalIsTruth (value : Value E) : TruthValue → Bool
  | .true => match value with | .bool b => b | _ => Bool.false
  | .false => match value with | .bool b => !b | _ => Bool.false
  | .unknown => value.isNull

/-- `NULLIF`: a null operand leaves the left value. -/
def evalNullIf (crates : Crates) (left right : Value E) : Except QueryError (Value E) :=
  if left.isNull || right.isNull then .ok left
  else do
    match ← evalCompare crates left .eq right with
    | .bool true => return .null
    | _ => return left

def negateIf (negated : Bool) (value : Value E) : Except ExprEvaluationError (Value E) :=
  if negated then evalNot value else .ok value

end Operators

/-! ## Aggregates in a plan -/

structure AggregateSpec (E : Type) where
  func : AggregateFunc
  expr : Option (Expr E)
  expr2 : Option (Expr E)
  distinct : Bool
  filter : Option (Expr E)
  orderBy : List (SortItem (Expr E))
  aliasName : Option String

def aggregateSlotKey (index : Nat) : String := "__gleaph_agg_" ++ toString index

/-! ## What evaluation runs over -/

/-- The evaluator's surroundings.  The functions stand for code whose result
no modelled function depends on. -/
structure EvalContext (E : Type) where
  graph : Graph E
  crates : Crates
  ids : ElementIds
  /-- Parameters by name, without the leading `$`. -/
  parameters : String → Option (Value E)
  primitive : Primitive → List (Value E) → Except ExprEvaluationError (Value E)
  /-- `try_eval_runtime_function_call`: arguments are not evaluated. -/
  runtimeFunction : List String → List (Expr E) → Bool → Except QueryError (Option (Value E))
  clock : String → Value E
  /-- `aggregate_expr_matches_spec`: the slot of an aggregate expression. -/
  aggregateSlot : Expr E → List (AggregateSpec E) → Option Nat

def paramMapKey (name : String) : String := ((name.dropPrefix? "$").map (·.toString)).getD name

namespace EvalContext

variable [ExtensionValue E] [BEq E] (ctx : EvalContext E)

def parameter (name : String) : Except QueryError (Value E) :=
  match ctx.parameters (paramMapKey name) with
  | some value => .ok value
  | none => .error (.missingParameter name)

def bindingValue (row : Row E) (name : String) : Except QueryError (Value E) :=
  match row.lookup name with
  | some binding => binding.toValue ctx.graph ctx.ids
  | none => .error (.missingBinding name)

def evalError {α : Type} : Except ExprEvaluationError α → Except QueryError α
  | .ok a => .ok a
  | .error e => .error (.evaluation e)

/-- Operators over their evaluated arguments. -/
def applyStrict : StrictOp → List (Value E) → Except QueryError (Value E)
  | .not, [v] => evalError (evalNot v)
  | .and, [l, r] => evalError (evalLogic andTruth l r)
  | .or, [l, r] => evalError (evalLogic orTruth l r)
  | .xor, [l, r] => evalError (evalLogic xorTruth l r)
  | .isNull, [v] => .ok (.bool v.isNull)
  | .isNotNull, [v] => .ok (.bool !v.isNull)
  | .inList negated, v :: elements => do
    evalError (negateIf negated (← evalInList ctx.crates v elements))
  | .stringPredicate kind negated, args => evalError do
      negateIf negated (← ctx.primitive (.stringPredicate kind) args)
  | .isTruth value negated, [v] => .ok (.bool (evalIsTruth v value != negated))
  | .concat, [l, r] => evalError (evalConcat l r)
  | .nullIf, [l, r] => evalNullIf ctx.crates l r
  | .listLiteral, items => .ok (.list items)
  | .recordLiteral names, values => .ok (.record (names.zip values))
  | .primitive function, args => evalError (ctx.primitive function args)
  | _, _ => .error (.unsupportedExpression "operands")

/-- `list_index_to_i64`. -/
def listIndex : Value E → Except QueryError Int
  | .int .w64 v | .int .w32 v => .ok v.toInt
  | .uint .w64 v =>
    if v.toNat < 2 ^ 63 then .ok v.toNat
    else .error (.invalidExpressionValue ("list index out of range: " ++ toString v.toNat))
  | .null => .error (.invalidExpressionValue "list index is null")
  | _ => .error (.invalidExpressionValue "list index must be integral, got")

/-- The element at an index, counted from the end when negative. -/
def elementAt {α : Type} (items : List α) (index : Int) : Option α :=
  let position := if index < 0 then items.length + index else index
  if position < 0 then none else items[position.toNat]?

def listIndexIntoValue (value : Value E) (index : Int) : Except QueryError (Value E) :=
  match value with
  | .list items => .ok ((elementAt items index).getD .null)
  | _ => .error (.invalidExpressionValue "list index requires a list, got")

/-- Indexing into what a variable is bound to. -/
def indexBinding (binding : Binding E) (index : Int) : Except QueryError (Value E) :=
  match binding with
  | .edgeGroup edges =>
    match elementAt edges index with
    | some edge => ctx.graph.edgeToValue edge
    | none => .ok .null
  | .vertexGroup vertices =>
    match elementAt vertices index with
    | some vertex => ctx.graph.vertexToValue vertex
    | none => .ok .null
  | .pathGroup trails => .ok (((elementAt trails index).map (Trail.toValue ctx.ids)).getD .null)
  | binding => do listIndexIntoValue (← binding.toValue ctx.graph ctx.ids) index

def readVertexProperty (id : Nat) (property : String) : Value E :=
  (ctx.graph.vertexProperty id property).getD .null

/-- `read_edge_binding_property`. -/
def readEdgeProperty (id : Nat) (property : String) : Value E :=
  (ctx.graph.edgeProperty id property).getD .null

def groupAccessError (kind name property : String) : QueryError :=
  .invalidExpressionValue ("property access on group " ++ kind ++ " variable '" ++ name ++ "." ++
    property ++ "' requires element indexing")

/-- Property of a variable, by what it is bound to. -/
def bindingProperty (name property : String) : Option (Binding E) → Except QueryError (Value E)
  | some (.vertex id) => .ok (ctx.readVertexProperty id property)
  | some (.edge id) => .ok (ctx.readEdgeProperty id property)
  | some (.value value) => .ok (value.propertyFromValue property)
  | some (.path trail) => .ok ((trail.toValue ctx.ids).recordProperty property)
  | some (.edgeGroup _) => .error (groupAccessError "edge" name property)
  | some (.vertexGroup _) => .error (groupAccessError "node" name property)
  | some (.pathGroup _) => .error (groupAccessError "path" name property)
  | none => .error (.missingBinding name)

/-- `eval_is_labeled` of a variable. -/
def bindingIsLabeled (name : String) (label : LabelExpr) :
    Option (Binding E) → Except QueryError Bool
  | some (.vertex id) => .ok (((ctx.graph.vertex id).map (label.matchesVertex ·.labels)).getD false)
  | some _ => .ok false
  | none => .error (.missingBinding name)

/-- `eval_element_id` of a variable. -/
def bindingElementId (name : String) : Option (Binding E) → Except QueryError (Value E)
  | some (.vertex id) => .ok (.bytes (ctx.ids.vertex id))
  | some (.edge id) => .ok (.bytes (ctx.ids.edge id))
  | some (.edgeGroup edges) => .ok (.list (edges.map fun id => .bytes (ctx.ids.edge id)))
  | some (.vertexGroup vertices) => .ok (.list (vertices.map fun id => .bytes (ctx.ids.vertex id)))
  | some (.pathGroup _) =>
    .error (.invalidExpressionValue ("ELEMENT_ID(" ++ name ++ ") on a group path variable is " ++
      "not supported: paths are not elements; use CARDINALITY(" ++ name ++
      ") or path element access instead"))
  | some (.value .null) => .ok .null
  | some _ => .error (.invalidExpressionValue ("ELEMENT_ID(" ++ name ++ ") for"))
  | none => .error (.missingBinding name)

def labelArgumentError : String := "label function argument must be a single variable, got"

/-- `vertex_label_values`. -/
def bindingLabels (name : String) : Option (Binding E) → Except QueryError (Value E)
  | some (.vertex id) =>
    match ctx.graph.vertex id with
    | some v => .ok (.list (v.labels.map .text))
    | none => .error (.missingBinding "vertex")
  | some (.value .null) => .ok .null
  | some _ => .error (.invalidExpressionValue ("label function(" ++ name ++ ") for"))
  | none => .error (.missingBinding name)

/-- `eval_single_label` over the label list. -/
def singleLabel : Value E → Except QueryError (Value E)
  | .null => .ok .null
  | .list [.text label] => .ok (.text label)
  | _ => .error (.invalidExpressionValue "label() requires a vertex with exactly one label, got")

/-- `TYPE(e)`: the label of an edge. -/
def bindingType (name : String) : Option (Binding E) → Except QueryError (Value E)
  | some (.edge id) =>
    match ctx.graph.edge id with
    | some e => .ok ((e.label.map Value.text).getD .null)
    | none => .error (.missingBinding "edge")
  | some (.value .null) => .ok .null
  | some _ => .error (.invalidExpressionValue ("type(" ++ name ++ ") for"))
  | none => .error (.missingBinding name)

/-- `CARDINALITY` of a variable bound to a group; `none` when it is not. -/
def groupSize : Binding E → Option Nat
  | .edgeGroup edges => some edges.length
  | .vertexGroup vertices => some vertices.length
  | .pathGroup trails => some trails.length
  | _ => none

def int64 (n : Nat) : Value E := .int .w64 (BitVec.ofNat _ n)

def listSize : Value E → Except QueryError (Value E)
  | .list items => .ok (int64 items.length)
  | .null => .ok .null
  | _ => .error (.invalidExpressionValue "CARDINALITY expects a list, got")

/-- `FunctionCall`: `TYPE` looks at its variable, every other function is the
runtime's. -/
def callFunction (row : Row E) (name : List String) (args : List (Expr E)) (distinct : Bool) :
    Except QueryError (Value E) :=
  if (name.getLast?.map String.toLower) == some "type" then
    match distinct, args with
    | true, _ => .error (.invalidExpressionValue "type() does not support DISTINCT")
    | false, [.var v] => ctx.bindingType v (row.lookup v)
    | false, [_] => .error (.invalidExpressionValue "type() argument must be a single variable, got")
    | false, args =>
      .error (.invalidExpressionValue
        ("type() expects exactly one argument, got " ++ toString args.length))
  else do
    match ← ctx.runtimeFunction name args distinct with
    | some value => return value
    | none => throw (.unsupportedExpression "function")

/-- `resolve_aggregate_from_row`. -/
def resolveAggregate (specs : Option (List (AggregateSpec E))) (row : Row E) (expr : Expr E) :
    Except QueryError (Value E) :=
  match specs with
  | none => .error (.unsupportedExpression "aggregate")
  | some specs =>
    match ctx.aggregateSlot expr specs with
    | none => .error (.unsupportedExpression "aggregate expression does not match plan")
    | some slot =>
      match row.lookup (aggregateSlotKey slot) with
      | some (.value value) => .ok value
      | some _ => .error (.invalidExpressionValue (aggregateSlotKey slot))
      | none => .error (.missingBinding (aggregateSlotKey slot))

def groupPropertyOperand : Expr E → Option (String × String)
  | .propertyAccess (.var name) property => some (name, property)
  | _ => none

def mirrorCmpOp : CmpOp → CmpOp
  | .lt => .gt
  | .le => .ge
  | .gt => .lt
  | .ge => .le
  | op => op

/-- The edges a comparison quantifies over: exactly one side is a property of
an edge group.  The flag says that it is the right side. -/
def groupCompareOperand (row : Row E) (left right : Expr E) : Option (List Nat × String × Bool) :=
  match groupPropertyOperand left, groupPropertyOperand right with
  | some (name, property), none =>
    match row.lookup name with
    | some (.edgeGroup edges) => some (edges, property, false)
    | _ => none
  | none, some (name, property) =>
    match row.lookup name with
    | some (.edgeGroup edges) => some (edges, property, true)
    | _ => none
  | _, _ => none

/-- Every hop must satisfy the comparison. -/
def groupCompare (property : String) (op : CmpOp) (other : Value E) :
    List Nat → Except QueryError (Value E)
  | [] => .ok (.bool true)
  | edge :: edges => do
    match ← evalCompare ctx.crates (ctx.readEdgeProperty edge property) op other with
    | .bool true => groupCompare property op other edges
    | _ => return .bool false

/-! ## Evaluation -/

mutual

/-- `eval_expr`.  `specs` are the aggregates of the nearest `Aggregate`
operator, for the expressions after it. -/
def evalExpr (specs : Option (List (AggregateSpec E))) (row : Row E) :
    Expr E → Except QueryError (Value E)
  | .paren inner => evalExpr specs row inner
  | .literal value => .ok value
  | .var name => ctx.bindingValue row name
  | .parameter name => ctx.parameter name
  | .propertyAccess e property =>
    match e with
    | .var name => ctx.bindingProperty name property (row.lookup name)
    | .listIndex (.var name) index =>
      -- An element of an edge group is read like a single edge.
      match row.lookup name with
      | some (.edgeGroup edges) => do
        let position ← listIndex (← evalExpr specs row index)
        return ((elementAt edges position).map (ctx.readEdgeProperty · property)).getD .null
      | some binding => do
        let position ← listIndex (← evalExpr specs row index)
        return (← ctx.indexBinding binding position).recordProperty property
      | none => do
        let _ ← listIndex (← evalExpr specs row index)
        throw (.missingBinding name)
    | e => do return (← evalExpr specs row e).recordProperty property
  | .compare left op right =>
    match groupCompareOperand row left right with
    | some (edges, property, false) => do
      ctx.groupCompare property op (← evalExpr specs row right) edges
    | some (edges, property, true) => do
      ctx.groupCompare property (mirrorCmpOp op) (← evalExpr specs row left) edges
    | none => do
      let l ← evalExpr specs row left
      let r ← evalExpr specs row right
      evalCompare ctx.crates l op r
  | .isLabeled e label negated =>
    match e.asVar with
    | some name => do
      return .bool ((← ctx.bindingIsLabeled name label (row.lookup name)) != negated)
    | none => .error (.unsupportedExpression "IS LABELED requires a variable expression, got")
  | .elementId e =>
    match e.asVar with
    | some name => ctx.bindingElementId name (row.lookup name)
    | none => do
      if (← evalExpr specs row e).isNull then return .null
      else throw (.invalidExpressionValue "ELEMENT_ID(")
  | .labels e =>
    match e.asVar with
    | some name => ctx.bindingLabels name (row.lookup name)
    | none => .error (.invalidExpressionValue labelArgumentError)
  | .label e =>
    match e.asVar with
    | some name => do singleLabel (← ctx.bindingLabels name (row.lookup name))
    | none => .error (.invalidExpressionValue labelArgumentError)
  | .cardinality e =>
    match e.asVar with
    | some name =>
      match row.lookup name with
      | none => .error (.missingBinding name)
      | some binding =>
        match groupSize binding with
        | some size => .ok (int64 size)
        | none => do listSize (← binding.toValue ctx.graph ctx.ids)
    | none => do listSize (← evalExpr specs row e)
  | .listIndex list index =>
    match list.asVar with
    | some name => do
      let position ← listIndex (← evalExpr specs row index)
      match row.lookup name with
      | some binding => ctx.indexBinding binding position
      | none => throw (.missingBinding name)
    | none => do
      let value ← evalExpr specs row list
      listIndexIntoValue value (← listIndex (← evalExpr specs row index))
  | .coalesce exprs => evalCoalesce specs row exprs
  | .caseSimple operand whens els => do
    match ← evalCaseSimple specs row (← evalExpr specs row operand) whens with
    | some value => return value
    | none => evalElse specs row els
  | .caseSearched whens els => do
    match ← evalCaseSearched specs row whens with
    | some value => return value
    | none => evalElse specs row els
  | .strict op args => do ctx.applyStrict op (← evalList specs row args)
  | .functionCall name args distinct => ctx.callFunction row name args distinct
  | e@(.aggregate ..) => ctx.resolveAggregate specs row e
  | .current clock => .ok (ctx.clock clock)
  | .unsupported form _ => .error (.unsupportedExpression form)
  | .subquery _ => .error (.unsupportedExpression "subquery")

def evalList (specs : Option (List (AggregateSpec E))) (row : Row E) :
    List (Expr E) → Except QueryError (List (Value E))
  | [] => .ok []
  | e :: es => do
    let value ← evalExpr specs row e
    return value :: (← evalList specs row es)

/-- The first value that is not null; later operands are not evaluated. -/
def evalCoalesce (specs : Option (List (AggregateSpec E))) (row : Row E) :
    List (Expr E) → Except QueryError (Value E)
  | [] => .ok .null
  | e :: es => do
    let value ← evalExpr specs row e
    if value.isNull then evalCoalesce specs row es else return value

/-- The clauses of a simple `CASE`, `none` when none matches: an incomparable
condition does not match. -/
def evalCaseSimple (specs : Option (List (AggregateSpec E))) (row : Row E) (operand : Value E) :
    List (Expr E × Expr E) → Except QueryError (Option (Value E))
  | [] => .ok none
  | (condition, result) :: whens => do
    let value ← evalExpr specs row condition
    match evalCompare ctx.crates operand .eq value with
    | .ok (.bool true) => some <$> evalExpr specs row result
    | .error (.panic message) => throw (.panic message)
    | _ => evalCaseSimple specs row operand whens

def evalCaseSearched (specs : Option (List (AggregateSpec E))) (row : Row E) :
    List (Expr E × Expr E) → Except QueryError (Option (Value E))
  | [] => .ok none
  | (condition, result) :: whens => do
    let value ← evalExpr specs row condition
    match ← evalError (truthy value) with
    | some true => some <$> evalExpr specs row result
    | _ => evalCaseSearched specs row whens

def evalElse (specs : Option (List (AggregateSpec E))) (row : Row E) :
    Option (Expr E) → Except QueryError (Value E)
  | some e => evalExpr specs row e
  | none => .ok .null

end

/-- Every predicate is true; a false or unknown one stops
the loop. -/
def rowMatchesAll (specs : Option (List (AggregateSpec E))) (row : Row E) :
    List (Expr E) → Except QueryError Bool
  | [] => .ok true
  | predicate :: predicates => do
    match ← evalError (truthy (← ctx.evalExpr specs row predicate)) with
    | some true => rowMatchesAll specs row predicates
    | _ => return false

/-- An expression over variables that are gone falls back to
the projected column of its name. -/
def evalSortExpr (specs : Option (List (AggregateSpec E))) (row : Row E) (expr : Expr E) :
    Except QueryError (Value E) :=
  match ctx.evalExpr specs row expr with
  | .error (.missingBinding _) => ctx.bindingValue row expr.expressionName
  | result => result

/-! ## Without aggregates

No evaluation catches an error, so one that succeeds where no aggregate is in force
succeeds with the same value where some are. -/

section Weaken

omit ctx [BEq E]

variable {ctx : EvalContext E} {specs specs' : Option (List (AggregateSpec E))} {row : Row E}

open SucceedsAs

mutual

/-- What evaluates without aggregates evaluates to the same value with them:
only an aggregate expression asks for them, and it fails where there are none.
By recursion on the expression, one lemma for each helper of the evaluator. -/
theorem evalExpr_none : ∀ e : Expr E,
    SucceedsAs (ctx.evalExpr none row e) (ctx.evalExpr specs row e)
  | .paren inner => by
    simp only [evalExpr]
    exact evalExpr_none inner
  | .literal _ | .parameter _ | .current _ | .unsupported _ _ | .subquery _ | .var _
  | .isLabeled .. | .labels _ | .label _ | .functionCall .. => by
    simp only [evalExpr]
    exact refl _
  | .propertyAccess e property => by
    have ih := evalExpr_none e
    cases e with
    | var name =>
      simp only [evalExpr]
      exact refl _
    | listIndex list index =>
      cases list with
      | var name =>
        have hi := evalExpr_none index
        simp only [evalExpr]
        split <;> exact hi.bind fun _ _ => refl _
      | _ => exact ih.bind fun _ _ => refl _
    | _ => exact ih.bind fun _ _ => refl _
  | .compare left op right => by
    simp only [evalExpr]
    split
    · exact (evalExpr_none right).bind fun _ _ => refl _
    · exact (evalExpr_none left).bind fun _ _ => refl _
    · exact (evalExpr_none left).bind fun _ _ => (evalExpr_none right).bind fun _ _ => refl _
  | .elementId e => by
    simp only [evalExpr]
    split
    · exact refl _
    · exact (evalExpr_none e).bind fun _ _ => refl _
  | .cardinality e => by
    simp only [evalExpr]
    split
    · exact refl _
    · exact (evalExpr_none e).bind fun _ _ => refl _
  | .listIndex list index => by
    simp only [evalExpr]
    split
    · exact (evalExpr_none index).bind fun _ _ => refl _
    · exact (evalExpr_none list).bind fun _ _ => (evalExpr_none index).bind fun _ _ => refl _
  | .coalesce exprs => by
    simp only [evalExpr]
    exact evalCoalesce_none exprs
  | .caseSimple operand whens els => by
    simp only [evalExpr]
    refine (evalExpr_none operand).bind fun value _ => (evalCaseSimple_none value whens).bind ?_
    rintro (_ | value) _
    · exact evalElse_none els
    · exact refl _
  | .caseSearched whens els => by
    simp only [evalExpr]
    refine (evalCaseSearched_none whens).bind ?_
    rintro (_ | value) _
    · exact evalElse_none els
    · exact refl _
  | .strict op args => by
    simp only [evalExpr]
    exact (evalList_none args).bind fun _ _ => refl _
  | .aggregate .. => by
    simp only [evalExpr]
    exact SucceedsAs.error _ _

/-- The arguments of a function, in their order. -/
theorem evalList_none : ∀ es : List (Expr E),
    SucceedsAs (ctx.evalList none row es) (ctx.evalList specs row es)
  | [] => by
    simp only [evalList]
    exact refl _
  | e :: es => by
    simp only [evalList]
    exact (evalExpr_none e).bind fun _ _ => (evalList_none es).bind fun _ _ => refl _

/-- The first value that is not null. -/
theorem evalCoalesce_none : ∀ es : List (Expr E),
    SucceedsAs (ctx.evalCoalesce none row es) (ctx.evalCoalesce specs row es)
  | [] => by
    simp only [evalCoalesce]
    exact refl _
  | e :: es => by
    simp only [evalCoalesce]
    refine (evalExpr_none e).bind fun value _ => ?_
    split
    · exact evalCoalesce_none es
    · exact refl _

/-- The branches of `CASE x WHEN`, up to the one that is equal. -/
theorem evalCaseSimple_none (operand : Value E) : ∀ whens : List (Expr E × Expr E),
    SucceedsAs (ctx.evalCaseSimple none row operand whens)
      (ctx.evalCaseSimple specs row operand whens)
  | [] => by
    simp only [evalCaseSimple]
    exact refl _
  | (condition, result) :: whens => by
    simp only [evalCaseSimple]
    refine (evalExpr_none condition).bind fun value _ => ?_
    split
    · exact (evalExpr_none result).map _
    · exact refl _
    · exact evalCaseSimple_none operand whens

/-- The branches of `CASE WHEN`, up to the one that is true. -/
theorem evalCaseSearched_none : ∀ whens : List (Expr E × Expr E),
    SucceedsAs (ctx.evalCaseSearched none row whens) (ctx.evalCaseSearched specs row whens)
  | [] => by
    simp only [evalCaseSearched]
    exact refl _
  | (condition, result) :: whens => by
    simp only [evalCaseSearched]
    refine (evalExpr_none condition).bind fun value _ => bind_right fun truth _ => ?_
    split
    · exact (evalExpr_none result).map _
    · exact evalCaseSearched_none whens

/-- The branch when none applies. -/
theorem evalElse_none : ∀ els : Option (Expr E),
    SucceedsAs (ctx.evalElse none row els) (ctx.evalElse specs row els)
  | none => by
    simp only [evalElse]
    exact refl _
  | some e => by
    simp only [evalElse]
    exact evalExpr_none e

end

variable (hspecs : specs = none ∨ specs = specs')

include hspecs

/-- The aggregates at hand, or none of them: what evaluates with fewer evaluates
alike with more. -/
theorem evalExpr_weaken (e : Expr E) :
    SucceedsAs (ctx.evalExpr specs row e) (ctx.evalExpr specs' row e) := by
  rcases hspecs with rfl | rfl
  · exact evalExpr_none e
  · exact refl _

/-- So does a conjunction of predicates. -/
theorem rowMatchesAll_weaken (predicates : List (Expr E)) :
    SucceedsAs (ctx.rowMatchesAll specs row predicates)
      (ctx.rowMatchesAll specs' row predicates) := by
  induction predicates with
  | nil => exact refl _
  | cons e es ih =>
    simp only [rowMatchesAll]
    refine (evalExpr_weaken hspecs e).bind fun value _ => bind_right fun truth _ => ?_
    split
    · exact ih
    · exact refl _

end Weaken

end EvalContext

end Gleaph
