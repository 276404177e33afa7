import Gleaph.IndexKey

/-!
# Gleaph.Gql.Expr

Expressions of the query language (`crates/gql/src/ast/expr.rs`) and the two
walks over them that planning rests on
(`crates/gql-planner/src/expr_children.rs`, `pushdown/vars.rs`).

Forms that the evaluator treats alike share a constructor: `strict` evaluates
all its arguments from left to right and then applies its operator,
`unsupported` is a form the evaluator rejects.  A subquery (`EXISTS`,
`VALUE`) is reduced to the variables its text mentions: no modelled function
looks further into it.

* `Expr.collectVariables` is the walk of the source, which does not enter
  subqueries or the arguments of the `TIME` function.
* `Expr.readsCollected` says that an expression is free of the forms through
  which evaluation looks at a row without the walk noticing.
-/

namespace Gleaph

/-! ## Label expressions -/

inductive LabelExpr where
  | name (label : String)
  | wildcard
  | and (left right : LabelExpr)
  | or (left right : LabelExpr)
  | not (inner : LabelExpr)
  deriving DecidableEq, Repr

namespace LabelExpr

/-- `vertex_matches_label_expr`: the expression against a vertex's labels. -/
def matchesVertex (labels : List String) : LabelExpr → Bool
  | name label => labels.contains label
  | wildcard => !labels.isEmpty
  | and left right => left.matchesVertex labels && right.matchesVertex labels
  | or left right => left.matchesVertex labels || right.matchesVertex labels
  | not inner => !inner.matchesVertex labels

/-- `matches_edge_label`: an edge carries at most one label. -/
def matchesEdge (label : Option String) : LabelExpr → Bool
  | name expected => label == some expected
  | wildcard => label.isSome
  | and left right => left.matchesEdge label && right.matchesEdge label
  | or left right => left.matchesEdge label || right.matchesEdge label
  | not inner => !inner.matchesEdge label

end LabelExpr

/-! ## Ordering clauses -/

inductive SortDirection where
  | asc | desc
  deriving DecidableEq, Repr

inductive NullOrder where
  | first | last
  deriving DecidableEq, Repr

/-- One `ORDER BY` item over expressions of type `α`.  `ASCENDING` and
`DESCENDING` are spellings of `asc` and `desc`. -/
structure SortItem (α : Type) where
  expr : α
  direction : Option SortDirection
  nullOrder : Option NullOrder

/-! ## Operators -/

inductive TruthValue where
  | true | false | unknown
  deriving DecidableEq, Repr

inductive StringPredicateKind where
  | startsWith | endsWith | contains | like | iLike
  deriving DecidableEq, Repr

inductive AggregateFunc where
  | count | countStar | sum | avg | min | max | collect
  | stddevSamp | stddevPop | percentileCont | percentileDisc
  deriving DecidableEq, Repr

/-- Constructors of temporal values from a string. -/
inductive TemporalConstructor where
  | date | timeLiteral | timeFunction | localTime | zonedTime
  | datetime | localDatetime | zonedDatetime | timestamp | duration
  deriving DecidableEq, Repr

/-- Value-level operators whose arithmetic no modelled function depends on:
what they compute is a parameter of evaluation. -/
inductive Primitive where
  | unary (negate : Bool)
  | add | sub | mul | div | mod | log | power
  /-- `ABS`, `FLOOR`, `SQRT` and the other one-argument numeric functions. -/
  | numeric (function : String)
  | cast (target : String)
  | stringPredicate (kind : StringPredicateKind)
  | temporal (constructor : TemporalConstructor)
  | durationBetween (yearToMonth : Bool)
  deriving DecidableEq, Repr

/-- Operators that evaluate all their arguments from left to right first. -/
inductive StrictOp where
  | not | and | or | xor
  | isNull | isNotNull
  | inList (negated : Bool)
  | stringPredicate (kind : StringPredicateKind) (negated : Bool)
  | isTruth (value : TruthValue) (negated : Bool)
  | concat
  | nullIf
  | listLiteral
  | recordLiteral (names : List String)
  | primitive (function : Primitive)
  deriving DecidableEq, Repr

/-- Whether the child walk enters the arguments: `TimeFunction` is missing
from `for_each_immediate_child_expr`. -/
def StrictOp.walked : StrictOp → Bool
  | primitive (.temporal .timeFunction) => false
  | _ => true

/-! ## Expressions -/

inductive Expr (E : Type) where
  | paren (inner : Expr E)
  | literal (value : Value E)
  | var (name : String)
  | parameter (name : String)
  | propertyAccess (expr : Expr E) (property : String)
  | compare (left : Expr E) (op : CmpOp) (right : Expr E)
  | isLabeled (expr : Expr E) (label : LabelExpr) (negated : Bool)
  | elementId (expr : Expr E)
  | labels (expr : Expr E)
  | label (expr : Expr E)
  | cardinality (expr : Expr E)
  | listIndex (list index : Expr E)
  | coalesce (exprs : List (Expr E))
  | caseSimple (operand : Expr E) (whenClauses : List (Expr E × Expr E))
      (elseClause : Option (Expr E))
  | caseSearched (whenClauses : List (Expr E × Expr E)) (elseClause : Option (Expr E))
  | strict (op : StrictOp) (args : List (Expr E))
  | functionCall (name : List String) (args : List (Expr E)) (distinct : Bool)
  | aggregate (func : AggregateFunc) (expr expr2 filter : Option (Expr E)) (distinct : Bool)
      (orderBy : List (SortItem (Expr E)))
  /-- The clock: `CURRENT_DATE`, `CURRENT_TIMESTAMP` and their kin. -/
  | current (clock : String)
  /-- A form without an evaluation rule, with the children the walk visits. -/
  | unsupported (form : String) (args : List (Expr E))
  /-- `EXISTS` and `VALUE` subqueries: the variables their text mentions. -/
  | subquery (mentions : List String)

namespace Expr

variable {E : Type}

@[match_pattern] abbrev not (expr : Expr E) : Expr E := strict .not [expr]

@[match_pattern] abbrev and (left right : Expr E) : Expr E := strict .and [left, right]

@[match_pattern] abbrev or (left right : Expr E) : Expr E := strict .or [left, right]

/-- `var.property`, the shape most planner rules look for. -/
@[match_pattern] abbrev propertyOf (name property : String) : Expr E :=
  propertyAccess (var name) property

/-- The variable an expression is, if it is one. -/
def asVar : Expr E → Option String
  | var name => some name
  | _ => none

/-- Only a variable is read as one. -/
theorem asVar_eq_some (h : e.asVar = some name) : e = var name := by
  cases e <;> simp_all [asVar]

mutual

/-- `collect_variables_ref`: every variable the child walk meets. -/
def collectVariables : Expr E → List String
  | var name => [name]
  | literal _ | parameter _ | current _ | subquery _ => []
  | paren e | propertyAccess e _ | isLabeled e _ _ | elementId e | labels e | label e
  | cardinality e => e.collectVariables
  | compare l _ r | listIndex l r => l.collectVariables ++ r.collectVariables
  | coalesce es | functionCall _ es _ | unsupported _ es => collectVariablesList es
  | caseSimple e whens els =>
    e.collectVariables ++ collectVariablesWhens whens ++ collectVariablesOption els
  | caseSearched whens els => collectVariablesWhens whens ++ collectVariablesOption els
  | strict op es => if op.walked then collectVariablesList es else []
  | aggregate _ e e2 f _ items =>
    collectVariablesOption e ++ collectVariablesOption e2 ++ collectVariablesOption f ++
      collectVariablesItems items

def collectVariablesList : List (Expr E) → List String
  | [] => []
  | e :: es => e.collectVariables ++ collectVariablesList es

def collectVariablesWhens : List (Expr E × Expr E) → List String
  | [] => []
  | (condition, result) :: whens =>
    condition.collectVariables ++ result.collectVariables ++ collectVariablesWhens whens

def collectVariablesOption : Option (Expr E) → List String
  | none => []
  | some e => e.collectVariables

def collectVariablesItems : List (SortItem (Expr E)) → List String
  | [] => []
  | ⟨e, _, _⟩ :: items => e.collectVariables ++ collectVariablesItems items

end

/-- The column a projected expression without alias gets. -/
def expressionName : Expr E → String
  | var name => name
  | propertyAccess e property => e.expressionName ++ "." ++ property
  | _ => "expr"

end Expr

end Gleaph
