import Gleaph.NumericOrder

/-!
# Gleaph.Gql.Row

What a query runs over and what it passes from operator to operator: the
property graph of one shard, bindings (`crates/graph/src/plan/query/executor.rs`)
and rows (`crates/graph/src/plan/query/row.rs`).

Vertices and edges are named by numbers; labels and properties stand under
their names, the catalog's numbering of them being one-to-one.  An edge's
inline slot is part of its properties.  Neighbours on other shards are left
out.  A row is a finite map from variables to bindings, whatever the slot
layout it is stored in, so rows that bind the same variables alike are equal.
-/

namespace Gleaph

variable {E : Type}

/-! ## Equality of values -/

namespace FloatFormat

def isNan (f : FloatFormat) (x : BitVec f.bits) : Bool := !f.isFinite x && f.fraction x != 0

def isZero (f : FloatFormat) (x : BitVec f.bits) : Bool :=
  f.biasedExponent x == 0 && f.fraction x == 0

/-- IEEE equality: no number equals a NaN, the zeros are equal. -/
def eq (f : FloatFormat) (x y : BitVec f.bits) : Bool :=
  !f.isNan x && !f.isNan y && (x == y || f.isZero x && f.isZero y)

end FloatFormat

/-- `rust_decimal` compares decimals as numbers. -/
def Decimal.eq (a b : Decimal) : Bool := a.mantissa * 10 ^ b.scale == b.mantissa * 10 ^ a.scale

namespace Value

variable [BEq E]

mutual

/-- `PartialEq for Value`. -/
def eq : Value E → Value E → Bool
  | null, null => true
  | bool a, bool b => a == b
  | int v a, int w b => v == w && a.toInt == b.toInt
  | uint v a, uint w b => v == w && a.toNat == b.toNat
  | float f a, float g b => if h : g = f then f.eq a (h ▸ b) else false
  | decimal a, decimal b => a.eq b
  | text a, text b => a == b
  | bytes a, bytes b => a == b
  | date a, date b => a == b
  | time a, time b => a == b
  | localTime a, localTime b => a == b
  | dateTime s1 n1, dateTime s2 n2 => s1 == s2 && n1 == n2
  | localDateTime s1 n1, localDateTime s2 n2 => s1 == s2 && n1 == n2
  | zonedDateTime s1 n1 t1, zonedDateTime s2 n2 t2 => s1 == s2 && n1 == n2 && t1 == t2
  | zonedTime n1 t1, zonedTime n2 t2 => n1 == n2 && t1 == t2
  | duration m1 n1, duration m2 n2 => m1 == m2 && n1 == n2
  | list a, list b => eqList a b
  | path a, path b => a == b
  | record a, record b => eqFields a b
  | extension a, extension b => a == b
  | _, _ => false

def eqList : List (Value E) → List (Value E) → Bool
  | [], [] => true
  | a :: as, b :: bs => a.eq b && eqList as bs
  | _, _ => false

def eqFields : List (String × Value E) → List (String × Value E) → Bool
  | [], [] => true
  | (m, a) :: as, (n, b) :: bs => m == n && a.eq b && eqFields as bs
  | _, _ => false

end

instance : BEq (Value E) := ⟨eq⟩

end Value

namespace Value

def isNull : Value E → Bool
  | null => true
  | _ => false

/-- The first field of that name. -/
def recordProperty (value : Value E) (property : String) : Value E :=
  match value with
  | record fields => ((fields.find? (·.1 == property)).map (·.2)).getD null
  | _ => null

def isRecord : Value E → Bool
  | record _ => true
  | _ => false

/-- A non-empty list of records is read item by item. -/
def propertyFromValue (value : Value E) (property : String) : Value E :=
  match value with
  | list items =>
    if !items.isEmpty && items.all isRecord then list (items.map (recordProperty · property))
    else recordProperty value property
  | _ => recordProperty value property

end Value

/-! ## Errors -/

inductive ExprEvaluationError where
  | invalidValue | divisionByZero | numericOverflow | numericPrecisionOverflow
  | nonFiniteNumeric | incomparableValues | unsupportedNumericConversion
  deriving DecidableEq, Repr

/-- `PlanQueryError`, without the source text some variants quote. -/
inductive QueryError where
  | missingBinding (name : String)
  | missingParameter (name : String)
  | evaluation (error : ExprEvaluationError)
  | invalidExpressionValue (expression : String)
  | unsupportedExpression (expression : String)
  | unsupportedOp (op : String)
  | unsupportedDirection
  | invalidLimit
  | incomparableSortValues
  | insertionOrder (message : String)
  /-- A failed `expect` inside value comparison. -/
  | panic (message : String)
  deriving DecidableEq, Repr

/-! ## The graph of a shard -/

structure Vertex (E : Type) where
  id : Nat
  labels : List String
  properties : List (String × Value E)

structure Edge (E : Type) where
  id : Nat
  label : Option String
  undirected : Bool
  src : Nat
  dst : Nat
  /-- The bytes of the inline property slot. -/
  inlineBytes : List UInt8
  properties : List (String × Value E)

/-- The live vertices in id order and the live edges in storage order. -/
structure Graph (E : Type) where
  vertices : List (Vertex E)
  edges : List (Edge E)
  vertices_sorted : vertices.Pairwise fun a b => a.id < b.id
  edges_distinct : edges.Pairwise fun a b => a.id ≠ b.id

def lookupProperty (properties : List (String × Value E)) (property : String) : Option (Value E) :=
  (properties.find? (·.1 == property)).map (·.2)

namespace Graph

variable (g : Graph E)

def vertex (id : Nat) : Option (Vertex E) := g.vertices.find? (·.id == id)

def edge (id : Nat) : Option (Edge E) := g.edges.find? (·.id == id)

/-- `none` for an absent vertex or property. -/
def vertexProperty (id : Nat) (property : String) : Option (Value E) :=
  (g.vertex id).bind fun v => lookupProperty v.properties property

def edgeProperty (id : Nat) (property : String) : Option (Value E) :=
  (g.edge id).bind fun e => lookupProperty e.properties property

end Graph

/-! ## Bindings -/

/-- A walk: its first vertex, then each edge with the vertex it leads to. -/
structure Trail where
  start : Nat
  hops : List (Nat × Nat)
  deriving DecidableEq, Repr

inductive Binding (E : Type) where
  | vertex (id : Nat)
  | edge (id : Nat)
  | edgeGroup (edges : List Nat)
  | vertexGroup (vertices : List Nat)
  | value (value : Value E)
  | path (trail : Trail)
  | pathGroup (trails : List Trail)

namespace Binding

/-- `PartialEq for PlanBinding`. -/
def eq [BEq E] : Binding E → Binding E → Bool
  | vertex a, vertex b => a == b
  | edge a, edge b => a == b
  | edgeGroup a, edgeGroup b => a == b
  | vertexGroup a, vertexGroup b => a == b
  | value a, value b => a == b
  | path a, path b => a == b
  | pathGroup a, pathGroup b => a == b
  | _, _ => false

instance [BEq E] : BEq (Binding E) := ⟨eq⟩

end Binding

/-- The bytes of `ELEMENT_ID` under the shard's encoding key. -/
structure ElementIds where
  vertex : Nat → List UInt8
  edge : Nat → List UInt8

namespace Graph

variable (g : Graph E)

/-- A vertex as the record a result row shows. -/
def vertexToValue (id : Nat) : Except QueryError (Value E) :=
  match g.vertex id with
  | none => .error (.missingBinding "vertex")
  | some v =>
    .ok (.record [("id", .uint .w64 (BitVec.ofNat _ id)), ("labels", .list (v.labels.map .text)),
      ("properties", .record v.properties)])

def edgeToValue (id : Nat) : Except QueryError (Value E) :=
  match g.edge id with
  | none => .error (.missingBinding "edge")
  | some e =>
    .ok (.record [("owner_vertex_id", .uint .w64 (BitVec.ofNat _ e.src)),
      ("edge_slot_index", .uint .w64 (BitVec.ofNat _ id)),
      ("inline property bytes", .bytes e.inlineBytes),
      ("label", (e.label.map Value.text).getD .null), ("undirected", .bool e.undirected),
      ("properties", .record e.properties)])

end Graph

def Trail.toValue (ids : ElementIds) (trail : Trail) : Value E :=
  .path (.vertex (ids.vertex trail.start) ::
    trail.hops.flatMap fun hop => [.edge (ids.edge hop.1), .vertex (ids.vertex hop.2)])

/-- `binding_to_value`. -/
def Binding.toValue (g : Graph E) (ids : ElementIds) : Binding E → Except QueryError (Value E)
  | vertex id => g.vertexToValue id
  | edge id => g.edgeToValue id
  | edgeGroup edges => .list <$> edges.mapM g.edgeToValue
  | vertexGroup vertices => .list <$> vertices.mapM g.vertexToValue
  | value v => .ok v
  | path trail => .ok (trail.toValue ids)
  | pathGroup trails => .ok (.list (trails.map (Trail.toValue ids)))

/-! ## Rows -/

abbrev Row (E : Type) := Finmap fun _ : String => Binding E

namespace Row

/-- The row with the updates applied in order. -/
def fork (row : Row E) (updates : List (String × Binding E)) : Row E :=
  updates.foldl (fun row update => row.insert update.1 update.2) row

/-- Insert only where the variable is unbound. -/
def pad (row : Row E) (names : List String) : Row E :=
  names.foldl (fun row name => if name ∈ row then row else row.insert name (.value .null)) row

/-- Whether the names are bound alike by two rows. -/
def agreeOn [BEq E] (left right : Row E) (names : Finset String) : Bool :=
  decide (∀ name ∈ names, (left.lookup name == right.lookup name) = true)

/-- `PartialEq for PlanRow`. -/
def eq [BEq E] (left right : Row E) : Bool := left.keys == right.keys && left.agreeOn right left.keys

/-- The union of two rows that agree on what both bind, the
names in `skip` apart. -/
def tryMerge [BEq E] (left right : Row E) (skip : List String) : Option (Row E) :=
  if left.agreeOn right ((left.keys ∩ right.keys).filter (· ∉ skip)) then some (left ∪ right)
  else none

end Row

end Gleaph
