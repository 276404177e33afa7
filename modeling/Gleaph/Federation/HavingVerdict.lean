import Gleaph.Federation.Having
import Gleaph.Plan.Exec

/-!
# Gleaph.Federation.HavingVerdict

The router's verdict on a projected row against that of the shard's filter on
the aggregated row (`row_passes_having`, `row_matches_all`).

A shard finds the aggregate of a condition by its function and operands
(`aggregate_expr_matches_spec`), the router by its function only.  Conditions
whose variables, aggregates and parameters have for the router the values that
they have for the shard get the same verdict.
-/

namespace Gleaph

open ExecContext

variable {E : Type}

deriving instance DecidableEq for SortItem

def aggregateExprMatchesSpec [DecidableEq (Expr E)] (expr : Expr E) (spec : AggregateSpec E) : Bool :=
  match expr with
  | .aggregate func inner expr2 filter distinct orderBy =>
    func == spec.func && distinct == spec.distinct && decide (inner = spec.expr) &&
      decide (expr2 = spec.expr2) && decide (filter = spec.filter) && decide (orderBy = spec.orderBy)
  | _ => false

/-- The slot `resolve_aggregate_from_row` reads. -/
def aggregateSlot [DecidableEq (Expr E)] (expr : Expr E) (specs : List (AggregateSpec E)) : Option Nat :=
  specs.findIdx? (aggregateExprMatchesSpec expr)

namespace Federation

/-! ## Columns -/

/-- The expression is an aggregate of this function. -/
def hasFunc (func : AggregateFunc) : Expr E → Bool
  | .aggregate f .. => f == func
  | _ => false

variable {columns : List (ProjectColumn E)} {specs : Option (List (AggregateSpec E))}

/-- The router's column for a function is the first with an aggregate of it. -/
theorem find_aggregateColumns (h : splitColumns grouped columns = some (keys, aggregates))
    (func : AggregateFunc) :
    (aggregates.find? (·.func == func)).map (·.name) =
      (columns.find? (hasFunc func ·.expr)).bind projectColumnName := by
  induction columns generalizing keys aggregates with
  | nil =>
    obtain ⟨rfl, rfl⟩ : [] = keys ∧ [] = aggregates := by simpa [splitColumns] using h
    rfl
  | cons column columns ih =>
    simp only [splitColumns, Option.bind_eq_bind, Option.bind_eq_some_iff] at h
    obtain ⟨name, hname, ⟨keys', aggregates'⟩, hrest, h⟩ := h
    rw [List.find?_cons]
    cases hexpr : column.expr with
    | aggregate f expr expr2 filter distinct orderBy =>
      rw [hexpr] at h
      obtain ⟨-, rfl⟩ : keys' = keys ∧ ⟨name, f⟩ :: aggregates' = aggregates := by simpa using h
      by_cases hfunc : f = func
      · simp [hasFunc, hfunc, hname]
      · simp only [List.find?_cons, hasFunc, beq_eq_false_iff_ne.mpr hfunc]
        exact ih hrest
    | _ =>
      rw [hexpr] at h
      simp only [Option.some.injEq, Prod.mk.injEq] at h
      simp [hasFunc, ← h.2, ih hrest]

/-- The router has a name for every column. -/
theorem named_of_splitColumns (h : splitColumns grouped columns = some split) :
    none ∉ columns.map projectColumnName := by
  induction columns generalizing split with
  | nil => simp
  | cons column columns ih =>
    simp only [splitColumns, Option.bind_eq_bind, Option.bind_eq_some_iff] at h
    obtain ⟨name, hname, rest, hrest, -⟩ := h
    simp [hname, ih hrest]

theorem toOption_ok {ε α : Type} (a : α) : (Except.ok a : Except ε α).toOption = some a := rfl

/-- A sequence has a value if both its steps have. -/
theorem toOption_bind {ε α β : Type} (x : Except ε α) (f : α → Except ε β) :
    (x >>= f).toOption = x.toOption.bind fun a => (f a).toOption := by
  cases x <;> rfl

open EvalContext

/-- Both evaluators take the same values for true. -/
theorem havingTruthy_toOption (value : Value E) :
    (havingTruthy value).toOption = (evalError (truthy value)).toOption := by
  cases value <;> rfl

/-- And have the same tables for `AND` and `OR`. -/
theorem havingLogic_toOption (table : Option Bool → Option Bool → Option Bool) (left right : Value E) :
    (havingLogic table left right).toOption =
      (evalError (evalLogic table left right)).toOption := by
  cases left <;> cases right <;> rfl

/-- An error keeps being one under another name. -/
theorem evalError_toOption {α : Type} (x : Except ExprEvaluationError α) :
    (evalError x).toOption = x.toOption := by
  cases x <;> rfl

/-- And the same negation. -/
theorem havingNot_toOption (value : Value E) :
    (havingNot value).toOption = (evalError (evalNot value)).toOption := by
  cases value <;> rfl

/-- A merged row has the values of a projected row, and no others. -/
structure Shows (ctx : EvalContext E) (projected : Row E) (out : ValueRow E) : Prop where
  value : ∀ name binding, projected.lookup name = some binding →
    ∃ value, binding.toValue ctx.graph ctx.ids = .ok value ∧ out.lookup name = some value
  absent : ∀ name, projected.lookup name = none → out.lookup name = none

/-- A shown row has, for each name, the value of the binding. -/
theorem Shows.lookup {ctx : EvalContext E} (h : Shows ctx projected out) (name : String) :
    out.lookup name =
      (projected.lookup name).bind fun binding => (binding.toValue ctx.graph ctx.ids).toOption := by
  cases hlookup : projected.lookup name with
  | none => exact h.absent name hlookup
  | some binding =>
    obtain ⟨value, hvalue, hout⟩ := h.value name binding hlookup
    rw [hout, Option.bind_some, hvalue, toOption_ok]

variable [ExtensionValue E]

/-- Columns are named alike by router and shard where the router names them. -/
theorem projectColumn_eq_ok {ctx : ExecContext E} (hname : projectColumnName column = some name)
    (h : ctx.projectColumn specs row column = .ok (name', binding)) :
    name' = name ∧ binding.toValue ctx.graph ctx.ids = ctx.evalExpr specs row column.expr := by
  obtain ⟨expr, aliasName⟩ := column
  unfold projectColumn at h
  cases hvar : expr.asVar with
  | some v =>
    obtain rfl := Expr.asVar_eq_some hvar
    cases hlookup : row.lookup v with
    | none => simp [hvar, hlookup] at h
    | some found =>
      simp only [hvar, hlookup, pure_eq_ok, Except.ok.injEq, Prod.mk.injEq] at h
      obtain ⟨rfl, rfl⟩ := h
      simp only [evalExpr, bindingValue, hlookup, and_true]
      cases aliasName <;> simp_all [projectColumnName, Expr.asVar, Expr.expressionName]
  | none =>
    simp only [hvar] at h
    obtain ⟨value, hvalue, h⟩ := bind_inv h
    simp only [pure_eq_ok, Except.ok.injEq, Prod.mk.injEq] at h
    obtain ⟨rfl, rfl⟩ := h
    rw [hvalue]
    cases aliasName <;> simp_all [projectColumnName, Binding.toValue]

/-- What a merged row has under a name: the value of the last column of that name. -/
def mergedValue (ctx : ExecContext E) (specs : Option (List (AggregateSpec E))) (row : Row E)
    (columns : List (ProjectColumn E)) (name : String) : Option (Value E) :=
  (columns.reverse.find? (projectColumnName · == some name)).bind fun column =>
    (ctx.evalExpr specs row column.expr).toOption

/-- A projected row binds each name to what its last column of that name
evaluates to. -/
theorem lookup_fork_projectColumns {ctx : ExecContext E}
    (hnamed : none ∉ columns.map projectColumnName)
    (h : columns.mapM (ctx.projectColumn specs row) = .ok pairs) (name : String) :
    (((Row.fork ∅ pairs).lookup name).bind fun binding =>
        (binding.toValue ctx.graph ctx.ids).toOption) =
      mergedValue ctx specs row columns name := by
  -- The last column decides: `fork` inserts the columns in their order.
  induction columns using List.reverseRecOn generalizing pairs with
  | nil =>
    cases h
    rfl
  | append_singleton columns column ih =>
    rw [List.mapM_append, List.mapM_cons, List.mapM_nil] at h
    obtain ⟨init, hinit, h⟩ := bind_inv h
    obtain ⟨last, hlast, h⟩ := bind_inv h
    obtain ⟨⟨name', binding⟩, hpair, hlast⟩ := bind_inv hlast
    cases hlast
    cases h
    rw [List.map_append, List.mem_append, not_or] at hnamed
    have hcolumn : projectColumnName column ≠ none := fun hnone =>
      hnamed.2 (List.mem_singleton.mpr hnone.symm)
    obtain ⟨columnName, hname⟩ := Option.ne_none_iff_exists'.mp hcolumn
    obtain ⟨rfl, hvalue⟩ := projectColumn_eq_ok hname hpair
    rw [mergedValue, List.reverse_append, List.reverse_singleton, List.singleton_append,
      List.find?_cons, Row.fork, List.foldl_append, hname]
    by_cases hsame : name' = name
    · subst hsame
      simp [Finmap.lookup_insert, hvalue]
    · rw [show (some name' == some name) = false by simpa using hsame]
      simp only [List.foldl_cons, List.foldl_nil]
      rw [Finmap.lookup_insert_of_ne _ (Ne.symm hsame)]
      exact ih hnamed.1 hinit

/-- The router reads from the merged row what the shard evaluates for a column. -/
theorem lookup_merged {ctx : ExecContext E} {out : ValueRow E} (hcolumns : columns ≠ [])
    (hnamed : none ∉ columns.map projectColumnName)
    (hproject : ctx.projectRow specs columns row = .ok projected)
    (hshows : Shows ctx.toEvalContext projected out) (name : String) :
    out.lookup name = mergedValue ctx specs row columns name := by
  rw [projectRow, if_neg (by simpa using hcolumns)] at hproject
  obtain ⟨pairs, hpairs, hproject⟩ := bind_inv hproject
  cases hproject
  rw [hshows.lookup, lookup_fork_projectColumns hnamed hpairs]

/-! ## Conditions -/

/-- Router and shard read the same values: a parameter under both names, a variable in the
column of its name, an aggregate in the column of the first aggregate with its function; and
they add and subtract alike. -/
inductive ReadsAlike (env : HavingEnv E) (ctx : ExecContext E)
    (specs : Option (List (AggregateSpec E))) (row : Row E) (columns : List (ProjectColumn E)) :
    Expr E → Prop
  | paren {e : Expr E} (h : ReadsAlike env ctx specs row columns e) :
      ReadsAlike env ctx specs row columns (.paren e)
  | literal (value : Value E) : ReadsAlike env ctx specs row columns (.literal value)
  | parameter {name : String} (h : env.params name = ctx.parameters (paramMapKey name)) :
      ReadsAlike env ctx specs row columns (.parameter name)
  | var {name : String}
      (h : mergedValue ctx specs row columns name =
        (ctx.evalExpr specs row (.var name)).toOption) :
      ReadsAlike env ctx specs row columns (.var name)
  | aggregate {func : AggregateFunc} {expr expr2 filter : Option (Expr E)} {distinct : Bool}
      {orderBy : List (SortItem (Expr E))}
      (h : ((columns.find? (hasFunc func ·.expr)).bind projectColumnName).bind
          (mergedValue ctx specs row columns) =
        (ctx.evalExpr specs row (.aggregate func expr expr2 filter distinct orderBy)).toOption) :
      ReadsAlike env ctx specs row columns (.aggregate func expr expr2 filter distinct orderBy)
  | compare {left right : Expr E} (op : CmpOp) (hl : ReadsAlike env ctx specs row columns left)
      (hr : ReadsAlike env ctx specs row columns right) :
      ReadsAlike env ctx specs row columns (.compare left op right)
  | logic {op : StrictOp} {left right : Expr E} (hop : op = .and ∨ op = .or)
      (hl : ReadsAlike env ctx specs row columns left)
      (hr : ReadsAlike env ctx specs row columns right) :
      ReadsAlike env ctx specs row columns (.strict op [left, right])
  | test {op : StrictOp} {e : Expr E} (hop : op = .not ∨ op = .isNull ∨ op = .isNotNull)
      (h : ReadsAlike env ctx specs row columns e) :
      ReadsAlike env ctx specs row columns (.strict op [e])
  | arithmetic {op : Primitive} {left right : Expr E} (hop : op = .add ∨ op = .sub)
      (hl : ReadsAlike env ctx specs row columns left)
      (hr : ReadsAlike env ctx specs row columns right)
      (h : ∀ l r, ctx.evalExpr specs row left = .ok l → ctx.evalExpr specs row right = .ok r →
        (applyHavingOp env (.primitive op) [l, r]).toOption =
          (ctx.primitive op [l, r]).toOption) :
      ReadsAlike env ctx specs row columns (.strict (.primitive op) [left, right])

/-! ## Verdicts -/

section Verdicts

variable {env : HavingEnv E} {ctx : ExecContext E} {columns : List (ProjectColumn E)}

/-- With the same comparison of values, both evaluators compare alike. -/
theorem havingCompare_toOption (hcrates : env.crates = ctx.crates) (left : Value E) (op : CmpOp)
    (right : Value E) :
    (havingCompare env left op right).toOption = (evalCompare ctx.crates left op right).toOption := by
  unfold havingCompare evalCompare
  rw [hcrates]
  split_ifs
  · rfl
  · rcases compareValues ctx.crates left right with _ | _ | _ <;> rfl

/-- No side of a comparison is a property of an edge group. -/
theorem ReadsAlike.groupPropertyOperand {specs : Option (List (AggregateSpec E))}
    {row : Row E} {e : Expr E} (h : ReadsAlike env ctx specs row columns e) :
    EvalContext.groupPropertyOperand e = none := by
  cases h <;> rfl

variable {specs : List (AggregateSpec E)} {groupBy : List (Expr E)} {having : Option (Expr E)}
  {merge : FederatedAggregateMerge E} {row projected : Row E} {out : ValueRow E}

/-- Over a merged row, an expression that reads its columns as the shard does
has the shard's value.  By induction on how the two read it. -/
theorem evalHavingExpr_toOption (hcrates : env.crates = ctx.crates)
    (hbuild : buildAggregateMergeSpec groupBy columns having = some merge)
    (hproject : ctx.projectRow (some specs) columns row = .ok projected)
    (hshows : Shows ctx.toEvalContext projected out) {e : Expr E}
    (h : ReadsAlike env ctx (some specs) row columns e) :
    (evalHavingExpr env out merge e).toOption = (ctx.evalExpr (some specs) row e).toOption := by
  simp only [buildAggregateMergeSpec, Option.bind_eq_bind, Option.bind_eq_some_iff] at hbuild
  obtain ⟨⟨keys, aggregates⟩, hsplit, hmerge⟩ := hbuild
  dsimp only at hmerge
  split_ifs at hmerge with hnone
  have hmerged : merge.aggregateColumns = aggregates := by rw [← Option.some.inj hmerge]
  have hcolumns : columns ≠ [] := by
    rintro rfl
    simp_all [splitColumns]
  have hlookup : ∀ name, out.lookup name = mergedValue ctx (some specs) row columns name :=
    lookup_merged hcolumns (named_of_splitColumns hsplit) hproject hshows
  induction h with
  | paren _ ih => simpa only [evalHavingExpr, evalExpr] using ih
  | literal value => simp only [evalHavingExpr, evalExpr, toOption_ok]
  | @parameter name hparams =>
    simp only [evalHavingExpr, evalExpr, parameter, hparams]
    cases ctx.parameters (paramMapKey name) <;> rfl
  | @var name hsame =>
    rw [← hsame, ← hlookup, evalHavingExpr]
    cases out.lookup name <;> rfl
  | @aggregate func _ _ _ _ _ hsame =>
    rw [← hsame, ← find_aggregateColumns hsplit, evalHavingExpr, resolveAggregateColumn, hmerged]
    cases hfind : aggregates.find? (·.func == func) with
    | none => rfl
    | some column =>
      simp only [Option.map_some, Option.bind_some, ← hlookup]
      cases out.lookup column.name <;> rfl
  | @compare left right op hl hr ihl ihr =>
    have hgroup : groupCompareOperand row left right = none := by
      rw [groupCompareOperand, hl.groupPropertyOperand, hr.groupPropertyOperand]
    simp only [evalHavingExpr, evalExpr, hgroup, toOption_bind, ihl, ihr,
      havingCompare_toOption hcrates]
  | @logic op left right hop hl hr ihl ihr =>
    rcases hop with rfl | rfl <;>
      simp [evalHavingExpr, evalHavingArgs, evalExpr, evalList, isHavingOp,
        applyHavingOp, applyStrict, toOption_bind, ihl, ihr, havingLogic_toOption]
  | @test op e hop h ih =>
    rcases hop with rfl | rfl | rfl <;>
      simp [evalHavingExpr, evalHavingArgs, evalExpr, evalList, isHavingOp,
        applyHavingOp, applyStrict, toOption_bind, toOption_ok, ih, havingNot_toOption]
  | @arithmetic op left right hop hl hr hsame ihl ihr =>
    have hhaving : isHavingOp (.primitive op) := by rcases hop with rfl | rfl <;> rfl
    simp only [evalHavingExpr, evalHavingArgs, evalExpr, evalList, hhaving, if_true,
      toOption_bind, ihl, ihr]
    cases hleft : ctx.evalExpr (some specs) row left with
    | error => rfl
    | ok l =>
      cases hright : ctx.evalExpr (some specs) row right with
      | error => rfl
      | ok r =>
        have heq := hsame l r hleft hright
        simp [toOption_ok, applyStrict, evalError_toOption, ← heq]

end Verdicts

/-! ## Two sums -/

/-- `SUM(name)` -/
def sumOf (name : String) : Expr Empty := .aggregate .sum (some (.var name)) none none false []

/-- `HAVING SUM(name) > 5` -/
def sumAboveFive (name : String) : Expr Empty := .compare (sumOf name) .gt (.literal (.int .w64 5))

def sumSpec (name : String) : AggregateSpec Empty :=
  ⟨.sum, some (.var name), none, false, none, [], none⟩

open Classical in
/-- A shard that resolves aggregates as `aggregate_expr_matches_spec` does. -/
noncomputable def matchingShard : ExecContext Empty :=
  { plain (.ofValues []) with aggregateSlot }

/-- A router without parameters. -/
def plainHaving : HavingEnv Empty where
  crates := .documented
  asF64 := fun _ => none
  f64Add := fun a _ => a
  f64Sub := fun a _ => a
  integral := fun _ => none
  params := fun _ => none

/-- `RETURN SUM(a) AS x, SUM(b) AS y` -/
def twoSums : List (ProjectColumn Empty) := [⟨sumOf "a", some "x"⟩, ⟨sumOf "b", some "y"⟩]

/-- The sums are 10 and 1. -/
def aggregatedRow : Row Empty :=
  Row.fork ∅ [(aggregateSlotKey 0, .value (.int .w64 10)), (aggregateSlotKey 1, .value (.int .w64 1))]

def projectedSums : Row Empty := Row.fork ∅ [("x", .value (.int .w64 10)), ("y", .value (.int .w64 1))]

def mergedSums : ValueRow Empty := [("x", .int .w64 10), ("y", .int .w64 1)]

open Classical in
/-- The sums at the shard, each from its own slot. -/
theorem evalExpr_sumOf :
    matchingShard.evalExpr (some [sumSpec "a", sumSpec "b"]) aggregatedRow (sumOf "a") =
        .ok (.int .w64 10) ∧
      matchingShard.evalExpr (some [sumSpec "a", sumSpec "b"]) aggregatedRow (sumOf "b") =
        .ok (.int .w64 1) := by
  have hslots : matchingShard.aggregateSlot (sumOf "a") [sumSpec "a", sumSpec "b"] = some 0 ∧
      matchingShard.aggregateSlot (sumOf "b") [sumSpec "a", sumSpec "b"] = some 1 := by
    simp [matchingShard, aggregateSlot, aggregateExprMatchesSpec, sumOf, sumSpec, List.findIdx?_cons]
  have hfirst : aggregatedRow.lookup (aggregateSlotKey 0) = some (.value (.int .w64 10)) :=
    (Finmap.lookup_insert_of_ne _ (by decide)).trans (Finmap.lookup_insert _)
  have hsecond : aggregatedRow.lookup (aggregateSlotKey 1) = some (.value (.int .w64 1)) :=
    Finmap.lookup_insert _
  constructor
  · rw [sumOf, evalExpr, ← sumOf, resolveAggregate]
    simp only [hslots.1, hfirst]
  · rw [sumOf, evalExpr, ← sumOf, resolveAggregate]
    simp only [hslots.2, hsecond]

/-- The row that the shard projects of them. -/
theorem projectRow_twoSums :
    matchingShard.projectRow (some [sumSpec "a", sumSpec "b"]) twoSums aggregatedRow =
      .ok projectedSums := by
  obtain ⟨hfirst, hsecond⟩ := evalExpr_sumOf
  have hx : matchingShard.projectColumn (some [sumSpec "a", sumSpec "b"]) aggregatedRow
      ⟨sumOf "a", some "x"⟩ = .ok ("x", .value (.int .w64 10)) := by
    simp only [projectColumn, sumOf, Expr.asVar] at hfirst ⊢
    rw [hfirst]
    rfl
  have hy : matchingShard.projectColumn (some [sumSpec "a", sumSpec "b"]) aggregatedRow
      ⟨sumOf "b", some "y"⟩ = .ok ("y", .value (.int .w64 1)) := by
    simp only [projectColumn, sumOf, Expr.asVar] at hsecond ⊢
    rw [hsecond]
    rfl
  rw [projectRow, if_neg (by simp [twoSums]), twoSums, List.mapM_cons, List.mapM_cons,
    List.mapM_nil, hx, hy]
  rfl

/-- The merged row shows the same values. -/
theorem shows_mergedSums : Shows matchingShard.toEvalContext projectedSums mergedSums := by
  have hx : projectedSums.lookup "x" = some (.value (.int .w64 10)) :=
    (Finmap.lookup_insert_of_ne _ (by decide)).trans (Finmap.lookup_insert _)
  have hy : projectedSums.lookup "y" = some (.value (.int .w64 1)) :=
    Finmap.lookup_insert _
  constructor
  · intro name binding hlookup
    by_cases hname : name = "y"
    · subst hname
      obtain rfl := Option.some.inj (hlookup.symm.trans hy)
      exact ⟨.int .w64 1, rfl, rfl⟩
    by_cases hname' : name = "x"
    · subst hname'
      obtain rfl := Option.some.inj (hlookup.symm.trans hx)
      exact ⟨.int .w64 10, rfl, rfl⟩
    · simp [projectedSums, Row.fork, Finmap.lookup_insert_of_ne _ hname,
        Finmap.lookup_insert_of_ne _ hname'] at hlookup
  · intro name hlookup
    have hnot : name ≠ "x" ∧ name ≠ "y" := by
      constructor <;> rintro rfl <;> simp_all
    simp [mergedSums, List.lookup_cons, beq_eq_false_iff_ne.mpr hnot.1,
      beq_eq_false_iff_ne.mpr hnot.2]

end Federation

end Gleaph
