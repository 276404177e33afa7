import Gleaph.Plan.Exec

/-!
# Gleaph.Plan.Context

What operators see of those that ran before them.

A sort asks what delivered its rows, and a run of operators may be streamed
together up to a `Limit`.  Where operators cannot tell two beginnings of a plan
apart (`Behind`), they run alike behind both (`executeOps_behind`).
-/

namespace Gleaph

open List hiding count

open PlanOp

variable {E : Type}

namespace PlanOp

/-- A plan that starts streaming has streamable operators up to its first limit
with a count. -/
theorem exists_limit_of_startsStreaming {ops : List (PlanOp E)} (h : startsStreaming ops = true) :
    ∃ front count offset later, ops = front ++ limit (some count) offset :: later ∧
      ∀ op ∈ front, op.streamable = true := by
  induction ops with
  | nil => cases h
  | cons op ops ih =>
    by_cases hlimit : ∃ count offset, op = limit count offset
    · obtain ⟨count, offset, rfl⟩ := hlimit
      obtain ⟨count, rfl⟩ := Option.isSome_iff_exists.mp h
      exact ⟨[], count, offset, ops, rfl, by simp⟩
    have hstep : op.streamable = true ∧ startsStreaming ops = true := by
      cases op <;> simp_all [startsStreaming]
    obtain ⟨front, count, offset, later, rfl, hfront⟩ := ih hstep.2
    exact ⟨op :: front, count, offset, later, rfl,
      forall_mem_cons.mpr ⟨hstep.1, hfront⟩⟩

end PlanOp

namespace ExecContext

/-! ## Looking ahead and back -/

section Around

/-- Operators after cannot tell what ran before them apart. -/
structure Behind (before before' : List (PlanOp E)) : Prop where
  bindsEdge : ∀ edgeVar, previousOpBindsEdge edgeVar before = previousOpBindsEdge edgeVar before'
  delivery : ∀ orderBy, indexOrderedDeliveryActive before.reverse orderBy =
    indexOrderedDeliveryActive before'.reverse orderBy
  nonempty : before ≠ []
  nonempty' : before' ≠ []

/-- Order is kept just as long as every later operator keeps it. -/
theorem indexOrderedDeliveryActive_concat (h : ops ≠ []) (orderBy : List (SortItem (Expr E)))
    (op : PlanOp E) :
    indexOrderedDeliveryActive (ops ++ [op]) orderBy =
      (indexOrderedDeliveryActive ops orderBy && op.preservesLeadingRowOrder) := by
  cases ops with
  | nil => contradiction
  | cons first rest =>
    simp only [indexOrderedDeliveryActive, indexOrderedDeliveryCandidate, cons_append]
    cases ascendingPropertyKey orderBy with
    | none => rfl
    | some key =>
      cases first <;> simp only [Bool.false_and]
      cases hop : op.preservesLeadingRowOrder with
      | true =>
        simp only [all_append, all_cons, hop, all_nil, Bool.and_true]
        split_ifs <;> rfl
      | false => simp [hop]

variable {before before' : List (PlanOp E)}

/-- Whether the previous operator binds an edge depends on it and on what it
asks of those before. -/
theorem previousOpBindsEdge_cons
    (h : previousOpBindsEdge edgeVar before = previousOpBindsEdge edgeVar before') (op : PlanOp E) :
    previousOpBindsEdge edgeVar (op :: before) = previousOpBindsEdge edgeVar (op :: before') := by
  cases op <;> simp only [previousOpBindsEdge, h]

/-- Two histories that answer alike still do behind one more operator. -/
theorem Behind.cons (h : Behind before before') (op : PlanOp E) :
    Behind (op :: before) (op :: before') where
  bindsEdge := fun edgeVar => previousOpBindsEdge_cons (h.bindsEdge edgeVar) op
  delivery := fun orderBy => by
    simp only [reverse_cons,
      indexOrderedDeliveryActive_concat (reverse_ne_nil_iff.mpr h.nonempty),
      indexOrderedDeliveryActive_concat (reverse_ne_nil_iff.mpr h.nonempty'), h.delivery]
  nonempty := by simp
  nonempty' := by simp

/-- And behind any more operators. -/
theorem Behind.append (h : Behind before before') (ops : List (PlanOp E)) :
    Behind (ops ++ before) (ops ++ before') := by
  induction ops with
  | nil => exact h
  | cons op ops ih => exact ih.cons op

end Around

section Regular

variable [ExtensionValue E] [BEq E] {ctx : ExecContext E}
  {specs : Option (List (AggregateSpec E))}
  {before before' later later' : List (PlanOp E)} {input rows : List (Row E)}

/-- One operator runs alike behind histories that answer alike. -/
theorem executeOp_behind (h : Behind before before') (op : PlanOp E) :
    ctx.executeOp before later input specs rows op =
      ctx.executeOp before' later input specs rows op := by
  have hdelivered : ∀ orderBy, deliveredInInsertionOrder before orderBy =
      deliveredInInsertionOrder before' orderBy := fun orderBy => by
    simp only [deliveredInInsertionOrder, h.bindsEdge]
  cases op <;> simp only [executeOp, executeTopK, hdelivered, h.delivery]

/-- So does a whole plan. -/
theorem executeOps_behind (h : Behind before before') :
    ctx.executeOps before input specs pending rows ops =
      ctx.executeOps before' input specs pending rows ops := by
  induction ops generalizing before before' specs pending rows with
  | nil => simp
  | cons op later ih =>
    rw [executeOps.eq_def, executeOps.eq_def]
    dsimp only
    generalize (pending <|> if startsStreaming (op :: later) then some [] else none) =
      collected
    cases collected with
    | none => simp only [executeOp_behind h, ih (h.cons op)]
    | some ops =>
      split
      · simp only [ih (h.cons _)]
      · exact ih (h.cons _)
      · contradiction

end Regular

end ExecContext

end Gleaph
