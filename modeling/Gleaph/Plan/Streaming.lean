import Gleaph.Plan.Exec

/-!
# Gleaph.Plan.Streaming

The rows of a streaming prefix and those of its operators run one at a time
(`crates/graph/src/plan/query/executor/scan/streaming.rs`).

`executeEach` runs the operators as `execute_ops_from` does outside a streaming
prefix.  Where it succeeds each input row has rows of its own in the result
(`rowOut`), and an operator in front of a consumer that takes these hands on
just them (`streamOp_takes`), up to the limit or, behind an expansion of
variable length, to the end.  A row whose source is unbound tells the two runs
apart: run over all rows an `Expand` drops it, in a streaming prefix it is an
error.  So the two agree exactly if no such row comes before the limit is
reached (`FindsSources`).
-/

namespace Gleaph

open List

variable {E : Type}

namespace PlanOp

/-- An expansion finds its source in the row. -/
def Sourced (row : Row E) : PlanOp E → Prop
  | expand spec | expandFilter spec _ => spec.src ∈ row
  | _ => True

/-- An expansion of variable length hands on its rows also when the limit is reached. -/
def stopsAtLimit : PlanOp E → Bool
  | expand spec | expandFilter spec _ => spec.varLen.isNone
  | _ => true

end PlanOp

namespace ExecContext

/-! ## What a limit has taken -/

/-- The number of rows with which a sink says that the limit is reached. -/
def LimitedRows.wanted (sink : LimitedRows E) : Nat :=
  sink.offsetRemaining + max 1 sink.takeRemaining

/-- The sink after these rows; the flag for a `Project` is left open. -/
structure LimitedRows.Took (taken : List (Row E)) (done : Bool) (sink sink' : LimitedRows E) :
    Prop where
  offset : sink'.offsetRemaining = sink.offsetRemaining - taken.length
  take : sink'.takeRemaining = sink.takeRemaining - (taken.length - sink.offsetRemaining)
  rows : sink'.rows = sink.rows ++ (taken.drop sink.offsetRemaining).take sink.takeRemaining
  full : done = true ↔ sink.wanted ≤ taken.length

namespace LimitedRows.Took

variable {sink sink' sink'' : LimitedRows E}

/-- A sink that took rows wants that many fewer, but never less than one. -/
theorem wanted (h : Took xs done sink sink') : sink'.wanted = max 1 (sink.wanted - xs.length) := by
  rw [LimitedRows.wanted, LimitedRows.wanted, h.offset, h.take]
  omega

/-- One batch of rows after another. -/
theorem append (h : Took xs done sink sink') (h' : Took ys done' sink' sink'') :
    Took (xs ++ ys) (done || done') sink sink'' where
  offset := by
    rw [h'.offset, h.offset, length_append]
    omega
  take := by
    rw [h'.take, h.take, h.offset, length_append]
    omega
  rows := by
    rw [h'.rows, h.rows, h.take, h.offset, drop_append, take_append, append_assoc,
      length_drop]
  full := by
    rw [Bool.or_eq_true, h.full, h'.full, h.wanted, length_append]
    omega

/-- A full sink takes nothing more. -/
theorem stop (h : Took xs true sink sink') (ys : List (Row E)) :
    Took (xs ++ ys) true sink sink' := by
  have hfull := h.full.mp rfl
  rw [LimitedRows.wanted] at hfull
  have hzero : sink'.offsetRemaining = 0 ∧ sink'.takeRemaining = 0 := by
    rw [h.offset, h.take]
    omega
  have hrest : Took ys (decide (1 ≤ ys.length)) sink' sink' := by
    constructor <;> simp [hzero, LimitedRows.wanted]
  simpa using h.append hrest

end LimitedRows.Took

/-- The run hands these rows to a sink, or fails where `good` does not hold of the number of
rows that the sink still wants. -/
def Takes (run : LimitedRows E → Except QueryError (Bool × LimitedRows E)) (good : Nat → Prop)
    (rows : List (Row E)) : Prop :=
  ∀ sink,
    (good sink.wanted ∧ ∃ done sink', run sink = .ok (done, sink') ∧ sink.Took rows done sink') ∨
    (¬ good sink.wanted ∧ ∃ e, run sink = .error e)

/-- Rows are handed on in their order, each to a run that is `good` for the number of rows that
are still wanted.  With `stops` none is handed on behind the one that makes the sink full. -/
def Reached (stops : Bool) (out : Row E → Except QueryError (List (Row E)))
    (good : Nat → Row E → Prop) : Nat → List (Row E) → Prop
  | _, [] => True
  | wanted, row :: rows => good wanted row ∧ ∀ made, out row = .ok made →
    (stops = true → made.length < wanted) →
      Reached stops out good (max 1 (wanted - made.length)) rows

namespace Takes

/-- A run that touches no sink takes nothing. -/
theorem nothing : Takes (E := E) (fun sink => .ok (false, sink)) (fun _ => True) [] :=
  fun sink => .inl ⟨trivial, _, _, rfl, by constructor <;> simp [LimitedRows.wanted]⟩

/-- Pushing a row takes that row. -/
theorem push (row : Row E) : Takes (LimitedRows.push row) (fun _ => True) [row] := by
  rintro ⟨skip, size, kept, clears⟩
  refine .inl ⟨trivial, ?_⟩
  rcases skip with _ | skip
  · rcases size with _ | _ | size <;>
      exact ⟨_, _, rfl, by constructor <;> simp [LimitedRows.wanted]⟩
  · exact ⟨_, _, rfl, by constructor <;> simp [LimitedRows.wanted]; omega⟩

/-- Which sinks a run works on may be said in another way. -/
theorem imp {good good' : Nat → Prop} (h : Takes run good rows) (hgood : ∀ n, good n ↔ good' n) :
    Takes run good' rows := by
  intro sink
  simpa only [← hgood] using h sink

variable {α : Type} {next : RowConsumer E} {out : Row E → Except QueryError (List (Row E))}
  {good : Nat → Row E → Prop}

/-- One candidate after the other, up to the limit. -/
theorem through {f : α → Except QueryError (Option (Row E))} {made : List (Option (Row E))}
    (h : ∀ row ∈ made.filterMap id, ∀ rows, out row = .ok rows → Takes (next row) (good · row) rows)
    (hmade : candidates.mapM f = .ok made) (hrows : forEach out (made.filterMap id) = .ok rows) :
    Takes ((next.through f).each candidates) (Reached true out good · (made.filterMap id))
      rows := by
  induction mapM_eq_ok_iff.mp hmade generalizing rows with
  | nil =>
    cases hrows
    exact nothing
  | @cons c first candidates made hfirst hrest ih =>
    have hothers : ∀ row ∈ made.filterMap id, ∀ rows, out row = .ok rows →
        Takes (next row) (good · row) rows :=
      fun row hrow => h row (by cases first <;> simp_all)
    intro sink
    cases first with
    | none =>
      have hrun : (next.through f).each (c :: candidates) sink =
          (next.through f).each candidates sink := by
        simp [Consumer.each, Consumer.through, hfirst]
      simpa [hrun] using ih hothers (mapM_eq_ok_iff.mpr hrest) hrows sink
    | some row =>
      obtain ⟨ys, zs, hrow, hzs, rfl⟩ := forEach_cons_eq_ok.mp hrows
      have hreached : Reached true out good sink.wanted (row :: made.filterMap id) ↔
          good sink.wanted row ∧ (ys.length < sink.wanted →
            Reached true out good (max 1 (sink.wanted - ys.length)) (made.filterMap id)) := by
        simp [Reached, hrow]
      simp only [filterMap_cons_some (f := id) rfl, hreached]
      rcases h row (by simp) ys hrow sink with ⟨hgood, done, sink', hrun, htook⟩ | ⟨hbad, e, hrun⟩
      · cases done with
        | true =>
          -- No candidate behind this one is looked at.
          have hfull := htook.full.mp rfl
          refine .inl ⟨⟨hgood, fun hmore => absurd hmore hfull.not_gt⟩, true, sink', ?_,
            htook.stop zs⟩
          simp [Consumer.each, Consumer.through, hfirst, hrun]
        | false =>
          have hmore : ys.length < sink.wanted := not_le.mp (mt htook.full.mpr (by simp))
          have heach : (next.through f).each (c :: candidates) sink =
              (next.through f).each candidates sink' := by
            simp [Consumer.each, Consumer.through, hfirst, hrun]
          rw [heach]
          rcases ih hothers (mapM_eq_ok_iff.mpr hrest) hzs sink' with
            ⟨hgood', done, sink'', hrun', htook'⟩ | ⟨hbad, e, hrun'⟩
          · rw [htook.wanted] at hgood'
            exact .inl ⟨⟨hgood, fun _ => hgood'⟩, done, sink'', hrun', htook.append htook'⟩
          · rw [htook.wanted] at hbad
            exact .inr ⟨fun hall => hbad (hall.2 hmore), e, hrun'⟩
      · exact .inr ⟨fun hall => hbad hall.1, e, by
          simp [Consumer.each, Consumer.through, hfirst, hrun]⟩

variable {made : List (Row E)}
  (h : ∀ row ∈ made, ∀ rows, out row = .ok rows → Takes (next row) (good · row) rows)

include h

/-- A run over the rows that stops at a full sink takes what each of them gives,
up to there. -/
theorem each (hrows : forEach out made = .ok rows) :
    Takes (next.each made) (Reached true out good · made) rows := by
  have hmade : made.mapM (fun row => .ok (some row)) =
      (.ok (made.map some) : Except QueryError _) := mapM_eq_ok fun _ _ => rfl
  have hthrough := through (by simpa using h) hmade (by simpa using hrows)
  rwa [show (made.map some).filterMap id = made by simp] at hthrough

/-- A run over all the rows takes what they give, a full sink or not. -/
theorem all (hrows : forEach out made = .ok rows) :
    Takes (next.all made) (Reached false out good · made) rows := by
  induction made generalizing rows with
  | nil =>
    cases hrows
    exact nothing
  | cons row made ih =>
    obtain ⟨hrow, hothers⟩ := forall_mem_cons.mp h
    obtain ⟨ys, zs, hfirst, hrest, rfl⟩ := forEach_cons_eq_ok.mp hrows
    intro sink
    have hreached : Reached false out good sink.wanted (row :: made) ↔
        good sink.wanted row ∧ Reached false out good (max 1 (sink.wanted - ys.length)) made := by
      simp [Reached, hfirst]
    simp only [hreached]
    rcases hrow ys hfirst sink with ⟨hgood, done, sink', hrun, htook⟩ | ⟨hbad, e, hrun⟩
    · rcases ih hothers hrest sink' with ⟨hgood', done', sink'', hrun', htook'⟩ | ⟨hbad, e, hrun'⟩
      · rw [htook.wanted] at hgood'
        exact .inl ⟨⟨hgood, hgood'⟩, _, sink'', by simp [Consumer.all, hrun, hrun'],
          htook.append htook'⟩
      · rw [htook.wanted] at hbad
        exact .inr ⟨fun hall => hbad hall.2, e, by simp [Consumer.all, hrun, hrun']⟩
    · exact .inr ⟨fun hall => hbad hall.1, e, by simp [Consumer.all, hrun]⟩

/-- One row made is one run of what follows. -/
theorem one (stops : Bool) (hmade : made = [row]) (hrows : forEach out made = .ok rows) :
    Takes (next row) (Reached stops out good · made) rows := by
  subst hmade
  obtain ⟨ys, zs, hfirst, hrest, rfl⟩ := forEach_cons_eq_ok.mp hrows
  cases hrest
  refine imp (by simpa using h row (by simp) ys hfirst) fun n => ?_
  simp [Reached]

end Takes

variable [ExtensionValue E]

/-! ## One operator -/

section Step

variable (ctx : ExecContext E)

/-- What an `Expand` makes of a row when it is run over all rows. -/
def expandStep (spec : ExpandSpec E) (dstFilter : List (Expr E)) (row : Row E) :
    Except QueryError (List (Row E)) :=
  match spec.varLen with
  | some varLen => do
    match ← expandSource (row.lookup spec.src) with
    | none => return []
    | some src => ctx.varLenRows spec varLen dstFilter none row src
  | none => ctx.expandRow spec dstFilter false .all row

def rowStep (specs : Option (List (AggregateSpec E))) :
    PlanOp E → Row E → Except QueryError (List (Row E))
  | .nodeScan name label _, row => .ok (bindHits name .vertex (ctx.scanVertices label) row)
  | .propertyFilter predicates _, row => do
    return if ← ctx.rowMatchesAll specs row predicates then [row] else []
  | .filter condition, row => do
    return if ← ctx.rowMatchesAll specs row [condition] then [row] else []
  | .letBindings bindings, row => do return [← ctx.letRow specs bindings row]
  | .project columns _, row => do return [← ctx.projectRow specs columns row]
  | .expand spec, row => ctx.expandStep spec [] row
  | .expandFilter spec dstFilter, row => ctx.expandStep spec dstFilter row
  | _, row => .ok [row]

/-- The rows that the operators make of one row. -/
def rowOut (specs : Option (List (AggregateSpec E))) :
    List (PlanOp E) → Row E → Except QueryError (List (Row E))
  | [], row => .ok [row]
  | op :: ops, row => do forEach (rowOut (nextSpecs specs op) ops) (← ctx.rowStep specs op row)

/-- Depth first, while rows are wanted, every row that an expansion gets binds its source. -/
def SourcesBound (specs : Option (List (AggregateSpec E))) :
    List (PlanOp E) → Nat → Row E → Prop
  | [], _, _ => True
  | op :: ops, wanted, row => op.Sourced row ∧ ∀ made, ctx.rowStep specs op row = .ok made →
    Reached op.stopsAtLimit (ctx.rowOut (nextSpecs specs op) ops)
      (SourcesBound (nextSpecs specs op) ops) wanted made

/-- In a batch for a vector predicate, where the label expression is not looked at, no edge
fails it. -/
def BatchLabelled : PlanOp E → Prop
  | .expand spec | .expandFilter spec _ => spec.varLen = none → vectorDstOnly spec = true →
    ∀ src candidates, ctx.expandCandidates spec.hop false src = .ok candidates →
      ∀ candidate ∈ candidates, ctx.edgeMatchesLabelExpr spec.labelExpr candidate.1 = true
  | _ => True

/-- No sort behind the operators makes an expansion walk its edges backwards. -/
def Forward : List (PlanOp E) → List (PlanOp E) → Prop
  | [], _ => True
  | op :: ops, later => Forward ops later ∧
    match op with
    | .expand spec | .expandFilter spec _ => spec.varLen = none →
      ctx.insertionOrderAfterExpand spec.edge
        (if spec.labelExpr.isNone then spec.label else none) (ops ++ later) ≠ .ok true
    | _ => True

variable {ctx} {row : Row E} {op : PlanOp E} {specs specs' : Option (List (AggregateSpec E))}

/-! ## Without aggregates -/

open SucceedsAs EvalContext

section Weaken

variable (hspecs : specs = none ∨ specs = specs')

include hspecs

/-- `LET` succeeds with the same row when more aggregates are known. -/
theorem letRow_weaken (bindings : List (String × Expr E)) :
    SucceedsAs (ctx.letRow specs bindings row) (ctx.letRow specs' bindings row) := by
  induction bindings generalizing row with
  | nil => exact refl _
  | cons binding bindings ih => exact (evalExpr_weaken hspecs binding.2).bind fun _ _ => ih

/-- So does a projection. -/
theorem projectRow_weaken (columns : List (ProjectColumn E)) :
    SucceedsAs (ctx.projectRow specs columns row) (ctx.projectRow specs' columns row) := by
  unfold projectRow
  split
  · exact refl _
  refine (SucceedsAs.mapM fun column _ => ?_).bind fun _ _ => refl _
  unfold projectColumn
  split
  · exact refl _
  · exact (evalExpr_weaken hspecs column.expr).bind fun _ _ => refl _

/-- A limit that evaluates has the same value when more aggregates are known. -/
theorem evalLimit_weaken (e : Expr E) :
    SucceedsAs (ctx.evalLimit specs e) (ctx.evalLimit specs' e) :=
  (evalExpr_weaken hspecs e).bind fun _ _ => refl _

/-- So has an offset. -/
theorem evalOffset_weaken (offset : Option (Expr E)) :
    SucceedsAs (ctx.evalOffset specs offset) (ctx.evalOffset specs' offset) := by
  cases offset with
  | none => exact refl _
  | some e => exact evalLimit_weaken hspecs e

end Weaken

/-- A candidate edge that passes the filter without aggregates passes it with
them. -/
theorem expandCandidate_none {filter : EqualityFilter} (candidate : Nat × Nat) :
    SucceedsAs (ctx.expandCandidate spec dstFilter check filter none row candidate)
      (ctx.expandCandidate spec dstFilter check filter specs row candidate) := by
  unfold expandCandidate
  split
  · exact refl _
  refine bind_right fun matched _ => ?_
  split
  · exact refl _
  split
  · exact refl _
  dsimp only
  split
  · exact refl _
  · exact (rowMatchesAll_weaken (.inl rfl) dstFilter).bind fun _ _ => refl _

/-- So does the row of a trail. -/
theorem varLenRow_none (trail : Trail) :
    SucceedsAs (ctx.varLenRow spec dstFilter none row trail)
      (ctx.varLenRow spec dstFilter specs row trail) := by
  unfold varLenRow
  split
  · exact (rowMatchesAll_weaken (.inl rfl) dstFilter).bind fun _ _ => refl _
  · exact refl _

/-- So does every trail a visit keeps. -/
theorem varLenVisit_none {min fuel depth : Nat} (trail : Trail) :
    SucceedsAs (ctx.varLenVisit spec dstFilter none row min fuel depth trail)
      (ctx.varLenVisit spec dstFilter specs row min fuel depth trail) := by
  unfold varLenVisit
  refine SucceedsAs.bind ?_ fun _ _ => refl _
  split
  · exact varLenRow_none trail
  · exact refl _

/-- And so do all levels of a variable-length expansion. -/
theorem varLenLevels_none {min fuel depth : Nat} {trails : List Trail} :
    SucceedsAs (ctx.varLenLevels spec dstFilter none row min fuel depth trails)
      (ctx.varLenLevels spec dstFilter specs row min fuel depth trails) := by
  induction fuel generalizing depth trails with
  | zero =>
    cases trails with
    | nil => exact refl _
    | cons trail trails =>
      simp only [varLenLevels]
      exact (SucceedsAs.mapM fun trail _ => varLenVisit_none trail).bind fun _ _ => refl _
  | succ fuel ih =>
    cases trails with
    | nil => exact refl _
    | cons trail trails =>
      simp only [varLenLevels]
      exact (SucceedsAs.mapM fun trail _ => varLenVisit_none trail).bind fun _ _ =>
        ih.bind fun _ _ => refl _

variable {next : RowConsumer E} {out : Row E → Except QueryError (List (Row E))}
  {good : Nat → Row E → Prop} {made : List (Row E)}

/-- The streamed expansion fails on a row without its source, where the other makes no row. -/
theorem streamExpand_takes (hlabel : ctx.BatchLabelled (.expandFilter spec dstFilter))
    (hmade : ctx.expandStep spec dstFilter row = .ok made)
    (h : ∀ row ∈ made, ∀ rows, out row = .ok rows → Takes (next row) (good · row) rows)
    (hrows : forEach out made = .ok rows) :
    Takes (ctx.streamExpand specs spec dstFilter next row)
      (fun n => spec.src ∈ row ∧ Reached spec.varLen.isNone out good n made) rows := by
  by_cases hsrc : spec.src ∈ row
  case neg =>
    have hlookup : row.lookup spec.src = none := Finmap.lookup_eq_none.mpr hsrc
    exact fun sink => .inr ⟨fun hall => hsrc hall.1, .missingBinding spec.src, by
      simp [streamExpand, streamExpandSource, hlookup]⟩
  suffices htakes : Takes (ctx.streamExpand specs spec dstFilter next row)
      (Reached spec.varLen.isNone out good · made) rows from htakes.imp fun n => by simp [hsrc]
  obtain ⟨source, hsource⟩ := Option.isSome_iff_exists.mp (Finmap.lookup_isSome.mpr hsrc)
  -- A bound source is found alike.
  have hfind : ∀ src, expandSource (row.lookup spec.src) = .ok src →
      streamExpandSource row spec.src = .ok src := by
    intro src hfound
    rw [hsource] at hfound
    unfold streamExpandSource expandSource at *
    split at hfound <;> simp_all
  unfold streamExpand
  unfold expandStep at hmade
  split at hmade
  next varLen hvar =>
    obtain ⟨src, hfound, hmade⟩ := bind_inv hmade
    rw [hfind src hfound, hvar]
    cases src with
    | none =>
      cases hmade
      cases hrows
      exact .nothing
    | some src =>
      have hsame : ctx.varLenRows spec varLen dstFilter specs row src = .ok made :=
        varLenLevels_none _ hmade
      simp only [ok_bind, hsame]
      exact .all h hrows
  next hvar =>
    obtain ⟨src, hfound, hmade⟩ := bind_inv hmade
    rw [hfind src hfound, hvar]
    cases src with
    | none =>
      cases hmade
      cases hrows
      exact .nothing
    | some src =>
      obtain ⟨candidates, hcandidates, hmade⟩ := bind_inv hmade
      obtain ⟨found, hfound, hmade⟩ := bind_inv hmade
      cases hmade
      rw [csrFastPath, Bool.false_and, if_neg (by simp)] at hcandidates
      have hchecked : candidates.mapM (ctx.expandCandidate spec dstFilter true .all specs row) =
          .ok found := by
        refine SucceedsAs.mapM (fun candidate hcandidate => ?_) _ hfound
        refine .trans (of_eq ?_) (expandCandidate_none candidate)
        cases hvector : vectorDstOnly spec with
        | false => rfl
        | true =>
          simp [expandCandidate, hlabel hvar hvector src candidates hcandidates _ hcandidate]
      simp only [ok_bind, hcandidates]
      exact .through h hchecked hrows

/-- One streamed operator takes what the rows it makes give, on the sinks that
are told of its source in time. -/
theorem streamOp_takes (hop : op.streamable = true) (hspecs : specs = none ∨ specs = specs')
    (hlabel : ctx.BatchLabelled op) (hmade : ctx.rowStep specs op row = .ok made)
    (h : ∀ row ∈ made, ∀ rows, out row = .ok rows → Takes (next row) (good · row) rows)
    (hrows : forEach out made = .ok rows) :
    Takes (ctx.streamOp specs' op next row)
      (fun n => op.Sourced row ∧ Reached op.stopsAtLimit out good n made) rows := by
  cases op <;> simp only [streamOp, rowStep, streamFilter, PlanOp.Sourced, PlanOp.stopsAtLimit,
    true_and] at hmade ⊢
  case nodeScan =>
    cases hmade
    exact .each h hrows
  case propertyFilter predicates stage =>
    obtain ⟨verdict, hverdict, hmade⟩ := bind_inv hmade
    cases hmade
    unfold Consumer.keep
    simp only [rowMatchesAll_weaken hspecs predicates _ hverdict, ok_bind]
    cases verdict with
    | true => exact .one h _ rfl hrows
    | false =>
      cases hrows
      exact .nothing
  case filter condition =>
    obtain ⟨verdict, hverdict, hmade⟩ := bind_inv hmade
    cases hmade
    unfold Consumer.keep
    simp only [rowMatchesAll_weaken hspecs [condition] _ hverdict, ok_bind]
    cases verdict with
    | true => exact .one h _ rfl hrows
    | false =>
      cases hrows
      exact .nothing
  case letBindings bindings =>
    obtain ⟨row', hrow', hmade⟩ := bind_inv hmade
    cases hmade
    rw [letRow_weaken hspecs bindings _ hrow']
    exact .one h _ rfl hrows
  case project columns distinct =>
    obtain ⟨row', hrow', hmade⟩ := bind_inv hmade
    cases hmade
    rw [projectRow_weaken hspecs columns _ hrow']
    intro sink
    rcases Takes.one h true rfl hrows { sink with clearsActiveAggregate := true } with
      ⟨hgood, done, sink', hrun, htook⟩ | hfails
    · exact .inl ⟨hgood, done, sink', hrun, htook.offset, htook.take, htook.rows, htook.full⟩
    · exact .inr hfails
  case expand spec => exact streamExpand_takes hlabel hmade h hrows
  case expandFilter spec dstFilter => exact streamExpand_takes hlabel hmade h hrows
  all_goals cases hop

omit [ExtensionValue E] in
/-- Streamable operators never add aggregates: there are none, or those at hand.
-/
theorem nextSpecs_weaken (hop : op.streamable = true) (hspecs : specs = none ∨ specs = specs') :
    nextSpecs specs op = none ∨ nextSpecs specs op = specs' := by
  cases op <;> first | exact hspecs | exact .inl rfl | cases hop

/-- A streamed chain takes the rows the operators make of the row one by one, if
the sources it reaches are bound. -/
theorem streamOps_takes (hops : ∀ op ∈ ops, op.streamable = true)
    (hspecs : specs = none ∨ specs = specs') (hlabels : ∀ op ∈ ops, ctx.BatchLabelled op)
    (hrows : ctx.rowOut specs ops row = .ok rows) :
    Takes (ctx.streamOps specs' ops row) (ctx.SourcesBound specs ops · row) rows := by
  induction ops generalizing specs row rows with
  | nil =>
    cases hrows
    exact .push row
  | cons op ops ih =>
    obtain ⟨hop, hops⟩ := forall_mem_cons.mp hops
    obtain ⟨hlabel, hlabels⟩ := forall_mem_cons.mp hlabels
    obtain ⟨made, hmade, hrows⟩ := bind_inv hrows
    refine Takes.imp (streamOp_takes hop hspecs hlabel hmade (fun row' _ _ =>
      ih hops (nextSpecs_weaken hop hspecs) hlabels) hrows) fun n => ?_
    simp [SourcesBound, hmade]

/-- Only an expansion that walks backwards asks for the edges of an equality. -/
theorem expandPrepare_forward {filter : EqualityFilter}
    (h : ctx.expandPrepare spec false = .ok filter) : filter = .all := by
  simp only [expandPrepare, csrFastPath, Bool.false_and, Bool.false_eq_true, if_false] at h
  split at h
  · split at h
    · obtain ⟨_, -, h⟩ := bind_inv h
      cases h
      rfl
    · cases h
      rfl
  · cases h
    rfl

/-- An expansion that is not reversed makes the rows of each input row in turn.
-/
theorem forEach_expandStep
    (hforward : spec.varLen = none → ctx.insertionOrderAfterExpand spec.edge
      (if spec.labelExpr.isNone then spec.label else none) later ≠ .ok true)
    (h : ctx.executeExpand spec dstFilter later rows = .ok made) :
    forEach (ctx.expandStep spec dstFilter) rows = .ok made := by
  unfold executeExpand at h
  unfold expandStep
  cases hvar : spec.varLen with
  | some varLen =>
    rw [hvar] at h
    exact h
  | none =>
  rw [hvar] at h
  obtain ⟨descending, horder, h⟩ := bind_inv h
  obtain rfl : descending = false := by
    cases descending with
    | false => rfl
    | true => exact absurd horder (hforward hvar)
  obtain ⟨filter, hfilter, h⟩ := bind_inv h
  obtain rfl := expandPrepare_forward hfilter
  exact h

end Step

/-! ## The whole prefix -/

section Prefix

variable [BEq E] (ctx : ExecContext E)

/-- The operators one at a time, each over all rows; `later` come after them. -/
def executeEach (input : List (Row E)) (later : List (PlanOp E)) :
    List (PlanOp E) → Option (List (AggregateSpec E)) → List (Row E) → List (PlanOp E) →
      Except QueryError (List (Row E) × Option (List (AggregateSpec E)))
  | _, specs, rows, [] => .ok (rows, specs)
  | before, specs, rows, op :: ops => do
    let rows ← ctx.executeOp before (ops ++ later) input specs rows op
    executeEach input later (op :: before) (nextSpecs specs op) rows ops

variable {ctx} {specs specs' : Option (List (AggregateSpec E))}

/-- So does every streamable operator. -/
theorem forEach_rowStep (hop : op.streamable = true) (hforward : ctx.Forward [op] later)
    (h : ctx.executeOp before later input specs rows op = .ok out) :
    forEach (ctx.rowStep specs op) rows = .ok out := by
  cases op <;> simp only [executeOp] at h
  case nodeScan => exact (forEach_ok _ _).trans h
  case propertyFilter | filter => exact h
  case letBindings => rwa [mapM_eq_forEach] at h
  case project columns distinct =>
    obtain rfl : distinct = false := by simpa [PlanOp.streamable] using hop
    obtain ⟨projected, hprojected, h⟩ := bind_inv h
    cases h
    rwa [mapM_eq_forEach] at hprojected
  case expand | expandFilter => exact forEach_expandStep hforward.2 h
  all_goals cases hop

/-- And the whole chain, run operator by operator, makes the rows that each
input row makes alone. -/
theorem forEach_rowOut {ops later before : List (PlanOp E)} {rows : List (Row E)}
    (hops : ∀ op ∈ ops, op.streamable = true) (hspecs : specs = none ∨ specs = specs')
    (hforward : ctx.Forward ops later)
    (h : ctx.executeEach input later before specs rows ops = .ok (out, final)) :
    (final = none ∨ final = specs') ∧ forEach (ctx.rowOut specs ops) rows = .ok out := by
  induction ops generalizing before rows specs with
  | nil =>
    cases h
    exact ⟨hspecs, (forEach_ok (fun row => [row]) _).trans (by simp)⟩
  | cons op ops ih =>
    obtain ⟨hop, hops⟩ := forall_mem_cons.mp hops
    obtain ⟨mid, hmid, h⟩ := bind_inv h
    have hstep : forEach (ctx.rowStep specs op) rows = .ok mid :=
      forEach_rowStep hop ⟨trivial, hforward.2⟩ hmid
    obtain ⟨hfinal, hrest⟩ := ih hops (nextSpecs_weaken hop hspecs) hforward.1 h
    exact ⟨hfinal, forEach_comp hstep hrest⟩

end Prefix

/-- Every row that an expansion of the prefix gets before the limit is reached binds the source
of the expansion. -/
def FindsSources (ctx : ExecContext E) (specs : Option (List (AggregateSpec E)))
    (ops : List (PlanOp E)) (count : Expr E) (offset : Option (Expr E)) (rows : List (Row E)) :
    Prop :=
  ∀ skip size, ctx.evalOffset specs offset = .ok skip → ctx.evalLimit specs count = .ok size →
    size ≠ 0 → Reached true (ctx.rowOut specs ops) (ctx.SourcesBound specs ops) (skip + size) rows

/-- A vertex with an edge to itself. -/
def oneLoop : ExecContext Empty :=
  .plain ⟨[⟨0, [], []⟩], [⟨0, none, false, 0, 0, [], []⟩], by simp, by simp⟩

/-- One hop from `a` to `b`. -/
def expandAB : PlanOp Empty :=
  .expand ⟨"a", "e", "b", .pointingRight, none, none, none, none, none, none, none, none, none,
    false, none, none, none, false⟩

def one : Expr Empty := .literal (EvalContext.int64 1)

/-- `MATCH (a) RETURN a NEXT MATCH (a)-[]->(b) LIMIT 1` -/
def projectedHop : List (PlanOp Empty) :=
  [.nodeScan "a" none none, .project [⟨.var "a", none⟩] false, expandAB]

end ExecContext

end Gleaph
