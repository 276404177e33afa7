import Gleaph.Picks
import Gleaph.Plan.Context
import Gleaph.Plan.Streaming

/-!
# Gleaph.Plan.Specialize

Plans of callers with grants on single labels (`crates/router/src/gql.rs`).

A scan without a label is replaced by a scan for each label the caller may
match.  The rest of the plan is copied behind each combination of labels, and
the copies are put together by `UNION ALL`.  A choice of vertices so comes once
for each combination of granted labels that the vertices carry
(`coe_flatMap_picks`), where the restricted plan has it once.
-/

namespace Gleaph

open List

variable {E : Type}

/-- A `NodeScan` without a label. -/
def PlanOp.unconstrained : PlanOp E → Bool
  | nodeScan _ none _ => true
  | _ => false

def cartesianProduct (items : List String) : Nat → List (List String)
  | 0 => [[]]
  | n + 1 => (cartesianProduct items n).flatMap fun row => items.map (row ++ [·])

/-- Each scan takes the next label of the combination. -/
def buildLeading : List (PlanOp E) → List String → List (PlanOp E)
  | .nodeScan name none _ :: ops, combo =>
    .nodeScan name (some (combo.headD "")) (some []) :: buildLeading ops combo.tail
  | op :: ops, combo => op :: buildLeading ops combo
  | [], _ => []

def expandUnconstrainedScans (ops : List (PlanOp E)) (granted : List String) : List (PlanOp E) :=
  let subOps (combo : List String) :=
    buildLeading (ops.takeWhile (·.unconstrained)) combo ++ ops.dropWhile (·.unconstrained)
  match cartesianProduct granted (ops.countP (·.unconstrained)) with
  | [] => []
  | combo :: combos =>
    subOps combo ++ combos.map fun combo => .setOperation .unionAll (subOps combo)

/-- The test for a vertex that has one of the labels. -/
def carriesAny (granted : List String) (name : String) : Expr E :=
  .isLabeled (.var name)
    (granted.foldr (fun label => .or (.name label)) (.and .wildcard (.not .wildcard))) false

/-- The plan whose scans without a label keep to vertices with a granted one. -/
def restrictScans (granted : List String) (ops : List (PlanOp E)) : List (PlanOp E) :=
  ops.flatMap fun
    | .nodeScan name none projection =>
      [.nodeScan name none projection, .filter (carriesAny granted name)]
    | op => [op]

/-- The product the code builds round by round is the rows of labels. -/
theorem cartesianProduct_eq_picks (items : List String) (n : Nat) :
    cartesianProduct items n = picks (replicate n items) := by
  induction n with
  | zero => rfl
  | succ n ih => rw [cartesianProduct, ih, replicate_succ', picks_concat]

/-! ## The scans -/

/-- Scans without a label, each with its variable and projection. -/
def scanOps (scans : List (String × Option (List String))) : List (PlanOp E) :=
  scans.map fun scan => .nodeScan scan.1 none scan.2

/-- The same scans, each for its label. -/
def labelledScans (scans : List (String × Option (List String))) (combo : List String) :
    List (PlanOp E) :=
  (scans.zip combo).map fun scan => .nodeScan scan.1.1 (some scan.2) (some [])

variable {ops : List (PlanOp E)} {scans : List (String × Option (List String))}
  {granted combo : List String}

/-- A row with a vertex for each variable. -/
def Row.bindVertices : List String → List Nat → Row E → Row E
  | name :: names, id :: ids, row => bindVertices names ids (row.fork [(name, .vertex id)])
  | _, _, row => row

/-- One label for each scan. -/
theorem buildLeading_scanOps (scans : List (String × Option (List String)))
    (hlen : combo.length = scans.length) :
    buildLeading (scanOps scans : List (PlanOp E)) combo = labelledScans scans combo := by
  induction scans generalizing combo with
  | nil => rfl
  | cons scan scans ih =>
    obtain _ | ⟨label, combo⟩ := combo
    · cases hlen
    · simp only [scanOps, map_cons, buildLeading, labelledScans, zip_cons_cons, headD_cons,
        tail_cons]
      exact congrArg _ (ih (by simpa using hlen))

theorem restrictScans_append (granted : List String) (ops ops' : List (PlanOp E)) :
    restrictScans granted (ops ++ ops') = restrictScans granted ops ++ restrictScans granted ops' :=
  flatMap_append

theorem restrictScans_cons (scan : String × Option (List String))
    (scans : List (String × Option (List String))) :
    restrictScans granted (scanOps (scan :: scans) : List (PlanOp E)) =
      .nodeScan scan.1 none scan.2 :: .filter (carriesAny granted scan.1) ::
        restrictScans granted (scanOps scans) := rfl

/-- Operators that are no scans without a label stay as they are. -/
theorem restrictScans_of_constrained (hops : ∀ op ∈ ops, op.unconstrained = false) :
    restrictScans granted ops = ops := by
  refine Eq.trans (flatMap_congr fun op hop => ?_) (flatMap_singleton' ops)
  have hop := hops op hop
  split
  · cases hop
  · rfl

/-- The plan with the scans in front is rewritten to the plans for all combinations. -/
theorem expandUnconstrainedScans_scanOps (hops : ∀ op ∈ ops, op.unconstrained = false)
    (hcombos : picks (replicate scans.length granted) = combo :: combos) :
    expandUnconstrainedScans (scanOps scans ++ ops) granted =
      labelledScans scans combo ++ ops ++
        combos.map fun combo => .setOperation .unionAll (labelledScans scans combo ++ ops) := by
  have hscans : ∀ op ∈ (scanOps scans : List (PlanOp E)), op.unconstrained = true := by
    intro op hop
    obtain ⟨scan, -, rfl⟩ := mem_map.mp hop
    rfl
  have hcount : countP (·.unconstrained) (scanOps scans ++ ops) = scans.length := by
    rw [countP_append, countP_eq_length.mpr hscans, countP_eq_zero.mpr (by simpa using hops),
      scanOps, length_map, Nat.add_zero]
  have hhead : ops.takeWhile (·.unconstrained) = [] ∧ ops.dropWhile (·.unconstrained) = ops := by
    cases ops <;> simp_all
  have hlen : ∀ combo ∈ picks (replicate scans.length granted), combo.length = scans.length :=
    fun combo hcombo => by simpa using length_of_mem_picks hcombo
  rw [hcombos] at hlen
  obtain ⟨hfirst, hrest⟩ := forall_mem_cons.mp hlen
  rw [expandUnconstrainedScans, hcount, cartesianProduct_eq_picks, hcombos]
  simp only [takeWhile_append_of_pos hscans, dropWhile_append_of_pos hscans, hhead, append_nil,
    buildLeading_scanOps scans hfirst]
  congr 1
  exact map_congr_left fun combo hcombo => by rw [buildLeading_scanOps scans (hrest combo hcombo)]

/-! ## Runs -/

namespace PlanOp

def isCountedLimit : PlanOp E → Bool
  | limit (some _) _ => true
  | _ => false

/-- A streamable operator is no limit. -/
theorem isCountedLimit_of_streamable {op : PlanOp E} (h : op.streamable = true) :
    op.isCountedLimit = false := by
  cases op <;> first | rfl | cases h

/-- Without a limit nothing is streamed. -/
theorem startsStreaming_eq_false (h : ∀ op ∈ ops, op.isCountedLimit = false) :
    startsStreaming ops = false := by
  by_contra hstarts
  obtain ⟨front, count, offset, later, rfl, -⟩ :=
    exists_limit_of_startsStreaming (Bool.not_eq_false _ ▸ hstarts)
  cases h (.limit (some count) offset) (by simp)

end PlanOp

namespace ExecContext

open EvalContext Consumer PlanOp

/-- The vertices with one of the labels. -/
def grantedVertices (ctx : ExecContext E) (granted : List String) : List Nat :=
  (ctx.graph.vertices.filter fun v => granted.any v.labels.contains).map (·.id)

/-- How many of the labels a vertex has. -/
def grantedLabels (ctx : ExecContext E) (granted : List String) (id : Nat) : Nat :=
  granted.countP fun label => (ctx.graph.vertex id).any (·.labels.contains label)

/-- A vertex of the graph is found by its id. -/
theorem vertex_of_mem {ctx : ExecContext E} (h : v ∈ ctx.graph.vertices) :
    ctx.graph.vertex v.id = some v := by
  have hsorted := ctx.graph.vertices_sorted
  unfold Graph.vertex
  generalize ctx.graph.vertices = vertices at *
  induction vertices with
  | nil => cases h
  | cons w vertices ih =>
    obtain ⟨hw, hrest⟩ := pairwise_cons.mp hsorted
    rcases mem_cons.mp h with rfl | h
    · simp
    · rw [find?_cons_of_neg (by simpa using (hw v h).ne)]
      exact ih h hrest

variable {ctx : ExecContext E}

/-- A filtered scan hits the vertices that pass. -/
theorem mem_filtered {p : Vertex E → Bool} {id : Nat} :
    id ∈ (ctx.graph.vertices.filter p).map (·.id) ↔ (ctx.graph.vertex id).any p = true := by
  rw [Option.any_eq_true]
  constructor
  · intro h
    obtain ⟨v, hv, rfl⟩ := mem_map.mp h
    exact ⟨v, vertex_of_mem (mem_filter.mp hv).1, (mem_filter.mp hv).2⟩
  · rintro ⟨v, hfound, hp⟩
    have hid : v.id = id := by simpa using find?_some hfound
    exact mem_map.mpr ⟨v, mem_filter.mpr ⟨mem_of_find?_eq_some hfound, hp⟩, hid⟩

theorem nodup_filtered (ctx : ExecContext E) (p : Vertex E → Bool) :
    ((ctx.graph.vertices.filter p).map (·.id)).Nodup :=
  (Pairwise.filter _ ctx.graph.vertices_sorted).map _ fun _ _ hlt => hlt.ne

/-- A vertex is granted if it carries a granted label. -/
theorem mem_grantedVertices :
    v ∈ ctx.grantedVertices granted ↔ 0 < ctx.grantedLabels granted v := by
  rw [grantedVertices, mem_filtered, grantedLabels, countP_pos_iff]
  cases ctx.graph.vertex v <;> simp

/-- Scans for all labels visit a vertex once for each of them that it has. -/
theorem count_scanned (ctx : ExecContext E) (granted : List String) (v : Nat) :
    (granted.flatMap fun label => ctx.scanVertices (some label)).count v =
      ctx.grantedLabels granted v := by
  have hone : ∀ label, (ctx.scanVertices (some label)).count v =
      if (ctx.graph.vertex v).any (·.labels.contains label) then 1 else 0 := by
    intro label
    have hmem : v ∈ ctx.scanVertices (some label) ↔
        (ctx.graph.vertex v).any (·.labels.contains label) = true := mem_filtered
    rw [Nodup.count (show (ctx.scanVertices (some label)).Nodup from nodup_filtered ctx _),
      if_congr hmem rfl rfl]
  induction granted with
  | nil => rfl
  | cons label granted ih =>
    rw [flatMap_cons, count_append, ih, hone, grantedLabels, grantedLabels, countP_cons, add_comm]

/-- What a scan with a granted label hits is granted, in the same order. -/
theorem scanVertices_sublist (hlabel : label ∈ granted) :
    ctx.scanVertices (some label) <+ ctx.grantedVertices granted := by
  refine Sublist.map _ (monotone_filter_right _ fun v hv => ?_)
  exact any_eq_true.mpr ⟨label, hlabel, by simpa using hv⟩

/-- The rows of scans, one for each choice of vertices. -/
def scanned (names : List String) (hits : List (List Nat)) (rows : List (Row E)) : List (Row E) :=
  rows.flatMap fun row => (picks hits).map fun ids => Row.bindVertices names ids row

/-- The hits of one more scan are bound before those of the later ones. -/
theorem scanned_cons (name : String) (names : List String) (ids : List Nat) (hits : List (List Nat))
    (rows : List (Row E)) :
    scanned names hits (rows.flatMap (bindHits name .vertex ids)) =
      scanned (name :: names) (ids :: hits) rows := by
  simp [scanned, bindHits, picks, flatMap_assoc, flatMap_map, map_flatMap, Row.bindVertices,
    Function.comp_def]

/-- So the rows of an arm are some of the granted rows. -/
theorem scanned_sublist (hcombo : combo ∈ picks (replicate scans.length granted)) :
    scanned names (combo.map fun label => ctx.scanVertices (some label)) [(∅ : Row E)] <+
      scanned names (replicate scans.length (ctx.grantedVertices granted)) [∅] := by
  obtain ⟨hlen, hgranted⟩ := mem_picks_replicate.mp hcombo
  simp only [scanned, flatMap_singleton]
  refine Sublist.map _ (picks_sublist ?_)
  rw [← hlen, ← map_const']
  exact forall₂_map_left_iff.mpr (forall₂_map_right_iff.mpr (forall₂_same.mpr fun label hlabel =>
    scanVertices_sublist (hgranted label hlabel)))

/-- The scans for all combinations of labels visit every choice of vertices with a label, and
one more than once exactly if a vertex of it has several of the labels. -/
theorem count_picks_scanned (ctx : ExecContext E) (granted : List String) (n : Nat)
    (ids : List Nat) :
    Multiset.count ids (picks (replicate n (ctx.grantedVertices granted))) ≤ Multiset.count ids
      (picks (replicate n (granted.flatMap fun label => ctx.scanVertices (some label)))) ∧
    (Multiset.count ids (picks (replicate n (ctx.grantedVertices granted))) < Multiset.count ids
        (picks (replicate n (granted.flatMap fun label => ctx.scanVertices (some label)))) ↔
      ids ∈ picks (replicate n (ctx.grantedVertices granted)) ∧
        ∃ v ∈ ids, ctx.grantedLabels granted v ≠ 1) := by
  by_cases hids : ids ∈ picks (replicate n (ctx.grantedVertices granted))
  · obtain ⟨hlen, hmem⟩ := mem_picks_replicate.mp hids
    subst hlen
    have hpos : ∀ v ∈ ids, 0 < ctx.grantedLabels granted v :=
      fun v hv => mem_grantedVertices.mp (hmem v hv)
    have honce : (ids.map ((ctx.grantedVertices granted).count ·)).prod = 1 :=
      prod_eq_one fun c hc => by
        obtain ⟨v, hv, rfl⟩ := mem_map.mp hc
        exact count_eq_one_of_mem (nodup_filtered ctx _) (hmem v hv)
    have hprod : ∀ ids : List Nat, (∀ v ∈ ids, 0 < ctx.grantedLabels granted v) →
        1 ≤ (ids.map (ctx.grantedLabels granted)).prod ∧
          ((ids.map (ctx.grantedLabels granted)).prod = 1 ↔
            ∀ v ∈ ids, ctx.grantedLabels granted v = 1) := by
      intro ids hpos
      induction ids with
      | nil => simp
      | cons v ids ih =>
        obtain ⟨hv, hids⟩ := forall_mem_cons.mp hpos
        obtain ⟨hge, hone⟩ := ih hids
        rw [map_cons, prod_cons, forall_mem_cons, mul_eq_one_iff_of_one_le hv hge, hone]
        exact ⟨Nat.mul_pos hv hge, Iff.rfl⟩
    obtain ⟨hge, hone⟩ := hprod ids hpos
    rw [count_picks, count_picks, honce, map_congr_left fun v _ => count_scanned ctx granted v]
    refine ⟨hge, ?_⟩
    rw [lt_iff_le_and_ne, and_iff_right hge, ne_comm, Ne, hone]
    simp [hids]
  · have hnone : ids ∉ picks (replicate n
        (granted.flatMap fun label => ctx.scanVertices (some label))) := by
      simp only [mem_picks_replicate, not_and] at hids ⊢
      refine fun hlen hall => hids hlen fun v hv => ?_
      rw [mem_grantedVertices, ← count_scanned, count_pos_iff]
      exact hall v hv
    rw [Multiset.count_eq_zero.mpr hids, Multiset.count_eq_zero.mpr hnone]
    simp [hids]

/-- The scans for all combinations of labels lead to the same rows as the tested scans exactly if
no vertex of a row that leads to some has several of the labels. -/
theorem scanned_perm_iff (ctx : ExecContext E) {names : List String} {n : Nat}
    {out : Row E → List (Row E)} :
    ((picks (replicate n granted)).flatMap fun combo =>
        (scanned names (combo.map fun label => ctx.scanVertices (some label)) [∅]).flatMap out) ~
      (scanned names (replicate n (ctx.grantedVertices granted)) [∅]).flatMap out ↔
    ∀ ids ∈ picks (replicate n (ctx.grantedVertices granted)),
      out (Row.bindVertices names ids ∅) ≠ [] → ∀ v ∈ ids, ctx.grantedLabels granted v = 1 := by
  have hle : (picks (replicate n (ctx.grantedVertices granted)) : Multiset (List Nat)) ≤
      picks (replicate n (granted.flatMap fun label => ctx.scanVertices (some label))) :=
    Multiset.le_iff_count.mpr fun ids => (count_picks_scanned ctx granted n ids).1
  simp only [scanned, flatMap_singleton, flatMap_map]
  rw [← flatMap_assoc, ← Multiset.coe_eq_coe, ← Multiset.coe_bind _ fun ids =>
    out (Row.bindVertices names ids ∅), coe_flatMap_picks, ← Multiset.coe_bind,
    bind_eq_bind_iff hle]
  simp only [(count_picks_scanned ctx granted n _).2, Multiset.coe_eq_zero]
  grind

/-- Later operators do not tell a labelled scan from a tested one. -/
theorem behind_labelled {before before' : List (PlanOp E)} (condition : Expr E)
    (h : before = [] ∧ before' = [] ∨ Behind before before') :
    Behind (.filter condition :: .nodeScan name none projection :: before)
      (.nodeScan name (some label) (some []) :: before') where
  bindsEdge edgeVar := by
    rcases h with ⟨rfl, rfl⟩ | h
    · rfl
    · exact h.bindsEdge edgeVar
  delivery orderBy := by
    rcases h with ⟨rfl, rfl⟩ | h
    · cases hkey : ascendingPropertyKey orderBy <;>
        simp [indexOrderedDeliveryActive, indexOrderedDeliveryCandidate, hkey]
    · rw [reverse_cons, reverse_cons, reverse_cons, indexOrderedDeliveryActive_concat (by simp),
        indexOrderedDeliveryActive_concat (reverse_ne_nil_iff.mpr h.nonempty),
        indexOrderedDeliveryActive_concat (reverse_ne_nil_iff.mpr h.nonempty')]
      simp [preservesLeadingRowOrder]
  nonempty := by simp
  nonempty' := by simp

/-- For the operators behind them, the filtered scans and the labelled ones are
alike. -/
theorem behind_scans {before before' : List (PlanOp E)} (label : String)
    (scans : List (String × Option (List String)))
    (h : before = [] ∧ before' = [] ∨ Behind before before') :
    (restrictScans [label] (scanOps scans)).reverse ++ before = [] ∧
        (labelledScans scans (replicate scans.length label)).reverse ++ before' = [] ∨
      Behind ((restrictScans [label] (scanOps scans)).reverse ++ before)
        ((labelledScans scans (replicate scans.length label)).reverse ++ before') := by
  induction scans generalizing before before' with
  | nil => exact h
  | cons scan scans ih =>
    simpa [restrictScans_cons, labelledScans, replicate_succ] using
      ih (.inr (behind_labelled (carriesAny [label] scan.1) h))

section Execution

variable [ExtensionValue E] {specs : Option (List (AggregateSpec E))}

/-- The filter is true exactly of a vertex with a granted label, and never
fails. -/
theorem carriesAny_verdict (row : Row E) (id : Nat) :
    ctx.rowMatchesAll specs (row.fork [(name, .vertex id)]) [carriesAny granted name] =
      .ok ((ctx.graph.vertex id).any fun v => granted.any v.labels.contains) := by
  have hlookup : (row.fork [(name, .vertex id)]).lookup name = some (.vertex id) :=
    Finmap.lookup_insert _
  have hmatches : ∀ labels : List String, LabelExpr.matchesVertex labels
      (granted.foldr (fun label => .or (.name label)) (.and .wildcard (.not .wildcard))) =
        granted.any labels.contains := by
    intro labels
    induction granted with
    | nil => simp [LabelExpr.matchesVertex]
    | cons label granted ih => simp [LabelExpr.matchesVertex, ih]
  simp only [rowMatchesAll, carriesAny, evalExpr, Expr.asVar, hlookup, bindingIsLabeled]
  cases ctx.graph.vertex id with
  | none => rfl
  | some v => cases h : granted.any v.labels.contains <;> simp [hmatches, h, truthy, evalError]

/-- The test keeps the vertices with a granted label. -/
theorem bindHits_filter (row : Row E) :
    (∀ row' ∈ bindHits name .vertex (ctx.scanVertices none) row,
      HasVerdict (ctx.rowMatchesAll specs · [carriesAny granted name]) row') ∧
    (bindHits name .vertex (ctx.scanVertices none) row).filter
        (passes (ctx.rowMatchesAll specs · [carriesAny granted name])) =
      bindHits name .vertex (ctx.grantedVertices granted) row := by
  constructor
  · rintro _ hrow
    obtain ⟨id, -, rfl⟩ := mem_map.mp hrow
    exact ⟨_, carriesAny_verdict row id⟩
  simp only [bindHits, scanVertices, grantedVertices, map_map, filter_map, Option.all_none,
    filter_true]
  congr 1
  refine filter_congr fun v hv => ?_
  have hpasses : passes (ctx.rowMatchesAll specs · [carriesAny granted name])
      (row.fork [(name, .vertex v.id)]) = _ := passes_eq (carriesAny_verdict row v.id)
  simp [hpasses, vertex_of_mem hv]

/-- A scan of everything and the filter keep the granted vertices. -/
theorem filterRows_scan (rows : List (Row E)) :
    ctx.filterRows specs [carriesAny granted name]
        (rows.flatMap (bindHits name .vertex (ctx.scanVertices none))) =
      .ok (rows.flatMap (bindHits name .vertex (ctx.grantedVertices granted))) := by
  refine keep_eq_ok.mpr ⟨?_, ?_⟩
  · intro row' hrow'
    obtain ⟨row, -, hrow'⟩ := mem_flatMap.mp hrow'
    exact (bindHits_filter row).1 row' hrow'
  · rw [filter_flatMap]
    exact flatMap_congr fun row _ => (bindHits_filter row).2.symm

variable [BEq E] {input rows : List (Row E)} {later before : List (PlanOp E)}

/-- An arm's scans bind the vertices of its labels. -/
theorem executeEach_labelledScans (hlen : combo.length = scans.length) :
    ctx.executeEach input later before none rows (labelledScans scans combo) =
      .ok (scanned (scans.map (·.1)) (combo.map fun label => ctx.scanVertices (some label)) rows,
        none) := by
  induction scans generalizing combo rows before with
  | nil =>
    obtain rfl := List.length_eq_zero_iff.mp hlen
    simp [labelledScans, executeEach, scanned, picks, Row.bindVertices]
  | cons scan scans ih =>
    obtain _ | ⟨label, combo⟩ := combo
    · cases hlen
    rw [labelledScans, zip_cons_cons, map_cons, executeEach]
    simp only [executeOp, ok_bind]
    rw [← labelledScans, show nextSpecs none (PlanOp.nodeScan scan.1 (some label) (some []) :
      PlanOp E) = none from rfl, ih (by simpa using hlen), scanned_cons]
    rfl

/-- The filtered scans bind the granted vertices. -/
theorem executeEach_restrictScans (scans : List (String × Option (List String))) :
    ctx.executeEach input later before none rows (restrictScans granted (scanOps scans)) =
      .ok (scanned (scans.map (·.1)) (replicate scans.length (ctx.grantedVertices granted)) rows,
        none) := by
  induction scans generalizing rows before with
  | nil => simp [scanOps, restrictScans, executeEach, scanned, picks, Row.bindVertices]
  | cons scan scans ih =>
    rw [restrictScans_cons, executeEach]
    simp only [executeOp, ok_bind]
    rw [executeEach]
    simp only [executeOp, filterRows_scan, ok_bind]
    rw [show nextSpecs (nextSpecs none (PlanOp.nodeScan scan.1 none scan.2)) (PlanOp.filter
      (carriesAny granted scan.1) : PlanOp E) = none from rfl, ih, scanned_cons]
    rfl

/-- Two parts of a plan run one after the other. -/
theorem executeEach_append (ops ops' : List (PlanOp E)) :
    ctx.executeEach input later before specs rows (ops ++ ops') = (do
      let (rows, specs) ← ctx.executeEach input (ops' ++ later) before specs rows ops
      ctx.executeEach input later (ops.reverse ++ before) specs rows ops') := by
  induction ops generalizing before specs rows with
  | nil => rfl
  | cons op ops ih =>
    simp only [cons_append, executeEach, append_assoc, bind_assoc, ih, reverse_cons, nil_append]

/-- Operators that are not streamed run one at a time. -/
theorem executeOps_append
    (hstarts : ∀ op rest, op :: rest <:+ ops → startsStreaming (op :: rest ++ later) = false) :
    ctx.executeOps before input specs none rows (ops ++ later) = (do
      let (rows, specs) ← ctx.executeEach input later before specs rows ops
      ctx.executeOps (ops.reverse ++ before) input specs none rows later) := by
  induction ops generalizing before specs rows with
  | nil => rfl
  | cons op ops ih =>
    have hop := hstarts op ops (suffix_refl _)
    rw [cons_append] at hop ⊢
    rw [executeOps_cons hop]
    simp only [executeEach, bind_assoc, reverse_cons, append_assoc, cons_append, nil_append]
    refine bind_congr fun rows => ?_
    rw [ih fun op' rest hrest => hstarts op' rest (hrest.trans (suffix_cons _ _))]

/-- Behind a first arm each `UNION ALL` adds the rows of its own arm. -/
theorem executeOps_unionAll {arm : List String → List (PlanOp E)}
    {made : List String → List (Row E)} {combos : List (List String)}
    (harms : ∀ combo ∈ combos,
      ctx.executeOps [] input none none input (arm combo) = .ok (made combo)) :
    ctx.executeOps before input specs none rows
        (combos.map fun combo => .setOperation .unionAll (arm combo)) =
      .ok (rows ++ combos.flatMap made) := by
  induction combos generalizing before specs rows with
  | nil => simp
  | cons combo combos ih =>
    obtain ⟨hcombo, hrest⟩ := forall_mem_cons.mp harms
    rw [map_cons, executeOps_cons rfl]
    simp only [executeOp, hcombo, ok_bind, pure_eq_ok, reduceCtorEq, if_false, applySetOp]
    rw [ih hrest, flatMap_cons, append_assoc]

/-! ### One label -/

omit [BEq E] in
/-- With one granted label, the filtered scans stream as the labelled ones do.
-/
theorem streamOps_labelled (scans : List (String × Option (List String))) (ops : List (PlanOp E)) :
    ctx.streamOps specs (restrictScans [label] (scanOps scans) ++ ops) =
      ctx.streamOps specs (labelledScans scans (replicate scans.length label) ++ ops) := by
  induction scans with
  | nil => rfl
  | cons scan scans ih =>
    funext row sink
    rw [restrictScans_cons]
    refine (each_keep_eq (bindHits_filter row).1 sink).trans ?_
    rw [(bindHits_filter row).2, show ctx.grantedVertices [label] = ctx.scanVertices (some label) by
      simp [grantedVertices, scanVertices]]
    exact congrArg (each · _ sink) ih

theorem executeOps_same {before before' : List (PlanOp E)}
    (h : before = [] ∧ before' = [] ∨ Behind before before') (front : List (PlanOp E)) :
    ctx.executeOps (front ++ before) input specs none rows ops =
      ctx.executeOps (front ++ before') input specs none rows ops := by
  rcases h with ⟨rfl, rfl⟩ | h
  · rfl
  · exact executeOps_behind (h.append front)

omit [ExtensionValue E] [BEq E] in
/-- Both kinds of scans can be streamed. -/
theorem streamable_scans (scans : List (String × Option (List String)))
    (granted combo : List String) :
    (∀ op ∈ restrictScans granted (scanOps scans : List (PlanOp E)), op.streamable = true) ∧
      ∀ op ∈ (labelledScans scans combo : List (PlanOp E)), op.streamable = true := by
  constructor
  · intro op hop
    induction scans with
    | nil => cases hop
    | cons scan scans ih =>
      rw [restrictScans_cons, mem_cons, mem_cons] at hop
      rcases hop with rfl | rfl | hop
      · rfl
      · rfl
      · exact ih hop
  · intro op hop
    obtain ⟨scan, -, rfl⟩ := mem_map.mp hop
    rfl

/-- With one label the scans for it are as good as the tested scans, whatever follows. -/
theorem execute_labelled (scans : List (String × Option (List String))) (ops : List (PlanOp E)) :
    ctx.execute (labelledScans scans (replicate scans.length label) ++ ops) =
      ctx.execute (restrictScans [label] (scanOps scans) ++ ops) := by
  obtain ⟨hrestricted, hlabelled⟩ :=
    streamable_scans (E := E) scans [label] (replicate scans.length label)
  have hbehind := behind_scans (E := E) label scans (.inl ⟨rfl, rfl⟩)
  simp only [execute, executeOpsFrom]
  cases hs : startsStreaming ops with
  | true =>
    obtain ⟨front, count, offset, later, rfl, hfront⟩ := exists_limit_of_startsStreaming hs
    rw [← append_assoc, ← append_assoc,
      executeOps_streaming (forall_mem_append.mpr ⟨hlabelled, hfront⟩),
      executeOps_streaming (forall_mem_append.mpr ⟨hrestricted, hfront⟩)]
    simp only [executeLimitedStreamingPrefix, streamOps_labelled]
    refine bind_congr fun r => ?_
    simpa using (executeOps_same hbehind (.limit (some count) offset :: front.reverse)).symm
  | false =>
    have hregular : ∀ lead : List (PlanOp E), (∀ op ∈ lead, op.streamable = true) →
        ∀ op rest, op :: rest <:+ lead → startsStreaming (op :: rest ++ ops) = false := by
      intro lead hlead op rest hrest
      have hback : ∀ back : List (PlanOp E), (∀ op ∈ back, op.streamable = true) →
          startsStreaming (back ++ ops) = false := by
        intro back hback
        induction back with
        | nil => exact hs
        | cons op back ih =>
          obtain ⟨hop, hback⟩ := forall_mem_cons.mp hback
          rw [cons_append, startsStreaming_cons hop, ih hback]
      exact hback _ fun op hop => hlead op (hrest.subset hop)
    rw [executeOps_append (hregular _ hlabelled), executeOps_append (hregular _ hrestricted),
      executeEach_labelledScans (by simp), executeEach_restrictScans]
    simp only [ok_bind, map_replicate, show ctx.grantedVertices [label] =
      ctx.scanVertices (some label) by simp [grantedVertices, scanVertices]]
    exact (executeOps_same hbehind []).symm

/-! ### Several labels -/

/-- The operators make of each row rows of its own, whatever rows of these come with it, in some
order. -/
def Distributes (ctx : ExecContext E) (later ops : List (PlanOp E)) (rows : List (Row E))
    (out : Row E → List (Row E)) : Prop :=
  ∀ before part, part <+ rows → ∃ made specs,
    ctx.executeEach [∅] later before none part ops = .ok (made, specs) ∧ made ~ part.flatMap out

/-- A plan of scans and such operators, with other arms behind it. -/
theorem executeEach_distributes {lead : List (PlanOp E)} {out : Row E → List (Row E)}
    (later : List (PlanOp E))
    (hlead : ctx.executeEach [∅] (ops ++ later) [] none [∅] lead = .ok (part, none))
    (hdist : ctx.Distributes later ops rows out) (hpart : part <+ rows) :
    ∃ made specs, ctx.executeEach [∅] later [] none [∅] (lead ++ ops) = .ok (made, specs) ∧
      made ~ part.flatMap out := by
  obtain ⟨made, specs, hmade, hperm⟩ := hdist (lead.reverse ++ []) part hpart
  refine ⟨made, specs, ?_, hperm⟩
  rw [executeEach_append, hlead]
  exact hmade

/-- A plan that distributes gives, from some of the rows, what each of them
gives. -/
theorem executeOps_distributes {lead : List (PlanOp E)} {out : Row E → List (Row E)}
    (hlead : ctx.executeEach [∅] ops [] none [∅] lead = .ok (part, none))
    (hlimits : ∀ op ∈ lead ++ ops, op.isCountedLimit = false)
    (hdist : ctx.Distributes [] ops rows out) (hpart : part <+ rows) :
    ∃ made, ctx.executeOps [] [∅] none none [∅] (lead ++ ops) = .ok made ∧
      made ~ part.flatMap out := by
  obtain ⟨made, specs, hmade, hperm⟩ :=
    executeEach_distributes [] (by simpa using hlead) hdist hpart
  refine ⟨made, ?_, hperm⟩
  have hstarts : ∀ op rest, op :: rest <:+ lead ++ ops →
      startsStreaming (op :: rest ++ []) = false := fun op rest hrest =>
    startsStreaming_eq_false fun op' hop' => hlimits op' (hrest.subset (by simpa using hop'))
  rw [← append_nil (lead ++ ops), executeOps_append hstarts, hmade]
  simp

/-! ### Operators that work row by row -/

omit [ExtensionValue E] [BEq E] in
/-- Streamable operators and set operations never ask for insertion order. -/
theorem insertionOrderAfterExpand_eq_false {ops : List (PlanOp E)}
    (hops : ∀ op ∈ ops, op.streamable = true) (arms : List (List (PlanOp E))) :
    ctx.insertionOrderAfterExpand edgeVar fixedLabel (ops ++ arms.map (.setOperation .unionAll)) =
      .ok false := by
  induction ops with
  | nil =>
    induction arms with
    | nil => rfl
    | cons arm arms ih => exact ih
  | cons op ops ih =>
    obtain ⟨hop, hrest⟩ := forall_mem_cons.mp hops
    rw [cons_append]
    cases op
    case nodeScan | propertyFilter | filter | letBindings | project => exact ih hrest
    case expand | expandFilter =>
      rw [insertionOrderAfterExpand, ih hrest, ite_self]
    all_goals cases hop

omit [BEq E] in
/-- An expansion that runs over some rows runs over others, if each of them can be expanded. -/
theorem executeExpand_of_forEach {part : List (Row E)}
    (horder : ∀ edgeVar fixedLabel,
      ctx.insertionOrderAfterExpand edgeVar fixedLabel later = .ok false ∧
        ctx.insertionOrderAfterExpand edgeVar fixedLabel later' = .ok false)
    (h : ctx.executeExpand spec dstFilter later rows = .ok mid)
    (hpart : forEach (ctx.expandStep spec dstFilter) part = .ok made) :
    ctx.executeExpand spec dstFilter later' part = .ok made := by
  unfold executeExpand at h ⊢
  unfold expandStep at hpart
  cases hvar : spec.varLen with
  | some varLen =>
    rw [hvar] at hpart
    exact hpart
  | none =>
    rw [hvar] at h hpart
    simp only [horder, ok_bind] at h ⊢
    obtain ⟨filter, hfilter, -⟩ := bind_inv h
    obtain rfl := expandPrepare_forward hfilter
    rw [hfilter]
    exact hpart

/-- An operator that works row by row does so on any of the rows. -/
theorem executeOp_of_forEach (hop : op.streamable = true)
    (horder : ∀ edgeVar fixedLabel,
      ctx.insertionOrderAfterExpand edgeVar fixedLabel later = .ok false ∧
        ctx.insertionOrderAfterExpand edgeVar fixedLabel later' = .ok false)
    (h : ctx.executeOp before later input specs rows op = .ok mid)
    (hpart : forEach (ctx.rowStep specs op) part = .ok made) :
    ctx.executeOp before' later' input specs part op = .ok made := by
  cases op <;> simp only [executeOp] at h ⊢
  case nodeScan => exact (forEach_ok _ _).symm.trans hpart
  case propertyFilter | filter => exact hpart
  case letBindings => rwa [mapM_eq_forEach]
  case project columns distinct =>
    obtain rfl : distinct = false := by simpa [streamable] using hop
    rw [projectRows, mapM_eq_forEach]
    exact congrArg (· >>= _) hpart
  case expand | expandFilter => exact executeExpand_of_forEach horder h hpart
  all_goals cases hop

/-- And so does a chain of them: it gives what those rows give, and cannot fail
where the whole did not. -/
theorem executeEach_of_sublist {ops : List (PlanOp E)} {part rows : List (Row E)}
    (arms arms' : List (List (PlanOp E))) (hops : ∀ op ∈ ops, op.streamable = true)
    (hpart : part <+ rows)
    (h : ctx.executeEach input (arms.map (.setOperation .unionAll)) before specs rows ops =
      .ok (out, final)) :
    ∃ made, ctx.executeEach input (arms'.map (.setOperation .unionAll)) before' specs part ops =
        .ok (made, final) ∧ forEach (ctx.rowOut specs ops) part = .ok made := by
  induction ops generalizing before before' specs rows part with
  | nil =>
    cases h
    exact ⟨part, rfl, (forEach_ok (fun row => [row]) _).trans (by simp)⟩
  | cons op ops ih =>
    obtain ⟨hop, hrest⟩ := forall_mem_cons.mp hops
    obtain ⟨mid, hmid, h⟩ := bind_inv h
    have horder : ∀ (arms : List (List (PlanOp E))) edgeVar fixedLabel,
        ctx.insertionOrderAfterExpand edgeVar fixedLabel
          (ops ++ arms.map (.setOperation .unionAll)) = .ok false :=
      fun arms _ _ => insertionOrderAfterExpand_eq_false hrest arms
    have hforward : ctx.Forward [op] (ops ++ arms.map (.setOperation .unionAll)) := by
      refine ⟨trivial, ?_⟩
      cases op <;> first | trivial | exact fun _ => by simp [horder]
    obtain ⟨mid', hmid', hsub⟩ := forEach_sublist (forEach_rowStep hop hforward hmid) hpart
    obtain ⟨made, hmade, hout⟩ := ih hrest hsub h
    refine ⟨made, ?_, forEach_comp hmid' hout⟩
    rw [executeEach, executeOp_of_forEach hop (fun _ _ => ⟨horder arms _ _, horder arms' _ _⟩) hmid
      hmid', ok_bind, hmade]

/-- Operators that work row by row distribute over the rows they can be run on. -/
theorem distributes_of_streamable {ops : List (PlanOp E)} {rows : List (Row E)}
    (hops : ∀ op ∈ ops, op.streamable = true)
    (h : ctx.executeEach [∅] [] [] none rows ops = .ok (made, specs))
    (arms : List (List (PlanOp E))) :
    ctx.Distributes (arms.map (.setOperation .unionAll)) ops rows
      fun row => (ctx.rowOut none ops row).toOption.getD [] := by
  intro before part hpart
  obtain ⟨made', hmade', hout⟩ := executeEach_of_sublist [] arms hops hpart h
  refine ⟨made', specs, hmade', .of_eq ?_⟩
  obtain ⟨lists, hlists, rfl⟩ := map_eq_ok.mp hout
  have hmap := mapM_ok_eq (g := fun row => (ctx.rowOut none ops row).toOption.getD []) hlists
    fun row made hmade => by rw [hmade]; rfl
  rw [hmap, flatMap_def]

/-- The rewritten plan gives the rows of its arms one after another. -/
theorem execute_arms {combo : List String} {combos : List (List String)}
    {out : Row E → List (Row E)}
    (hmem : ∀ combo' ∈ combo :: combos, combo' ∈ picks (replicate scans.length granted))
    (hlimits : ∀ op ∈ ops, op.isCountedLimit = false)
    (hdist : ∀ arms : List (List (PlanOp E)),
      ctx.Distributes (arms.map (.setOperation .unionAll)) ops
        (scanned (scans.map (·.1)) (replicate scans.length (ctx.grantedVertices granted)) [∅])
        out) :
    ∃ rows, ctx.execute (labelledScans scans combo ++ ops ++
        combos.map fun combo => .setOperation .unionAll (labelledScans scans combo ++ ops)) =
          .ok rows ∧
      rows ~ (combo :: combos).flatMap fun combo =>
        (scanned (scans.map (·.1)) (combo.map fun label => ctx.scanVertices (some label))
          [∅]).flatMap out := by
  have hfree : ∀ combo, ∀ op ∈ (labelledScans scans combo : List (PlanOp E)) ++ ops,
      op.isCountedLimit = false :=
    fun combo => forall_mem_append.mpr ⟨fun op hop =>
      isCountedLimit_of_streamable ((streamable_scans scans granted combo).2 op hop), hlimits⟩
  -- the arms behind the first
  have harms : ∀ combo' ∈ combos, ∃ made,
      ctx.executeOps [] [∅] none none [∅] (labelledScans scans combo' ++ ops) = .ok made ∧
        made ~ (scanned (scans.map (·.1))
          (combo'.map fun label => ctx.scanVertices (some label)) [∅]).flatMap out := by
    intro combo' hcombo'
    have hpick := hmem combo' (mem_cons_of_mem _ hcombo')
    exact executeOps_distributes (executeEach_labelledScans (mem_picks_replicate.mp hpick).1)
      (hfree combo') (hdist []) (scanned_sublist hpick)
  choose! made hmade hperm using harms
  -- the first arm, with the others behind it
  have hpick := hmem combo (mem_cons_self ..)
  have hdist' := hdist (combos.map fun combo => labelledScans scans combo ++ ops)
  simp only [map_map, Function.comp_def] at hdist'
  obtain ⟨first, specs, hfirst, hperm'⟩ := executeEach_distributes _
    (executeEach_labelledScans (mem_picks_replicate.mp hpick).1) hdist' (scanned_sublist hpick)
  refine ⟨first ++ combos.flatMap made, ?_, hperm'.append (.flatMap_left _ hperm)⟩
  rw [execute, executeOpsFrom, executeOps_append, hfirst]
  · exact executeOps_unionAll hmade
  · intro op rest hrest
    refine startsStreaming_eq_false fun op' hop' => ?_
    rcases mem_append.mp hop' with hop' | hop'
    · exact hfree combo op' (hrest.subset hop')
    · obtain ⟨_, -, rfl⟩ := mem_map.mp hop'
      rfl

end Execution

end ExecContext

open ExecContext PlanOp

/-- One vertex with two labels. -/
def twoLabels : Graph Empty where
  vertices := [⟨0, ["A", "B"], []⟩]
  edges := []
  vertices_sorted := by simp
  edges_distinct := .nil

/-- Two vertices with a label each. -/
def oneLabelEach : Graph Empty where
  vertices := [⟨0, ["A"], []⟩, ⟨1, ["B"], []⟩]
  edges := []
  vertices_sorted := by simp
  edges_distinct := .nil

/-- `MATCH (n), (m)` -/
def matchPair : List (String × Option (List String)) := [("n", none), ("m", none)]

/-- `RETURN n, m` -/
def returnPair : List (PlanOp Empty) := [.project [⟨.var "n", none⟩, ⟨.var "m", none⟩] false]

end Gleaph
