import Gleaph.SeqMap

/-!
# Gleaph.LabelStats.Projection

Label statistics: how the router projects the delta events of graph shards
(`crates/router/src/facade/store/label_stats_projection.rs`,
`crates/graph/src/facade/stable/label_stats_delta.rs`).

A shard numbers its events and keeps them in a log until the router
acknowledges them.  A call of `advance_label_stats_projection` reads the
durable cursor, awaits a list of events behind it, applies those that the
durable cursor has not passed meanwhile, and acknowledges.

An event carries what one mutation has done: plus or minus one for each label
of an element inserted or removed, added up by label.  So the sum of a label
over the events of a shard is the number of its elements with that label.

The counts of the router are unsigned and saturate at both ends.
`Counts.payload` says when a payload is counted exactly: the sums of a label
stay within the room that a shard has for elements, and the room of all shards
of a graph fits into 64 bits.
-/

namespace Gleaph.LabelProjection

open Function

/-- Label ids of vertices and of edges; the source keeps one map for each. -/
inductive Label where
  | vertex (id : Nat)
  | edge (id : Nat)
deriving DecidableEq, Repr

structure LabelStatsDelta where
  vertex : List (Nat × Int)
  edge : List (Nat × Int)
deriving DecidableEq, Repr

/-- Every label occurs once; one whose sum has become zero is dropped.  The sum is at
most the number of elements that a shard has room for, which `i64` counts. -/
def addLabelDelta (deltas : List (Nat × Int)) (label : Nat) (delta : Int) : List (Nat × Int) :=
  if delta = 0 then deltas
  else if deltas.any (·.1 = label) then
    let deltas := deltas.map fun entry =>
      if entry.1 = label then (entry.1, entry.2 + delta) else entry
    if deltas.any (fun entry => entry.1 = label ∧ entry.2 = 0) then deltas.filter (·.2 ≠ 0)
    else deltas
  else deltas ++ [(label, delta)]

namespace LabelStatsDelta

def empty : LabelStatsDelta := ⟨[], []⟩

/-- `add_vertex_label_delta` and `add_edge_label_delta`. -/
def add (deltas : LabelStatsDelta) (delta : Int) : Label → LabelStatsDelta
  | .vertex id => { deltas with vertex := addLabelDelta deltas.vertex id delta }
  | .edge id => { deltas with edge := addLabelDelta deltas.edge id delta }

/-- The changes in the order in which they are applied. -/
def changes (delta : LabelStatsDelta) : List (Label × Int) :=
  delta.vertex.map (fun change => (.vertex change.1, change.2)) ++
    delta.edge.map fun change => (.edge change.1, change.2)

end LabelStatsDelta

/-- A label of an element is new on the shard, or gone from it. -/
inductive ElementChange (E : Type) where
  | inserted (label : Label) (element : E)
  | removed (label : Label) (element : E)
deriving DecidableEq, Repr

namespace ElementChange

variable {E : Type}

def label : ElementChange E → Label
  | inserted label _ => label
  | removed label _ => label

/-- The executors add one for each label of an element they insert, and take one away
for each label of an element they remove. -/
def amount : ElementChange E → Int
  | inserted .. => 1
  | removed .. => -1

def record (deltas : LabelStatsDelta) (change : ElementChange E) : LabelStatsDelta :=
  deltas.add change.amount change.label

/-- Only what is not there is inserted, and only what is there is removed. -/
def apply [DecidableEq E] (alive : Finset (Label × E)) :
    ElementChange E → Option (Finset (Label × E))
  | inserted label element =>
    if (label, element) ∈ alive then none else some (insert (label, element) alive)
  | removed label element =>
    if (label, element) ∈ alive then some (alive.erase (label, element)) else none

end ElementChange

structure LabelStatsDeltaEvent where
  mutationId : Nat
  shardEventSeq : Nat
  labelStatsDelta : LabelStatsDelta
deriving DecidableEq, Repr

/-! ## The log of a shard -/

structure DeltaLog where
  seq : Nat
  log : SeqMap LabelStatsDeltaEvent
deriving DecidableEq

namespace DeltaLog

def empty : DeltaLog := ⟨0, .empty⟩

def commitAppend (shard : DeltaLog) (mutationId : Nat) (delta : LabelStatsDelta) :
    Except String (DeltaLog × LabelStatsDeltaEvent) :=
  if 2 ^ 64 ≤ shard.seq + 1 then .error "label stats delta sequence exhausted"
  else
    let event := ⟨mutationId, shard.seq + 1, delta⟩
    .ok (⟨shard.seq + 1, shard.log.insert (shard.seq + 1) event⟩, event)

/-- The limit is checked behind the first event, so one is listed in any case. -/
def listFrom (shard : DeltaLog) (fromSeq limit : Nat) : List LabelStatsDeltaEvent :=
  ((shard.log.rows.filter fun row => fromSeq ≤ row.1).take (max limit 1)).map (·.2)

def removeThrough (shard : DeltaLog) (throughSeq : Nat) : DeltaLog :=
  { shard with
    log := ⟨shard.log.rows.filter fun row => throughSeq < row.1, shard.log.sorted.filter _⟩ }

end DeltaLog

/-! ## The router's counts -/

structure LabelStats where
  liveCount : Nat
  totalAdds : Nat
  totalRemoves : Nat
deriving DecidableEq, Repr

def saturatingAdd (a b : Nat) : Nat := min (a + b) (2 ^ 64 - 1)

/-- The router's maps; an absent row is a zero. -/
structure Router (G S : Type) where
  stats : G × Label → LabelStats
  live : G × S × Label → Nat
  cursor : G × S → Nat
  /-- Not stored: the events applied so far, oldest first. -/
  applied : G × S → List LabelStatsDeltaEvent

inductive ProjectionError where
  | invalidArgument (message : String)
  | internal (message : String)
deriving DecidableEq, Repr

structure AdvanceResult where
  deltasApplied : Nat
  appliedThroughSeq : Nat
deriving DecidableEq, Repr

namespace Router

variable {G S : Type}

def empty : Router G S := ⟨fun _ => ⟨0, 0, 0⟩, fun _ => 0, fun _ => 0, fun _ => []⟩

variable [DecidableEq G] [DecidableEq S]

section

variable (router : Router G S)

def commitApplyLabelDelta (graphId : G) (shardId : S) (label : Label) (delta : Int) : Router G S :=
  if delta = 0 then router
  else
    let magnitude := delta.natAbs
    let entry := router.stats (graphId, label)
    let current := router.live (graphId, shardId, label)
    { router with
      stats := update router.stats (graphId, label)
        (if 0 < delta then
          { entry with
            liveCount := saturatingAdd entry.liveCount magnitude
            totalAdds := saturatingAdd entry.totalAdds magnitude }
        else
          { entry with
            liveCount := entry.liveCount - magnitude
            totalRemoves := saturatingAdd entry.totalRemoves magnitude })
      live := update router.live (graphId, shardId, label)
        (if 0 < delta then saturatingAdd current magnitude else current - magnitude) }

def applyLabelStatsDeltaPayload (graphId : G) (shardId : S) (delta : LabelStatsDelta) :
    Router G S :=
  delta.changes.foldl
    (fun router change => router.commitApplyLabelDelta graphId shardId change.1 change.2) router

def commitLabelStatsProjectionCursor (key : G × S) (appliedThroughSeq : Nat) : Router G S :=
  if router.cursor key < appliedThroughSeq then
    { router with cursor := update router.cursor key appliedThroughSeq }
  else router

/-- Events up to the durable cursor are passed over. -/
def applyLabelStatsDeltaEvent (graphId : G) (shardId : S) (event : LabelStatsDeltaEvent) :
    Router G S :=
  if event.shardEventSeq ≤ router.cursor (graphId, shardId) then router
  else
    let router := router.applyLabelStatsDeltaPayload graphId shardId event.labelStatsDelta
    let router := router.commitLabelStatsProjectionCursor (graphId, shardId) event.shardEventSeq
    { router with
      applied := update router.applied (graphId, shardId)
        (router.applied (graphId, shardId) ++ [event]) }

/-! ## Advancing -/

/-- `advance_label_stats_projection` before the await: the cursor it holds. -/
def startAdvance (key : G × S) (limit : Nat) : Except ProjectionError Nat :=
  if limit = 0 then .error (.invalidArgument "limit must be greater than zero")
  else if 2 ^ 64 ≤ router.cursor key + 1 then
    .error (.internal "label stats projection cursor exhausted")
  else .ok (router.cursor key)

end

variable [ToString S]

/-- The loop over the listed events, from the call's own cursor on. -/
def applyListed (graphId : G) (shardId : S) :
    Nat → Nat → List LabelStatsDeltaEvent → Router G S →
      Router G S × Except ProjectionError AdvanceResult
  | cursor, deltasApplied, [], router => (router, .ok ⟨deltasApplied, cursor⟩)
  | cursor, deltasApplied, event :: events, router =>
    if 2 ^ 64 ≤ cursor + 1 then
      (router, .error (.internal "label stats delta sequence exhausted"))
    else if event.shardEventSeq ≠ cursor + 1 then
      (router, .error (.invalidArgument
        (s!"label stats projection gap for shard {shardId}: expected seq {cursor + 1}, " ++
          s!"found {event.shardEventSeq}")))
    else
      applyListed graphId shardId event.shardEventSeq (min (deltasApplied + 1) (2 ^ 32 - 1)) events
        (router.applyLabelStatsDeltaEvent graphId shardId event)

/-- Behind the await: the router, the result, and the sequence number to
acknowledge, if there is one. -/
def finishAdvance (router : Router G S) (graphId : G) (shardId : S) (cursor : Nat)
    (deltas : List LabelStatsDeltaEvent) :
    Router G S × Except ProjectionError AdvanceResult × Option Nat :=
  if deltas.isEmpty then (router, .ok ⟨0, cursor⟩, none)
  else
    match applyListed graphId shardId cursor 0 deltas router with
    | (router, .ok result) => (router, .ok result, some result.appliedThroughSeq)
    | (router, .error error) => (router, .error error, none)

end Router

/-! ## Sums -/

section Sums

variable {α β : Type} [DecidableEq α] [DecidableEq β]

/-- The changes of one label, added up. -/
def sumOf (label : α) (changes : List (α × Int)) : Int :=
  (changes.map fun change => if change.1 = label then change.2 else 0).sum

theorem sumOf_append (label : α) (xs ys : List (α × Int)) :
    sumOf label (xs ++ ys) = sumOf label xs + sumOf label ys := by
  simp [sumOf]

theorem sumOf_cons (label : α) (change : α × Int) (changes : List (α × Int)) :
    sumOf label (change :: changes) =
      (if change.1 = label then change.2 else 0) + sumOf label changes := by
  simp [sumOf]

theorem sumOf_singleton (label : α) (change : α × Int) :
    sumOf label [change] = if change.1 = label then change.2 else 0 := by
  simp [sumOf]

theorem sumOf_eq_zero {changes : List (α × Int)} (h : label ∉ changes.map Prod.fst) :
    sumOf label changes = 0 := by
  refine List.sum_eq_zero fun x hx => ?_
  obtain ⟨change, hchange, rfl⟩ := List.mem_map.mp hx
  refine if_neg fun heq => h ?_
  rw [← heq]
  exact List.mem_map_of_mem hchange

/-- Labels under other names. -/
theorem sumOf_map {f : α → β} (hf : Function.Injective f) (label : α) (changes : List (α × Int)) :
    sumOf (f label) (changes.map fun change => (f change.1, change.2)) = sumOf label changes := by
  simp [sumOf, Function.comp_def, hf.eq_iff]

/-- Where each label occurs once, a part of the changes has all of a label or
nothing of it. -/
theorem sumOf_of_isPrefix {part changes : List (α × Int)} (h : part <+: changes)
    (hnodup : (changes.map Prod.fst).Nodup) (label : α) :
    sumOf label part = 0 ∨ sumOf label part = sumOf label changes := by
  obtain ⟨rest, rfl⟩ := h
  by_cases hpart : label ∈ part.map Prod.fst
  · right
    rw [List.map_append] at hnodup
    rw [sumOf_append, sumOf_eq_zero fun hrest => hnodup.disjoint hpart hrest, add_zero]
  · exact .inl (sumOf_eq_zero hpart)

end Sums

/-! ## What a mutation records -/

section Recording

variable {deltas : List (Nat × Int)}

theorem sumOf_filter_ne_zero (label : Nat) (deltas : List (Nat × Int)) :
    sumOf label (deltas.filter (·.2 ≠ 0)) = sumOf label deltas := by
  induction deltas with
  | nil => rfl
  | cons entry deltas ih =>
    by_cases hzero : entry.2 = 0 <;> simp [hzero, sumOf_cons, ← ih]

theorem sumOf_bump (label changed : Nat) (delta : Int) (h : (deltas.map Prod.fst).Nodup) :
    sumOf label (deltas.map fun entry =>
      if entry.1 = changed then (entry.1, entry.2 + delta) else entry) =
    sumOf label deltas + if changed = label ∧ changed ∈ deltas.map Prod.fst then delta else 0 := by
  induction deltas with
  | nil => simp [sumOf]
  | cons entry deltas ih =>
    rw [List.map_cons, List.nodup_cons] at h
    rw [List.map_cons, sumOf_cons, sumOf_cons, ih h.2]
    by_cases hentry : entry.1 = changed
    · have hrest : changed ∉ deltas.map Prod.fst := hentry ▸ h.1
      by_cases hlabel : changed = label <;> simp [hentry, hlabel]
      grind
    · simp only [hentry, if_false, add_assoc, List.map_cons, List.mem_cons, Ne.symm hentry,
        false_or]

theorem map_fst_bump (changed : Nat) (delta : Int) (deltas : List (Nat × Int)) :
    (deltas.map fun entry => if entry.1 = changed then (entry.1, entry.2 + delta) else entry).map
      Prod.fst = deltas.map Prod.fst := by
  rw [List.map_map]
  refine List.map_congr_left fun entry _ => ?_
  simp only [Function.comp_apply]
  split_ifs <;> rfl

/-- Labels still occur once, and the sum of the label has changed by the delta. -/
theorem addLabelDelta_spec (h : (deltas.map Prod.fst).Nodup) (changed : Nat) (delta : Int) :
    ((addLabelDelta deltas changed delta).map Prod.fst).Nodup ∧
      ∀ label, sumOf label (addLabelDelta deltas changed delta) =
        sumOf label deltas + if changed = label then delta else 0 := by
  unfold addLabelDelta
  dsimp only
  have hkeys : changed ∈ deltas.map Prod.fst ↔ deltas.any (·.1 = changed) = true := by simp
  have hbumped := map_fst_bump changed delta deltas
  have hsum label := sumOf_bump label changed delta h
  generalize deltas.map (fun entry => if entry.1 = changed then (entry.1, entry.2 + delta) else entry)
    = bumped at hbumped hsum
  split_ifs with hzero hmem hdrop
  · simp [h, hzero]
  · refine ⟨(hbumped ▸ h).sublist (List.filter_sublist.map _), fun label => ?_⟩
    rw [sumOf_filter_ne_zero, hsum]
    simp [hkeys.mpr hmem]
  · refine ⟨hbumped ▸ h, fun label => ?_⟩
    rw [hsum]
    simp [hkeys.mpr hmem]
  · rw [List.map_append, List.map_singleton]
    refine ⟨List.nodup_append.mpr ⟨h, by simp, ?_⟩, fun label => ?_⟩
    · rintro label hlabel _ hchanged rfl
      obtain rfl := List.mem_singleton.mp hchanged
      exact hmem (hkeys.mp hlabel)
    · rw [sumOf_append, sumOf_singleton]

namespace LabelStatsDelta

/-- Labels occur once. -/
def Merged (deltas : LabelStatsDelta) : Prop :=
  (deltas.vertex.map Prod.fst).Nodup ∧ (deltas.edge.map Prod.fst).Nodup

theorem Merged.changes {deltas : LabelStatsDelta} (h : deltas.Merged) :
    (deltas.changes.map Prod.fst).Nodup := by
  rw [LabelStatsDelta.changes, List.map_append, List.map_map, List.map_map]
  refine List.nodup_append.mpr ⟨?_, ?_, ?_⟩
  · exact (List.map_map ▸ h.1.map fun _ _ => Label.vertex.inj :
      (deltas.vertex.map (Label.vertex ∘ Prod.fst)).Nodup)
  · exact (List.map_map ▸ h.2.map fun _ _ => Label.edge.inj :
      (deltas.edge.map (Label.edge ∘ Prod.fst)).Nodup)
  · simp only [List.mem_map, Function.comp_apply]
    rintro _ ⟨_, _, rfl⟩ _ ⟨_, _, rfl⟩ ⟨⟩

theorem sumOf_changes_vertex (deltas : LabelStatsDelta) (id : Nat) :
    sumOf (.vertex id) deltas.changes = sumOf id deltas.vertex := by
  have hedge : sumOf (.vertex id)
      (deltas.edge.map fun change => (Label.edge change.1, change.2)) = 0 :=
    sumOf_eq_zero (by simp)
  rw [changes, sumOf_append, sumOf_map fun _ _ => Label.vertex.inj, hedge, add_zero]

theorem sumOf_changes_edge (deltas : LabelStatsDelta) (id : Nat) :
    sumOf (.edge id) deltas.changes = sumOf id deltas.edge := by
  have hvertex : sumOf (.edge id)
      (deltas.vertex.map fun change => (Label.vertex change.1, change.2)) = 0 :=
    sumOf_eq_zero (by simp)
  rw [changes, sumOf_append, sumOf_map fun _ _ => Label.edge.inj, hvertex, zero_add]

theorem Merged.add {deltas : LabelStatsDelta} (h : deltas.Merged) (delta : Int) (changed : Label) :
    (deltas.add delta changed).Merged ∧ ∀ label, sumOf label (deltas.add delta changed).changes =
      sumOf label deltas.changes + if changed = label then delta else 0 := by
  cases changed with
  | vertex id =>
    obtain ⟨hmerged, hsum⟩ := addLabelDelta_spec h.1 id delta
    refine ⟨⟨hmerged, h.2⟩, fun label => ?_⟩
    cases label <;> simp [sumOf_changes_vertex, sumOf_changes_edge, LabelStatsDelta.add, hsum]
  | edge id =>
    obtain ⟨hmerged, hsum⟩ := addLabelDelta_spec h.2 id delta
    refine ⟨⟨h.1, hmerged⟩, fun label => ?_⟩
    cases label <;> simp [sumOf_changes_vertex, sumOf_changes_edge, LabelStatsDelta.add, hsum]

end LabelStatsDelta

namespace ElementChange

variable {E : Type}

/-- The elements that have a label. -/
def count (alive : Finset (Label × E)) (label : Label) : Nat :=
  {entry ∈ alive | entry.1 = label}.card

/-- No more than there is room for. -/
theorem count_le [Fintype E] (alive : Finset (Label × E)) (label : Label) :
    count alive label ≤ Fintype.card E := by
  refine Finset.card_le_card_of_injOn Prod.snd (fun _ _ => Finset.mem_univ _) ?_
  rintro x hx y hy hxy
  exact Prod.ext ((Finset.mem_filter.mp hx).2.trans (Finset.mem_filter.mp hy).2.symm) hxy

variable [DecidableEq E]

theorem count_apply {change : ElementChange E} (h : change.apply alive = some alive')
    (label : Label) : (count alive' label : Int) =
      count alive label + if change.label = label then change.amount else 0 := by
  cases change with
  | inserted changed element =>
    rw [ElementChange.apply] at h
    split_ifs at h with hmem
    cases h
    by_cases hlabel : changed = label
    · simp [count, Finset.filter_insert, hlabel, ElementChange.label, amount, hlabel ▸ hmem]
    · simp [count, Finset.filter_insert, hlabel, ElementChange.label]
  | removed changed element =>
    rw [ElementChange.apply] at h
    split_ifs at h with hmem
    cases h
    by_cases hlabel : changed = label
    · have herase := Finset.card_erase_add_one
        (Finset.mem_filter.mpr ⟨hmem, hlabel⟩ : _ ∈ Finset.filter (fun entry => entry.1 = label) alive)
      rw [← Finset.filter_erase] at herase
      simp only [count, ElementChange.label, amount, hlabel, if_true]
      rw [hlabel] at herase
      omega
    · simp [count, Finset.filter_erase, hlabel, ElementChange.label]

/-- What is recorded is the difference that the changes make to the number of
elements. -/
theorem record_spec {changes : List (ElementChange E)} {deltas : LabelStatsDelta}
    (h : deltas.Merged) (happly : changes.foldlM ElementChange.apply alive = some alive') :
    (changes.foldl record deltas).Merged ∧ ∀ label,
      sumOf label (changes.foldl record deltas).changes - sumOf label deltas.changes =
        (count alive' label : Int) - count alive label := by
  induction changes generalizing alive deltas with
  | nil =>
    cases happly
    simpa using h
  | cons change changes ih =>
    rw [List.foldlM_cons] at happly
    obtain ⟨next, hnext, happly⟩ := Option.bind_eq_some_iff.mp happly
    obtain ⟨hmerged, hsum⟩ := h.add change.amount change.label
    obtain ⟨hall, hdiff⟩ := ih hmerged happly
    refine ⟨hall, fun label => ?_⟩
    have := hdiff label
    have := hsum label
    have := count_apply hnext label
    rw [List.foldl_cons, record]
    omega

end ElementChange

end Recording

/-! ## Exact counts -/

variable {G S : Type} [Fintype S]

/-- The sums of a label stay between zero and the room. -/
def Within (room : Nat) (changes : List (Label × Int)) : Prop :=
  ∀ label part, part <+: changes → 0 ≤ sumOf label part ∧ sumOf label part ≤ room

/-- The router's counts are the sums of the changes done. -/
structure Counts (router : Router G S) (done : G × S → List (Label × Int)) : Prop where
  live : ∀ graphId shardId label,
    (router.live (graphId, shardId, label) : Int) = sumOf label (done (graphId, shardId))
  graph : ∀ graphId label,
    (router.stats (graphId, label)).liveCount = ∑ shardId, router.live (graphId, shardId, label)

theorem Within.of_isPrefix (h : Within room ys) (hbefore : xs <+: ys) : Within room xs :=
  fun label part hpart => h label part (hpart.trans hbefore)

/-- The shards of a graph together have less than 64 bits of elements. -/
theorem Within.sum_lt {done : G × S → List (Label × Int)} (h : ∀ key, Within room (done key))
    (hroom : Fintype.card S * room < 2 ^ 64) (graphId : G) (label : Label) :
    ∑ shardId, sumOf label (done (graphId, shardId)) < 2 ^ 64 := by
  have hle : ∑ shardId : S, sumOf label (done (graphId, shardId)) ≤ Fintype.card S * (room : Int) := by
    rw [← nsmul_eq_mul, ← Finset.card_univ]
    exact Finset.sum_le_card_nsmul _ _ _ fun shardId _ => (h _ label _ List.prefix_rfl).2
  exact hle.trans_lt (by exact_mod_cast hroom)

variable [DecidableEq G] [DecidableEq S]

omit [Fintype S] in
/-- One more change at one place. -/
theorem sumOf_update (done : G × S → List (Label × Int)) (graphId : G) (shardId : S)
    (change : Label × Int) (key : G × S) (label : Label) :
    sumOf label (update done (graphId, shardId) (done (graphId, shardId) ++ [change]) key) =
      sumOf label (done key) +
        if key = (graphId, shardId) ∧ change.1 = label then change.2 else 0 := by
  by_cases hkey : key = (graphId, shardId)
  · subst hkey
    simp [sumOf_append, sumOf_singleton]
  · simp [hkey]

/-- Saturating arithmetic is exact within the range. -/
theorem saturating_exact {count : Nat} {delta : Int} (hnonneg : 0 ≤ count + delta)
    (hlt : count + delta < 2 ^ 64) :
    ((if 0 < delta then saturatingAdd count delta.natAbs else count - delta.natAbs : Nat) : Int) =
      count + delta := by
  split_ifs with hpos
  · rw [saturatingAdd]
    omega
  · omega

section Commit

variable {router : Router G S} {graphId : G} {shardId : S} {label : Label} {delta : Int}

omit [Fintype S]

/-- A change in range is added to the count of its shard and label. -/
theorem live_commitApplyLabelDelta
    (hnonneg : 0 ≤ (router.live (graphId, shardId, label) : Int) + delta)
    (hlt : (router.live (graphId, shardId, label) : Int) + delta < 2 ^ 64) (g : G) (s : S)
    (l : Label) :
    ((router.commitApplyLabelDelta graphId shardId label delta).live (g, s, l) : Int) =
      router.live (g, s, l) + if (g, s) = (graphId, shardId) ∧ label = l then delta else 0 := by
  by_cases hzero : delta = 0
  · rw [Router.commitApplyLabelDelta, if_pos hzero]
    simp [hzero]
  rw [Router.commitApplyLabelDelta, if_neg hzero]
  by_cases hkey : (g, s, l) = (graphId, shardId, label)
  · cases hkey
    simpa using saturating_exact hnonneg hlt
  have hcond : ¬ ((g, s) = (graphId, shardId) ∧ label = l) := by
    rintro ⟨heq, rfl⟩
    cases heq
    exact hkey rfl
  rw [if_neg hcond, add_zero]
  simp only [update_of_ne hkey]

/-- And to the count of its graph and label. -/
theorem liveCount_commitApplyLabelDelta (shardId : S)
    (hnonneg : 0 ≤ ((router.stats (graphId, label)).liveCount : Int) + delta)
    (hlt : ((router.stats (graphId, label)).liveCount : Int) + delta < 2 ^ 64) (g : G) (l : Label) :
    (((router.commitApplyLabelDelta graphId shardId label delta).stats (g, l)).liveCount : Int) =
      (router.stats (g, l)).liveCount + if g = graphId ∧ label = l then delta else 0 := by
  by_cases hzero : delta = 0
  · rw [Router.commitApplyLabelDelta, if_pos hzero]
    simp [hzero]
  rw [Router.commitApplyLabelDelta, if_neg hzero]
  by_cases hkey : (g, l) = (graphId, label)
  · cases hkey
    have hexact := saturating_exact hnonneg hlt
    rw [if_pos ⟨rfl, rfl⟩, ← hexact]
    simp only [update_self]
    split_ifs <;> rfl
  have hcond : ¬ (g = graphId ∧ label = l) := by
    rintro ⟨rfl, rfl⟩
    exact hkey rfl
  rw [if_neg hcond, add_zero]
  simp only [update_of_ne hkey]

end Commit

/-- One more change is counted, if the sum stays in range. -/
theorem Counts.change {done : G × S → List (Label × Int)} {graphId : G} {shardId : S}
    {change : Label × Int} (h : Counts router done)
    (hnonneg : 0 ≤ sumOf change.1 (done (graphId, shardId) ++ [change]))
    (hlt : ∑ s, sumOf change.1
      (update done (graphId, shardId) (done (graphId, shardId) ++ [change]) (graphId, s)) < 2 ^ 64) :
    Counts (router.commitApplyLabelDelta graphId shardId change.1 change.2)
      (update done (graphId, shardId) (done (graphId, shardId) ++ [change])) := by
  obtain ⟨label, delta⟩ := change
  dsimp only at hnonneg hlt ⊢
  have htotal : ((router.stats (graphId, label)).liveCount : Int) =
      ∑ s, (router.live (graphId, s, label) : Int) := by
    rw [h.graph]
    push_cast
    rfl
  -- The shard's count is part of the graph's, which fits.
  have hpart : (router.live (graphId, shardId, label) : Int) ≤
      (router.stats (graphId, label)).liveCount :=
    htotal ▸ Finset.single_le_sum (fun s _ => Int.natCast_nonneg (router.live (graphId, s, label)))
      (Finset.mem_univ shardId)
  simp only [sumOf_update, ← h.live, Finset.sum_add_distrib, ← htotal] at hlt
  simp only [true_and, and_true, Prod.mk.injEq, Finset.sum_ite_eq', Finset.mem_univ, if_true] at hlt
  rw [sumOf_append, sumOf_singleton, if_pos rfl, ← h.live] at hnonneg
  have hlive := live_commitApplyLabelDelta hnonneg (by omega)
  refine ⟨fun g s l => ?_, fun g l => ?_⟩
  · rw [hlive, sumOf_update, h.live]
  have hcount := liveCount_commitApplyLabelDelta shardId (hnonneg.trans (by omega)) hlt g l
  have hsums : ∑ s, (if (g, s) = (graphId, shardId) ∧ label = l then delta else 0) =
      if g = graphId ∧ label = l then delta else 0 := by
    by_cases hkey : g = graphId ∧ label = l
    · simp [hkey]
    rw [if_neg hkey]
    refine Finset.sum_eq_zero fun s _ => if_neg ?_
    rintro ⟨heq, hl⟩
    exact hkey ⟨congrArg Prod.fst heq, hl⟩
  have hcast : ((∑ s, (router.commitApplyLabelDelta graphId shardId label delta).live (g, s, l) :
      Nat) : Int) = ((router.stats (g, l)).liveCount : Int) +
        if g = graphId ∧ label = l then delta else 0 := by
    push_cast
    simp only [hlive, Finset.sum_add_distrib, hsums, h.graph]
    push_cast
    rfl
  exact_mod_cast hcount.trans hcast.symm

/-- A payload is counted exactly if the sums stay within the room. -/
theorem Counts.payload {done : G × S → List (Label × Int)} {graphId : G} {shardId : S}
    {delta : LabelStatsDelta} (h : Counts router done)
    (hroom : Fintype.card S * room < 2 ^ 64)
    (hwithin : ∀ key, Within room (update done (graphId, shardId)
      (done (graphId, shardId) ++ delta.changes) key)) :
    Counts (router.applyLabelStatsDeltaPayload graphId shardId delta)
      (update done (graphId, shardId) (done (graphId, shardId) ++ delta.changes)) := by
  unfold Router.applyLabelStatsDeltaPayload
  generalize delta.changes = changes at hwithin ⊢
  induction changes generalizing router done with
  | nil => simpa using h
  | cons change changes ih =>
    have hsplit : done (graphId, shardId) ++ change :: changes =
        done (graphId, shardId) ++ [change] ++ changes := by simp
    rw [hsplit] at hwithin ⊢
    have hnext : ∀ key, Within room (update done (graphId, shardId)
        (done (graphId, shardId) ++ [change]) key) := by
      refine fun key => (hwithin key).of_isPrefix ?_
      by_cases hkey : key = (graphId, shardId)
      · rw [hkey, update_self, update_self]
        exact List.prefix_append _ _
      · rw [update_of_ne hkey, update_of_ne hkey]
    have hnonneg := (hnext (graphId, shardId) change.1 _ List.prefix_rfl).1
    rw [update_self] at hnonneg
    have hchange := h.change hnonneg (Within.sum_lt hnext hroom graphId change.1)
    have hrest := ih hchange (by simpa using hwithin)
    simpa using hrest

end Gleaph.LabelProjection
